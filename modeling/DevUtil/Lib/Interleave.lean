import Mathlib.Data.List.Basic

/-!
# Interleavings of processes over a shared state

Processes with local states `P` share a state `S`; one atomic step of one
process at a time, in any order.  What a process may do is `step p s l p' s'`:
from local state `p` and shared state `s`, with label `l`, to `p'` and `s'`.

`Run step ok c c'` is a run whose steps all meet the condition `ok`, which sees
the configuration before the step, the process and the label.
-/

namespace Lib.Interleave

universe u v

variable {S : Type} {P : Type u} {L : Type v}

/-- The shared state and the local state of every process. -/
structure Config (S : Type) (P : Type u) where
  shared : S
  procs : List P

/-- Process `i` does one step. -/
inductive Step (step : P → S → L → P → S → Prop) : Config S P → Nat → L → Config S P → Prop
  | mk {c : Config S P} {i : Nat} {p p' : P} {l : L} {s' : S} :
      c.procs[i]? = some p → step p c.shared l p' s' →
      Step step c i l ⟨s', c.procs.set i p'⟩

/-- Runs whose steps all meet `ok`. -/
inductive Run (step : P → S → L → P → S → Prop) (ok : Config S P → Nat → L → Prop)
    (c₀ : Config S P) : Config S P → Prop
  | refl : Run step ok c₀ c₀
  | tail {c c' : Config S P} {i : Nat} {l : L} :
      Run step ok c₀ c → ok c i l → Step step c i l c' → Run step ok c₀ c'

variable {step : P → S → L → P → S → Prop} {ok : Config S P → Nat → L → Prop}

/-- The induction over a run, done once. -/
theorem Run.invariant {I : Config S P → Prop}
    (hstep : ∀ c i l c', I c → ok c i l → Step step c i l c' → I c') {c₀ c : Config S P}
    (h₀ : I c₀) (hr : Run step ok c₀ c) : I c := by
  induction hr with
  | refl => exact h₀
  | tail _ ho hs ih => exact hstep _ _ _ _ ih ho hs

/-- After a step a process is the one that moved, or it is as before. -/
theorem procs_set_cases {procs : List P} {i j : Nat} {p p' q : P} (hp : procs[i]? = some p)
    (h : (procs.set i p')[j]? = some q) : (i = j ∧ q = p') ∨ (i ≠ j ∧ procs[j]? = some q) := by
  by_cases hij : i = j
  · subst hij
    rw [List.getElem?_set_self (List.getElem?_eq_some_iff.mp hp).1] at h
    exact .inl ⟨rfl, (Option.some.inj h).symm⟩
  · rw [List.getElem?_set_ne hij] at h
    exact .inr ⟨hij, h⟩

/-- What every process keeps to itself, whatever the others do. -/
theorem Step.locals {Q : Nat → P → Prop}
    (hstep : ∀ i p s l p' s', Q i p → step p s l p' s' → Q i p') {c c' : Config S P} {i : Nat}
    {l : L} (hc : ∀ j p, c.procs[j]? = some p → Q j p) (hs : Step step c i l c') :
    ∀ j p, c'.procs[j]? = some p → Q j p := by
  cases hs with
  | mk hp hst =>
    intro j q hq
    obtain ⟨rfl, rfl⟩ | ⟨-, hq⟩ := procs_set_cases hp hq
    · exact hstep i _ _ _ _ _ (hc i _ hp) hst
    · exact hc j q hq

/-! ## Schedules -/

/-- A schedule names the process that moves next; `next` carries its move out. A process
that cannot move is passed over. -/
def play (next : P → S → Option (L × P × S)) : List Nat → Config S P → Config S P
  | [], c => c
  | i :: is, c =>
    match c.procs[i]? with
    | none => play next is c
    | some p =>
      match next p c.shared with
      | none => play next is c
      | some (_, p', s') => play next is ⟨s', c.procs.set i p'⟩

theorem Run.play {next : P → S → Option (L × P × S)}
    (hnext : ∀ p s l p' s', next p s = some (l, p', s') → step p s l p' s')
    (hok : ∀ c (i : Nat) p l p' s', c.procs[i]? = some p →
      next p c.shared = some (l, p', s') → ok c i l)
    {c₀ : Config S P} : ∀ {is : List Nat} {c : Config S P}, Run step ok c₀ c →
      Run step ok c₀ (play next is c) := by
  intro is
  induction is with
  | nil => intro c h; exact h
  | cons i is ih =>
    intro c h
    rw [Interleave.play]
    split
    · exact ih h
    · next p hp =>
      split
      · exact ih h
      · next l p' s' hn =>
        exact ih (.tail h (hok c i p l p' s' hp hn) (.mk hp (hnext p c.shared l p' s' hn)))

/-- Whether the moves of a schedule meet a condition. -/
def meets (next : P → S → Option (L × P × S)) (ok : Config S P → Nat → L → Bool) :
    List Nat → Config S P → Bool
  | [], _ => true
  | i :: is, c =>
    match c.procs[i]? with
    | none => meets next ok is c
    | some p =>
      match next p c.shared with
      | none => meets next ok is c
      | some (l, p', s') => ok c i l && meets next ok is ⟨s', c.procs.set i p'⟩

theorem Run.play_of_meets {next : P → S → Option (L × P × S)}
    (hnext : ∀ p s l p' s', next p s = some (l, p', s') → step p s l p' s')
    (okb : Config S P → Nat → L → Bool) (hok : ∀ c i l, okb c i l = true → ok c i l)
    {c₀ : Config S P} :
    ∀ {is : List Nat} {c : Config S P}, Run step ok c₀ c → meets next okb is c = true →
      Run step ok c₀ (Interleave.play next is c) := by
  intro is
  induction is with
  | nil => intro c h _; exact h
  | cons i is ih =>
    intro c h hmeets
    rw [meets] at hmeets
    rw [Interleave.play]
    split
    · next hp =>
      rw [hp] at hmeets
      exact ih h hmeets
    · next p hp =>
      rw [hp] at hmeets
      dsimp only at hmeets
      split
      · next hn =>
        rw [hn] at hmeets
        exact ih h hmeets
      · next l p' s' hn =>
        rw [hn] at hmeets
        obtain ⟨hl, hmeets⟩ := Bool.and_eq_true_iff.mp hmeets
        exact ih (.tail h (hok c i l hl) (.mk hp (hnext p c.shared l p' s' hn))) hmeets

theorem step_of_play {next : P → S → Option (L × P × S)}
    (hnext : ∀ p s l p' s', next p s = some (l, p', s') → step p s l p' s') (c : Config S P)
    (i : Nat) :
    play next [i] c = c ∨ ∃ l, Step step c i l (play next [i] c) := by
  rw [play]
  split
  · exact .inl rfl
  · next p hp =>
    split
    · exact .inl rfl
    · next l p' s' hn => exact .inr ⟨l, .mk hp (hnext p c.shared l p' s' hn)⟩

/-- One process moves alone, as `next` says. -/
inductive Solo (next : P → S → Option (L × P × S)) : P → S → P → S → Prop
  | refl {p : P} {s : S} : Solo next p s p s
  | head {p p' p'' : P} {s s' s'' : S} {l : L} :
      next p s = some (l, p', s') → Solo next p' s' p'' s'' → Solo next p s p'' s''

theorem Solo.trans {next : P → S → Option (L × P × S)} {p p' p'' : P} {s s' s'' : S}
    (h : Solo next p s p' s') (h' : Solo next p' s' p'' s'') : Solo next p s p'' s'' := by
  induction h with
  | refl => exact h'
  | head hn _ ih => exact .head hn (ih h')

/-- It is a schedule of this process only. -/
theorem Solo.play {next : P → S → Option (L × P × S)} {p p' : P} {s s' : S}
    (h : Solo next p s p' s') {c : Config S P} {i : Nat} (hp : c.procs[i]? = some p)
    (hs : c.shared = s) :
    ∃ n, play next (List.replicate n i) c = ⟨s', c.procs.set i p'⟩ := by
  induction h generalizing c with
  | refl =>
    refine ⟨0, ?_⟩
    obtain ⟨hi, rfl⟩ := List.getElem?_eq_some_iff.mp hp
    rw [List.set_getElem_self, ← hs]
    rfl
  | @head p p₁ p' s s₁ s' l hn _ ih =>
    obtain ⟨n, hn'⟩ :=
      @ih ⟨s₁, c.procs.set i p₁⟩ (List.getElem?_set_self (List.getElem?_eq_some_iff.mp hp).1) rfl
    refine ⟨n + 1, ?_⟩
    rw [List.replicate_succ, Interleave.play, hp]
    dsimp only
    rw [hs, hn]
    dsimp only
    rw [hn', List.set_set]

/-- What it does alone is a run, if the others let each of its moves meet the condition. -/
theorem Run.solo {next : P → S → Option (L × P × S)}
    (hnext : ∀ p s l p' s', next p s = some (l, p', s') → step p s l p' s') {p p' : P} {s s' : S}
    (h : Solo next p s p' s') {c₀ : Config S P} {procs : List P} {i : Nat} (hi : i < procs.length)
    (hok : ∀ q t l q' t', next q t = some (l, q', t') → ok ⟨t, procs.set i q⟩ i l)
    (hrun : Run step ok c₀ ⟨s, procs.set i p⟩) : Run step ok c₀ ⟨s', procs.set i p'⟩ := by
  induction h with
  | refl => exact hrun
  | @head p p₁ p' s s₁ s' l hn _ ih =>
    refine ih ?_
    have hstep : Interleave.Step step ⟨s, procs.set i p⟩ i l ⟨s₁, (procs.set i p).set i p₁⟩ :=
      .mk (List.getElem?_set_self hi) (hnext p s l p₁ s₁ hn)
    rw [List.set_set] at hstep
    exact hrun.tail (hok p s l p₁ s₁ hn) hstep

/-- A schedule with the labels of the moves; none where one of them cannot be made, or does not meet
the condition. -/
def follow (next : P → S → L → Option (P × S)) (okb : Config S P → Nat → L → Bool) :
    List (Nat × L) → Config S P → Option (Config S P)
  | [], c => some c
  | (i, l) :: moves, c =>
    match c.procs[i]? with
    | none => none
    | some p =>
      match next p c.shared l with
      | none => none
      | some (p', s') => if okb c i l then follow next okb moves ⟨s', c.procs.set i p'⟩ else none

theorem Run.follow {next : P → S → L → Option (P × S)} {okb : Config S P → Nat → L → Bool}
    (hnext : ∀ p s l p' s', next p s l = some (p', s') → step p s l p' s')
    (hok : ∀ c i l, okb c i l = true → ok c i l) {c₀ c' : Config S P} {moves : List (Nat × L)}
    {c : Config S P} (h : Run step ok c₀ c)
    (hfollow : Interleave.follow next okb moves c = some c') : Run step ok c₀ c' := by
  induction moves generalizing c with
  | nil =>
    cases hfollow
    exact h
  | cons move moves ih =>
    obtain ⟨i, l⟩ := move
    rw [Interleave.follow] at hfollow
    split at hfollow
    · cases hfollow
    · next p hp =>
      split at hfollow
      · cases hfollow
      · next p' s' hn =>
        split at hfollow
        · next hl =>
            exact ih (.tail h (hok c i l hl) (.mk hp (hnext p c.shared l p' s' hn))) hfollow
        · cases hfollow

end Lib.Interleave
