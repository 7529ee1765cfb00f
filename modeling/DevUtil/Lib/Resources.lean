import DevUtil.Lib.Interleave
import Mathlib.Algebra.BigOperators.Group.List.Basic
import Mathlib.Algebra.GroupWithZero.Nat

/-!
# What interleaved processes hold of a shared resource

A lock, a semaphore, a counter: the shared state has its level, and every process holds its share of
it.

    each process pays for what it takes → the level is what
      all of them hold together                                (conserved_set)
    of a resource that is there once, one process holds it     (holder_unique)
    what only a holder writes, the other holders read on       (locals_set)
-/

namespace Lib.Interleave

universe u

variable {S : Type} {P : Type u}

/-- What all processes hold together. -/
def total (held : P → Nat) (procs : List P) : Nat := (procs.map held).sum

@[simp] theorem total_nil (held : P → Nat) : total held [] = 0 := rfl

@[simp] theorem total_cons (held : P → Nat) (p : P) (procs : List P) :
    total held (p :: procs) = held p + total held procs := by
  simp [total]

theorem total_eq_zero {held : P → Nat} {procs : List P} (h : ∀ p ∈ procs, held p = 0) :
    total held procs = 0 := by
  apply List.sum_eq_zero
  intro m hm
  obtain ⟨p, hp, rfl⟩ := List.mem_map.mp hm
  exact h p hp

/-- One process moves from `p` to `p'`. -/
theorem total_set (held : P → Nat) {procs : List P} {i : Nat} {p : P} (hp : procs[i]? = some p)
    (p' : P) :
    total held (procs.set i p') + held p = total held procs + held p' := by
  induction procs generalizing i with
  | nil => simp at hp
  | cons q procs ih =>
    cases i with
    | zero =>
      rw [List.getElem?_cons_zero] at hp
      cases hp
      simp only [List.set_cons_zero, total_cons]
      omega
    | succ i =>
      rw [List.getElem?_cons_succ] at hp
      have hrest := ih hp
      simp only [List.set_cons_succ, total_cons]
      omega

/-- What a process takes more than it gives back is missing from the level, or the other way
round. -/
theorem conserved_set {held : P → Nat} {level level' : Int} {procs : List P} {i : Nat} {p p' : P}
    (h : level = total held procs) (hp : procs[i]? = some p)
    (hpays : level' + held p = level + held p') :
    level' = total held (procs.set i p') := by
  have hset := total_set held hp p'
  omega

/-! ## Holders -/

variable {held held' : P → Nat} {procs : List P}

theorem le_total {i : Nat} {p : P} (hp : procs[i]? = some p) : held p ≤ total held procs := by
  have hset := total_set held hp p
  induction procs generalizing i with
  | nil => simp at hp
  | cons q procs ih =>
    rw [total_cons]
    cases i with
    | zero =>
      rw [List.getElem?_cons_zero] at hp
      cases hp
      omega
    | succ i =>
      rw [List.getElem?_cons_succ] at hp
      have hle := ih hp (total_set held hp p)
      omega

theorem total_mono (h : ∀ p ∈ procs, held p ≤ held' p) : total held procs ≤ total held' procs := by
  induction procs with
  | nil => simp
  | cons p procs ih =>
    rw [total_cons, total_cons]
    have hp := h p List.mem_cons_self
    have hrest := ih fun q hq => h q (List.mem_cons_of_mem p hq)
    omega

theorem total_le_length (h : ∀ p ∈ procs, held p ≤ 1) : total held procs ≤ procs.length := by
  induction procs with
  | nil => simp
  | cons p procs ih =>
    rw [total_cons, List.length_cons]
    have hp := h p List.mem_cons_self
    have hrest := ih fun q hq => h q (List.mem_cons_of_mem p hq)
    omega

theorem exists_holder (h : total held procs ≠ 0) :
    ∃ (i : Nat) (p : P), procs[i]? = some p ∧ held p ≠ 0 := by
  by_contra hnone
  apply h
  apply total_eq_zero
  intro p hp
  obtain ⟨i, hi⟩ := List.mem_iff_getElem?.mp hp
  by_contra hheld
  exact hnone ⟨i, p, hi, hheld⟩

/-- Two processes have together at most what all of them have. -/
theorem add_le_total {i j : Nat} {p q : P} (hij : i ≠ j) (hp : procs[i]? = some p)
    (hq : procs[j]? = some q) :
    held p + held q ≤ total held procs := by
  induction procs generalizing i j with
  | nil => simp at hp
  | cons r procs ih =>
    rw [total_cons]
    cases i with
    | zero =>
      cases j with
      | zero => exact absurd rfl hij
      | succ j =>
        rw [List.getElem?_cons_zero] at hp
        rw [List.getElem?_cons_succ] at hq
        cases hp
        have hle : held q ≤ total held procs := le_total hq
        omega
    | succ i =>
      rw [List.getElem?_cons_succ] at hp
      cases j with
      | zero =>
        rw [List.getElem?_cons_zero] at hq
        cases hq
        have hle : held p ≤ total held procs := le_total hp
        omega
      | succ j =>
        rw [List.getElem?_cons_succ] at hq
        have hle := ih (fun h => hij (congrArg (· + 1) h)) hp hq
        omega

theorem holder_unique (hone : total held procs ≤ 1) {i j : Nat} {p q : P} (hp : procs[i]? = some p)
    (hq : procs[j]? = some q) (hheld : 1 ≤ held p) (hheld' : 1 ≤ held q) : i = j := by
  by_contra hij
  have hle : held p + held q ≤ total held procs := add_le_total hij hp hq
  omega

/-- Nobody holds what one process has whole. -/
theorem held_eq_zero (hone : total held procs ≤ 1) {i j : Nat} {p q : P} (hij : i ≠ j)
    (hp : procs[i]? = some p) (hq : procs[j]? = some q) (hheld : 1 ≤ held p) : held q = 0 := by
  have hle : held p + held q ≤ total held procs := add_le_total hij hp hq
  omega

/-! ## What a process knows of the shared state -/

theorem Step.moved {L : Type} {step : P → S → L → P → S → Prop} {c c' : Config S P} {i : Nat}
    {l : L} (hs : Step step c i l c') :
    ∃ p p', c.procs[i]? = some p ∧ step p c.shared l p' c'.shared ∧
      c'.procs = c.procs.set i p' := by
  cases hs with
  | mk hp hst => exact ⟨_, _, hp, hst, rfl⟩

/-- A process moves, and the others know after it what they knew before. -/
theorem locals_set {Q : Nat → P → S → Prop} {s s' : S} {i : Nat} {p' : P}
    (h : ∀ (j : Nat) q, procs[j]? = some q → Q j q s) (hmoved : Q i p' s')
    (hothers : ∀ (j : Nat) q, j ≠ i → procs[j]? = some q → Q j q s → Q j q s') :
    ∀ (j : Nat) q, (procs.set i p')[j]? = some q → Q j q s' := by
  intro j q hq
  by_cases hij : i = j
  · subst hij
    obtain ⟨-, rfl⟩ : i < procs.length ∧ q = p' := by
      rw [List.getElem?_set] at hq
      by_cases hi : i < procs.length
      · rw [if_pos rfl, if_pos hi] at hq
        exact ⟨hi, (Option.some.inj hq).symm⟩
      · rw [if_pos rfl, if_neg hi] at hq
        cases hq
    exact hmoved
  · rw [List.getElem?_set_ne hij] at hq
    exact hothers j q (Ne.symm hij) hq (h j q hq)

end Lib.Interleave
