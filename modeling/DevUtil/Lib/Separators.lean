import Mathlib.Data.List.TakeDrop
import Mathlib.Data.List.TakeWhile
import Mathlib.Data.List.DropRight

/-!
# Splitting at runs of separators

`re.split('[…]+', s, maxsplit=n)` for a positive `n`.

    fields with runs of separators between them, one after another = the fields  (splitRuns_step)
    more fields than that in front: what remains is longer than the last one      (EndsIn.prepend)
-/

namespace Lib.Separators

variable {α : Type} {p : α → Bool}

/-- `re.split` at runs of what `p` accepts, at most `n` times. -/
def splitRuns (p : α → Bool) : Nat → List α → List (List α)
  | 0, s => [s]
  | n + 1, s =>
    match s.dropWhile (!p ·) with
    | [] => [s]
    | _ :: rest => s.takeWhile (!p ·) :: splitRuns p n (rest.dropWhile p)

/-- A field has no separators. -/
def NoSep (p : α → Bool) (s : List α) : Prop := ∀ c ∈ s, p c = false

/-- What does not begin with a separator. -/
def NoSepHead (p : α → Bool) (s : List α) : Prop := ∀ c ∈ s.head?, p c = false

theorem dropWhile_noSepHead {s : List α} (h : NoSepHead p s) : s.dropWhile p = s := by
  cases s with
  | nil => rfl
  | cons c s => exact List.dropWhile_cons_of_neg (by simp [h c rfl])

theorem NoSep.head {s : List α} (h : NoSep p s) : NoSepHead p s :=
  fun c hc => h c (List.mem_of_mem_head? hc)

theorem NoSepHead.append {s : List α} (h : NoSepHead p s) (hne : s ≠ []) (t : List α) :
    NoSepHead p (s ++ t) := by
  cases s with
  | nil => exact absurd rfl hne
  | cons c s => exact h

theorem noSepHead_iff {s : List α} : NoSepHead p s ↔ s.dropWhile p = s := by
  refine ⟨dropWhile_noSepHead, fun h c hc => ?_⟩
  cases s with
  | nil => cases hc
  | cons d s =>
    obtain rfl : d = c := Option.some.inj hc
    by_contra hd
    rw [List.dropWhile_cons_of_pos (by simpa using hd)] at h
    have hlen := congrArg List.length h
    have hle := (List.dropWhile_suffix p (l := s)).length_le
    simp only [List.length_cons] at hlen
    omega

theorem dropWhile_runs {r t : List α} (hr : ∀ c ∈ r, p c = true) :
    (r ++ t).dropWhile p = t.dropWhile p := by
  induction r with
  | nil => rfl
  | cons c r ih =>
    rw [List.cons_append, List.dropWhile_cons_of_pos (hr c List.mem_cons_self)]
    exact ih fun d hd => hr d (List.mem_cons_of_mem c hd)

/-- A field, the separators that follow it, and the rest. -/
theorem splitRuns_step {s f r t : List α} (hs : s = f ++ (r ++ t)) (hf : NoSep p f) (hne : r ≠ [])
    (hr : ∀ c ∈ r, p c = true) (ht : NoSepHead p t) (n : Nat) :
    splitRuns p (n + 1) s = f :: splitRuns p n t := by
  have hfield : ∀ c ∈ f, (!p c) = true := fun c hc => by simp [hf c hc]
  cases r with
  | nil => exact absurd rfl hne
  | cons c r =>
    have hc : p c = true := hr c List.mem_cons_self
    have hdrop : s.dropWhile (!p ·) = c :: (r ++ t) := by
      rw [hs, List.dropWhile_append_of_pos hfield, List.cons_append,
        List.dropWhile_cons_of_neg (by simp [hc])]
    have htake : s.takeWhile (!p ·) = f := by
      rw [hs, List.takeWhile_append_of_pos hfield, List.cons_append,
        List.takeWhile_cons_of_neg (by simp [hc]),
        List.append_nil]
    rw [splitRuns, hdrop]
    show s.takeWhile (!p ·) :: splitRuns p n ((r ++ t).dropWhile p) = f :: splitRuns p n t
    rw [htake, dropWhile_runs fun _ hd => hr _ (List.mem_cons_of_mem c hd), dropWhile_noSepHead ht]

/-! ## What is between the first and the last separators -/

/-- Without the separators at the ends. -/
def trim (p : α → Bool) (s : List α) : List α := (s.dropWhile p).rdropWhile p

theorem trim_last {s : List α} : ∀ c ∈ (trim p s).getLast?, p c = false := by
  intro c hc
  obtain ⟨hne, rfl⟩ := List.mem_getLast?_eq_getLast hc
  have hlast : ¬p ((trim p s).getLast hne) = true := List.rdropWhile_last_not p (s.dropWhile p) hne
  simpa using hlast

theorem exists_trim {s : List α} (h : ∃ c ∈ s, p c = false) :
    ∃ lead trail, s = lead ++ (trim p s ++ trail) ∧ (∀ c ∈ lead, p c = true) ∧
      (∀ c ∈ trail, p c = true) ∧
      trim p s ≠ [] ∧ NoSepHead p (trim p s) ∧ ∀ c ∈ (trim p s).getLast?, p c = false := by
  have hne : trim p s ≠ [] := by
    intro hnil
    obtain ⟨c, hc, hp⟩ := h
    have hall := List.rdropWhile_eq_nil_iff.mp hnil
    rw [← List.takeWhile_append_dropWhile (p := p) (l := s)] at hc
    rcases List.mem_append.mp hc with hc | hc
    · rw [List.mem_takeWhile_imp hc] at hp
      cases hp
    · rw [hall c hc] at hp
      cases hp
  refine ⟨s.takeWhile p, (s.dropWhile p).rtakeWhile p, ?_, ?_, ?_, hne, ?_, ?_⟩
  · rw [trim, List.rdropWhile_append_rtakeWhile, List.takeWhile_append_dropWhile]
  · exact fun c hc => List.mem_takeWhile_imp hc
  · exact fun c hc => List.mem_rtakeWhile_imp hc
  · intro c hc
    obtain ⟨t, ht⟩ := List.rdropWhile_prefix p (l := s.dropWhile p)
    have hhead : (s.dropWhile p).head? = some c := by
      rw [← ht, List.head?_append]
      show ((trim p s).head?).or _ = _
      rw [Option.mem_def.mp hc]
      rfl
    have hnot := List.head?_dropWhile_not p s
    rw [hhead] at hnot
    simpa using hnot
  · exact trim_last

theorem trim_head {s : List α} (hne : trim p s ≠ []) : ∀ c ∈ (trim p s).head?, p c = false := by
  have hex : ∃ c ∈ s, p c = false := by
    by_contra hall
    have hall : ∀ c ∈ s, p c = true := by simpa using hall
    exact hne (by rw [trim, List.dropWhile_eq_nil_iff.mpr hall]; rfl)
  obtain ⟨_, _, _, _, _, _, hhead, _⟩ := exists_trim hex
  exact hhead

/-- What is trimmed off at both ends. -/
theorem trim_eq {lead s trail : List α} (hlead : ∀ c ∈ lead, p c = true)
    (htrail : ∀ c ∈ trail, p c = true) (hne : s ≠ []) (hhead : NoSepHead p s)
    (hlast : ∀ c ∈ s.getLast?, p c = false) : trim p (lead ++ (s ++ trail)) = s := by
  have htrail' : ∀ c ∈ trail.reverse, p c = true := fun c hc => htrail c (List.mem_reverse.mp hc)
  rw [trim, dropWhile_runs hlead, dropWhile_noSepHead (hhead.append hne trail), List.rdropWhile,
    List.reverse_append,
    dropWhile_runs htrail']
  refine List.rdropWhile_eq_self_iff.mpr fun hl => ?_
  rw [hlast _ (List.getLast?_eq_some_getLast hl)]
  exact Bool.false_ne_true

/-! ## The last field -/

/-- All the splits are made, and what remains ends in `tail`. -/
def EndsIn (p : α → Bool) (tail : List α) (n : Nat) (s : List α) : Prop :=
  ∃ fields last, splitRuns p n s = fields ++ [last] ∧ fields.length = n ∧ tail <:+ last

variable {tail : List α}

theorem endsIn_zero {s : List α} (h : tail <:+ s) : EndsIn p tail 0 s := ⟨[], s, rfl, rfl, h⟩

theorem EndsIn.step {n : Nat} {s f r t : List α} (h : EndsIn p tail n t) (hs : s = f ++ (r ++ t))
    (hf : NoSep p f) (hne : r ≠ []) (hr : ∀ c ∈ r, p c = true) (ht : NoSepHead p t) :
    EndsIn p tail (n + 1) s := by
  obtain ⟨fields, last, hsplit, hlen, hlast⟩ := h
  refine ⟨f :: fields, last, ?_, by simp [hlen], hlast⟩
  rw [splitRuns_step hs hf hne hr ht, hsplit]
  rfl

/-- A text with a separator, cut at the first run of them. -/
theorem exists_first {s : List α} (h : ∃ c ∈ s, p c = true) :
    ∃ f r t, s = f ++ (r ++ t) ∧ NoSep p f ∧ r ≠ [] ∧ (∀ c ∈ r, p c = true) ∧ NoSepHead p t ∧
      t.length < s.length := by
  refine ⟨s.takeWhile (!p ·), (s.dropWhile (!p ·)).takeWhile p,
    (s.dropWhile (!p ·)).dropWhile p, ?_, ?_, ?_, ?_, ?_, ?_⟩
  · rw [List.takeWhile_append_dropWhile, List.takeWhile_append_dropWhile]
  · intro c hc
    simpa using List.mem_takeWhile_imp hc
  · obtain ⟨c, hc, hp⟩ := h
    cases hdrop : s.dropWhile (!p ·) with
    | nil =>
      have hall := List.dropWhile_eq_nil_iff.mp hdrop c hc
      simp [hp] at hall
    | cons d rest =>
      have hhead := List.head?_dropWhile_not (!p ·) s
      rw [hdrop] at hhead
      rw [List.takeWhile_cons_of_pos (by simpa using hhead)]
      exact List.cons_ne_nil _ _
  · exact fun c hc => List.mem_takeWhile_imp hc
  · exact noSepHead_iff.mpr (List.dropWhile_idempotent p _)
  · obtain ⟨c, hc, hp⟩ := h
    cases hdrop : s.dropWhile (!p ·) with
    | nil =>
      have hall := List.dropWhile_eq_nil_iff.mp hdrop c hc
      simp [hp] at hall
    | cons d rest =>
      have hhead := List.head?_dropWhile_not (!p ·) s
      rw [hdrop] at hhead
      rw [List.dropWhile_cons_of_pos (by simpa using hhead)]
      have hle := (List.dropWhile_suffix p (l := rest)).length_le
      have hle' := (List.dropWhile_suffix (!p ·) (l := s)).length_le
      rw [hdrop, List.length_cons] at hle'
      omega

/-- A text that ends in a separator, cut at the first run of them. -/
theorem exists_first_of_last {s : List α} (hne : s ≠ []) (hlast : ∀ c ∈ s.getLast?, p c = true) :
    ∃ f r t, s = f ++ (r ++ t) ∧ NoSep p f ∧ r ≠ [] ∧ (∀ c ∈ r, p c = true) ∧ NoSepHead p t ∧
      t.length < s.length ∧
      ∀ c ∈ t.getLast?, p c = true := by
  have hsep : ∃ c ∈ s, p c = true :=
    ⟨s.getLast hne, List.getLast_mem hne, hlast _ (List.getLast?_eq_some_getLast hne)⟩
  obtain ⟨f, r, t, rfl, hf, hr, hrs, ht, hlt⟩ := exists_first hsep
  refine ⟨f, r, t, rfl, hf, hr, hrs, ht, hlt, fun c hc => ?_⟩
  apply hlast
  rw [← List.append_assoc, List.getLast?_append, Option.mem_def.mp hc]
  rfl

/-- More fields in front do not bring the last one forward. -/
theorem EndsIn.prepend {n : Nat} {t : List α} (ht : NoSepHead p t) (htail : tail <:+ t)
    (h : ∀ j, j ≤ n → EndsIn p tail j t) {s : List α} (hs : NoSepHead p s)
    (hlast : ∀ c ∈ s.getLast?, p c = true) :
    ∀ j, j ≤ n → EndsIn p tail j (s ++ t) := by
  induction hlen : s.length using Nat.strongRecOn generalizing s with
  | ind k ih =>
    intro j hj
    cases j with
    | zero => exact endsIn_zero (htail.trans (List.suffix_append s t))
    | succ j =>
      by_cases hnil : s = []
      · rw [hnil]
        exact h _ hj
      · obtain ⟨f, r, u, rfl, hf, hne, hr, hu, hlt, hulast⟩ := exists_first_of_last hnil hlast
        have hrest := ih u.length (hlen ▸ hlt) hu hulast rfl j (by omega)
        refine hrest.step (by simp) hf hne hr ?_
        by_cases hu' : u = []
        · rw [hu']
          exact ht
        · exact hu.append hu' t

/-- One field at least in front, and one split more. -/
theorem EndsIn.prepend_field {n : Nat} {t : List α} (ht : NoSepHead p t) (htail : tail <:+ t)
    (h : ∀ j, j ≤ n → EndsIn p tail j t) {s : List α} (hnil : s ≠ [])
    (hlast : ∀ c ∈ s.getLast?, p c = true) :
    EndsIn p tail (n + 1) (s ++ t) := by
  obtain ⟨f, r, u, rfl, hf, hne, hr, hu, -, hulast⟩ := exists_first_of_last hnil hlast
  have hrest := EndsIn.prepend ht htail h hu hulast n (Nat.le_refl n)
  refine hrest.step (by simp) hf hne hr ?_
  by_cases hu' : u = []
  · rw [hu']
    exact ht
  · exact hu.append hu' t

end Lib.Separators
