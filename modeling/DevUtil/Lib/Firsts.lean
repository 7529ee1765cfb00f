import Mathlib.Data.List.Sort

/-!
# What comes first in a list

A loop that skips each key it has seen goes through the first one of each key.

    x is gone through ↔ its key is new and x is the first one with it       (mem_firsts)
    of two that are gone through, one stands before all with the other key  (firsts_before)
    sorting by a rank is stable                                             (precedes_insertionSort)
-/

namespace Lib

/-! ## The first of each key -/

section Firsts

variable {α κ : Type} [DecidableEq κ] {key : α → κ}

/-- What is left of a list if the keys in `seen`, and each key after its first time, are skipped. -/
def firsts (key : α → κ) : List κ → List α → List α
  | _, [] => []
  | seen, x :: xs =>
    if key x ∈ seen then firsts key seen xs else x :: firsts key (seen ++ [key x]) xs

theorem firsts_cons (seen : List κ) (x : α) (xs : List α) : firsts key seen (x :: xs) =
    if key x ∈ seen then firsts key seen xs else x :: firsts key (seen ++ [key x]) xs := rfl

theorem mem_firsts {seen : List κ} {xs : List α} {x : α} :
    x ∈ firsts key seen xs ↔ key x ∉ seen ∧ xs.find? (fun y => decide (key y = key x)) =
      some x := by
  induction xs generalizing seen with
  | nil => simp [firsts]
  | cons y xs ih =>
    rw [firsts_cons]
    by_cases hseen : key y ∈ seen
    · rw [if_pos hseen, ih]
      by_cases hk : key y = key x
      · have hx : key x ∈ seen := hk ▸ hseen
        simp [hx]
      · rw [List.find?_cons_of_neg (by simpa using hk)]
    · rw [if_neg hseen, List.mem_cons, ih]
      by_cases hk : key y = key x
      · rw [List.find?_cons_of_pos (by simpa using hk)]
        have hx : key x ∉ seen := hk ▸ hseen
        have hin : key x ∈ seen ++ [key y] := by simp [hk]
        simp [hx, hin, eq_comm]
      · rw [List.find?_cons_of_neg (by simpa using hk)]
        have hne : x ≠ y := fun h => hk (h ▸ rfl)
        have hk' : key x ≠ key y := fun h => hk h.symm
        simp [hne, hk']

theorem firsts_append (seen : List κ) (xs ys : List α) :
    firsts key seen (xs ++ ys) = firsts key seen xs ++
      firsts key (seen ++ (firsts key seen xs).map key) ys := by
  induction xs generalizing seen with
  | nil => simp [firsts]
  | cons x xs ih =>
    simp only [List.cons_append, firsts_cons]
    by_cases hseen : key x ∈ seen
    · simp only [if_pos hseen, ih]
    · simp only [if_neg hseen, ih, List.cons_append, List.map_cons, List.append_assoc,
        List.nil_append]

/-- Of two that are left, the one stands before all that have the key of the other. -/
theorem firsts_before (seen : List κ) (xs : List α) :
    (firsts key seen xs).Pairwise fun x y => key x ≠ key y ∧
      ∃ pre post, xs = pre ++ x :: post ∧ ∀ z ∈ pre, key z ≠ key y := by
  induction xs generalizing seen with
  | nil => exact List.Pairwise.nil
  | cons a xs ih =>
    rw [firsts_cons]
    by_cases hseen : key a ∈ seen
    · rw [if_pos hseen]
      refine (ih seen).imp_of_mem fun {x y} hx hy h => ?_
      obtain ⟨hne, pre, post, rfl, hpre⟩ := h
      refine ⟨hne, a :: pre, post, rfl, List.forall_mem_cons.mpr ⟨fun heq => ?_, hpre⟩⟩
      exact (mem_firsts.mp hy).1 (heq ▸ hseen)
    · rw [if_neg hseen]
      refine List.pairwise_cons.mpr ⟨fun y hy => ?_, (ih _).imp_of_mem fun {x y} hx hy h => ?_⟩
      · have hy := (mem_firsts.mp hy).1
        exact ⟨fun heq => hy (by simp [heq]), [], xs, rfl, List.forall_mem_nil _⟩
      · obtain ⟨hne, pre, post, rfl, hpre⟩ := h
        refine ⟨hne, a :: pre, post, rfl, List.forall_mem_cons.mpr ⟨fun heq => ?_, hpre⟩⟩
        exact (mem_firsts.mp hy).1 (by simp [heq])

end Firsts

/-! ## Before and after -/

variable {α : Type} {a b : α} {l : List α}

/-- `a` stands somewhere before `b`. -/
def Precedes (l : List α) (a b : α) : Prop := [a, b].Sublist l

theorem precedes_iff : Precedes l a b ↔ ∃ l₁ l₂, l = l₁ ++ l₂ ∧ a ∈ l₁ ∧ b ∈ l₂ := by
  unfold Precedes
  rw [List.cons_sublist_iff]
  simp only [List.singleton_sublist]

theorem precedes_or (ha : a ∈ l) (hb : b ∈ l) (hne : a ≠ b) : Precedes l a b ∨ Precedes l b a := by
  obtain ⟨s, t, rfl⟩ := List.append_of_mem ha
  rcases List.mem_append.mp hb with h | h
  · exact .inr (precedes_iff.mpr ⟨s, a :: t, rfl, h, List.mem_cons_self⟩)
  · refine .inl (precedes_iff.mpr ⟨s ++ [a], t, by simp, by simp, ?_⟩)
    exact (List.mem_cons.mp h).resolve_left fun h => hne h.symm

theorem Precedes.asymm (hnd : l.Nodup) (h : Precedes l a b) : ¬Precedes l b a := by
  intro h'
  obtain ⟨s, t, hl, ha, hb⟩ := precedes_iff.mp h
  obtain ⟨s', t', hl', hb', ha'⟩ := precedes_iff.mp h'
  have hdisj : s.Disjoint t := (List.nodup_append'.mp (hl ▸ hnd)).2.2
  rcases List.append_eq_append_iff.mp (hl.symm.trans hl') with ⟨r, rfl, rfl⟩ | ⟨r, rfl, rfl⟩
  · exact hdisj ha (List.mem_append_right r ha')
  · exact hdisj (List.mem_append_left r hb') hb

theorem Precedes.ne (hnd : l.Nodup) (h : Precedes l a b) : a ≠ b := by
  rintro rfl
  exact h.asymm hnd h

theorem precedes_of_pairwise (R : α → α → Prop) (h : l.Pairwise R) (hab : Precedes l a b) : R a b :=
  List.pairwise_iff_forall_sublist.mp h hab

/-- What `sorted(l, key=rank)` puts first. -/
theorem precedes_insertionSort (rank : α → Nat) (hnd : l.Nodup) (ha : a ∈ l) (hb : b ∈ l)
    (hne : a ≠ b) :
    Precedes (l.insertionSort fun x y => rank x ≤ rank y) a b ↔
      rank a < rank b ∨ rank a = rank b ∧ Precedes l a b := by
  have hperm := List.perm_insertionSort (fun x y => rank x ≤ rank y) l
  have hsorted := List.pairwise_insertionSort (fun x y => rank x ≤ rank y) l
  have hnd' := hperm.nodup_iff.mpr hnd
  have hput : ∀ {x y : α}, x ∈ l → y ∈ l → x ≠ y →
    (rank x < rank y ∨ rank x = rank y ∧ Precedes l x y) →
      Precedes (l.insertionSort fun x y => rank x ≤ rank y) x y := by
    intro x y hx hy hxy h
    rcases h with hlt | ⟨heq, hxy⟩
    · refine (precedes_or (hperm.mem_iff.mpr hx) (hperm.mem_iff.mpr hy) hxy).resolve_right
        fun h => ?_
      have hle : rank y ≤ rank x := precedes_of_pairwise (fun x y => rank x ≤ rank y) hsorted h
      omega
    · have hle : (fun x y => rank x ≤ rank y) x y := heq.le
      exact List.pair_sublist_insertionSort hle hxy
  refine ⟨fun h => ?_, hput ha hb hne⟩
  by_contra hnot
  refine h.asymm hnd' (hput hb ha hne.symm ?_)
  have hle : rank a ≤ rank b := precedes_of_pairwise (fun x y => rank x ≤ rank y) hsorted h
  have heq : rank a = rank b := by omega
  exact .inr ⟨heq.symm, (precedes_or ha hb hne).resolve_left fun h => hnot (.inr ⟨heq, h⟩)⟩

end Lib
