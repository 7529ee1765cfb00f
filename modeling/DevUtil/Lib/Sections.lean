import Mathlib.Data.List.Count
import Mathlib.Data.List.TakeWhile

/-!
# Sections of a list

A section is what follows its header up to the next entry, or up to the end.

    added to one section, `new` is in no other one               (AddedIn.sectionOf_other)
    … and makes its own one longer by one                        (AddedIn.length_sectionOf)
    put before the first stop after the header, `new` is in the
      section if a stop is                                       (addBefore_addedIn)
    … and otherwise the section is what it was                   (sectionOf_addBefore)
-/

namespace Lib

section

variable {α : Type} [DecidableEq α] (entry stop : α → Bool)

/-- What follows the first `header`, up to the next entry. -/
def sectionOf (header : α) : List α → List α
  | [] => []
  | x :: xs => if x = header then xs.takeWhile fun y => !entry y else sectionOf header xs

/-- `new` is added once, in a section of `header`. -/
def AddedIn (header new : α) (xs ys : List α) : Prop :=
  ∃ before body after, xs = before ++ header :: (body ++ after) ∧ (∀ y ∈ body, entry y = false) ∧
    ys = before ++ header :: (body ++ new :: after)

/-- `new` before the first stop after a `header`; `seen`: there was a header, and no stop since. -/
def addBefore (header new : α) : Bool → List α → List α
  | _, [] => []
  | seen, x :: xs =>
    let seen := seen || x = header
    if stop x then (if seen then [new] else []) ++ x :: addBefore header new false xs
    else x :: addBefore header new seen xs

end

section

variable {α : Type} [DecidableEq α] {entry stop : α → Bool} {header new other : α} {xs ys : List α}

/-! ## What is added to a section -/

omit [DecidableEq α] in
theorem takeWhile_append_entry {pre : List α} {x : α} (hx : entry x = true) (xs : List α) :
    (pre ++ x :: xs).takeWhile (fun y => !entry y) = pre.takeWhile fun y => !entry y := by
  induction pre with
  | nil => simp [hx]
  | cons y pre ih => simp only [List.cons_append, List.takeWhile_cons, ih]

theorem sectionOf_append {pre : List α} (h : other ∉ pre) (xs : List α) :
    sectionOf entry other (pre ++ xs) = sectionOf entry other xs := by
  induction pre with
  | nil => rfl
  | cons y pre ih =>
    have hy : y ≠ other := fun hy => h (hy ▸ List.mem_cons_self)
    have hpre : other ∉ pre := fun hpre => h (List.mem_cons_of_mem y hpre)
    rw [List.cons_append, sectionOf, if_neg hy, ih hpre]

theorem AddedIn.sectionOf_other (h : AddedIn entry header new xs ys) (hheader : entry header = true)
    (hother : entry other = true) (hnew : entry new = false) (hne : header ≠ other) :
    sectionOf entry other ys = sectionOf entry other xs := by
  obtain ⟨before, body, after, rfl, hbody, rfl⟩ := h
  induction before with
  | nil =>
    have hbody : other ∉ body := fun h => by simp [hbody other h] at hother
    have hnew : new ≠ other := fun h => by simp [← h, hnew] at hother
    simp only [List.nil_append, sectionOf, if_neg hne]
    rw [sectionOf_append hbody, sectionOf_append hbody, sectionOf, if_neg hnew]
  | cons y before ih =>
    simp only [List.cons_append, sectionOf]
    by_cases hy : y = other
    · rw [if_pos hy, if_pos hy, takeWhile_append_entry hheader, takeWhile_append_entry hheader]
    · rw [if_neg hy, if_neg hy, ih]

theorem AddedIn.length_sectionOf [BEq α] [LawfulBEq α] (h : AddedIn entry header new xs ys)
    (honce : xs.count header = 1) (hnew : entry new = false) :
    (sectionOf entry header ys).length = (sectionOf entry header xs).length + 1 := by
  obtain ⟨before, body, after, rfl, hbody, rfl⟩ := h
  have hbefore : header ∉ before := by
    rw [List.count_append, List.count_cons_self] at honce
    exact List.count_eq_zero.mp (by omega)
  have hbody : ∀ y ∈ body, (!entry y) = true := fun y hy => by simp [hbody y hy]
  rw [sectionOf_append hbefore, sectionOf_append hbefore, sectionOf, if_pos rfl,
    sectionOf, if_pos rfl,
    List.takeWhile_append_of_pos hbody, List.takeWhile_append_of_pos hbody,
      List.takeWhile_cons_of_pos (by simp [hnew])]
  simp only [List.length_append, List.length_cons]
  omega

omit [DecidableEq α] in
theorem AddedIn.count [BEq α] [LawfulBEq α] (h : AddedIn entry header new xs ys)
    (hne : new ≠ other) :
    ys.count other = xs.count other := by
  obtain ⟨before, body, after, rfl, -, rfl⟩ := h
  simp [List.count_append, List.count_cons, hne]

omit [DecidableEq α] in
theorem AddedIn.length (h : AddedIn entry header new xs ys) : ys.length = xs.length + 1 := by
  obtain ⟨before, body, after, rfl, -, rfl⟩ := h
  simp only [List.length_append, List.length_cons]
  omega

/-! ## Adding before a stop -/

theorem addBefore_of_not_mem (h : header ∉ xs) : addBefore stop header new false xs = xs := by
  induction xs with
  | nil => rfl
  | cons x xs ih =>
    have hx : x ≠ header := fun hx => h (hx ▸ List.mem_cons_self)
    have ih := ih fun hxs => h (List.mem_cons_of_mem x hxs)
    simp [addBefore, hx, ih]

theorem addBefore_seen (new : α) (h : header ∉ xs)
    (hstop : ∃ y ∈ xs.takeWhile (fun y => !entry y), stop y = true) :
    ∃ body after, xs = body ++ after ∧ (∀ y ∈ body, entry y = false) ∧
      addBefore stop header new true xs = body ++ new :: after := by
  induction xs with
  | nil => simp at hstop
  | cons x xs ih =>
    have hxs : header ∉ xs := fun hxs => h (List.mem_cons_of_mem x hxs)
    by_cases hx : stop x = true
    · exact ⟨[], x :: xs, rfl, by simp, by simp [addBefore, hx, addBefore_of_not_mem hxs]⟩
    · have hentry : entry x = false := by
        cases hentry : entry x with
        | false => rfl
        | true => simp [hentry] at hstop
      have hstop : ∃ y ∈ xs.takeWhile (fun y => !entry y), stop y = true := by
        simpa [hentry, hx] using hstop
      obtain ⟨body, after, rfl, hbody, hadd⟩ := ih hxs hstop
      refine ⟨x :: body, after, rfl, ?_, by simp [addBefore, hx, hadd]⟩
      intro y hy
      rcases List.mem_cons.mp hy with rfl | hy
      · exact hentry
      · exact hbody y hy

theorem addBefore_addedIn [BEq α] [LawfulBEq α] (honce : xs.count header = 1)
    (hheader : stop header = false) (hstop : ∃ y ∈ sectionOf entry header xs, stop y = true) :
    AddedIn entry header new xs (addBefore stop header new false xs) := by
  induction xs with
  | nil => simp at honce
  | cons x xs ih =>
    by_cases hx : x = header
    · subst hx
      rw [sectionOf, if_pos rfl] at hstop
      have hxs : x ∉ xs := List.count_eq_zero.mp (by simpa using honce)
      obtain ⟨body, after, rfl, hbody, hadd⟩ := addBefore_seen new hxs hstop
      exact ⟨[], body, after, rfl, hbody, by simp [addBefore, hheader, hadd]⟩
    · rw [sectionOf, if_neg hx] at hstop
      rw [List.count_cons_of_ne hx] at honce
      obtain ⟨before, body, after, hxs, hbody, hadd⟩ := ih honce hstop
      refine ⟨x :: before, body, after, by simp [hxs], hbody, ?_⟩
      by_cases hxstop : stop x = true
      · simp [addBefore, hx, hxstop, hadd]
      · simp [addBefore, hx, hxstop, hadd]

theorem takeWhile_addBefore (h : ∀ y ∈ xs.takeWhile (fun y => !entry y), stop y = false)
    (hentry : ∀ y, stop y = true → entry y = false) (seen : Bool) :
    (addBefore stop header new seen xs).takeWhile (fun y => !entry y) =
      xs.takeWhile fun y => !entry y := by
  induction xs generalizing seen with
  | nil => rfl
  | cons x xs ih =>
    have hx : stop x = false := by
      cases hx : stop x with
      | false => rfl
      | true => simp [hentry x hx, hx] at h
    simp only [addBefore, hx, Bool.false_eq_true, if_false, List.takeWhile_cons]
    cases hxentry : entry x with
    | true => rfl
    | false =>
      have hxs : ∀ y ∈ xs.takeWhile (fun y => !entry y), stop y = false := by
        intro y hy
        exact h y (by simp [hxentry, hy])
      simp [ih hxs]

theorem sectionOf_addBefore (header : α) (h : ∀ y ∈ sectionOf entry other xs, stop y = false)
    (hentry : ∀ y, stop y = true → entry y = false) (hother : stop other = false)
    (hnew : new ≠ other) (seen : Bool) :
    sectionOf entry other (addBefore stop header new seen xs) = sectionOf entry other xs := by
  induction xs generalizing seen with
  | nil => rfl
  | cons x xs ih =>
    rw [sectionOf] at h
    by_cases hx : x = other
    · subst hx
      rw [if_pos rfl] at h
      simp only [addBefore, hother, Bool.false_eq_true, if_false, sectionOf, if_true]
      exact takeWhile_addBefore h hentry _
    · rw [if_neg hx] at h
      simp only [addBefore]
      by_cases hstop : stop x = true
      · rw [if_pos hstop]
        cases (seen || decide (x = header)) <;> simp [sectionOf, hx, hnew, ih h]
      · rw [if_neg hstop, sectionOf, if_neg hx, ih h, sectionOf, if_neg hx]

end

end Lib
