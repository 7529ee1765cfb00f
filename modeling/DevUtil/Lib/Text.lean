import Mathlib.Data.List.Basic

/-!
# Python's string methods

As far as the programs call them, on the characters of a text.
-/

namespace Lib

abbrev Text := List Char

/-- `str.isspace` -/
def isSpace (c : Char) : Bool :=
  [9, 10, 11, 12, 13, 28, 29, 30, 31, 32, 133, 160, 5760, 8232, 8233, 8239, 8287, 12288].contains
      c.toNat ||
    (8192 ≤ c.toNat && c.toNat ≤ 8202)

/-- `s.split()` -/
def fields (s : Text) : List Text := (s.splitOnP isSpace).filter (· ≠ [])

/-- What ends a line for `str.splitlines`. -/
def isLineBreak (c : Char) : Bool := [10, 11, 12, 13, 28, 29, 30, 133, 8232, 8233].contains c.toNat

/-- The lines of `cs`; `acc` is the line begun, reversed. -/
def linesFrom : List Char → List Char → List String
  | [], [] => []
  | [], acc => [String.ofList acc.reverse]
  | '\r' :: '\n' :: cs, acc => String.ofList acc.reverse :: linesFrom cs []
  | c :: cs, acc =>
    if isLineBreak c then String.ofList acc.reverse :: linesFrom cs [] else linesFrom cs (c :: acc)

/-- What Python reads a text file, or the output of a command, as. -/
def universalNewlines : List Char → List Char
  | [] => []
  | '\r' :: '\n' :: cs => '\n' :: universalNewlines cs
  | '\r' :: cs => '\n' :: universalNewlines cs
  | c :: cs => c :: universalNewlines cs

theorem universalNewlines_ne_nil (c : Char) (cs : List Char) :
    universalNewlines (c :: cs) ≠ [] := by
  intro h
  unfold universalNewlines at h
  split at h
  · next hnil => cases hnil
  · cases h
  · cases h
  · cases h

theorem universalNewlines_of_not_mem {s : List Char} (h : '\r' ∉ s) : universalNewlines s = s := by
  induction s with
  | nil => rfl
  | cons c s ih =>
    have hc : c ≠ '\r' := fun heq => h (heq ▸ List.mem_cons_self)
    have hstep : universalNewlines (c :: s) = c :: universalNewlines s := by
      rw [universalNewlines]
      · rintro cs rfl -
        exact hc rfl
      · rintro rfl
        exact hc rfl
    rw [hstep, ih fun hs => h (List.mem_cons_of_mem c hs)]

/-- `s.splitlines()` -/
def splitlines (s : String) : List String := linesFrom s.toList []

/-! ## Lines -/

theorem linesFrom_append_newline (u v acc : List Char) :
    linesFrom (u ++ '\n' :: v) acc = linesFrom (u ++ ['\n']) acc ++ linesFrom v [] := by
  induction u, acc using linesFrom.induct with
  | case1 => rfl
  | case2 acc hacc =>
    cases acc with
    | nil => rfl
    | cons c acc => rfl
  | case3 cs acc ih =>
    show _ :: linesFrom (cs ++ '\n' :: v) [] = _ :: (linesFrom (cs ++ ['\n']) [] ++ _)
    rw [ih]
  | case4 c cs acc hcr hbreak ih =>
    by_cases hend : c = '\r' ∧ cs = []
    · obtain ⟨rfl, rfl⟩ := hend
      rfl
    · have hstep : ∀ w, linesFrom (c :: (cs ++ '\n' :: w)) acc =
          String.ofList acc.reverse :: linesFrom (cs ++ '\n' :: w) [] := by
        intro w
        rw [linesFrom, if_pos hbreak]
        rintro cs' rfl hcs
        cases cs with
        | nil => exact hend ⟨rfl, rfl⟩
        | cons d cs =>
          obtain ⟨rfl, -⟩ := List.cons.inj hcs
          exact hcr cs rfl rfl
      rw [List.cons_append, List.cons_append, hstep, hstep, ih]
      rfl
  | case5 c cs acc hcr hbreak ih =>
    have hstep : ∀ w, linesFrom (c :: (cs ++ '\n' :: w)) acc =
        linesFrom (cs ++ '\n' :: w) (c :: acc) := by
      intro w
      rw [linesFrom, if_neg hbreak]
      rintro cs' rfl -
      exact hbreak rfl
    rw [List.cons_append, List.cons_append, hstep, hstep, ih]

/-- A line goes on until something ends it. -/
theorem linesFrom_append {w : List Char} (hw : ∀ c ∈ w, isLineBreak c = false)
    (cs acc : List Char) :
    linesFrom (w ++ cs) acc = linesFrom cs (w.reverse ++ acc) := by
  induction w generalizing acc with
  | nil => rfl
  | cons c w ih =>
    have hc := hw c List.mem_cons_self
    have hstep : linesFrom (c :: (w ++ cs)) acc = linesFrom (w ++ cs) (c :: acc) := by
      rw [linesFrom, if_neg (by rw [hc]; exact Bool.false_ne_true)]
      rintro cs' rfl -
      exact absurd hc (by decide)
    rw [List.cons_append, hstep, ih fun c' hc' => hw c' (List.mem_cons_of_mem c hc')]
    simp

/-- What has been begun is the beginning of the first line, and changes no other. -/
theorem exists_linesFrom (d : List Char) :
    ∃ l ls, ∀ acc, linesFrom (d ++ ['\n']) acc = String.ofList (acc.reverse ++ l) :: ls := by
  obtain ⟨begun, -⟩ : ∃ begun : List Char, begun = [] := ⟨[], rfl⟩
  induction d, begun using linesFrom.induct with
  | case1 => exact ⟨[], [], fun acc => by simp [linesFrom, isLineBreak]⟩
  | case2 => exact ⟨[], [], fun acc => by simp [linesFrom, isLineBreak]⟩
  | case3 cs _ ih => exact ⟨[], linesFrom (cs ++ ['\n']) [], fun acc => by simp [linesFrom]⟩
  | case4 c cs _ hcr hbreak ih =>
    by_cases hend : c = '\r' ∧ cs = []
    · obtain ⟨rfl, rfl⟩ := hend
      exact ⟨[], [], fun acc => by simp [linesFrom]⟩
    · refine ⟨[], linesFrom (cs ++ ['\n']) [], fun acc => ?_⟩
      rw [List.cons_append, linesFrom, if_pos hbreak, List.append_nil]
      rintro cs' rfl hcs
      cases cs with
      | nil => exact hend ⟨rfl, rfl⟩
      | cons d cs =>
        obtain ⟨rfl, -⟩ := List.cons.inj hcs
        exact hcr cs rfl rfl
  | case5 c cs _ hcr hbreak ih =>
    obtain ⟨l, ls, hl⟩ := ih
    refine ⟨c :: l, ls, fun acc => ?_⟩
    rw [List.cons_append, linesFrom, if_neg hbreak, hl, List.reverse_cons, List.append_assoc]
    · rfl
    · rintro cs' rfl -
      exact hbreak rfl

/-! ## Fields -/

/-- `s.split(' ', 1)[0]` -/
def firstField (s : String) : String := String.ofList (s.toList.takeWhile (· != ' '))

/-- `s.split(' ', 1)[1]` -/
def secondField (s : String) : Option String :=
  match s.toList.dropWhile (· != ' ') with
  | [] => none
  | _ :: cs => some (String.ofList cs)

theorem firstField_append {s : String} (t : String) (h : ' ' ∉ s.toList) :
    firstField (s ++ " " ++ t) = s := by
  have hs : ∀ c ∈ s.toList, (c != ' ') = true := by
    intro c hc
    rw [bne_iff_ne]
    rintro rfl
    exact h hc
  have htoList : (s ++ " " ++ t).toList = s.toList ++ ' ' :: t.toList := by simp
  rw [firstField, htoList, List.takeWhile_append_of_pos hs, List.takeWhile_cons_of_neg (by simp),
    List.append_nil, String.ofList_toList]

theorem secondField_append {s : String} (t : String) (h : ' ' ∉ s.toList) :
    secondField (s ++ " " ++ t) = some t := by
  have hs : ∀ c ∈ s.toList, (c != ' ') = true := by
    intro c hc
    rw [bne_iff_ne]
    rintro rfl
    exact h hc
  have htoList : (s ++ " " ++ t).toList = s.toList ++ ' ' :: t.toList := by simp
  have hdrop : (s ++ " " ++ t).toList.dropWhile (· != ' ') = ' ' :: t.toList := by
    rw [htoList, List.dropWhile_append_of_pos hs, List.dropWhile_cons_of_neg (by simp)]
  rw [secondField, hdrop]
  exact congrArg some String.ofList_toList

end Lib
