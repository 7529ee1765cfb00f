import DevUtil.MergeKernel.HaveVersion

/-!
# The digits of a release candidate

`have_version` drops every character of a component that is no digit, so that the number of a
release candidate is glued to the number before it: `v5.10-rc3` is compared as 5.103.

    a number is read as it is, below 2^63 and with no leading zero       (shellNumber_eq)
    only the last component of the branch is glued to something          (readNumber_of_ne)
    the comparison is right if it ends before, or if the glued number
    is not in the way                                                    (same_iff)
    a misread component must not turn the comparison round               (haveVersion_iff)
    v5.10 is not in a branch at v5.10-rc3, and `have_version` says so    (not_right)
-/

namespace MergeKernel

open Lib

/-! ## Numbers that the shell reads -/

def decimal (digits : Text) : Nat := Nat.ofDigitChars 10 digits 0

/-- The shell reads the decimal number: it fits, and if it seems to be octal it has only one digit
that counts. -/
def Readable (digits : Text) : Prop :=
  decimal digits < 2 ^ 63 ∧ (digits.head? = some '0' → decimal digits < 8)

instance (digits : Text) : Decidable (Readable digits) := inferInstanceAs (Decidable (_ ∧ _))

theorem wrap_eq {n : Nat} (h : n < 2 ^ 63) : wrap n = n :=
  Int.bmod_eq_of_le (by omega) (by omega)

theorem decimal_cons (c : Char) (digits : Text) :
    decimal (c :: digits) = 10 ^ digits.length * (c.toNat - '0'.toNat) + decimal digits := by
  rw [decimal, Nat.ofDigitChars_cons, Nat.mul_zero, Nat.zero_add,
    Nat.ofDigitChars_eq_ofDigitChars_zero]
  rfl

/-- A number below 8 has zeros and a last digit. -/
theorem octal_of_lt {digits : Text} (hdigits : ∀ c ∈ digits, c.isDigit = true)
    (h : decimal digits < 8) :
    (digits.all fun c => c.toNat < '8'.toNat) = true ∧
      Nat.ofDigitChars 8 digits 0 = decimal digits := by
  induction digits with
  | nil => exact ⟨rfl, rfl⟩
  | cons c digits ih =>
    have hadd := decimal_cons c digits
    have hlow : '0'.toNat ≤ c.toNat := by
      have hdigit := hdigits c List.mem_cons_self
      rw [Char.isDigit, Bool.and_eq_true, decide_eq_true_eq] at hdigit
      exact UInt32.le_iff_toNat_le.mp hdigit.1
    have hpos : 0 < 10 ^ digits.length := Nat.pow_pos (by decide)
    have hle : c.toNat - '0'.toNat ≤ 10 ^ digits.length * (c.toNat - '0'.toNat) :=
      Nat.le_mul_of_pos_left _ hpos
    have hrest := ih (fun d hd => hdigits d (List.mem_cons_of_mem c hd)) (by omega)
    have hc : c.toNat < '8'.toNat := by
      have height : '8'.toNat = '0'.toNat + 8 := rfl
      omega
    refine ⟨by simp only [List.all_cons, hrest.1, hc, decide_true, Bool.and_true], ?_⟩
    rw [Nat.ofDigitChars_cons, Nat.mul_zero, Nat.zero_add]
    cases digits with
    | nil =>
      rw [hadd]
      simp [decimal]
    | cons d digits =>
      -- another digit follows, so this one is 0
      have hten : 10 ≤ 10 ^ (d :: digits).length := by
        rw [List.length_cons, Nat.pow_succ]
        exact Nat.le_mul_of_pos_left 10 (Nat.pow_pos (by decide))
      have hzero : c.toNat - '0'.toNat = 0 := by
        by_contra hne
        have hbig := Nat.mul_le_mul hten (Nat.one_le_iff_ne_zero.mpr hne)
        omega
      rw [hzero, hrest.2, hadd, hzero]
      simp

theorem shellNumber_eq {digits : Text} (hdigits : ∀ c ∈ digits, c.isDigit = true)
    (h : Readable digits) :
    shellNumber digits = some (decimal digits : Int) := by
  unfold shellNumber
  split
  · next c digits =>
    have hskip : decimal ('0' :: c :: digits) = decimal (c :: digits) := by
      rw [decimal_cons]
      simp
    have hsmall : decimal (c :: digits) < 8 := hskip ▸ h.2 rfl
    obtain ⟨hall, hoctal⟩ := octal_of_lt (fun d hd => hdigits d (List.mem_cons_of_mem _ hd)) hsmall
    rw [if_pos hall, hoctal, hskip, wrap_eq (by omega)]
  · exact congrArg some (wrap_eq h.1)

/-! ## The numbers of a tag -/

namespace Tag

/-- Every component is read as the number that it is. -/
def Readable (t : Tag) : Prop := ∀ digits ∈ t.readings, MergeKernel.Readable digits

instance (t : Tag) : Decidable t.Readable := inferInstanceAs (Decidable (∀ digits ∈ t.readings, _))

/-- The position of the last component. -/
def lastIndex (t : Tag) : Nat := t.middle.length + 1

/-- The last number, with the digits of the release candidate behind it. -/
def glued (t : Tag) : Nat := decimal (t.last.chars ++ t.rc.elim [] Number.chars)

/-- The number that is compared at a position. -/
def readNumber (t : Tag) (i : Nat) : Nat := decimal (t.reading i)

theorem readings_digits (t : Tag) : ∀ digits ∈ t.readings, ∀ c ∈ digits, c.isDigit = true := by
  intro digits h c hc
  rcases List.mem_cons.mp h with rfl | h
  · rw [List.mem_singleton.mp hc]
    exact t.major_isDigit
  · rcases List.mem_append.mp h with h | h
    · obtain ⟨n, -, rfl⟩ := List.mem_map.mp h
      exact n.digits c hc
    · rw [List.mem_singleton.mp h] at hc
      rcases List.mem_append.mp hc with hc | hc
      · exact t.last.digits c hc
      · cases hrc : t.rc with
        | none =>
          rw [hrc] at hc
          cases hc
        | some n =>
          rw [hrc] at hc
          exact n.digits c hc

theorem shellNumber_reading {t : Tag} (h : t.Readable) (i : Nat) :
    shellNumber (t.reading i) = some (t.readNumber i : Int) := by
  by_cases hnil : t.readings.getD i [] = []
  · rw [readNumber, reading_of_nil hnil]
    exact shellNumber_eq (List.all_eq_true.mp rfl) (by decide)
  · have hmem : t.readings.getD i [] ∈ t.readings := by
      rw [getD_readings_eq_nil, not_le] at hnil
      rw [List.getD_eq_getElem?_getD, List.getElem?_eq_getElem hnil]
      exact List.getElem_mem hnil
    rw [readNumber, reading, if_neg hnil]
    exact shellNumber_eq (t.readings_digits _ hmem) (h _ hmem)

theorem readNumber_eq_getD (t : Tag) (i : Nat) :
    t.readNumber i = (t.readings.map decimal).getD i 0 := by
  rw [readNumber, reading, List.getD_eq_getElem?_getD, List.getD_eq_getElem?_getD,
    List.getElem?_map]
  cases h : t.readings[i]? with
  | none => rfl
  | some digits =>
    have hne : digits ≠ [] := t.readings_ne_nil digits (List.mem_of_getElem? h)
    show decimal (if digits = [] then ['0'] else digits) = decimal digits
    rw [if_neg hne]

/-- The components before the last one, and what is there. -/
theorem map_decimal_readings (t : Tag) :
    t.readings.map decimal = (decimal [t.major] :: t.middle.map Number.value) ++ [t.glued] := by
  rw [readings, List.map_cons, List.map_append, List.map_map]
  rfl

theorem numbers_eq (t : Tag) :
    t.numbers = (decimal [t.major] :: t.middle.map Number.value) ++ [t.last.value] := rfl

theorem readNumber_last (t : Tag) : t.readNumber t.lastIndex = t.glued := by
  rw [readNumber_eq_getD, map_decimal_readings, lastIndex, List.getD_eq_getElem?_getD]
  simp

theorem number_last (t : Tag) : t.number t.lastIndex = t.last.value := by
  rw [Release.number, numbers_eq, lastIndex, List.getD_eq_getElem?_getD]
  simp

/-- A component that is not the last one is compared as it is. -/
theorem readNumber_of_ne {t : Tag} {i : Nat} (h : i ≠ t.lastIndex) :
    t.readNumber i = t.number i := by
  have hlength : (decimal [t.major] :: t.middle.map Number.value).length = t.lastIndex := by
    simp [lastIndex]
  rw [readNumber_eq_getD, map_decimal_readings, Release.number, numbers_eq,
    List.getD_eq_getElem?_getD,
    List.getD_eq_getElem?_getD, List.getElem?_append, List.getElem?_append, hlength]
  by_cases hlt : i < t.lastIndex
  · rw [if_pos hlt, if_pos hlt]
  · rw [if_neg hlt, if_neg hlt, List.getElem?_eq_none (by simp; omega),
      List.getElem?_eq_none (by simp; omega)]

theorem number_after (t : Tag) (k : Nat) : t.number (t.lastIndex + 1 + k) = 0 := by
  rw [Release.number, numbers_eq, List.getD_eq_getElem?_getD, List.getElem?_eq_none]
  · rfl
  · simp [lastIndex]

/-- More digits do not make a number smaller. -/
theorem last_le_glued (t : Tag) : t.last.value ≤ t.glued := by
  rw [glued, decimal, Nat.ofDigitChars_append, Nat.ofDigitChars_eq_ofDigitChars_zero, Number.value]
  have hmul := Nat.le_mul_of_pos_left (Nat.ofDigitChars 10 t.last.chars 0)
    (Nat.pow_pos (by decide) : 0 < 10 ^ (t.rc.elim [] Number.chars).length)
  omega

theorem glued_of_none {t : Tag} (h : t.rc = none) : t.glued = t.last.value := by
  rw [glued, h]
  show decimal (t.last.chars ++ []) = _
  rw [List.append_nil]
  rfl

end Tag

/-- Nothing is glued to a release. -/
theorem Release.readNumber_tag (r : Release) (i : Nat) : r.tag.readNumber i = r.number i := by
  by_cases h : i = r.tag.lastIndex
  · rw [h, r.tag.readNumber_last, Tag.glued_of_none rfl]
    exact r.tag.number_last.symm
  · exact Tag.readNumber_of_ne h

theorem shellOrder_eq {tot : Tag} {tag : Release} (htot : tot.Readable) (htag : tag.tag.Readable)
    (i : Nat) :
    tot.shellOrder tag i = Differences.order (tot.readNumber i) (tag.number i) := by
  rw [Tag.shellOrder, shellOrder, Tag.shellNumber_reading htot, Tag.shellNumber_reading htag,
    tag.readNumber_tag]

/-! ## When the comparison is right -/

namespace Tag

variable (tot : Tag) (tag : Release)

/-- Every component of both tags is read as the number that it is. -/
def WellRead : Prop := tot.Readable ∧ tag.tag.Readable

/-- There is no release candidate, or the comparison ends before its digits, or they are not in the
way. -/
def Harmless : Prop :=
  tot.rc = none ∨
  (∃ i < tot.lastIndex, tot.number i ≠ tag.number i) ∨
  tag.number tot.lastIndex < tot.number tot.lastIndex ∨
  tot.glued < tag.number tot.lastIndex ∨
  tot.glued = tag.number tot.lastIndex ∧ ∃ k, tag.number (tot.lastIndex + 1 + k) ≠ 0

instance : Decidable (tot.WellRead tag) := inferInstanceAs (Decidable (_ ∧ _))

end Tag

section WellRead

variable {tot : Tag} {tag : Release}

theorem order_eq {i : Nat} : tot.order tag i = .eq ↔ tot.number i = tag.number i := by
  rw [Tag.order, Differences.order_eq_eq, Int.natCast_inj]

theorem shellOrder_of_ne (h : tot.WellRead tag) {i : Nat} (hi : i ≠ tot.lastIndex) :
    tot.shellOrder tag i = tot.order tag i := by
  rw [shellOrder_eq h.1 h.2, Tag.readNumber_of_ne hi, Tag.order]

theorem shellOrder_last (h : tot.WellRead tag) :
    tot.shellOrder tag tot.lastIndex = Differences.order tot.glued (tag.number tot.lastIndex) := by
  rw [shellOrder_eq h.1 h.2, Tag.readNumber_last]

/-- Behind its last component, the branch is at 0. -/
theorem precedes_after :
    Differences.Precedes (Differences.rest (tot.order tag) (tot.lastIndex + 1)) ↔
      ∃ k, tag.number (tot.lastIndex + 1 + k) ≠ 0 := by
  refine Differences.precedes_zeros fun k => ?_
  rw [Differences.rest, Tag.order, Tag.number_after]
  rfl

/-- The rest of the two tags, if nothing differs before the last component of the branch. -/
theorem precedes_last {o : Nat → Ordering} {n : Nat} (hbefore : ∀ i < tot.lastIndex, o i = .eq)
    (hlast : o tot.lastIndex = Differences.order n (tag.number tot.lastIndex))
    (hafter : ∀ i, tot.lastIndex < i → o i = tot.order tag i) :
    Differences.Precedes o ↔
      n < tag.number tot.lastIndex ∨
      n = tag.number tot.lastIndex ∧ ∃ k, tag.number (tot.lastIndex + 1 + k) ≠ 0 := by
  have hrest : Differences.rest o (tot.lastIndex + 1) =
      Differences.rest (tot.order tag) (tot.lastIndex + 1) := by
    funext k
    exact hafter _ (by omega)
  have hfirst : Differences.rest o tot.lastIndex 0 =
    Differences.order n (tag.number tot.lastIndex) := hlast
  rw [Differences.precedes_drop hbefore, Differences.precedes_step, Differences.rest_add, hrest,
    precedes_after, hfirst,
    Differences.order_eq_lt, Differences.order_eq_eq, Int.natCast_inj, Int.ofNat_lt]

/-- The numbers are all the same. -/
theorem all_eq_iff (hbefore : ∀ i < tot.lastIndex, tot.order tag i = .eq) :
    (∀ i, tot.order tag i = .eq) ↔
      tot.last.value = tag.number tot.lastIndex ∧ ¬∃ k, tag.number (tot.lastIndex + 1 + k) ≠ 0 := by
  constructor
  · intro h
    refine ⟨tot.number_last ▸ order_eq.mp (h _), ?_⟩
    rintro ⟨k, hk⟩
    exact hk ((order_eq.mp (h _)).symm.trans (tot.number_after k))
  · rintro ⟨hlast, hafter⟩ i
    rcases Nat.lt_trichotomy i tot.lastIndex with hlt | rfl | hgt
    · exact hbefore i hlt
    · rw [order_eq, tot.number_last, hlast]
    · obtain ⟨k, rfl⟩ := Nat.exists_eq_add_of_le (Nat.succ_le_of_lt hgt)
      rw [order_eq, tot.number_after]
      by_contra hne
      exact hafter ⟨k, fun h => hne h.symm⟩

/-- A component before the last one decides, for the shell as for the numbers. -/
theorem same_of_earlier (h : tot.WellRead tag)
    (hearlier : ∃ i < tot.lastIndex, tot.number i ≠ tag.number i) :
    Differences.Precedes (tot.shellOrder tag) ↔ tot.Before tag := by
  obtain ⟨i, hi, hne⟩ := hearlier
  obtain ⟨first, hbefore, hfirst⟩ := Differences.exists_first ⟨i, mt order_eq.mp hne⟩
  have hlt : first < tot.lastIndex := by
    by_contra hge
    exact hne (order_eq.mp (hbefore i (by omega)))
  have hshell : ∀ j ≤ first, tot.shellOrder tag j = tot.order tag j :=
    fun j hj => shellOrder_of_ne h (by omega)
  have hshellBefore : ∀ j < first, tot.shellOrder tag j = .eq := by
    intro j hj
    rw [hshell j (Nat.le_of_lt hj), hbefore j hj]
  have hshellFirst := hshell first (Nat.le_refl first)
  rw [Tag.Before, Differences.precedes_of_first hshellBefore (hshellFirst ▸ hfirst),
    Differences.precedes_of_first hbefore hfirst, hshellFirst]
  constructor
  · exact .inl
  · rintro (hless | ⟨-, hall⟩)
    · exact hless
    · exact absurd (hall first) hfirst

theorem same_iff (h : tot.WellRead tag) :
    (Differences.Precedes (tot.shellOrder tag) ↔ tot.Before tag) ↔ tot.Harmless tag := by
  by_cases hearlier : ∃ i < tot.lastIndex, tot.number i ≠ tag.number i
  · exact iff_of_true (same_of_earlier h hearlier) (.inr (.inl hearlier))
  · have hbefore : ∀ i < tot.lastIndex, tot.order tag i = .eq := by
      intro i hi
      by_contra hne
      exact hearlier ⟨i, hi, mt order_eq.mpr hne⟩
    have hshellBefore : ∀ i < tot.lastIndex, tot.shellOrder tag i = .eq := by
      intro i hi
      rw [shellOrder_of_ne h (Nat.ne_of_lt hi), hbefore i hi]
    have hlast : tot.order tag tot.lastIndex = Differences.order tot.last.value
        (tag.number tot.lastIndex) := by
      rw [Tag.order, tot.number_last]
    have hle := tot.last_le_glued
    rw [Tag.Before, Tag.Harmless, precedes_last hshellBefore (shellOrder_last h)
      (fun i hi => shellOrder_of_ne h (Nat.ne_of_gt hi)),
        precedes_last hbefore hlast (fun _ _ => rfl),
      all_eq_iff hbefore, tot.number_last]
    cases hrc : tot.rc with
    | none =>
      rw [Tag.glued_of_none hrc]
      simp
    | some n =>
      -- with equal numbers the release candidate is the earlier one
      simp only [hearlier, Option.isSome_some, true_and, reduceCtorEq, false_or]
      generalize (∃ k, tag.number (tot.lastIndex + 1 + k) ≠ 0) = later
      by_cases hlater : later
      · simp only [hlater, not_true_eq_false, and_false, or_false, and_true]
        omega
      · simp only [hlater, not_false_eq_true, and_false, or_false, and_true]
        omega

end WellRead

/-! ## Misread components -/

/-- How many positions there are. -/
def Tag.positions (tot : Tag) (tag : Release) : Nat :=
  max tot.readings.length tag.tag.readings.length

/-- The first components that the shell tells apart are on the side of the first numbers that
differ; where all numbers are the same, a release candidate is to be on the smaller side. -/
def Tag.SameSide (tot : Tag) (tag : Release) : Prop :=
  let shell := Differences.first (tot.shellOrder tag) (tot.positions tag)
  let numbers := Differences.first (tot.order tag) (tot.positions tag)
  shell = .lt ↔ numbers = .lt ∨ numbers = .eq ∧ tot.rc.isSome

instance (tot : Tag) (tag : Release) : Decidable (tot.SameSide tag) :=
  inferInstanceAs (Decidable (_ ↔ _))

section Positions

variable {tot : Tag} {tag : Release}

theorem shellOrder_positions {i : Nat} (hi : tot.positions tag ≤ i) :
    tot.shellOrder tag i = .eq := by
  have htot : tot.readings.getD i [] = [] :=
    tot.getD_readings_eq_nil.mpr (Nat.le_trans (Nat.le_max_left _ _) hi)
  have htag : tag.tag.readings.getD i [] = [] :=
    tag.tag.getD_readings_eq_nil.mpr (Nat.le_trans (Nat.le_max_right _ _) hi)
  exact shellOrder_end htot htag 0

theorem order_positions {i : Nat} (hi : tot.positions tag ≤ i) : tot.order tag i = .eq := by
  have hlength : ∀ t : Tag, t.readings.length = t.numbers.length := by
    intro t
    simp [Tag.readings, Release.numbers]
  rw [Tag.positions, hlength, hlength] at hi
  have htot : tot.numbers.length ≤ i := Nat.le_trans (Nat.le_max_left _ _) hi
  have htag : tag.numbers.length ≤ i := Nat.le_trans (Nat.le_max_right _ _) hi
  rw [order_eq, Release.number, Release.number, List.getD_eq_getElem?_getD,
    List.getD_eq_getElem?_getD,
    List.getElem?_eq_none htot, List.getElem?_eq_none htag]

theorem sameSide_iff :
    (Differences.Precedes (tot.shellOrder tag) ↔ tot.Before tag) ↔ tot.SameSide tag := by
  have hall : Differences.first (tot.order tag) (tot.positions tag) = .eq ↔
      ∀ i, tot.order tag i = .eq := by
    rw [Differences.first_eq_eq]
    refine ⟨fun h i => ?_, fun h i _ => h i⟩
    rcases Nat.lt_or_ge i (tot.positions tag) with hi | hi
    · exact h i hi
    · exact order_positions hi
  simp only [Tag.SameSide, Differences.first_eq_lt_iff fun _ => shellOrder_positions,
    Differences.first_eq_lt_iff fun _ => order_positions, hall, Tag.Before, and_comm]

end Positions

/-- The tags that are compared rightly. -/
theorem haveVersion_iff (tot : Tag) (tag : Release) :
    Right tot tag ↔
      tot.WellRead tag ∧ tot.Harmless tag ∨ ¬tot.WellRead tag ∧ tot.SameSide tag := by
  rw [right_iff]
  by_cases h : tot.WellRead tag
  · rw [same_iff h]
    simp [h]
  · rw [sameSide_iff]
    simp [h]

/-- `v5.010` is read as 5.8. -/
def v5010 : Release where
  major := '5'
  major_ok := by decide
  middle := []
  last := { chars := "010".toList, ne_nil := by decide, digits := List.all_eq_true.mp rfl }

def v59 : Release where
  major := '5'
  major_ok := by decide
  middle := []
  last := { chars := "9".toList, ne_nil := by decide, digits := List.all_eq_true.mp rfl }

example : ¬v5010.tag.WellRead v59 ∧ ¬v5010.tag.SameSide v59 := by decide

def v510 : Release where
  major := '5'
  major_ok := by decide
  middle := []
  last := { chars := "10".toList, ne_nil := by decide, digits := List.all_eq_true.mp rfl }

def v510rc3 : Tag :=
  { v510 with rc := some { chars := "3".toList,
                           ne_nil := by decide, digits := List.all_eq_true.mp rfl } }

example : v510rc3.text = "v5.10-rc3".toList := by decide

example : v510rc3.WellRead v510 := by decide

/-- The branch is compared as 5.103. -/
theorem not_right : ¬Right v510rc3 v510 := by
  have hbefore : v510rc3.Before v510 := .inr ⟨rfl, fun i => order_eq.mpr rfl⟩
  have hequal : ∀ i < 1, v510rc3.shellOrder v510 i = .eq := by decide
  have hgreater : v510rc3.shellOrder v510 1 = .gt := by decide
  rw [right_iff, Differences.precedes_of_first hequal (by rw [hgreater]; decide), hgreater]
  exact fun h => absurd (h.mpr hbefore) (by decide)

end MergeKernel
