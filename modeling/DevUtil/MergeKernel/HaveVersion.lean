import Mathlib.Algebra.Group.Nat.Defs
import Mathlib.Data.List.DropRight
import DevUtil.Lib.Differences
import DevUtil.Lib.Text

/-!
# Tags that are in the branch already

`have_version` of `merge-kernel` compares a release tag with the last tag of a branch, component by
component, and `do_prepare` does not merge a tag that is in the branch already. Both tags are given
by their numbers:

    a release is a line that `PATTERN` matches                             (matchesPattern_iff)
    the last tag of a branch may be a release candidate                    (matchesGlob_text)
    what `cut` and `sed` make of a component                               (Tag.component_text)
    the loop ends, and finds the first difference that the shell sees      (compareFrom_spec)
    the result is right if the numbers have the same one                   (right_iff)
-/

namespace MergeKernel

open Lib

/-! ## The shell -/

/-- `cut -f${index} -d.`, which leaves a line without a dot as it is. -/
def cut (index : Nat) (line : Text) : Text :=
  let fields := line.splitOn '.'
  if fields.length = 1 then line else fields.getD (index - 1) []

/-- `sed -e 's/[^0-9]//g'` -/
def sed (line : Text) : Text := line.filter Char.isDigit

/-- Arithmetic is done in 64 bits, without a check for overflow. -/
def wrap (n : Nat) : Int := (n : Int).bmod (2 ^ 64)

/-- The number that digits are in an arithmetic expression: with a leading 0 they are octal. -/
def shellNumber : Text → Option Int
  | '0' :: c :: digits =>
    if (c :: digits).all fun c => c.toNat < '8'.toNat then
      some (wrap (Nat.ofDigitChars 8 (c :: digits) 0)) else none
  | digits => some (wrap (Nat.ofDigitChars 10 digits 0))

/-- `[[ ${a} -gt ${b} ]]`; a number that is not valid is an error, and the condition is false. -/
def gt (a b : Text) : Bool :=
  match shellNumber a, shellNumber b with
  | some x, some y => y < x
  | _, _ => false

/-- `[[ ${a} -lt ${b} ]]` -/
def lt (a b : Text) : Bool := gt b a

/-! ## `have_version` -/

def isNumber (s : Text) : Bool := !s.isEmpty && s.all Char.isDigit

/-- A line with a match of `PATTERN`: `^v[2-9](\.[0-9]+)+$`. -/
def matchesPattern (line : Text) : Bool :=
  match line.splitOn '.' with
  | ['v', major] :: minor :: minors => '2' ≤ major && major ≤ '9' && (minor :: minors).all isNumber
  | _ => false

/-- `GLOB`: `v[2-9].*[0-9]`. -/
def matchesGlob : Text → Bool
  | 'v' :: major :: '.' :: name => '2' ≤ major && major ≤ '9' && name.getLast?.any Char.isDigit
  | _ => false

/-- `$(echo "${tag}" | grep -E "${PATTERN}")` -/
def vtag (tag : Text) : Text :=
  (['\n'].intercalate ((tag.splitOn '\n').filter matchesPattern)).rdropWhile (· == '\n')

/-- `echo "${tag}" | cut -f${index} -d. | sed -e 's/[^0-9]//g'` -/
def component (index : Nat) (tag : Text) : Text := sed (cut index tag)

/-- The loop; the result is the status. -/
def compareFrom (tag totTag : Text) : Nat → Nat → Option Nat
  | 0, _ => none
  | fuel + 1, index =>
    let v1 := component index tag
    let v2 := component index totTag
    if v1 = [] ∧ v2 = [] then some 1
    else
      let v1 := if v1 = [] then ['0'] else v1
      let v2 := if v2 = [] then ['0'] else v2
      if gt v2 v1 then some 1
      else if lt v2 v1 then some 0
      else compareFrom tag totTag fuel (index + 1)

/-- `totTag` is what `git describe` prints for the branch. -/
def haveVersion (totTag : Text) (fuel : Nat) (tag : Text) : Option Nat :=
  if tag ≠ vtag tag then some 0 else compareFrom tag totTag fuel 1

/-- What `do_prepare` does next. -/
inductive Prepared where
  | died (message : Text)
  | skipsMerge
  | goesOn
deriving DecidableEq

/-- The check of `do_prepare`, after `have_version "${dtag}"`. -/
def prepare (force : Nat) (tag ocbranch : Text) (status : Nat) : Prepared :=
  if status ≠ 0 then
    if force = 0 then
      .died ("Tag or reference '".toList ++ tag ++ "' already in '".toList ++ ocbranch ++
        "'.".toList)
    else .skipsMerge
  else .goesOn

/-! ## Versions -/

/-- Digits. -/
structure Number where
  chars : Text
  ne_nil : chars ≠ []
  digits : ∀ c ∈ chars, c.isDigit = true

def Number.value (n : Number) : Nat := Nat.ofDigitChars 10 n.chars 0

/-- `v4.19.87` -/
structure Release where
  major : Char
  major_ok : '2' ≤ major ∧ major ≤ '9'
  middle : List Number
  last : Number

/-- `v5.4` or `v5.4-rc3` -/
structure Tag extends Release where
  rc : Option Number

namespace Release

/-- The numbers, with a suffix behind the last one. -/
def fields (r : Release) (suffix : Text) : List Text :=
  ['v', r.major] :: (r.middle.map Number.chars ++ [r.last.chars ++ suffix])

def text (r : Release) : Text := ['.'].intercalate (r.fields [])

def numbers (r : Release) : List Nat :=
  Nat.ofDigitChars 10 [r.major] 0 :: (r.middle.map Number.value ++ [r.last.value])

/-- A component that is missing counts as 0. -/
def number (r : Release) (i : Nat) : Nat := r.numbers.getD i 0

end Release

namespace Tag

def text (t : Tag) : Text :=
  ['.'].intercalate (t.fields (t.rc.elim [] fun n => "-rc".toList ++ n.chars))

/-- The order of the numbers at a position. -/
def order (tot : Tag) (tag : Release) (i : Nat) : Ordering :=
  Differences.order (tot.number i) (tag.number i)

/-- The tag is of an earlier version; a release candidate is earlier than its own release. -/
def Before (tot : Tag) (tag : Release) : Prop :=
  Differences.Precedes (tot.order tag) ∨ tot.rc.isSome ∧ ∀ i, tot.order tag i = .eq

end Tag

/-- The loop ends, and says that the tag is there exactly if the branch is at its version or
later. -/
def Right (tot : Tag) (tag : Release) : Prop :=
  ∃ fuel status, haveVersion tot.text fuel tag.text = some status ∧ (status = 1 ↔ ¬tot.Before tag) ∧
    ∀ tag ocbranch, (∃ message, prepare 0 tag ocbranch status = .died message) ↔ status = 1

/-! ## What the shell reads -/

namespace Tag

/-- The components, after `sed`: the digits of the suffix are behind those of the last number. -/
def readings (t : Tag) : List Text :=
  [t.major] :: (t.middle.map Number.chars ++ [t.last.chars ++ t.rc.elim [] Number.chars])

/-- The component that is compared at a position. -/
def reading (t : Tag) (i : Nat) : Text :=
  if t.readings.getD i [] = [] then ['0'] else t.readings.getD i []

end Tag

def Release.tag (r : Release) : Tag := { r with rc := none }

theorem isDigit_ne_dot {c : Char} (h : c.isDigit = true) : c ≠ '.' := by
  rintro rfl
  exact absurd h (by decide)

theorem Number.noDot (n : Number) : '.' ∉ n.chars := fun h => isDigit_ne_dot (n.digits _ h) rfl

theorem Number.sed_chars (n : Number) : sed n.chars = n.chars := List.filter_eq_self.mpr n.digits

theorem Release.major_isDigit (r : Release) : r.major.isDigit = true := by
  obtain ⟨hlow, hhigh⟩ := r.major_ok
  rw [Char.isDigit, Bool.and_eq_true, decide_eq_true_eq, decide_eq_true_eq]
  exact ⟨Nat.le_trans (by decide) (UInt32.le_iff_toNat_le.mp hlow), UInt32.le_iff_toNat_le.mp hhigh⟩

/-- The suffix of a release candidate. -/
def Tag.suffix (t : Tag) : Text := t.rc.elim [] fun n => "-rc".toList ++ n.chars

theorem Tag.suffix_noDot (t : Tag) : '.' ∉ t.suffix := by
  unfold suffix
  cases t.rc with
  | none => exact List.not_mem_nil
  | some n =>
    intro h
    rcases List.mem_append.mp h with h | h
    · exact absurd h (by decide)
    · exact n.noDot h

theorem Tag.sed_suffix (t : Tag) : sed t.suffix = t.rc.elim [] Number.chars := by
  unfold suffix
  cases t.rc with
  | none => rfl
  | some n =>
    show ("-rc".toList ++ n.chars).filter Char.isDigit = n.chars
    rw [List.filter_append]
    exact n.sed_chars

theorem Tag.fields_noDot (t : Tag) : ∀ field ∈ t.fields t.suffix, '.' ∉ field := by
  intro field hfield
  rcases List.mem_cons.mp hfield with rfl | hfield
  · intro h
    rcases List.mem_cons.mp h with h | h
    · exact absurd h (by decide)
    · exact isDigit_ne_dot t.major_isDigit (List.mem_singleton.mp h).symm
  · rcases List.mem_append.mp hfield with hfield | hfield
    · obtain ⟨n, -, rfl⟩ := List.mem_map.mp hfield
      exact n.noDot
    · rw [List.mem_singleton.mp hfield]
      intro h
      rcases List.mem_append.mp h with h | h
      · exact t.last.noDot h
      · exact t.suffix_noDot h

theorem Tag.splitOn_text (t : Tag) : t.text.splitOn '.' = t.fields t.suffix :=
  List.splitOn_intercalate '.' t.fields_noDot (by simp [Release.fields])

theorem Tag.map_sed_fields (t : Tag) : (t.fields t.suffix).map sed = t.readings := by
  have hmajor : sed ['v', t.major] = [t.major] := by
    rw [sed, List.filter_cons_of_neg (by decide), List.filter_cons_of_pos t.major_isDigit]
    rfl
  have hlast : sed (t.last.chars ++ t.suffix) = t.last.chars ++ t.rc.elim [] Number.chars := by
    rw [← t.sed_suffix, sed, sed, List.filter_append]
    rw [show t.last.chars.filter Char.isDigit = t.last.chars from t.last.sed_chars]
  have hmiddle : (t.middle.map Number.chars).map sed = t.middle.map Number.chars := by
    rw [List.map_map]
    exact List.map_congr_left fun n _ => n.sed_chars
  rw [Release.fields, readings, List.map_cons, List.map_append, hmajor, hmiddle,
    List.map_singleton, hlast]

/-- A component of a tag, for the loop. -/
theorem Tag.component_text (t : Tag) (i : Nat) :
    component (i + 1) t.text = t.readings.getD i [] := by
  have hlength : (t.fields t.suffix).length ≠ 1 := by simp [Release.fields]
  have hcut : cut (i + 1) t.text = (t.fields t.suffix).getD i [] := by
    rw [cut, splitOn_text]
    simp only [if_neg hlength, Nat.add_sub_cancel]
  rw [component, hcut, ← map_sed_fields, List.getD_eq_getElem?_getD, List.getD_eq_getElem?_getD,
    List.getElem?_map]
  cases (t.fields t.suffix)[i]? <;> rfl

/-- Each component has digits. -/
theorem Tag.readings_ne_nil (t : Tag) : ∀ digits ∈ t.readings, digits ≠ [] := by
  intro digits h
  rcases List.mem_cons.mp h with rfl | h
  · simp
  · rcases List.mem_append.mp h with h | h
    · obtain ⟨n, -, rfl⟩ := List.mem_map.mp h
      exact n.ne_nil
    · rw [List.mem_singleton.mp h]
      simp [t.last.ne_nil]

theorem Tag.getD_readings_eq_nil (t : Tag) {i : Nat} :
    t.readings.getD i [] = [] ↔ t.readings.length ≤ i := by
  rw [List.getD_eq_getElem?_getD]
  constructor
  · intro h
    by_contra hlt
    rw [List.getElem?_eq_getElem (Nat.lt_of_not_le hlt)] at h
    exact t.readings_ne_nil _ (List.getElem_mem _) h
  · intro h
    rw [List.getElem?_eq_none h]
    rfl

/-! ## The loop -/

/-- The order of two numbers, for the shell; of two that it does not read, neither is greater. -/
def shellOrder (a b : Text) : Ordering :=
  match shellNumber a, shellNumber b with
  | some x, some y => Differences.order x y
  | _, _ => .eq

theorem gt_iff (a b : Text) : gt a b = true ↔ shellOrder a b = .gt := by
  unfold gt shellOrder
  split <;> simp

theorem lt_iff (a b : Text) : lt a b = true ↔ shellOrder a b = .lt := by
  unfold lt gt shellOrder
  cases shellNumber a <;> cases shellNumber b <;> simp

/-- The order of the components at a position, for the shell. -/
def Tag.shellOrder (tot : Tag) (tag : Release) (i : Nat) : Ordering :=
  MergeKernel.shellOrder (tot.reading i) (tag.tag.reading i)

theorem Tag.reading_of_nil {t : Tag} {i : Nat} (h : t.readings.getD i [] = []) :
    t.reading i = ['0'] := by
  rw [reading, if_pos h]

/-- Behind the end of both tags, every component is 0. -/
theorem shellOrder_end {tot : Tag} {tag : Release} {i : Nat} (h : tot.readings.getD i [] = [])
    (h' : tag.tag.readings.getD i [] = []) (k : Nat) : tot.shellOrder tag (i + k) = .eq := by
  have htot : tot.readings.getD (i + k) [] = [] :=
    tot.getD_readings_eq_nil.mpr (Nat.le_add_right_of_le (tot.getD_readings_eq_nil.mp h))
  have htag : tag.tag.readings.getD (i + k) [] = [] :=
    tag.tag.getD_readings_eq_nil.mpr (Nat.le_add_right_of_le (tag.tag.getD_readings_eq_nil.mp h'))
  rw [Tag.shellOrder, Tag.reading_of_nil htot, Tag.reading_of_nil htag]
  decide

/-- A round of the loop, before the end of both tags. -/
theorem compareFrom_succ {tot : Tag} {tag : Release} {i : Nat}
    (h : ¬(tag.tag.readings.getD i [] = [] ∧ tot.readings.getD i [] = [])) (fuel : Nat) :
    compareFrom tag.text tot.text (fuel + 1) (i + 1) =
      if tot.shellOrder tag i = .gt then some 1
      else if tot.shellOrder tag i = .lt then some 0
      else compareFrom tag.text tot.text fuel (i + 1 + 1) := by
  have htag : component (i + 1) tag.text = tag.tag.readings.getD i [] := tag.tag.component_text i
  have hgt : gt (tot.reading i) (tag.tag.reading i) = true ↔
    tot.shellOrder tag i = .gt := gt_iff _ _
  have hlt : lt (tot.reading i) (tag.tag.reading i) = true ↔
    tot.shellOrder tag i = .lt := lt_iff _ _
  rw [compareFrom]
  simp only [htag, tot.component_text i, if_neg h]
  show (if gt (tot.reading i) (tag.tag.reading i) = true then some 1
    else if lt (tot.reading i) (tag.tag.reading i) = true then some 0 else _) = _
  simp only [hgt, hlt]

theorem compareFrom_end {tot : Tag} {tag : Release} {i : Nat}
    (h : tag.tag.readings.getD i [] = [] ∧ tot.readings.getD i [] = []) (fuel : Nat) :
    compareFrom tag.text tot.text (fuel + 1) (i + 1) = some 1 := by
  have htag : component (i + 1) tag.text = tag.tag.readings.getD i [] := tag.tag.component_text i
  rw [compareFrom]
  simp only [htag, tot.component_text i, if_pos h]

/-- With a round for every component, and one more, the loop ends. -/
theorem compareFrom_spec {tot : Tag} {tag : Release} {fuel i : Nat}
    (hi : i ≤ max tot.readings.length tag.tag.readings.length)
    (hfuel : max tot.readings.length tag.tag.readings.length < fuel + i) :
    ∃ status, compareFrom tag.text tot.text fuel (i + 1) = some status ∧ (status = 0 ∨ status = 1) ∧
      (status = 1 ↔ ¬Differences.Precedes (Differences.rest (tot.shellOrder tag) i)) := by
  induction fuel generalizing i with
  | zero => omega
  | succ fuel ih =>
    by_cases hend : tag.tag.readings.getD i [] = [] ∧ tot.readings.getD i [] = []
    · refine ⟨1, compareFrom_end hend fuel, .inr rfl, ?_⟩
      have heq : ∀ k, Differences.rest (tot.shellOrder tag) i k = .eq :=
        shellOrder_end hend.2 hend.1
      simp [Differences.not_precedes_of_eq heq]
    · have hlt : i < max tot.readings.length tag.tag.readings.length := by
        rw [tag.tag.getD_readings_eq_nil, tot.getD_readings_eq_nil] at hend
        omega
      have hfirst : Differences.rest (tot.shellOrder tag) i 0 = tot.shellOrder tag i := rfl
      rw [compareFrom_succ hend, Differences.precedes_step, Differences.rest_add, hfirst]
      cases tot.shellOrder tag i with
      | gt => exact ⟨1, rfl, .inr rfl, by simp⟩
      | lt => exact ⟨0, rfl, .inl rfl, by simp⟩
      | eq =>
        obtain ⟨status, hrun, hstatus, hiff⟩ := ih (i := i + 1) (by omega) (by omega)
        exact ⟨status, hrun, hstatus, by simpa using hiff⟩

/-- More rounds do not change the result. -/
theorem compareFrom_mono {tot : Tag} {tag : Release} {fuel fuel' i status : Nat}
    (hle : fuel ≤ fuel') (h : compareFrom tag.text tot.text fuel (i + 1) = some status) :
    compareFrom tag.text tot.text fuel' (i + 1) = some status := by
  induction fuel generalizing fuel' i with
  | zero => cases h
  | succ fuel ih =>
    obtain ⟨more, rfl⟩ : ∃ more, fuel' = more + 1 := ⟨fuel' - 1, by omega⟩
    by_cases hend : tag.tag.readings.getD i [] = [] ∧ tot.readings.getD i [] = []
    · rw [compareFrom_end hend] at h ⊢
      exact h
    · rw [compareFrom_succ hend] at h ⊢
      cases horder : tot.shellOrder tag i with
      | gt => simpa [horder] using h
      | lt => simpa [horder] using h
      | eq =>
        rw [horder] at h
        exact ih (Nat.le_of_succ_le_succ hle) h

/-! ## The tag is a release -/

theorem isNumber_chars (n : Number) : isNumber n.chars = true := by
  rw [isNumber, Bool.and_eq_true, List.all_eq_true]
  exact ⟨by simp [n.ne_nil], n.digits⟩

theorem matchesPattern_text (r : Release) : matchesPattern r.text = true := by
  have hsplit : r.text.splitOn '.' = r.fields [] := r.tag.splitOn_text
  have hnumbers : ∀ field ∈ r.middle.map Number.chars ++ [r.last.chars ++ []],
      isNumber field = true := by
    intro field hfield
    rcases List.mem_append.mp hfield with hfield | hfield
    · obtain ⟨n, -, rfl⟩ := List.mem_map.mp hfield
      exact isNumber_chars n
    · rw [List.mem_singleton.mp hfield, List.append_nil]
      exact isNumber_chars r.last
  rw [matchesPattern, hsplit, Release.fields]
  cases hfields : r.middle.map Number.chars ++ [r.last.chars ++ []] with
  | nil => simp at hfields
  | cons minor minors =>
    rw [hfields] at hnumbers
    simp only [Bool.and_eq_true, decide_eq_true_eq, List.all_eq_true]
    exact ⟨r.major_ok, hnumbers⟩

theorem exists_numbers {fields : List Text} (h : ∀ field ∈ fields, isNumber field = true) :
    ∃ numbers : List Number, numbers.map Number.chars = fields := by
  induction fields with
  | nil => exact ⟨[], rfl⟩
  | cons field fields ih =>
    obtain ⟨numbers, hnumbers⟩ := ih fun f hf => h f (List.mem_cons_of_mem field hf)
    have hfield := h field List.mem_cons_self
    rw [isNumber, Bool.and_eq_true, List.all_eq_true] at hfield
    have hne : field ≠ [] := by simpa using hfield.1
    exact ⟨⟨field, hne, hfield.2⟩ :: numbers, by rw [List.map_cons, hnumbers]⟩

/-- The lines that match `PATTERN` are the texts of the releases. -/
theorem matchesPattern_iff (line : Text) :
    matchesPattern line = true ↔ ∃ r : Release, r.text = line := by
  constructor
  · intro h
    rw [matchesPattern] at h
    split at h
    · next major minor minors hsplit =>
      rw [Bool.and_eq_true, Bool.and_eq_true, decide_eq_true_eq, decide_eq_true_eq,
        List.all_eq_true] at h
      obtain ⟨numbers, hnumbers⟩ := exists_numbers h.2
      have hne : numbers ≠ [] := by
        rintro rfl
        cases hnumbers
      refine ⟨⟨major, h.1, numbers.dropLast, numbers.getLast hne⟩, ?_⟩
      have hfields : numbers.dropLast.map Number.chars ++ [(numbers.getLast hne).chars] =
          minor :: minors := by
        rw [← hnumbers, ← List.map_singleton, ← List.map_append, List.dropLast_append_getLast hne]
      rw [Release.text, Release.fields, List.append_nil, hfields, ← hsplit,
        List.intercalate_splitOn]
    · cases h
  · rintro ⟨r, rfl⟩
    exact matchesPattern_text r

theorem exists_intercalate_concat (fields : List Text) (init : Text) (c : Char) :
    ∃ name, ['.'].intercalate (fields ++ [init ++ [c]]) = name ++ [c] := by
  induction fields with
  | nil => exact ⟨init, List.intercalate_singleton⟩
  | cons field fields ih =>
    obtain ⟨name, hname⟩ := ih
    refine ⟨field ++ ['.'] ++ name, ?_⟩
    rw [List.cons_append, List.intercalate_cons_of_ne_nil (by simp), hname,
      List.append_assoc _ name]

theorem Tag.exists_last (t : Tag) :
    ∃ init c, c.isDigit = true ∧ t.last.chars ++ t.suffix = init ++ [c] := by
  cases hrc : t.rc with
  | none =>
    refine ⟨t.last.chars.dropLast, _, t.last.digits _ (List.getLast_mem t.last.ne_nil), ?_⟩
    rw [List.dropLast_append_getLast, suffix, hrc]
    exact List.append_nil _
  | some n =>
    refine ⟨t.last.chars ++ "-rc".toList ++ n.chars.dropLast, _,
      n.digits _ (List.getLast_mem n.ne_nil), ?_⟩
    rw [List.append_assoc, List.dropLast_append_getLast, suffix, hrc, List.append_assoc]
    rfl

/-- A tag of the branch is one that `git describe` may return. -/
theorem matchesGlob_text (t : Tag) : matchesGlob t.text = true := by
  obtain ⟨init, c, hc, hlast⟩ := t.exists_last
  obtain ⟨name, hname⟩ := exists_intercalate_concat (t.middle.map Number.chars) init c
  have htext : t.text = 'v' :: t.major :: '.' :: (name ++ [c]) := by
    show ['.'].intercalate
      (['v', t.major] :: (t.middle.map Number.chars ++ [t.last.chars ++ t.suffix])) = _
    rw [hlast, List.intercalate_cons_of_ne_nil (by simp), hname]
    rfl
  obtain ⟨hlow, hhigh⟩ := t.major_ok
  rw [htext, matchesGlob, List.getLast?_concat]
  simp [hlow, hhigh, hc]

theorem mem_of_mem_intercalate {c d : Char} {fields : List Text} (h : c ∈ [d].intercalate fields) :
    c = d ∨ ∃ field ∈ fields, c ∈ field := by
  induction fields with
  | nil => cases h
  | cons field fields ih =>
    cases fields with
    | nil =>
      rw [List.intercalate_singleton] at h
      exact .inr ⟨field, List.mem_cons_self, h⟩
    | cons field' fields =>
      rw [List.intercalate_cons_cons] at h
      rcases List.mem_append.mp h with h | h
      · rcases List.mem_append.mp h with h | h
        · exact .inr ⟨field, List.mem_cons_self, h⟩
        · exact .inl (List.mem_singleton.mp h)
      · rcases ih h with h | ⟨f, hf, h⟩
        · exact .inl h
        · exact .inr ⟨f, List.mem_cons_of_mem _ hf, h⟩

/-- A release tag is one line. -/
theorem text_noNewline (r : Release) : '\n' ∉ r.text := by
  intro h
  rcases mem_of_mem_intercalate h with h | ⟨field, hfield, h⟩
  · exact absurd h (by decide)
  · rcases List.mem_cons.mp hfield with rfl | hfield
    · rcases List.mem_cons.mp h with h | h
      · exact absurd h (by decide)
      · have hdigit := r.major_isDigit
        rw [← List.mem_singleton.mp h] at hdigit
        exact absurd hdigit (by decide)
    · have hdigit : ∀ n : Number, '\n' ∉ n.chars := fun n hn => absurd (n.digits _ hn) (by decide)
      rcases List.mem_append.mp hfield with hfield | hfield
      · obtain ⟨n, -, rfl⟩ := List.mem_map.mp hfield
        exact hdigit n h
      · rw [List.mem_singleton.mp hfield, List.append_nil] at h
        exact hdigit r.last h

theorem vtag_text (r : Release) : vtag r.text = r.text := by
  have hnone := text_noNewline r
  have hlines : r.text.splitOn '\n' = [r.text] := by
    have hline : ∀ line ∈ [r.text], '\n' ∉ line := by simpa using hnone
    have hsplit := List.splitOn_intercalate '\n' hline (by simp)
    rwa [List.intercalate_singleton] at hsplit
  rw [vtag, hlines, List.filter_cons_of_pos (matchesPattern_text r), List.filter_nil,
    List.intercalate_singleton,
    List.rdropWhile_eq_self_iff]
  intro hne hlast
  have hmem := List.getLast_mem hne
  rw [eq_of_beq hlast] at hmem
  exact hnone hmem

theorem haveVersion_text (tot : Tag) (tag : Release) (fuel : Nat) :
    haveVersion tot.text fuel tag.text = compareFrom tag.text tot.text fuel 1 := by
  rw [haveVersion, if_neg (by rw [vtag_text]; exact fun h => h rfl)]

/-- The result, for every tag and every branch. -/
theorem haveVersion_spec (tot : Tag) (tag : Release) :
    ∃ fuel status, haveVersion tot.text fuel tag.text = some status ∧ (status = 0 ∨ status = 1) ∧
      (status = 1 ↔ ¬Differences.Precedes (tot.shellOrder tag)) := by
  have hrest : Differences.rest (tot.shellOrder tag) 0 = tot.shellOrder tag := by
    funext k
    rw [Differences.rest, Nat.zero_add]
  obtain ⟨status, hrun, hstatus, hiff⟩ :=
    @compareFrom_spec tot tag (max tot.readings.length tag.tag.readings.length + 1) 0
      (Nat.zero_le _)
      (Nat.lt_succ_self _)
  rw [hrest] at hiff
  rw [← haveVersion_text] at hrun
  exact ⟨_, status, hrun, hstatus, hiff⟩

theorem prepare_died_iff {status : Nat} (h : status = 0 ∨ status = 1) (tag ocbranch : Text) :
    (∃ message, prepare 0 tag ocbranch status = .died message) ↔ status = 1 := by
  rcases h with rfl | rfl
  · simp [prepare]
  · simp [prepare]

/-- The loop is right if the shell finds the difference that the numbers have. -/
theorem right_iff (tot : Tag) (tag : Release) :
    Right tot tag ↔ (Differences.Precedes (tot.shellOrder tag) ↔ tot.Before tag) := by
  obtain ⟨fuel, status, hrun, hstatus, hiff⟩ := haveVersion_spec tot tag
  constructor
  · rintro ⟨fuel', status', hrun', hiff', -⟩
    rw [haveVersion_text] at hrun hrun'
    have hsame : some status = some status' := by
      rw [← compareFrom_mono (Nat.le_max_left fuel fuel') hrun, ← compareFrom_mono
        (Nat.le_max_right fuel fuel') hrun']
    cases hsame
    exact not_iff_not.mp (hiff.symm.trans hiff')
  · intro hbefore
    exact ⟨fuel, status, hrun, hiff.trans (not_congr hbefore), prepare_died_iff hstatus⟩

end MergeKernel
