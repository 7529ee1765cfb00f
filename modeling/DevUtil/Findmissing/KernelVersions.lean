import Mathlib.Data.List.TakeWhile

/-!
# Kernel versions

`branch_order` and `version_list` of `getopen.py`.  A version is packed into one number with
two decimal digits for each of the minor numbers, so a number from 100 on is carried into the
one above it: v4.9.200 is taken for 4.11.

    u.packed < v.packed ↔ u.carried < v.carried                          (packed_lt_iff)
    the list is the branches between the two versions ↔ carrying moves
      no branch to the other side of a bound                             (version_list_iff)
-/

namespace Findmissing

/-! ## The functions -/

/-- The groups of `(?:v)?([0-9]+)\.([0-9]+)(?:\.([0-9]+))?`. -/
structure Numerics where
  major : List Char
  minor1 : List Char
  minor2 : Option (List Char)
deriving DecidableEq

/-- The match without the `v`; each group takes all the digits there are. -/
def numericsFrom (s : List Char) : Option Numerics :=
  let major := s.takeWhile Char.isDigit
  match s.dropWhile Char.isDigit with
  | '.' :: s =>
    let minor1 := s.takeWhile Char.isDigit
    if major = [] ∨ minor1 = [] then none
    else
      match s.dropWhile Char.isDigit with
      | '.' :: s =>
        let minor2 := s.takeWhile Char.isDigit
        some ⟨major, minor1, if minor2 = [] then none else some minor2⟩
      | _ => some ⟨major, minor1, none⟩
  | _ => none

/-- `extract_numerics.match` -/
def extractNumerics (branch : String) : Option Numerics :=
  match branch.toList with
  | 'v' :: s => numericsFrom s
  | s => numericsFrom s

/-- `int` of digits. -/
def intOf (digits : List Char) : Nat := Nat.ofDigitChars 10 digits 0

def branchOrder (branch : String) : Nat :=
  match extractNumerics branch with
  | some m => intOf m.major * 10000 + intOf m.minor1 * 100 + m.minor2.elim 0 intOf
  | none => 0

/-- `version_baseline.match(s).group(1)`: the numbers as they stand there. -/
def versionBaseline (s : String) : Option String :=
  (extractNumerics s).map fun m =>
    String.ofList (m.major ++ '.' :: (m.minor1 ++ m.minor2.elim [] ('.' :: ·)))

/-- `if start:` and the numeric part of it. -/
def baselineOf : Option String → Option String
  | none => none
  | some s => if s = "" then none else versionBaseline s

inductive ListError
  | indexError
deriving DecidableEq

/-- `branches[0]`, `branches[-1]` -/
def orIndexError : Option String → Except ListError String
  | some branch => .ok branch
  | none => .error .indexError

def versionList (branches : List String) (start stop : Option String) :
    Except ListError (List String) := do
  let first ← orIndexError ((baselineOf start).or branches.head?)
  let last ← orIndexError ((baselineOf stop).or branches.getLast?)
  -- without an end the last branch is matched as well
  let offset := if (baselineOf stop).isSome then 0 else 1
  let minOrder := branchOrder first
  let maxOrder := branchOrder last + offset
  return branches.filter fun x => decide (minOrder ≤ branchOrder x ∧ branchOrder x < maxOrder)

/-! ## Tags -/

/-- A number as it is written. -/
structure Digits where
  chars : List Char
  ne_nil : chars ≠ []
  isDigit : ∀ c ∈ chars, c.isDigit = true

def Digits.value (d : Digits) : Nat := intOf d.chars

/-- `[v]X.Y[.Z][-rcN]` -/
structure Tag where
  v : Bool
  major : Digits
  minor1 : Digits
  minor2 : Option Digits
  rc : Option Digits

/-- The numbers of a version. -/
def Tag.numbers (t : Tag) : List Char :=
  t.major.chars ++ '.' :: (t.minor1.chars ++ (t.minor2.map Digits.chars).elim [] ('.' :: ·))

def Tag.chars (t : Tag) : List Char :=
  (if t.v then ['v'] else []) ++ (t.numbers ++ t.rc.elim [] fun n => '-' :: 'r' :: 'c' :: n.chars)

def Tag.text (t : Tag) : String := String.ofList t.chars

/-- The three numbers of a version; one that is missing is 0. -/
structure Version where
  major : Nat
  minor1 : Nat
  minor2 : Nat
deriving DecidableEq

def Tag.version (t : Tag) : Version := ⟨t.major.value, t.minor1.value, t.minor2.elim 0 Digits.value⟩

/-- Compared from the left. -/
def Version.before (u v : Version) : Bool :=
  decide (u.major < v.major ∨ u.major = v.major ∧
    (u.minor1 < v.minor1 ∨ u.minor1 = v.minor1 ∧ u.minor2 < v.minor2))

def Version.packed (v : Version) : Nat := v.major * 10000 + v.minor1 * 100 + v.minor2

/-- Each hundred of a number is one of the number above it. -/
def Version.carried (v : Version) : Version :=
  ⟨v.major + (v.minor1 + v.minor2 / 100) / 100, (v.minor1 + v.minor2 / 100) % 100, v.minor2 % 100⟩

theorem packed_lt_iff (u v : Version) :
    u.packed < v.packed ↔ u.carried.before v.carried = true := by
  unfold Version.before
  rw [decide_eq_true_iff]
  simp only [Version.packed, Version.carried]
  omega

theorem carried_eq_self {v : Version} (h₁ : v.minor1 < 100) (h₂ : v.minor2 < 100) :
    v.carried = v := by
  have hdiv : v.minor2 / 100 = 0 := by omega
  have hdiv' : v.minor1 / 100 = 0 := by omega
  simp only [Version.carried, hdiv, hdiv', Nat.add_zero, Nat.mod_eq_of_lt h₁, Nat.mod_eq_of_lt h₂]

/-! ## The functions on tags -/

theorem takeWhile_digits (d : Digits) {c : Char} (hc : c.isDigit = false) (s : List Char) :
    (d.chars ++ c :: s).takeWhile Char.isDigit = d.chars ∧
      (d.chars ++ c :: s).dropWhile Char.isDigit = c :: s := by
  rw [List.takeWhile_append_of_pos d.isDigit, List.dropWhile_append_of_pos d.isDigit]
  rw [List.takeWhile_cons_of_neg (by simp [hc]), List.dropWhile_cons_of_neg (by simp [hc]),
    List.append_nil]
  exact ⟨rfl, rfl⟩

theorem dropWhile_digits (d : Digits) :
    d.chars.takeWhile Char.isDigit = d.chars ∧ d.chars.dropWhile Char.isDigit = [] :=
  ⟨List.takeWhile_eq_self_iff.mpr d.isDigit, List.dropWhile_eq_nil_iff.mpr d.isDigit⟩

/-- What may follow the numbers: nothing, or something that is neither a digit nor a dot with a
digit. -/
def Ended (s : List Char) : Prop := s = [] ∨ ∃ c rest, s = c :: rest ∧ c.isDigit = false ∧ c ≠ '.'

theorem digits_ended (d : Digits) {s : List Char} (hs : Ended s) :
    (d.chars ++ s).takeWhile Char.isDigit = d.chars ∧
      (d.chars ++ s).dropWhile Char.isDigit = s := by
  rcases hs with rfl | ⟨c, rest, rfl, hc, -⟩
  · rw [List.append_nil]
    exact dropWhile_digits d
  · exact takeWhile_digits d hc rest

theorem numericsFrom_numbers (t : Tag) {s : List Char} (hs : Ended s) :
    numericsFrom (t.numbers ++ s) =
      some ⟨t.major.chars, t.minor1.chars, t.minor2.map Digits.chars⟩ := by
  have hdot : ('.').isDigit = false := by decide
  have hne : ¬(t.major.chars = [] ∨ t.minor1.chars = []) :=
    fun h => h.elim t.major.ne_nil t.minor1.ne_nil
  unfold Tag.numbers numericsFrom
  rw [List.append_assoc, List.cons_append, List.append_assoc]
  obtain ⟨hmajor, hrest⟩ := takeWhile_digits t.major hdot
    (t.minor1.chars ++ ((t.minor2.map Digits.chars).elim [] ('.' :: ·) ++ s))
  rw [hmajor, hrest]
  cases hminor2 : t.minor2 with
  | none =>
    obtain ⟨hminor1, hend⟩ := digits_ended t.minor1 hs
    simp only [Option.map_none, Option.elim_none, List.nil_append, hminor1, hend, if_neg hne]
    rcases hs with rfl | ⟨c, rest, rfl, -, hc⟩
    · rfl
    · split
      · next heq => exact absurd (List.cons.inj heq).1 hc
      · rfl
  | some minor2 =>
    obtain ⟨hminor1, hrest'⟩ := takeWhile_digits t.minor1 hdot (minor2.chars ++ s)
    obtain ⟨hminor2', -⟩ := digits_ended minor2 hs
    simp only [Option.map_some, Option.elim_some, List.cons_append, hminor1, hrest',
      if_neg hne, hminor2',
      if_neg minor2.ne_nil]

theorem extractNumerics_text (t : Tag) :
    extractNumerics t.text = some ⟨t.major.chars, t.minor1.chars, t.minor2.map Digits.chars⟩ := by
  have hended : Ended (t.rc.elim [] fun n => '-' :: 'r' :: 'c' :: n.chars) := by
    cases t.rc with
    | none => exact .inl rfl
    | some n => exact .inr ⟨'-', _, rfl, by decide, by decide⟩
  have hnumbers := numericsFrom_numbers t hended
  have htext : t.text.toList = t.chars := String.toList_ofList
  unfold extractNumerics
  rw [htext, Tag.chars]
  cases t.v with
  | true => exact hnumbers
  | false =>
    obtain ⟨c, rest, hc⟩ := List.exists_cons_of_ne_nil t.major.ne_nil
    have hdigit : c.isDigit = true := t.major.isDigit c (by rw [hc]; exact List.mem_cons_self)
    have hcons : ∃ rest, t.numbers ++ (t.rc.elim [] fun n => '-' :: 'r' :: 'c' :: n.chars) =
        c :: rest := by
      unfold Tag.numbers
      rw [hc]
      exact ⟨_, rfl⟩
    obtain ⟨rest', hrest'⟩ := hcons
    rw [hrest'] at hnumbers
    show (match [] ++ (t.numbers ++ _) with | 'v' :: s => numericsFrom s | s => numericsFrom s) = _
    rw [List.nil_append, hrest']
    split
    · next heq =>
      obtain ⟨rfl, -⟩ := List.cons.inj heq
      exact absurd hdigit (by decide)
    · exact hnumbers

/-- The number of a tag without its `v` and `-rc`. -/
def Tag.baseline (t : Tag) : Tag := { t with v := false, rc := none }

theorem branchOrder_text (t : Tag) : branchOrder t.text = t.version.packed := by
  unfold branchOrder
  rw [extractNumerics_text]
  unfold Version.packed Tag.version Digits.value
  cases t.minor2 with
  | none => rfl
  | some minor2 => rfl

theorem versionBaseline_text (t : Tag) : versionBaseline t.text = some t.baseline.text := by
  unfold versionBaseline
  rw [extractNumerics_text]
  show some (String.ofList (t.numbers)) = some (String.ofList ([] ++ (t.numbers ++ [])))
  rw [List.nil_append, List.append_nil]

theorem text_ne_empty (t : Tag) : t.text ≠ "" := by
  intro h
  have hsome := extractNumerics_text t
  rw [h] at hsome
  cases hsome

/-! ## The list -/

/-- What `start` or `end` can be. -/
inductive Bound
  | missing
  | empty
  | tag (t : Tag)

def Bound.argument : Bound → Option String
  | .missing => none
  | .empty => some ""
  | .tag t => some t.text

def Bound.tag? : Bound → Option Tag
  | .missing => none
  | .empty => none
  | .tag t => some t

theorem baselineOf_argument (b : Bound) :
    baselineOf b.argument = b.tag?.map fun t => t.baseline.text := by
  cases b with
  | missing => rfl
  | empty => rfl
  | tag t =>
    show (if t.text = "" then none else versionBaseline t.text) = _
    rw [if_neg (text_ne_empty t), versionBaseline_text]
    rfl

/-- The branches from `start` to before `stop`; a bound that is not given bounds nothing. -/
def inRange (start stop : Bound) (b : Tag) : Bool :=
  (start.tag?.all fun s => !b.version.before s.version) &&
    stop.tag?.all fun e => b.version.before e.version

/-- What `version_list` selects in place of that. -/
def inPackedRange (branches : List Tag) (start stop : Bound) (b : Tag) : Bool :=
  ((start.tag?.or branches.head?).all fun s => !b.version.carried.before s.version.carried) &&
    match stop.tag? with
    | some e => b.version.carried.before e.version.carried
    | none => branches.getLast?.all fun last => !last.version.carried.before b.version.carried

/-- A bound that is given, or a branch of the list in its place. -/
theorem branchOrder_or {b : Bound} {branch : Option Tag} {t : Tag} (h : b.tag?.or branch = some t) :
    ∃ s, (baselineOf b.argument).or (branch.map Tag.text) = some s ∧
      branchOrder s = branchOrder t.text := by
  rw [baselineOf_argument]
  cases htag : b.tag? with
  | some t' =>
    rw [htag] at h
    obtain rfl := Option.some.inj h
    refine ⟨t'.baseline.text, rfl, ?_⟩
    rw [branchOrder_text, branchOrder_text]
    rfl
  | none =>
    rw [htag] at h
    have h : branch = some t := h
    rw [h]
    exact ⟨t.text, rfl, rfl⟩

theorem branchOrder_lt (u v : Tag) :
    branchOrder u.text < branchOrder v.text ↔
      u.version.carried.before v.version.carried = true := by
  rw [branchOrder_text, branchOrder_text, packed_lt_iff]

theorem branchOrder_le (u v : Tag) :
    branchOrder u.text ≤ branchOrder v.text ↔
      v.version.carried.before u.version.carried = false := by
  rw [← Bool.not_eq_true, ← branchOrder_lt]
  omega

/-- The upper bound; one more than the order of the last branch if there is no end. -/
theorem branchOrder_upper {branches : List Tag} {stop : Bound} {last : Tag}
    (h : stop.tag?.or branches.getLast? = some last) (b : Tag) :
    (branchOrder b.text < branchOrder last.text +
      if (baselineOf stop.argument).isSome then 0 else 1) ↔
      (match stop.tag? with
        | some e => b.version.carried.before e.version.carried
        | none =>
          branches.getLast?.all fun last => !last.version.carried.before b.version.carried) =
              true := by
  rw [baselineOf_argument]
  cases hstop : stop.tag? with
  | some t =>
    rw [hstop] at h
    obtain rfl := Option.some.inj h
    exact branchOrder_lt b t
  | none =>
    rw [hstop] at h
    have hlast : branches.getLast? = some last := h
    have hle := branchOrder_le b last
    simp only [hlast, Option.all_some, Bool.not_eq_true', ← hle]
    show branchOrder b.text < branchOrder last.text + 1 ↔ _
    omega

theorem versionList_text {branches : List Tag} {start stop : Bound}
    (h : branches ≠ [] ∨ start.tag?.isSome ∧ stop.tag?.isSome) :
    versionList (branches.map Tag.text) start.argument stop.argument =
      .ok ((branches.filter (inPackedRange branches start stop)).map Tag.text) := by
  obtain ⟨first, hfirst⟩ : ∃ first, start.tag?.or branches.head? = some first := by
    cases hstart : start.tag? with
    | some t => exact ⟨t, rfl⟩
    | none =>
      have hne := h.resolve_right (by simp [hstart])
      exact ⟨branches.head hne, List.head?_eq_some_head hne⟩
  obtain ⟨last, hlast⟩ : ∃ last, stop.tag?.or branches.getLast? = some last := by
    cases hstop : stop.tag? with
    | some t => exact ⟨t, rfl⟩
    | none =>
      have hne := h.resolve_right (by simp [hstop])
      exact ⟨branches.getLast hne, List.getLast?_eq_some_getLast hne⟩
  obtain ⟨s, hs, hlower⟩ := branchOrder_or hfirst
  obtain ⟨e, he, hupper⟩ := branchOrder_or hlast
  have hfilter : ∀ b : Tag, decide (branchOrder s ≤ branchOrder b.text ∧
      branchOrder b.text < branchOrder e + if (baselineOf stop.argument).isSome then 0 else 1) =
        inPackedRange branches start stop b := by
    intro b
    rw [hlower, hupper, inPackedRange, hfirst, Bool.eq_iff_iff, decide_eq_true_iff,
      Bool.and_eq_true,
      branchOrder_le first b, branchOrder_upper hlast b]
    simp
  unfold versionList
  rw [List.head?_map, List.getLast?_map, hs, he]
  show Except.ok ((branches.map Tag.text).filter _) = _
  rw [List.filter_map]
  exact congrArg (fun bs => Except.ok (bs.map Tag.text)) (List.filter_congr fun b _ => hfilter b)

/-- An empty list has no branch to put in the place of a bound that is not given. -/
theorem versionList_indexError {start stop : Bound} (h : ¬(start.tag?.isSome ∧ stop.tag?.isSome)) :
    versionList [] start.argument stop.argument = .error .indexError := by
  unfold versionList
  rw [baselineOf_argument, baselineOf_argument]
  cases hstart : start.tag? with
  | none => rfl
  | some s =>
    cases hstop : stop.tag? with
    | none => rfl
    | some e => exact absurd ⟨by rw [hstart]; rfl, by rw [hstop]; rfl⟩ h

theorem version_of_text {t u : Tag} (h : t.text = u.text) : t.version = u.version := by
  have hsome := extractNumerics_text t
  rw [h, extractNumerics_text u] at hsome
  have hgroups := Option.some.inj hsome
  have hmajor : u.major.chars = t.major.chars := congrArg Numerics.major hgroups
  have hminor1 : u.minor1.chars = t.minor1.chars := congrArg Numerics.minor1 hgroups
  have hminor2 : u.minor2.map Digits.chars = t.minor2.map Digits.chars :=
    congrArg Numerics.minor2 hgroups
  have hvalue : ∀ o : Option Digits, o.elim 0 Digits.value = (o.map Digits.chars).elim 0 intOf := by
    intro o
    cases o <;> rfl
  unfold Tag.version Digits.value
  rw [hmajor, hminor1]
  show Version.mk _ _ (t.minor2.elim 0 Digits.value) = Version.mk _ _ (u.minor2.elim 0 Digits.value)
  rw [hvalue, hvalue, hminor2]

/-- The list is the branches between the two versions ↔ no branch changes its side of a bound when
the hundreds of a number are carried into the next one; and that is the order of `branch_order`. -/
theorem version_list_iff (branches : List Tag) (start stop : Bound) :
    (versionList (branches.map Tag.text) start.argument stop.argument =
        .ok ((branches.filter (inRange start stop)).map Tag.text) ↔
      (branches ≠ [] ∨ start.tag?.isSome ∧ stop.tag?.isSome) ∧
        ∀ b ∈ branches, inRange start stop b = inPackedRange branches start stop b) ∧
    ∀ u v : Tag, branchOrder u.text < branchOrder v.text ↔
      u.version.carried.before v.version.carried = true := by
  refine ⟨⟨fun h => ?_, fun h => ?_⟩, branchOrder_lt⟩
  · have hanswer : branches ≠ [] ∨ start.tag?.isSome ∧ stop.tag?.isSome := by
      by_contra hnot
      obtain ⟨hnil, hbounds⟩ := not_or.mp hnot
      rw [not_not.mp hnil, List.map_nil, versionList_indexError hbounds] at h
      cases h
    refine ⟨hanswer, fun b hb => ?_⟩
    rw [versionList_text hanswer] at h
    have hmaps := Except.ok.inj h
    have hside : ∀ p q : Tag → Bool, (∀ t u : Tag, t.text = u.text → q t = q u) →
        (branches.filter p).map Tag.text = (branches.filter q).map Tag.text → p b = true →
            q b = true := by
      intro p q htext heq hp
      have hmem : b.text ∈ (branches.filter q).map Tag.text := by
        rw [← heq]
        exact List.mem_map_of_mem (List.mem_filter.mpr ⟨hb, hp⟩)
      obtain ⟨u, hu, htu⟩ := List.mem_map.mp hmem
      rw [htext b u htu.symm]
      exact (List.mem_filter.mp hu).2
    have hin : ∀ t u : Tag, t.text = u.text → inRange start stop t = inRange start stop u := by
      intro t u htu
      unfold inRange
      rw [version_of_text htu]
    have hpacked : ∀ t u : Tag, t.text = u.text →
        inPackedRange branches start stop t = inPackedRange branches start stop u := by
      intro t u htu
      unfold inPackedRange
      rw [version_of_text htu]
    rw [Bool.eq_iff_iff]
    exact ⟨hside _ _ hpacked hmaps.symm, hside _ _ hin hmaps⟩
  · obtain ⟨hanswer, hsides⟩ := h
    rw [versionList_text hanswer]
    exact congrArg (fun bs => Except.ok (bs.map Tag.text))
      (List.filter_congr fun b hb => (hsides b hb).symm)

/-- Numbers below 100 are not carried. -/
theorem branchOrder_strictMono {u v : Tag} (hu : u.version.minor1 < 100 ∧ u.version.minor2 < 100)
    (hv : v.version.minor1 < 100 ∧ v.version.minor2 < 100) :
    branchOrder u.text < branchOrder v.text ↔ u.version.before v.version = true := by
  rw [branchOrder_lt, carried_eq_self hu.1 hu.2, carried_eq_self hv.1 hv.2]

/-! ## A sublevel from 100 on -/

def digits (s : String) (h : s.toList ≠ [] ∧ s.toList.all Char.isDigit = true) : Digits :=
  ⟨s.toList, h.1, List.all_eq_true.mp h.2⟩

/-- `4.m` -/
def fourDot (m : String) (h : m.toList ≠ [] ∧ m.toList.all Char.isDigit = true) : Tag where
  v := false
  major := digits "4" (by decide)
  minor1 := digits m h
  minor2 := none
  rc := none

def v4_9_200 : Tag where
  v := true
  major := digits "4" (by decide)
  minor1 := digits "9" (by decide)
  minor2 := some (digits "200" (by decide))
  rc := none

example : versionList ["4.9", "4.10", "4.14"] (some "v4.9.200") none = .ok ["4.14"] := by decide

/-- 4.10 comes after v4.9.200 and is left out. -/
theorem version_list_carries : ¬∀ (branches : List Tag) (start stop : Bound),
    branches.Pairwise (fun b c => c.version.before b.version = false) →
      versionList (branches.map Tag.text) start.argument stop.argument =
        .ok ((branches.filter (inRange start stop)).map Tag.text) := by
  intro h
  have heq := h [fourDot "9" (by decide), fourDot "10" (by decide), fourDot "14" (by decide)]
    (.tag v4_9_200) .missing
    (by decide)
  revert heq
  decide

end Findmissing
