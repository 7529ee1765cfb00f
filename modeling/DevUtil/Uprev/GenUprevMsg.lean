import Mathlib.Data.List.Infix
import Mathlib.Data.List.Dedup
import Mathlib.Data.List.Sort
import DevUtil.Lib.Fields
import DevUtil.Lib.Separators
import DevUtil.Lib.Text

/-!
# Messages of firmware uprevs

`gen_uprev_msg.py`: a changelog is parsed, and a commit message printed. The bugs of the message are
packed into lines. A bug that is too long for the line begun is dropped with the line break, and the
length of the next line is counted without its `BUG=`.

    all bugs fit on one line → that line is printed       (bugLoop_fits)
    otherwise a line less than all bugs is printed        (colons_bugLoop_lt)
    the lines have each bug of a listed CL once, and are
      not too long ↔ all bugs fit on one line             (bugLines_iff)
-/

namespace Uprev

open Lib

def maxLength : Nat := 72

/-! ## The changelog -/

def afterPrefix (word s : Text) : Option Text :=
  if word.isPrefixOf s then some (s.drop word.length) else none

/-- `[0-9\.]` -/
def isVersionChar (c : Char) : Bool := c.isDigit || c == '.'

/-- `([0-9\.]+)`, and what is after it. -/
def version (s : Text) : Option (Text × Text) :=
  match s.takeWhile isVersionChar with
  | [] => none
  | v => some (v, s.dropWhile isVersionChar)

/-- `re.match(CHANGES_PATTERN, line)` -/
def changesOf (line : Text) : Option (Text × Text) := do
  let (old, rest) ← (afterPrefix "Changes between ".toList line).bind version
  let (new, _) ← (afterPrefix " and ".toList rest).bind version
  return (old, new)

structure CL where
  commit : Text
  cl : Option Int
  bug : Option Int
  title : Text
deriving DecidableEq

/-- `int(s) if s else None`; nothing where `int` raises a `ValueError`. -/
def intField (int : Text → Option Int) (s : Text) : Option (Option Int) :=
  if s = [] then some none else (int s).map some

/-- What becomes of a line for a CL. -/
inductive Parsed where
  | cl (cl : CL)
  | noCl
  | valueError

def parseCl (int : Text → Option Int) (line : Text) : Parsed :=
  match line.splitOn '\t' with
  | [commit, cl, bug, _, _, title] =>
    match intField int cl, intField int bug with
    | some cl, some bug => .cl { commit := commit, cl := cl, bug := bug, title := title }
    | _, _ => .valueError
  | _ => .noCl

/-- The variables of the loop; the last list of `repos` is `cl_list`. -/
structure Changelog where
  changes : Option (Text × Text)
  repos : List (Text × List CL)
  repo : Option Text
  ignoredRepos : List Text
  skippedLines : List Text
deriving DecidableEq

def addToLast (cl : CL) : List (Text × List CL) → List (Text × List CL)
  | [] => []
  | [(repo, clList)] => [(repo, clList ++ [cl])]
  | r :: repos => r :: addToLast cl repos

/-- `tokens[0]`, if the line is the name of a repository. -/
def repoOf (line : Text) : Option Text :=
  match fields line with
  | [token] => if '/' ∈ token then some token else none
  | _ => none

def parseLine (int : Text → Option Int) (includedRepos : List Text) (c : Changelog)
    (rawline : Text) : Option Changelog :=
  let line := Separators.trim isSpace rawline
  if c.changes.isNone then some { c with changes := changesOf line }
  else
    match repoOf line with
    | some repo =>
      if includedRepos.contains repo then some { c with repos := c.repos ++ [(repo, [])],
                                                        repo := some repo }
      else some { c with ignoredRepos := c.ignoredRepos ++ [repo], repo := none }
    | none =>
      if c.repo.isNone then some c
      else
        match parseCl int line with
        | .cl cl => some { c with repos := addToLast cl c.repos }
        | .noCl => some { c with skippedLines := c.skippedLines ++ [line] }
        | .valueError => none

def parseLines (int : Text → Option Int) (includedRepos : List Text) (lines : List Text) :
    Option Changelog :=
  lines.foldlM (parseLine int includedRepos)
    { changes := none, repos := [], repo := none, ignoredRepos := [], skippedLines := [] }

/-! ## Lines of the repositories -/

/-- `str(n)` -/
def str (n : Int) : Text :=
  if n < 0 then '-' :: Nat.toDigits 10 n.natAbs else Nat.toDigits 10 n.natAbs

/-- `tokens[0]` of `title.rsplit(None, 1)`, if there are two. -/
def rsplit (title : Text) : Option Text :=
  match ((title.rdropWhile isSpace).rdropWhile fun c => !isSpace c).rdropWhile isSpace with
  | [] => none
  | first => some first

/-- The `while` loop; each round takes a word away. -/
def shorten (titleMaxLen : Int) : Nat → Text → Text
  | 0, title => title
  | fuel + 1, title =>
    if titleMaxLen < title.length then
      match rsplit title with
      | none => title
      | some first => shorten titleMaxLen fuel first
    else title

/-- `not cl.cl` is false. -/
def CL.listed (cl : CL) : Bool := cl.cl.any (· ≠ 0)

def clLine (isPrivate : Bool) (cl : CL) : Text :=
  let clStr := (if isPrivate then "CL:*".toList else "CL:".toList) ++ str (cl.cl.getD 0)
  let titleMaxLen : Int := maxLength - clStr.length - 1 - 4
  ' ' :: clStr ++ '\t' :: shorten titleMaxLen cl.title.length cl.title

def repoLines (r : Text × List CL) : List Text :=
  let isPrivate := decide ("private".toList <:+: r.1)
  [[], r.1] ++ (r.2.filter CL.listed).map (clLine isPrivate)

/-! ## Lines of the bugs -/

/-- The bugs of the CLs that are listed, with repetitions. -/
def bugsOf (repos : List (Text × List CL)) : List Int :=
  repos.flatMap fun r => (r.2.filter CL.listed).filterMap fun cl => cl.bug.filter (· ≠ 0)

/-- `sorted(bugs)` -/
def sortedBugs (repos : List (Text × List CL)) : List Int :=
  (bugsOf repos).dedup.insertionSort (· ≤ ·)

def bugText (bug : Int) : Text :=
  if 100000000 ≤ bug then "b:".toList ++ str bug else "chromium:".toList ++ str bug

def bugPrefix : Text := "BUG=".toList

/-- `bug = ', ' + bug`, if there is one before it. -/
def joined (lineBugs : List Text) (bug : Text) : Text :=
  if lineBugs = [] then bug else ", ".toList ++ bug

/-- The loop over the bugs, and the line after it. -/
def bugLoop : List Text → Nat → List Text → List Text
  | lineBugs, _, [] => if lineBugs = [] then [] else [bugPrefix ++ lineBugs.flatten]
  | lineBugs, length, bug :: bugs =>
    let bug := joined lineBugs bug
    if length + bug.length ≤ maxLength then bugLoop (lineBugs ++ [bug]) (length + bug.length) bugs
    else (bugPrefix ++ lineBugs.flatten) :: bugLoop [] 0 bugs

def bugLines (repos : List (Text × List CL)) : List Text :=
  bugLoop [] bugPrefix.length ((sortedBugs repos).map bugText)

/-! ## The message -/

def headLines (board old new : Text) (repos : List (Text × List CL)) : List Text :=
  ["chromeos-firmware-".toList ++ board ++ ": Uprev firmware to ".toList ++ new ++
    " for ".toList ++ board, [],
    "Changes between ".toList ++ old ++ " and ".toList ++ new ++ ":".toList] ++
    repos.flatMap repoLines ++ [[], "BRANCH=none".toList]

def tailLines (board : Text) : List Text :=
  ["TEST=emerge-".toList ++ board ++ " chromeos-firmware-".toList ++ board]

/-- The lines of a message are the ones before the bugs, of the bugs, and after them. -/
inductive Outcome where
  | noRepo
  | valueError
  | typeError
  | message (head bugs tail : List Text)

/-- `main` after its options. -/
def main (int : Text → Option Int) (board : Text) (includedRepos lines : List Text) : Outcome :=
  match parseLines int includedRepos lines with
  | none => .valueError
  | some c =>
    if c.repos = [] then .noRepo
    else
      match c.changes with
      | none => .typeError
      | some (old, new) =>
        .message (headLines board old new c.repos) (bugLines c.repos) (tailLines board)

/-- The repositories that are included, with their CLs. -/
def reposOf (int : Text → Option Int) (includedRepos lines : List Text) : List (Text × List CL) :=
  ((parseLines int includedRepos lines).map Changelog.repos).getD []

/-! ## Bug lines -/

/-- `BUG=` and a list of bugs. -/
def bugLine (bugs : List Int) : Text := bugPrefix ++ (", ".toList).intercalate (bugs.map bugText)

/-- The bug is one of a CL that is listed. -/
def Listed (repos : List (Text × List CL)) (bug : Int) : Prop :=
  ∃ r ∈ repos, ∃ cl ∈ r.2, cl.listed = true ∧ cl.bug = some bug ∧ bug ≠ 0

/-- The lines are lists of bugs, which have each bug of a listed CL once, and no line is too
long. -/
def GoodBugLines (repos : List (Text × List CL)) (lines : List Text) : Prop :=
  ∃ groups : List (List Int), lines = groups.map bugLine ∧ [] ∉ groups ∧ groups.flatten.Nodup ∧
    (∀ bug, bug ∈ groups.flatten ↔ Listed repos bug) ∧ ∀ line ∈ lines, line.length ≤ maxLength

/-! ## The loop -/

/-- The bugs, with `, ` between them, and before the first one if a line is begun. -/
def joinFrom : Bool → List Text → Text
  | _, [] => []
  | begun, bug :: bugs => (if begun then ", ".toList ++ bug else bug) ++ joinFrom true bugs

theorem joinFrom_eq_intercalate (bugs : List Text) :
    joinFrom false bugs = (", ".toList).intercalate bugs := by
  have hbegun : ∀ (bug : Text) (bugs : List Text), bug ++ joinFrom true bugs =
      (", ".toList).intercalate (bug :: bugs) := by
    intro bug bugs
    induction bugs generalizing bug with
    | nil => simp [joinFrom]
    | cons b bugs ih =>
      rw [joinFrom, if_pos rfl, List.append_assoc, ih b,
        List.intercalate_cons_of_ne_nil (List.cons_ne_nil b bugs)]
      simp
  cases bugs with
  | nil => rfl
  | cons bug bugs => exact hbegun bug bugs

theorem bugLine_eq (bugs : List Int) :
    bugLine bugs = bugPrefix ++ joinFrom false (bugs.map bugText) := by
  rw [bugLine, joinFrom_eq_intercalate]

theorem joinFrom_cons (lineBugs : List Text) (bug : Text) (bugs : List Text) :
    joinFrom (!lineBugs.isEmpty) (bug :: bugs) = joined lineBugs bug ++
      joinFrom (!(lineBugs ++ [joined lineBugs bug]).isEmpty) bugs := by
  have hbegun : (!(lineBugs ++ [joined lineBugs bug]).isEmpty) = true := by simp
  rw [joinFrom, hbegun]
  cases lineBugs <;> rfl

/-- A line that takes all bugs. -/
theorem bugLoop_fits {lineBugs : List Text} {length : Nat} {bugs : List Text}
    (h : length + (joinFrom (!lineBugs.isEmpty) bugs).length ≤ maxLength) :
    bugLoop lineBugs length bugs =
      if lineBugs = [] ∧ bugs = [] then []
      else [bugPrefix ++ (lineBugs.flatten ++ joinFrom (!lineBugs.isEmpty) bugs)] := by
  induction bugs generalizing lineBugs length with
  | nil =>
    rw [bugLoop, joinFrom, List.append_nil]
    simp
  | cons bug bugs ih =>
    rw [joinFrom_cons, List.length_append] at h
    rw [bugLoop, if_pos (by omega), ih (by omega), joinFrom_cons]
    simp

/-- The colons of the lines, of which each bug has one. -/
def colons (lines : List Text) : Nat := lines.flatten.count ':'

theorem colons_cons (line : Text) (lines : List Text) :
    colons (line :: lines) = line.count ':' + colons lines := by
  rw [colons, List.flatten_cons, List.count_append, colons]

theorem count_bugPrefix (s : Text) : (bugPrefix ++ s).count ':' = s.count ':' := by
  rw [List.count_append, show bugPrefix.count ':' = 0 by decide, Nat.zero_add]

theorem count_comma (s : Text) : (", ".toList ++ s).count ':' = s.count ':' := by
  rw [List.count_append, show (", ".toList).count ':' = 0 by decide, Nat.zero_add]

theorem count_joined {bug : Text} (hbug : bug.count ':' = 1) (lineBugs : List Text) :
    (joined lineBugs bug).count ':' = 1 := by
  unfold joined
  split
  · exact hbug
  · rw [count_comma, hbug]

theorem count_str (n : Int) : (str n).count ':' = 0 := by
  have hdigits : ∀ k, (Nat.toDigits 10 k).count ':' = 0 := by
    intro k
    rw [List.count_eq_zero]
    intro h
    exact absurd (Fields.digits_toDigits k ':' h) (by decide)
  unfold str
  split
  · rw [List.count_cons_of_ne (by decide), hdigits]
  · exact hdigits _

theorem count_bugText (bug : Int) : (bugText bug).count ':' = 1 := by
  unfold bugText
  split
  · rw [List.count_append, count_str]
    decide
  · rw [List.count_append, count_str]
    decide

/-- No bug is printed twice. -/
theorem colons_bugLoop_le {lineBugs bugs : List Text} (hbugs : ∀ bug ∈ bugs, bug.count ':' = 1)
    (length : Nat) :
    colons (bugLoop lineBugs length bugs) ≤ lineBugs.flatten.count ':' + bugs.length := by
  induction bugs generalizing lineBugs length with
  | nil =>
    rw [bugLoop]
    split
    · exact Nat.zero_le _
    · rw [colons_cons, count_bugPrefix]
      simp [colons]
  | cons bug bugs ih =>
    have hone := count_joined (hbugs bug List.mem_cons_self) lineBugs
    have hrest : ∀ b ∈ bugs, b.count ':' = 1 := fun b hb => hbugs b (List.mem_cons_of_mem bug hb)
    rw [bugLoop, List.length_cons]
    split
    · have hle :=
        @ih (lineBugs ++ [joined lineBugs bug]) hrest (length + (joined lineBugs bug).length)
      rw [List.flatten_append, List.count_append, List.flatten_singleton, hone] at hle
      omega
    · have hle := @ih [] hrest 0
      rw [List.flatten_nil, List.count_nil] at hle
      rw [colons_cons, count_bugPrefix]
      omega

/-- A bug that does not fit is lost. -/
theorem colons_bugLoop_lt {lineBugs bugs : List Text} (hbugs : ∀ bug ∈ bugs, bug.count ':' = 1)
    {length : Nat} (hbegun : length ≤ maxLength)
    (h : maxLength < length + (joinFrom (!lineBugs.isEmpty) bugs).length) :
    colons (bugLoop lineBugs length bugs) < lineBugs.flatten.count ':' + bugs.length := by
  induction bugs generalizing lineBugs length with
  | nil =>
    rw [joinFrom, List.length_nil] at h
    omega
  | cons bug bugs ih =>
    have hone := count_joined (hbugs bug List.mem_cons_self) lineBugs
    have hrest : ∀ b ∈ bugs, b.count ':' = 1 := fun b hb => hbugs b (List.mem_cons_of_mem bug hb)
    rw [joinFrom_cons, List.length_append] at h
    rw [bugLoop, List.length_cons]
    split
    · next hfits =>
      have hlt := @ih (lineBugs ++ [joined lineBugs bug]) hrest _ hfits (by omega)
      rw [List.flatten_append, List.count_append, List.flatten_singleton, hone] at hlt
      omega
    · have hle := @colons_bugLoop_le [] bugs hrest 0
      rw [List.flatten_nil, List.count_nil] at hle
      rw [colons_cons, count_bugPrefix]
      omega

/-! ## The bugs of the message -/

theorem mem_bugsOf {repos : List (Text × List CL)} {bug : Int} :
    bug ∈ bugsOf repos ↔ Listed repos bug := by
  unfold bugsOf Listed
  rw [List.mem_flatMap]
  constructor
  · rintro ⟨r, hr, hbug⟩
    obtain ⟨cl, hcl, hfilter⟩ := List.mem_filterMap.mp hbug
    obtain ⟨hcl, hlisted⟩ := List.mem_filter.mp hcl
    obtain ⟨hsome, hne⟩ := Option.filter_eq_some_iff.mp hfilter
    exact ⟨r, hr, cl, hcl, hlisted, hsome, by simpa using hne⟩
  · rintro ⟨r, hr, cl, hcl, hlisted, hsome, hne⟩
    exact ⟨r, hr, List.mem_filterMap.mpr ⟨cl, List.mem_filter.mpr ⟨hcl, hlisted⟩,
      Option.filter_eq_some_iff.mpr ⟨hsome, by simpa using hne⟩⟩⟩

theorem mem_sortedBugs {repos : List (Text × List CL)} {bug : Int} :
    bug ∈ sortedBugs repos ↔ Listed repos bug := by
  rw [sortedBugs, List.mem_insertionSort, List.mem_dedup, mem_bugsOf]

theorem nodup_sortedBugs (repos : List (Text × List CL)) : (sortedBugs repos).Nodup :=
  (List.perm_insertionSort _ _).nodup_iff.mpr (List.nodup_dedup _)

theorem count_joinFrom (begun : Bool) (bugs : List Int) :
    (joinFrom begun (bugs.map bugText)).count ':' = bugs.length := by
  induction bugs generalizing begun with
  | nil => rfl
  | cons bug bugs ih =>
    rw [List.map_cons, joinFrom, List.count_append, ih, List.length_cons]
    cases begun with
    | true => rw [if_pos rfl, count_comma, count_bugText, Nat.add_comm]
    | false => rw [if_neg Bool.false_ne_true, count_bugText, Nat.add_comm]

theorem colons_map_bugLine (groups : List (List Int)) :
    colons (groups.map bugLine) = groups.flatten.length := by
  induction groups with
  | nil => rfl
  | cons g groups ih =>
    rw [List.map_cons, colons_cons, ih, bugLine_eq, count_bugPrefix, count_joinFrom,
      List.flatten_cons, List.length_append]

/-- The lines are as they should be exactly if one line is enough. -/
theorem bugLines_iff (repos : List (Text × List CL)) :
    GoodBugLines repos (bugLines repos) ↔ (bugLine (sortedBugs repos)).length ≤ maxLength := by
  have hone : ∀ bug ∈ (sortedBugs repos).map bugText, bug.count ':' = 1 := by
    intro bug hbug
    obtain ⟨n, -, rfl⟩ := List.mem_map.mp hbug
    exact count_bugText n
  rw [bugLine_eq, List.length_append]
  constructor
  · rintro ⟨groups, hlines, -, hnodup, hmem, -⟩
    by_contra hlong
    have hlt := @colons_bugLoop_lt [] _ hone bugPrefix.length (by decide) (Nat.not_le.mp hlong)
    have hperm : groups.flatten.Perm (sortedBugs repos) := by
      rw [List.perm_ext_iff_of_nodup hnodup (nodup_sortedBugs repos)]
      intro bug
      rw [hmem, mem_sortedBugs]
    rw [← bugLines, hlines, colons_map_bugLine, hperm.length_eq, List.length_map, List.flatten_nil,
      List.count_nil] at hlt
    omega
  · intro hfits
    have hlines := @bugLoop_fits [] _ _ hfits
    rw [← bugLines] at hlines
    cases hbugs : sortedBugs repos with
    | nil =>
      refine ⟨[], by
          rw [hlines, hbugs]; rfl, by simp, List.nodup_nil, ?_, by rw [hlines, hbugs]; simp⟩
      intro bug
      rw [← mem_sortedBugs, hbugs]
      rfl
    | cons bug bugs =>
      rw [hbugs] at hlines hfits
      have hlines : bugLines repos = [bug :: bugs].map bugLine := by
        rw [hlines, List.map_singleton, bugLine_eq]
        rfl
      refine ⟨[bug :: bugs], hlines, by simp, ?_, ?_, ?_⟩
      · rw [List.flatten_singleton, ← hbugs]
        exact nodup_sortedBugs repos
      · intro b
        rw [List.flatten_singleton, ← mem_sortedBugs, hbugs]
      · intro line hline
        rw [hlines] at hline
        rw [List.mem_singleton.mp hline, bugLine_eq, List.length_append]
        exact hfits

/-! ## Every changelog -/

section

variable {int : Text → Option Int} {includedRepos : List Text}

theorem fst_mem_addToLast {cl : CL} {repos : List (Text × List CL)} {r : Text × List CL}
    (h : r ∈ addToLast cl repos) :
    r.1 ∈ repos.map Prod.fst := by
  induction repos using addToLast.induct with
  | case1 => cases h
  | case2 repo clList =>
    rw [addToLast, List.mem_singleton] at h
    subst h
    exact List.mem_cons_self
  | case3 r' repos _ ih =>
    rw [addToLast] at h
    · rcases List.mem_cons.mp h with rfl | h
      · exact List.mem_cons_self
      · exact List.mem_cons_of_mem _ (ih h)
    · assumption

theorem included_parseLine {c c' : Changelog} {line : Text}
    (h : parseLine int includedRepos c line = some c') (hc : ∀ r ∈ c.repos, r.1 ∈ includedRepos) :
    ∀ r ∈ c'.repos, r.1 ∈ includedRepos := by
  unfold parseLine at h
  simp only at h
  split at h
  · cases h
    exact hc
  · split at h
    · split at h
      · next hincluded =>
        cases h
        intro r hr
        rcases List.mem_append.mp hr with hr | hr
        · exact hc r hr
        · rw [List.mem_singleton.mp hr]
          exact List.contains_iff_mem.mp hincluded
      · cases h
        exact hc
    · split at h
      · cases h
        exact hc
      · split at h
        · cases h
          intro r hr
          obtain ⟨r', hr', heq⟩ := List.mem_map.mp (fst_mem_addToLast hr)
          exact heq ▸ hc r' hr'
        · cases h
          exact hc
        · cases h

theorem included_foldlM {lines : List Text} {c c' : Changelog}
    (h : lines.foldlM (parseLine int includedRepos) c = some c')
    (hc : ∀ r ∈ c.repos, r.1 ∈ includedRepos) : ∀ r ∈ c'.repos, r.1 ∈ includedRepos := by
  induction lines generalizing c with
  | nil =>
    cases h
    exact hc
  | cons line lines ih =>
    rw [List.foldlM_cons] at h
    obtain ⟨c₁, hline, hrest⟩ := Option.bind_eq_some_iff.mp h
    exact ih hrest (included_parseLine hline hc)

/-- The repositories of the message are included ones. -/
theorem included_reposOf {lines : List Text} :
    ∀ r ∈ reposOf int includedRepos lines, r.1 ∈ includedRepos := by
  unfold reposOf parseLines
  cases h : lines.foldlM (parseLine int includedRepos)
      { changes := none, repos := [], repo := none, ignoredRepos := [], skippedLines := [] } with
  | none => simp
  | some c => exact included_foldlM h (by simp)

theorem main_eq {lines : List Text} {c : Changelog} {old new : Text}
    (hparse : parseLines int includedRepos lines = some c) (hrepos : c.repos ≠ [])
    (hchanges : c.changes = some (old, new)) (board : Text) :
    main int board includedRepos lines = .message (headLines board old new c.repos)
      (bugLines c.repos) (tailLines board) := by
  simp only [main, hparse, if_neg hrepos, hchanges]

/-- What is printed for the bugs. -/
theorem message_bugs {board : Text} {lines head bugs tail : List Text}
    (h : main int board includedRepos lines = .message head bugs tail) :
    bugs = bugLines (reposOf int includedRepos lines) := by
  unfold main at h
  unfold reposOf
  split at h
  · cases h
  · next c hc =>
    rw [hc]
    split at h
    · cases h
    · split at h
      · cases h
      · cases h
        rfl

end

/-- The message is of included repositories, and its lines have their bugs exactly if one line is
enough. -/
theorem message_bugs_iff (int : Text → Option Int) (board : Text)
    (includedRepos lines head bugs tail : List Text)
    (h : main int board includedRepos lines = .message head bugs tail) :
    (∀ r ∈ reposOf int includedRepos lines, r.1 ∈ includedRepos) ∧
    (GoodBugLines (reposOf int includedRepos lines) bugs ↔
      (bugLine (sortedBugs (reposOf int includedRepos lines))).length ≤ maxLength) := by
  rw [message_bugs h]
  exact ⟨included_reposOf, bugLines_iff _⟩

/-! ## Changelogs -/

/-- Two CLs with the same bug, one with a bug of the other kind, one that is not listed, and one of
a repository that is not included. -/
def someLines : List Text :=
  ["Changes between 12573.80.0 and 12573.88.0", "src/platform/ec", "c\t7\t8\td\ta\tt",
    "c\t9\t100000001\td\ta\tt",
    "src/platform/other", "c\t3\t5\td\ta\tt", "src/third_party/coreboot", "c\t10\t8\td\ta\tt",
    "c\t\t6\td\ta\tt"].map String.toList

def someRepos : List Text := ["src/platform/ec".toList, "src/third_party/coreboot".toList]

/-- The changelog as it is parsed. -/
def someParsed : Changelog where
  changes := some ("12573.80.0".toList, "12573.88.0".toList)
  repos := [("src/platform/ec".toList,
      [⟨['c'], some 7, some 8, ['t']⟩, ⟨['c'], some 9, some 100000001, ['t']⟩]),
    ("src/third_party/coreboot".toList,
      [⟨['c'], some 10, some 8, ['t']⟩, ⟨['c'], none, some 6, ['t']⟩])]
  repo := some "src/third_party/coreboot".toList
  ignoredRepos := ["src/platform/other".toList]
  skippedLines := []

theorem parseLines_someLines : parseLines Fields.int someRepos someLines = some someParsed := by
  decide +kernel

theorem message_bugs_iff_someLines :
    ∃ head tail, main Fields.int "hatch".toList someRepos someLines =
        .message head ["BUG=chromium:8, b:100000001".toList] tail ∧
      GoodBugLines (reposOf Fields.int someRepos someLines)
        ["BUG=chromium:8, b:100000001".toList] := by
  have hrepos : reposOf Fields.int someRepos someLines = someParsed.repos := by
    rw [reposOf, parseLines_someLines]
    rfl
  have hbugs : bugLines someParsed.repos = ["BUG=chromium:8, b:100000001".toList] := by
    decide +kernel
  have hmain := main_eq parseLines_someLines (List.cons_ne_nil _ _) rfl "hatch".toList
  rw [hbugs] at hmain
  refine ⟨_, _, hmain,
    (message_bugs_iff Fields.int "hatch".toList someRepos someLines _ _ _ hmain).2.mpr ?_⟩
  rw [hrepos]
  decide +kernel

/-! ## Six bugs -/

def ecRepo : Text := "src/platform/ec".toList

/-- A changelog with a CL for each of the bugs. -/
def changelogOf (bugs : List String) : List Text :=
  "Changes between 12573.80.0 and 12573.88.0".toList :: ecRepo ::
    bugs.map fun bug => "c\t7\t".toList ++ bug.toList ++ "\td\ta\tt".toList

/-- The changelog as it is parsed. -/
def parsedOf (bugs : List Int) : Changelog where
  changes := some ("12573.80.0".toList, "12573.88.0".toList)
  repos :=
    [(ecRepo, bugs.map fun bug => { commit := ['c'], cl := some 7, bug := some bug,
                                    title := ['t'] })]
  repo := some ecRepo
  ignoredRepos := []
  skippedLines := []

/-- Six bugs, of which five fit on a line. -/
def sixBugs : List Int := [100000001, 100000002, 100000003, 100000004, 100000005, 100000006]

def sixLines : List Text :=
  changelogOf ["100000001", "100000002", "100000003", "100000004", "100000005", "100000006"]

theorem parseLines_sixBugs : parseLines Fields.int [ecRepo] sixLines = some (parsedOf sixBugs) := by
  decide +kernel

theorem reposOf_sixBugs : reposOf Fields.int [ecRepo] sixLines = (parsedOf sixBugs).repos := by
  rw [reposOf, parseLines_sixBugs]
  rfl

theorem sortedBugs_sixBugs : sortedBugs (parsedOf sixBugs).repos = sixBugs := by decide

/-- The sixth bug is lost. -/
theorem not_goodBugLines : ¬∀ int board includedRepos lines head bugs tail,
    main int board includedRepos lines = .message head bugs tail →
    (∀ bug, Listed (reposOf int includedRepos lines) bug → (bugLine [bug]).length ≤ maxLength) →
    GoodBugLines (reposOf int includedRepos lines) bugs := by
  intro h
  have hmessage := main_eq parseLines_sixBugs (List.cons_ne_nil _ _) rfl "hatch".toList
  have hgood := h Fields.int "hatch".toList [ecRepo] sixLines _ _ _ hmessage
  rw [reposOf_sixBugs, bugLines_iff, sortedBugs_sixBugs] at hgood
  refine absurd (hgood ?_) (by decide)
  intro bug hbug
  rw [← mem_sortedBugs, sortedBugs_sixBugs] at hbug
  have hall : (sixBugs.all fun bug => decide ((bugLine [bug]).length ≤ maxLength)) = true := by
    decide
  exact of_decide_eq_true (List.all_eq_true.mp hall bug hbug)

end Uprev
