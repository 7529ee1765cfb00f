import DevUtil.Lib.NamedGroups
import DevUtil.Willis.ProjectMap
import Mathlib.Data.Char
import Mathlib.Data.List.Lex

/-!
# The state of one git tree

`checkGitTree` and `printResults` of `willis.go`. `git` is what running a command gives.

    a tree is left out of the list ↔ nothing is to be told of it:
      its only branch is the detached head, which does not differ from
      the tracking branch, or there is no branch, and no file is
      changed                                                       (blank_iff)
    the list depends on the reports only, not on the order in which
      they came in                                                  (printResults_congr)
-/

namespace Willis

open Lib Regex

/-! ## Colors -/

inductive Color
  | red
  | blue

def Color.code : Color → Text
  | red => "31".toList
  | blue => "34".toList

def colorize (text : Text) (newColor : Color) : Text :=
  "\x1b[".toList ++ newColor.code ++ 'm' :: (text ++ "\x1b[m".toList)

/-! ## Commands -/

/-- `unicode.IsSpace` -/
def isSpace (c : Char) : Bool :=
  [9, 10, 11, 12, 13, 32, 133, 160, 5760, 8232, 8233, 8239, 8287, 12288].contains c.toNat ||
    (8192 ≤ c.toNat && c.toNat ≤ 8202)

/-- `strings.TrimSpace` -/
def trimSpace (s : Text) : Text := (s.dropWhile isSpace).rdropWhile isSpace

/-- What a command leaves: its two outputs, and why it failed, if it did. -/
structure CommandResult where
  stdout : Text
  stderr : Text
  err : Option Text

/-- `runCommand`; `exec` gives the outputs as they are. -/
def runCommand (exec : List Text → CommandResult) (args : List Text) : CommandResult :=
  let result := exec args
  { result with stdout := result.stdout.rdropWhile (· = '\n'), stderr := trimSpace result.stderr }

/-! ## `checkGitTree` -/

structure GitTreeReport where
  branches : Text := []
  status : Text := []
  osErrors : Text := []
  errorMsg : Text := []
deriving DecidableEq

/-- `result.branches+result.status+result.osErrors+result.errorMsg == ""` -/
def GitTreeReport.blank (report : GitTreeReport) : Bool :=
  decide (report.branches ++ report.status ++ report.osErrors ++ report.errorMsg = [])

def notSpace : Regex := .char (· != ' ')

/-- `reDetached` -/
def reDetached : Regex :=
  .seq (all [.bol false, lit "* ", .star dot, lit "(HEAD detached ", .alt (lit "at") (lit "from"),
    lit " ", plus notSpace, lit ")",
    .star notSpace, lit " "]) (.seq (.group (plus notSpace)) .empty)

/-- `reNoBranch` -/
def reNoBranch : Regex :=
  .seq (all [.bol false, lit "* ", .star dot, lit "(no branch)", .star notSpace, lit " "])
    (.seq (.group (plus notSpace)) (lit " "))

/-- `re.FindStringSubmatch(s)[1]` for a pattern that begins with `^`. -/
def submatch (re : Regex) (s : Text) : Option Text :=
  ((re.go ⟨none, s, none⟩).head?).bind Cursor.group

/-- The sha in a line of `git branch` that is a default branch state. -/
def defaultSha (branch : Text) : Option Text :=
  (submatch reDetached branch).or (submatch reNoBranch branch)

/-- The loop over the branches stops at the first default state: the lines before it, its line, the
sha and the lines after it. -/
def findDefault : List Text → Option (List Text × Text × Text × List Text)
  | [] => none
  | branch :: branches =>
    match defaultSha branch with
    | some sha => some ([], branch, sha, branches)
    | none =>
      (findDefault branches).map fun (before, line, sha, after) =>
        (branch :: before, line, sha, after)

section

variable (git : List Text → CommandResult) (gitPath tracking : Text)

def branchCommand : List Text :=
  ["git".toList, "-C".toList, gitPath, "branch".toList, "-vv".toList, "--color".toList]

def diffCommand (sha : Text) : List Text :=
  ["git".toList, "-C".toList, gitPath, "diff".toList, sha, tracking]

def statusCommand : List Text := ["git".toList, "-C".toList, gitPath, "status".toList, "-s".toList]

/-- The report about a command that failed. -/
def failedReport (result : CommandResult) (message : String) (err : Text) : GitTreeReport where
  branches := result.stdout
  osErrors := result.stderr
  errorMsg := message.toList ++ err

/-- The end of `checkGitTree`, after the loop. -/
def statusReport (branches : List Text) (sha : Text) (headOk : Bool) : GitTreeReport :=
  let result := git (statusCommand gitPath)
  match result.err with
  | some err => failedReport result "failed to retrieve status information: " err
  | none =>
    if branches.length ≠ 1 ∨ sha = [] ∨ headOk = false ∨ result.stdout ≠ [] then
      { branches := ['\n'].intercalate branches, status := result.stdout }
    else {}

/-- The default state `branch` between other lines: its sha is compared with the tracking branch. -/
def headReport (before : List Text) (branch sha : Text) (after : List Text) : GitTreeReport :=
  let result := git (diffCommand gitPath tracking sha)
  match result.err with
  | some err => failedReport result "failed to compare branches: " err
  | none =>
    if result.stdout ≠ [] then
      statusReport git gitPath
        (before ++ (colorize "!!!! ".toList .red ++ branch) :: after) sha false
    else statusReport git gitPath (before ++ branch :: after) sha true

def checkGitTree : GitTreeReport :=
  let result := git (branchCommand gitPath)
  match result.err with
  | some err => failedReport result "failed to retrieve branch information: " err
  | none =>
    match findDefault (result.stdout.splitOn '\n') with
    | none => statusReport git gitPath (result.stdout.splitOn '\n') [] true
    | some (before, branch, sha, after) => headReport git gitPath tracking before branch sha after

/-- What was found is the tracking branch. -/
def SameAsTracking (sha : Text) : Prop :=
  (git (diffCommand gitPath tracking sha)).err = none ∧
    (git (diffCommand gitPath tracking sha)).stdout = []

/-- Nothing is to be told of a tree. -/
def InSync : Prop :=
  let branch := git (branchCommand gitPath)
  let status := git (statusCommand gitPath)
  branch.err = none ∧ status.err = none ∧ status.stdout = [] ∧
    (branch.stdout = [] ∨
      '\n' ∉ branch.stdout ∧ ∃ sha, defaultSha branch.stdout = some sha ∧
        SameAsTracking git gitPath tracking sha)

end

/-! ## The sha -/

theorem submatch_ne_nil {before after : Regex} {p : Char → Bool} (hafter : after.groupless = true)
    {s sha : Text}
    (h : submatch (.seq before (.seq (.group (plus (.char p))) after)) s = some sha) :
    sha ≠ [] := by
  obtain ⟨c, hc, hsha⟩ := Option.bind_eq_some_iff.mp h
  have hmem := List.mem_of_head? hc
  obtain ⟨c₁, -, hmem⟩ := List.mem_flatMap.mp hmem
  obtain ⟨c₂, hc₂, hmem⟩ := List.mem_flatMap.mp hmem
  obtain ⟨c₃, hc₃, rfl⟩ := List.mem_map.mp hc₂
  rw [group_go hafter hmem] at hsha
  obtain ⟨u, hu, hne, -⟩ := reads_plus_char c₁ c₃ hc₃
  rw [hu, take_read] at hsha
  exact Option.some.inj hsha ▸ hne

theorem defaultSha_ne_nil {branch sha : Text} (h : defaultSha branch = some sha) : sha ≠ [] := by
  unfold defaultSha at h
  rw [Option.or_eq_some_iff] at h
  rcases h with h | ⟨-, h⟩
  · exact submatch_ne_nil (by rfl) h
  · exact submatch_ne_nil (by rfl) h

theorem defaultSha_nil : defaultSha [] = none := by decide

theorem findDefault_eq {branches before after : List Text} {branch sha : Text}
    (h : findDefault branches = some (before, branch, sha, after)) :
    branches = before ++ branch :: after ∧ defaultSha branch = some sha := by
  induction branches generalizing before with
  | nil => cases h
  | cons b branches ih =>
    rw [findDefault] at h
    cases hb : defaultSha b with
    | some sha' =>
      rw [hb] at h
      cases h
      exact ⟨rfl, hb⟩
    | none =>
      rw [hb] at h
      obtain ⟨⟨before', line, sha', after'⟩, hfind, heq⟩ := Option.map_eq_some_iff.mp h
      cases heq
      obtain ⟨hbranches, hsha⟩ := ih hfind
      exact ⟨by rw [hbranches]; rfl, hsha⟩

/-! ## Trees that are left out -/

theorem blank_iff_nil {report : GitTreeReport} : report.blank = true ↔ report = {} := by
  obtain ⟨branches, status, osErrors, errorMsg⟩ := report
  simp [GitTreeReport.blank]

theorem failedReport_blank (result : CommandResult) {message : String}
    (hmessage : message.toList ≠ []) (err : Text) :
    (failedReport result message err).blank = false := by
  simp [GitTreeReport.blank, failedReport, hmessage]

variable {git : List Text → CommandResult} {gitPath tracking : Text}

theorem statusReport_blank {branches : List Text} {sha : Text} {headOk : Bool} :
    (statusReport git gitPath branches sha headOk).blank = true ↔
      (git (statusCommand gitPath)).err = none ∧ (git (statusCommand gitPath)).stdout = [] ∧
        (['\n'].intercalate branches = [] ∨ branches.length = 1 ∧ sha ≠ [] ∧ headOk = true) := by
  unfold statusReport
  dsimp only
  cases herr : (git (statusCommand gitPath)).err with
  | some err =>
    simp [failedReport_blank _ (by decide : "failed to retrieve status information: ".toList ≠ [])]
  | none =>
    simp only [true_and]
    split
    · next hmore =>
      rw [blank_iff_nil]
      constructor
      · intro heq
        obtain ⟨hbranches, hstatus⟩ : ['\n'].intercalate branches = [] ∧
            (git (statusCommand gitPath)).stdout = [] := by
          simpa using heq
        exact ⟨hstatus, .inl hbranches⟩
      · rintro ⟨hstatus, hbranches | ⟨hlength, hsha, hhead⟩⟩
        · rw [hbranches, hstatus]
        · simp [hlength, hsha, hhead, hstatus] at hmore
    · next hnone =>
      simp only [not_or, not_not] at hnone
      obtain ⟨hlength, hsha, hhead, hstatus⟩ := hnone
      simp only [blank_iff_nil, true_iff]
      refine ⟨hstatus, .inr ⟨hlength, hsha, ?_⟩⟩
      simpa using hhead

theorem not_mem_of_splitOn {c : Char} {s : Text} (h : (s.splitOn c).length = 1) : c ∉ s := by
  obtain ⟨t, ht⟩ := List.length_eq_one_iff.mp h
  have hmem : t ∈ s.splitOn c := by
    rw [ht]
    exact List.mem_singleton.mpr rfl
  have hs : s = t := by
    have hjoin : [c].intercalate (s.splitOn c) = s := List.intercalate_splitOn c
    rw [ht] at hjoin
    simpa using hjoin.symm
  rw [hs]
  exact PosixPath.not_mem_splitOn t hmem

theorem intercalate_ne_nil {before after : List Text} {line : Text} (hline : line ≠ []) :
    ['\n'].intercalate (before ++ line :: after) ≠ [] := by
  intro hnil
  cases before with
  | nil =>
    cases after with
    | nil => exact hline (by simpa using hnil)
    | cons next after => simp [List.intercalate_cons_cons] at hnil
  | cons first before =>
    rw [List.cons_append, List.intercalate_cons_of_ne_nil (by simp)] at hnil
    simp at hnil

theorem colorize_ne_nil (text : Text) (newColor : Color) : colorize text newColor ≠ [] := by
  simp [colorize]

/-- The head is reported unless its line is the only one, it is the tracking branch and no file is
changed. -/
theorem headReport_blank {before after : List Text} {branch sha : Text} (hsha : sha ≠ [])
    (hne : ['\n'].intercalate (before ++ branch :: after) ≠ []) :
    (headReport git gitPath tracking before branch sha after).blank = true ↔
      SameAsTracking git gitPath tracking sha ∧ (git (statusCommand gitPath)).err = none ∧
        (git (statusCommand gitPath)).stdout = [] ∧ (before ++ branch :: after).length = 1 := by
  unfold headReport SameAsTracking
  dsimp only
  cases hdiff : (git (diffCommand gitPath tracking sha)).err with
  | some err => simp [failedReport_blank _ (by decide : "failed to compare branches: ".toList ≠ [])]
  | none =>
    dsimp only
    split
    · next hdiffers =>
      have hmarked : ['\n'].intercalate
          (before ++ (colorize "!!!! ".toList .red ++ branch) :: after) ≠ [] :=
        intercalate_ne_nil (List.append_ne_nil_of_left_ne_nil (colorize_ne_nil _ _) branch)
      rw [statusReport_blank]
      simp only [hmarked, hdiffers, false_or, Bool.false_eq_true, and_false, false_and]
    · next hsame =>
      rw [not_not] at hsame
      rw [statusReport_blank]
      simp only [hne, hsame, hsha, false_or, ne_eq, not_false_eq_true, and_true, true_and]

/-- The only line is the one that was found. -/
theorem findDefault_line {stdout branch sha : Text} {before after : List Text}
    (h : findDefault (stdout.splitOn '\n') = some (before, branch, sha, after)) :
    (before ++ branch :: after).length = 1 ↔ '\n' ∉ stdout := by
  rw [← (findDefault_eq h).1]
  refine ⟨not_mem_of_splitOn, fun hline => ?_⟩
  rw [List.splitOn_eq_singleton hline]
  rfl

theorem findDefault_sha {stdout branch sha : Text} {before after : List Text}
    (hline : '\n' ∉ stdout)
    (h : findDefault (stdout.splitOn '\n') = some (before, branch, sha, after)) :
    defaultSha stdout = some sha := by
  obtain ⟨hbranches, hsha⟩ := findDefault_eq h
  rw [List.splitOn_eq_singleton hline, eq_comm, List.append_eq_singleton_iff] at hbranches
  rcases hbranches with ⟨-, hcons⟩ | ⟨-, hnil⟩
  · rw [← (List.cons.inj hcons).1, hsha]
  · cases hnil

theorem blank_iff : (checkGitTree git gitPath tracking).blank = true ↔
    InSync git gitPath tracking := by
  unfold checkGitTree InSync
  dsimp only
  cases herr : (git (branchCommand gitPath)).err with
  | some err =>
    simp [failedReport_blank _ (by decide : "failed to retrieve branch information: ".toList ≠ [])]
  | none =>
    simp only [true_and]
    generalize (git (branchCommand gitPath)).stdout = stdout
    cases hfind : findDefault (stdout.splitOn '\n') with
    | none =>
      have hnone : ∀ sha, '\n' ∉ stdout → defaultSha stdout ≠ some sha := by
        intro sha hline hsha
        rw [List.splitOn_eq_singleton hline, findDefault, hsha] at hfind
        cases hfind
      dsimp only
      rw [statusReport_blank, List.intercalate_splitOn]
      constructor
      · rintro ⟨hok, hstatus, hbranches | ⟨-, hsha, -⟩⟩
        · exact ⟨hok, hstatus, .inl hbranches⟩
        · exact absurd rfl hsha
      · rintro ⟨hok, hstatus, hbranches | ⟨hline, sha, hsha, -⟩⟩
        · exact ⟨hok, hstatus, .inl hbranches⟩
        · exact absurd hsha (hnone sha hline)
    | some found =>
      obtain ⟨before, branch, sha, after⟩ := found
      obtain ⟨hbranches, hsha⟩ := findDefault_eq hfind
      have hne : stdout ≠ [] := by
        rintro rfl
        rw [List.splitOn_nil, findDefault, defaultSha_nil] at hfind
        cases hfind
      dsimp only
      rw [headReport_blank (defaultSha_ne_nil hsha)
        (by rwa [← hbranches, List.intercalate_splitOn]), findDefault_line hfind]
      constructor
      · rintro ⟨hsame, hok, hstatus, hline⟩
        exact ⟨hok, hstatus, .inr ⟨hline, sha, findDefault_sha hline hfind, hsame⟩⟩
      · rintro ⟨hok, hstatus, hnil | ⟨hline, sha', hstdout, hsame⟩⟩
        · exact absurd hnil hne
        · rw [findDefault_sha hline hfind] at hstdout
          cases hstdout
          exact ⟨hsame, hok, hstatus, hline⟩

/-! ## `printResults` -/

/-- `sort.Strings` -/
def sortStrings (keys : List Text) : List Text := keys.insertionSort (· ≤ ·)

/-- One part of a report, on lines of its own. -/
def printPart (part : Text) (print : Text → Text) : List Text :=
  if part ≠ [] then [print part ++ ['\n']] else []

/-- What is written about one tree. -/
def printTree (key : Text) (report : GitTreeReport) : List Text :=
  [colorize key .blue ++ ['\n']] ++ printPart report.errorMsg (colorize · .red) ++
    printPart report.osErrors (colorize · .red) ++ printPart report.branches id ++
      printPart report.status id ++ [['\n']]

/-- The keys of the reports that are not blank. -/
def listedKeys (results : Dict Text GitTreeReport) : List Text :=
  (results.items.filter fun item => !item.2.blank).map Prod.fst

/-- What `printResults` writes. -/
def printResults (results : Dict Text GitTreeReport) : List Text :=
  ['\n'] :: (sortStrings (listedKeys results)).flatMap fun key =>
    printTree key ((results.get? key).getD {})

theorem mem_listedKeys {results : Dict Text GitTreeReport} {key : Text} :
    key ∈ listedKeys results ↔ ∃ report, results.get? key = some report ∧ report.blank = false := by
  unfold listedKeys
  simp only [List.mem_map, List.mem_filter, Bool.not_eq_true', Prod.exists, exists_and_right,
    exists_eq_right, Dict.mem_items]

theorem nodup_listedKeys (results : Dict Text GitTreeReport) : (listedKeys results).Nodup :=
  results.nodup.sublist (List.filter_sublist.map Prod.fst)

theorem sortStrings_congr {keys keys' : List Text} (h : keys.Perm keys') :
    sortStrings keys = sortStrings keys' := by
  apply List.Perm.eq_of_sortedLE List.sortedLE_insertionSort List.sortedLE_insertionSort
  exact (List.perm_insertionSort _ keys).trans (h.trans (List.perm_insertionSort _ keys').symm)

/-- What is printed depends on the report of every key, not on how the results were put together. -/
theorem printResults_congr {results results' : Dict Text GitTreeReport}
    (h : ∀ key, results.get? key = results'.get? key) :
    printResults results = printResults results' := by
  have hperm : (listedKeys results).Perm (listedKeys results') := by
    rw [List.perm_ext_iff_of_nodup (nodup_listedKeys results) (nodup_listedKeys results')]
    intro key
    rw [mem_listedKeys, mem_listedKeys, h key]
  unfold printResults
  rw [sortStrings_congr hperm]
  simp only [h]

end Willis
