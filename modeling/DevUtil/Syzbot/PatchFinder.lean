import Mathlib.Data.List.Infix
import Mathlib.Data.List.TakeWhile
import DevUtil.Lib.Dict
import DevUtil.Lib.Text

/-!
# Looking for missing patches

`PatchFinder.process` of `patchfinder.py`: a commit of the mainline is missing from a stable kernel
if the commit that it fixes is there. That one is looked up by the title on the `Fixes: ` line.

    the title is what is between the first two `"`    (commitstr_fixesLine)
    a commit that fixes a title without `"` is
      reported ↔ the title is in the stable kernel    (reported_iff)
    a report stays in the result of the whole loop    (mem_process)
    a title is found ↔ it has no `"`                  (recovered_iff)
-/

namespace SyzbotAutotriager.PatchFinder

open Lib

/-! ## Texts -/

/-- The lines of `cs`; `acc` is the line begun, reversed. -/
def linesFrom : List Char → Text → List Text
  | [], [] => []
  | [], acc => [acc.reverse]
  | '\r' :: '\n' :: cs, acc => acc.reverse :: linesFrom cs []
  | c :: cs, acc =>
    if c = '\n' ∨ c = '\r' then acc.reverse :: linesFrom cs [] else linesFrom cs (c :: acc)

/-- `s.splitlines()`, for bytes. -/
def splitlines (s : Text) : List Text := linesFrom s []

def fixesWord : Text := "Fixes: ".toList

def fixesStmt (body : Text) : Option Text :=
  (splitlines body).find? fun line => fixesWord.isPrefixOf line

/-- The text after the first `sep`, up to the next one. -/
def second (sep : Char) (s : Text) : Option Text := (s.splitOn sep)[1]?

def commitstr (fixestag : Text) : Option Text :=
  if '"' ∈ fixestag then second '"' fixestag
  else if '\'' ∈ fixestag then second '\'' fixestag
  else if '(' ∈ fixestag then second '(' fixestag
  else none

def keywords : List String :=
  ["overflow", "oob", "uaf", "use after free", "use-after-free", "kasan", "kmsan", "syzkaller",
    "reported-by: syzbot"]

def interestingKeywordIn (body : Text) : Bool :=
  keywords.any fun keyword => decide (keyword.toList <:+: body.map Char.toLower)

/-! ## `process` -/

/-- A commit in a database; of the stable one only the title is looked at. -/
structure Commit where
  commitid : Text
  title : Text
  body : Text
  files : Text

structure Finder where
  db : List Commit
  srcfiles : List Text

def Finder.commitInStable (p : Finder) (title : Text) : Bool :=
  p.db.any fun commit => commit.title == title

def Finder.commitIsInteresting (p : Finder) (files : List Text) : Bool :=
  p.srcfiles.any fun i => files.contains i

/-- `self.stats`, and the commits printed. -/
structure Report where
  stats : Dict String Nat
  missing : List Commit

def incstats (statsobj : Dict String Nat) (s : String) : Dict String Nat :=
  statsobj.set s ((statsobj.get? s).getD 0 + 1)

def Report.inc (r : Report) (s : String) : Report := { r with stats := incstats r.stats s }

/-- The body of the loop. -/
def Finder.visit (p : Finder) (r : Report) (commit : Commit) : Report :=
  let files := (splitlines commit.files).filter (· ≠ [])
  if !interestingKeywordIn commit.body then r
  else if p.commitInStable commit.title then r.inc "commit_already_in_stable"
  else if !p.commitIsInteresting files then r.inc "commit_is_not_interesting"
  else
    match fixesStmt commit.body with
    | none => r
    | some causer =>
      match commitstr causer with
      | none | some [] => r.inc "fixes_stmt_unparseable"
      | some cstr =>
        if !p.commitInStable cstr then r.inc "root_cause_present"
        else { r.inc "count" with missing := r.missing ++ [commit] }

def Finder.process (p : Finder) (mainline : List Commit) : Report :=
  mainline.foldl p.visit { stats := Dict.empty, missing := [] }

/-! ## The line of a fix -/

/-- `Fixes: <sha> ("<title>")` -/
def fixesLine (sha title : Text) : Text :=
  fixesWord ++ sha ++ " (\"".toList ++ title ++ "\")".toList

/-- The first line of the body that starts with `Fixes: `. -/
def FirstFixes (body line : Text) : Prop :=
  ∃ before after, splitlines body = before ++ line :: after ∧ fixesWord <+: line ∧
    ∀ l ∈ before, ¬fixesWord <+: l

/-- A commit that is of interest, and that the stable kernel does not have. -/
structure Finder.Candidate (p : Finder) (commit : Commit) : Prop where
  keyword : interestingKeywordIn commit.body = true
  notInStable : p.commitInStable commit.title = false
  built : p.commitIsInteresting ((splitlines commit.files).filter (· ≠ [])) = true

/-- The title is read from the body, and a fix of a commit that is in the stable kernel is
reported. -/
structure Recovered (body title : Text) : Prop where
  read : (fixesStmt body).bind commitstr = some title
  /-- `process` takes an empty title for one that it cannot read -/
  found : title ≠ [] →
    ∀ (p : Finder) (mainline : List Commit), ∀ commit ∈ mainline, commit.body = body →
    p.Candidate commit → (∃ fixed ∈ p.db, fixed.title = title) →
      commit ∈ (p.process mainline).missing

section

variable {body line sha title : Text}

theorem fixesStmt_eq (h : FirstFixes body line) : fixesStmt body = some line := by
  obtain ⟨before, after, hlines, hline, hbefore⟩ := h
  rw [fixesStmt, hlines, List.find?_append, List.find?_eq_none.mpr]
  · rw [Option.none_or, List.find?_cons_of_pos (List.isPrefixOf_iff_prefix.mpr hline)]
  · intro l hl
    exact mt List.isPrefixOf_iff_prefix.mp (hbefore l hl)

/-- The text up to the first `sep`. -/
theorem splitOn_head (sep : Char) (s : Text) :
    (s.splitOn sep)[0]? = some (s.takeWhile (· != sep)) := by
  induction s with
  | nil => rfl
  | cons c s ih =>
    rw [List.splitOn_cons_eq_if_modifyHead]
    by_cases hc : c = sep
    · simp [hc]
    · rw [if_neg (by simpa using hc), List.takeWhile_cons_of_pos (by simpa using hc)]
      cases hs : s.splitOn sep with
      | nil => simp [hs] at ih
      | cons first others =>
        rw [hs] at ih
        simpa using ih

theorem second_append {sep : Char} {u : Text} (hu : sep ∉ u) (s rest : Text) :
    second sep (u ++ sep :: (s ++ sep :: rest)) = some (s.takeWhile (· != sep)) := by
  rw [second, List.splitOn_append_cons_self_of_not_mem hu, List.splitOn_append_cons_self]
  have hhead := splitOn_head sep s
  cases hs : s.splitOn sep with
  | nil => exact absurd hs (List.splitOn_ne_nil sep s)
  | cons first others =>
    rw [hs] at hhead
    exact hhead

theorem commitstr_fixesLine (hsha : '"' ∉ sha) (title : Text) :
    commitstr (fixesLine sha title) = some (title.takeWhile (· != '"')) := by
  have hline : fixesLine sha title = (fixesWord ++ sha ++ " (".toList) ++
      '"' :: (title ++ '"' :: [')']) := by
    simp [fixesLine]
  have hbefore : '"' ∉ fixesWord ++ sha ++ " (".toList := by
    intro h
    rcases List.mem_append.mp h with h | h
    · rcases List.mem_append.mp h with h | h
      · exact absurd h (by decide)
      · exact hsha h
    · exact absurd h (by decide)
  rw [hline, commitstr, if_pos (by simp), second_append hbefore]

theorem takeWhile_eq_self (title : Text) : title.takeWhile (· != '"') = title ↔ '"' ∉ title := by
  rw [List.takeWhile_eq_self_iff]
  constructor
  · intro h hmem
    simpa using h _ hmem
  · intro h c hc
    exact bne_iff_ne.mpr fun heq => h (heq ▸ hc)

/-- What is looked up. -/
theorem bind_commitstr (hsha : '"' ∉ sha) (h : FirstFixes body (fixesLine sha title)) :
    (fixesStmt body).bind commitstr = some (title.takeWhile (· != '"')) := by
  rw [fixesStmt_eq h]
  exact commitstr_fixesLine hsha title

end

/-! ## What is reported -/

theorem reported_iff {p : Finder} {commit : Commit} (hcandidate : p.Candidate commit)
    {sha title : Text} (hsha : '"' ∉ sha)
    (h : FirstFixes commit.body (fixesLine sha title)) (htitle : '"' ∉ title) (hne : title ≠ [])
    (r : Report) :
    (p.visit r commit).missing = r.missing ++ [commit] ↔ p.commitInStable title = true := by
  have hread : commitstr (fixesLine sha title) = some title := by
    rw [commitstr_fixesLine hsha, (takeWhile_eq_self title).mpr htitle]
  obtain ⟨c, title, rfl⟩ := List.exists_cons_of_ne_nil hne
  simp only [Finder.visit, hcandidate.keyword, hcandidate.notInStable, hcandidate.built,
    fixesStmt_eq h, hread,
    Bool.not_true, Bool.false_eq_true, if_false]
  cases p.commitInStable (c :: title) <;> simp [Report.inc]

/-- What has been reported stays so. -/
theorem missing_visit (p : Finder) (r : Report) (commit : Commit) :
    r.missing <+: (p.visit r commit).missing := by
  unfold Finder.visit
  dsimp only
  split
  · exact List.prefix_rfl
  · split
    · exact List.prefix_rfl
    · split
      · exact List.prefix_rfl
      · split
        · exact List.prefix_rfl
        · split
          · exact List.prefix_rfl
          · exact List.prefix_rfl
          · split
            · exact List.prefix_rfl
            · exact List.prefix_append _ _

theorem missing_foldl (p : Finder) (mainline : List Commit) (r : Report) :
    r.missing <+: (mainline.foldl p.visit r).missing := by
  induction mainline generalizing r with
  | nil => exact List.prefix_rfl
  | cons commit mainline ih => exact (missing_visit p r commit).trans (ih _)

/-- A commit that is reported where it is visited is in the report of the whole loop. -/
theorem mem_process {p : Finder} {mainline : List Commit} {commit : Commit}
    (hin : commit ∈ mainline) (h : ∀ r, (p.visit r commit).missing = r.missing ++ [commit]) :
    commit ∈ (p.process mainline).missing := by
  obtain ⟨before, after, rfl⟩ := List.append_of_mem hin
  rw [Finder.process, List.foldl_append, List.foldl_cons]
  apply (missing_foldl p after _).subset
  rw [h]
  exact List.mem_append_right _ List.mem_cons_self

/-! ## Which titles are found -/

theorem recovered_iff (body sha title : Text) (hsha : '"' ∉ sha)
    (h : FirstFixes body (fixesLine sha title)) :
    Recovered body title ↔ '"' ∉ title := by
  rw [← takeWhile_eq_self]
  constructor
  · intro hrecovered
    have hread := hrecovered.read
    rw [bind_commitstr hsha h] at hread
    exact Option.some.inj hread
  · intro htitle
    have hread : (fixesStmt body).bind commitstr = some title := by
      rw [bind_commitstr hsha h, htitle]
    refine ⟨hread, ?_⟩
    rintro hne p mainline commit hcommit rfl hcandidate ⟨fixed, hfixed, heq⟩
    have hstable : p.commitInStable title = true :=
      List.any_eq_true.mpr ⟨fixed, hfixed, beq_iff_eq.mpr heq⟩
    have hquote := (takeWhile_eq_self title).mp htitle
    exact mem_process hcommit fun r => (reported_iff hcandidate hsha h hquote hne r).mpr hstable

/-- The body of a fix. -/
def bodyOf (title : Text) : Text :=
  "A use-after-free.\n\n".toList ++ fixesLine "c0ffee".toList title ++ "\n".toList

theorem recovered_iff_leak : Recovered (bodyOf "mm: fix a leak".toList) "mm: fix a leak".toList ↔
    '"' ∉ "mm: fix a leak".toList :=
  recovered_iff _ "c0ffee".toList _ (by decide)
    ⟨["A use-after-free.".toList, []], [], by decide, by decide, by decide⟩

/-- The title of a revert is cut off at its own quote. -/
theorem not_recovered : ¬∀ body sha title, '"' ∉ sha → '\n' ∉ title →
    FirstFixes body (fixesLine sha title) → Recovered body title := by
  intro h
  have hrevert :=
    h (bodyOf "Revert \"mm\"".toList) "c0ffee".toList "Revert \"mm\"".toList (by decide) (by decide)
    ⟨["A use-after-free.".toList, []], [], by decide, by decide, by decide⟩
  exact absurd hrevert.read (by decide)

end SyzbotAutotriager.PatchFinder
