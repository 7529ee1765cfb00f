import DevUtil.Lib.Feed
import DevUtil.Lib.Regex
import DevUtil.Lib.Text
import DevUtil.Findmissing.Schema

/-!
# Commits

What git shows of a commit, and what `common.py` and `initdb_*.py` read from it.

A branch is a linear history after a tag, one that `git pull` makes longer.
Patch ids and abbreviated shas are git's own; `Git` is a parameter of the model.
-/

namespace Findmissing

open Lib Regex

/-- The changes to one file, without line numbers and white space. -/
structure FileDiff where
  path : String
  hunks : List (List String)
deriving DecidableEq

/-- The changed files in the order of the diff, no file twice. -/
structure Diff where
  files : List FileDiff
  nodup : (files.map FileDiff.path).Nodup
deriving DecidableEq

def Diff.empty : Diff := ⟨[], List.nodup_nil⟩

/-- `[0-9a-f]` -/
def isHexDigit (c : Char) : Bool := c.isDigit || ('a' ≤ c && c ≤ 'f')

structure IsSha (name : String) : Prop where
  ne : name ≠ ""
  hex : ∀ c ∈ name.toList, isHexDigit c = true

instance (name : String) : Decidable (IsSha name) :=
  decidable_of_iff (name ≠ "" ∧ name.toList.all isHexDigit = true)
    ⟨fun h => ⟨h.1, List.all_eq_true.mp h.2⟩, fun h => ⟨h.ne, List.all_eq_true.mpr h.hex⟩⟩

structure Commit where
  /-- abbreviated to 12 characters -/
  sha : Sha
  isSha : IsSha sha
  /-- the subject, as `git log` prints it -/
  description : String
  /-- more than one parent -/
  merge : Bool
  /-- `git show -s` -/
  message : String
  /-- `git show -s --pretty=format:%b` -/
  body : String
  diff : Diff
deriving DecidableEq

/-- The commits of a branch after a tag, oldest first. -/
abbrev History := Feed Commit.sha

/-- A clone: the commits of a branch, and the commit that git finds for a name. -/
structure Clone where
  history : History
  find : String → Option Commit
  find_sha : ∀ c ∈ history.items, find c.sha = some c

/-- The clone when `n` commits are there. -/
def Clone.take (r : Clone) (n : Nat) : Clone where
  history := r.history.take n
  find := r.find
  find_sha c hc := r.find_sha c (List.mem_of_mem_take hc)

/-- A clone that has the branch only. -/
def Clone.only (h : History) : Clone where
  history := h
  find name := h.items.find? fun c => decide (c.sha = name)
  find_sha c hc := by
    cases hfind : h.items.find? fun c' => decide (c'.sha = c.sha) with
    | none =>
      have hnone := List.find?_eq_none.mp hfind c hc
      exact absurd (decide_eq_true rfl) hnone
    | some c' =>
      have hsha := List.find?_some (p := fun c' : Commit => decide (c'.sha = c.sha)) hfind
      rw [Feed.eq_of_id (List.mem_of_find?_eq_some hfind) hc (of_decide_eq_true hsha)]

structure Git where
  /-- what `git show sha | git patch-id` prints -/
  patchId : Commit → String
  /-- what `git show sha | git patch-id --stable` prints -/
  patchIdStable : Commit → String
  /-- `git show -s --pretty=format:%h name`, if git knows the name -/
  showAbbrev : String → Option Sha

/-! ## The lines of the log -/

/-- What `git log --abbrev=12 --oneline` prints of a commit. -/
def Commit.oneline (c : Commit) : String := c.sha ++ " " ++ c.description ++ "\n"

/-- The lines that the loops go over, the blank ones left out.  The description of one commit may be
many lines: a form feed or a line separator (U+2028) in it ends a line for Python, not for git. -/
def logLines (commits : List Commit) : List String :=
  (splitlines (String.join (commits.map Commit.oneline))).filter (· ≠ "")

/-- What stands in the line of the commit. -/
def Commit.title (c : Commit) : String := (splitlines (c.description ++ "\n")).headD ""

/-- The lines that the rest of the description gives. -/
def Commit.others (c : Commit) : List String :=
  (splitlines (c.description ++ "\n")).tail.filter (· ≠ "")

theorem isLineBreak_eq_false {c : Char} (h : isHexDigit c = true) : isLineBreak c = false := by
  by_contra hbreak
  have hmem : c.toNat ∈ [10, 11, 12, 13, 28, 29, 30, 133, 8232, 8233] :=
    List.contains_iff_mem.mp (Bool.of_not_eq_false hbreak)
  have hnone : ∀ n ∈ [10, 11, 12, 13, 28, 29, 30, 133, 8232, 8233],
      isHexDigit (Char.ofNat n) = false := by decide
  have hc := hnone _ hmem
  rw [Char.ofNat_toNat, h] at hc
  cases hc

theorem IsSha.no_blank {name : String} (h : IsSha name) : ' ' ∉ name.toList := by
  intro hin
  have hhex := h.hex _ hin
  revert hhex
  decide

theorem toList_oneline (c : Commit) :
    c.oneline.toList = (c.sha.toList ++ [' ']) ++ ((c.description ++ "\n").toList) := by
  simp [Commit.oneline]

theorem oneline_lines (c : Commit) :
    (splitlines c.oneline).filter (· ≠ "") = (c.sha ++ " " ++ c.title) :: c.others := by
  obtain ⟨l, ls, hl⟩ := exists_linesFrom c.description.toList
  have hdesc : splitlines (c.description ++ "\n") = String.ofList l :: ls := by
    unfold splitlines
    rw [String.toList_append]
    exact hl []
  have hword : ∀ x ∈ c.sha.toList ++ [' '], isLineBreak x = false := by
    intro x hx
    rcases List.mem_append.mp hx with hx | hx
    · exact isLineBreak_eq_false (c.isSha.hex x hx)
    · rw [List.mem_singleton.mp hx]
      decide
  have hlines : splitlines c.oneline = (c.sha ++ " " ++ String.ofList l) :: ls := by
    unfold splitlines
    rw [toList_oneline, linesFrom_append hword, String.toList_append, List.append_nil]
    refine (hl _).trans (congrArg (· :: ls) ?_)
    apply String.toList_inj.mp
    simp
  have hfirst : c.sha ++ " " ++ String.ofList l ≠ "" := by
    intro he
    have hlist := congrArg String.toList he
    simp at hlist
  rw [hlines, Commit.title, Commit.others, hdesc]
  exact List.filter_cons_of_pos (decide_eq_true hfirst)

/-- The lines of the log are those of its commits, one after the other. -/
theorem logLines_cons (c : Commit) (commits : List Commit) :
    logLines (c :: commits) = (c.sha ++ " " ++ c.title) :: c.others ++ logLines commits := by
  have hjoin : (String.join ((c :: commits).map Commit.oneline)).toList =
      ((c.sha ++ " " ++ c.description).toList) ++
        '\n' :: (String.join (commits.map Commit.oneline)).toList := by
    simp [Commit.oneline]
  have hone : (c.sha ++ " " ++ c.description).toList ++ ['\n'] = c.oneline.toList := by
    simp [Commit.oneline]
  rw [← oneline_lines]
  unfold logLines splitlines
  rw [hjoin, linesFrom_append_newline, List.filter_append, hone]

theorem logLines_append (as bs : List Commit) :
    logLines (as ++ bs) = logLines as ++ logLines bs := by
  induction as with
  | nil => rfl
  | cons c as ih => rw [List.cons_append, logLines_cons, logLines_cons, ih, List.append_assoc]

/-! ## The upstream commit that a message names -/

/-- `(?:commit )+([0-9a-f]+)` -/
def commitSha : Regex := .seq (plus (lit "commit ")) (.group (plus hexDigit))

/-- `cherry picked from (?:commit )+([0-9a-f]+)` -/
def cherryPickedFrom : Regex := .seq (lit "cherry picked from ") commitSha

/-- `^\s*(?:commit )+([a-f0-9]+) upstream` -/
def commitUpstream : Regex := all [.bol true, .star space, commitSha, lit " upstream"]

/-- `^\s*\[\s*Upstream (?:commit )+([0-9a-f]+)\s*\]` -/
def upstreamCommit : Regex :=
  all [.bol true, .star space, lit "[", .star space, lit "Upstream ", commitSha,
    .star space, lit "]"]

/-- The upstream sha that a commit is picked from; the last one if it was picked many times. -/
def searchUpstreamSha (desc : String) : Option Sha :=
  let m := cherryPickedFrom.findall desc
  let m := if m.isEmpty then commitUpstream.findall desc else m
  let m := if m.isEmpty then upstreamCommit.findall desc else m
  m.getLast?.map fun usha => String.ofList (usha.toList.take 12)

example : searchUpstreamSha "    commit 0123456789abcdef upstream." = some "0123456789ab" := by
  decide

/-- `(CHROMIUM: *|FROMLIST: *)+(.*)` -/
def CHROMIUM : Regex :=
  all
    [plus
      (.alt (.seq (lit "CHROMIUM:") (.star (lit " "))) (.seq (lit "FROMLIST:") (.star (lit " ")))),
    .star dot]

/-! ## The commits that a message fixes -/

/-- `^\s*Fixes: (?:commit )*([0-9a-f]+).*` -/
def RF : Regex :=
  all [.bol false, .star space, lit "Fixes: ", .star (lit "commit "),
    .group (plus hexDigit), .star dot]

/-- `.* \("([^"]+)"\).*` -/
def RDESC : Regex :=
  all [.star dot, lit " (\"", .group (plus (.char (· != '"'))), lit "\")", .star dot]

end Findmissing
