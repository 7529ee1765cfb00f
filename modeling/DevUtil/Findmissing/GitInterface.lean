import DevUtil.Lib.Deletion
import DevUtil.Lib.Prog
import DevUtil.Lib.Text
import DevUtil.Findmissing.Schema

/-!
# `git_interface.py`

The functions that change a kernel repository, over the git commands that they run.  A
command may fail at any time; `Repo` says what git does where it does not.

    checkout_and_clean makes no commit; where it returns, HEAD and the
      files are the branch's                                                 (wp_checkoutAndClean)
    it can return                                                            (exec_checkoutAndClean)
-/

namespace Findmissing.GitInterface

open Lib Prog Regex

/-! ## Commands -/

/-- The commands; `false`, or no output, is a non-zero exit. -/
inductive GitOp : Type → Type
  /-- `git reset -q --hard HEAD` -/
  | resetHead : GitOp Bool
  /-- `git clean -d -x -f -q` -/
  | clean : GitOp Bool
  | checkout (branch : Branch) : GitOp Bool
  /-- `git reset -q --hard origin/branch` -/
  | resetOrigin (branch : Branch) : GitOp Bool
  /-- `git cherry-pick -n sha` -/
  | cherryPick (sha : Sha) : GitOp Bool
  /-- `git commit -s -m message` -/
  | commit (message : Text) : GitOp Bool
  /-- `git commit --amend -m message` -/
  | amend (message : Text) : GitOp Bool
  | push (command : String) : GitOp Bool
  /-- `git log --format=%B -n 1 sha` -/
  | logMessage (sha : Sha) : GitOp (Option Text)
  /-- `git log --pretty=format:%s -n 1 sha` -/
  | logSubject (sha : Sha) : GitOp (Option Text)
  /-- `git log --no-merges -F --grep subject mergeBase..`, and whether anything is printed -/
  | logGrep (subject : Text) (mergeBase : String) : GitOp (Option Bool)
  /-- `git diff HEAD`, and whether anything is printed -/
  | diffHead : GitOp (Option Bool)

inductive Error
  | calledProcessError
  | valueError
deriving DecidableEq

abbrev M := Prog GitOp Error

/-! ## The functions -/

/-- `subprocess.run(command, check=True)` -/
def run (o : GitOp Bool) : M Unit := do
  if ← perform o then return
  else raise .calledProcessError

def checkoutAndClean (branch : Branch) : M Unit := do
  run .resetHead
  run .clean
  run (.checkout branch)
  run (.resetOrigin branch)

/-- `s.rstrip()` -/
def rstrip (cs : Text) : Text := cs.rdropWhile isSpace

def getCommitMessage (sha : Sha) : M Text := do
  match ← perform (.logMessage sha) with
  | some commitMessage => return rstrip commitMessage ++ ['\n']
  | none => raise .calledProcessError

/-- What `^Change-Id: (I[a-z0-9]{40})$` finds in a line. -/
def changeIdIn (line : Text) : Option Text :=
  let id := line.drop 11
  if "Change-Id: ".toList.isPrefixOf line ∧ id.length = 41 ∧ id.head? = some 'I' ∧
      id.tail.all (fun c => c.isLower || c.isDigit) then some id
  else none

/-- The last Change-Id of a message. -/
def lastChangeId (message : Text) : Option Text := ((lines message).filterMap changeIdIn).getLast?

def getCommitChangeidLinuxChrome (kernelSha : Sha) : M (Option Text) := do
  match ← perform (.logMessage kernelSha) with
  | some commitMessage => return lastChangeId commitMessage
  | none => raise .calledProcessError

def getGitPushCmd (chromeosBranch : Branch) (reviewers : List String) : String :=
  "git push origin HEAD:refs/for/" ++ chromeosBranch ++ "%" ++
    ",".intercalate (reviewers.map ("r=" ++ ·) ++ ["t=autogenerated"])

/-- `'%s' % changeid` -/
def changeIdText (changeid : Option Text) : Text := changeid.getD "None".toList

/-- The message with the Change-Id moved to its end. -/
def amendedMessage (commitMessage : Text) (changeid : Option Text) : Text :=
  rstrip ((toLineEnd "Change-Id:").sub (fun _ => []) commitMessage) ++ "\nChange-Id: ".toList ++
    changeIdText changeid

/-- `not fixer_changeid` -/
def isEmptyId (changeid : Option Text) : Bool := changeid.getD [] == []

/-- The Change-Id passed as parameter, or else the one of HEAD. -/
def passedOrAdded (fixerChangeid : Option Text) : M (Option Text) :=
  if isEmptyId fixerChangeid then getCommitChangeidLinuxChrome "HEAD" else pure fixerChangeid

/-- The `try` block of the next function. -/
def pickAndPush (fixerUpstreamSha : Sha) (fixerChangeid : Option Text) (chromeosBranch : Branch)
    (fixCommitMessage : Text) (reviewers : List String) : M (Option Text) := do
  checkoutAndClean chromeosBranch
  run (.cherryPick fixerUpstreamSha)
  run (.commit fixCommitMessage)
  let changeid ← passedOrAdded fixerChangeid
  let commitMessage ← getCommitMessage "HEAD"
  run (.amend (amendedMessage commitMessage changeid))
  run (.push (getGitPushCmd chromeosBranch reviewers))
  return changeid

def cherryPickAndPushFix (fixerUpstreamSha : Sha) (fixerChangeid : Option Text)
    (chromeosBranch : Branch) (fixCommitMessage : Text) (reviewers : List String) :
    M (Option Text) :=
  ((pickAndPush fixerUpstreamSha fixerChangeid chromeosBranch fixCommitMessage reviewers).tryCatch
      fun e => match e with
    | .calledProcessError => raise .valueError
    | .valueError => raise .valueError).ensuring (checkoutAndClean chromeosBranch)

def searchSubjectInBranch (mergeBase : String) (sha : Sha) : M Bool := do
  match ← perform (.logSubject sha) with
  | none => raise .calledProcessError
  | some subject =>
    match ← perform (.logGrep subject mergeBase) with
    | none => raise .calledProcessError
    | some result => return result

/-- The `try` block of the next function; its `ValueError`s only leave the block with `ret` as it
is. -/
def triedStatus (mergeBase : String) (sha : Sha) : M Status := do
  if ← searchSubjectInBranch mergeBase sha then return .MERGED
  else if ← perform (.cherryPick sha) then
    match ← perform .diffHead with
    | none => raise .calledProcessError
    | some true => return .OPEN
    | some false => return .MERGED
  else return .CONFLICT

def getCherrypickStatus (mergeBase : String) (branch : Branch) (sha : Sha) : M Status := do
  checkoutAndClean branch
  ((triedStatus mergeBase sha).tryCatch fun e => match e with
    | .calledProcessError => return .CONFLICT
    | .valueError => raise .valueError).ensuring (checkoutAndClean branch)

/-! ## What git does -/

/-- `%s`: the first paragraph on one line. -/
def subjectOf (message : Text) : Text :=
  let blank := fun line : Text => line.all Char.isWhitespace
  let paragraph := ((lines message).dropWhile blank).takeWhile fun line => !blank line
  [' '].intercalate (paragraph.map fun line => line.rdropWhile Char.isWhitespace)

/-- The subject, as it is read. -/
def subjectRead (message : Text) : Text := universalNewlines (subjectOf message)

/-- A commit of a branch. -/
structure LogEntry where
  message : Text
  /-- more than one parent -/
  merge : Bool

/-- A commit that is made here. -/
structure Made where
  /-- the text that git is given -/
  handed : Text
  /-- what it makes of it: it takes out blank lines, and hooks may change it -/
  message : Text

inductive Ref
  | branch (name : Branch)
  | origin (name : Branch)
  /-- a commit made here, with this message -/
  | made (message : Text)

structure Repo (Tree : Type) where
  message : Sha → Option Text
  /-- the commits of `mergeBase..` at a name -/
  log : Ref → String → List LogEntry
  tree : Ref → Tree
  /-- the tree that a cherry-pick leaves, if it applies -/
  pick : Tree → Sha → Option Tree

/-- A line of the message contains the pattern. -/
def LogEntry.mentions (entry : LogEntry) (pattern : Text) : Bool :=
  (lines entry.message).any fun line => decide (pattern <:+: line)

/-- What `git log --no-merges -F --grep` selects. -/
def selects (log : List LogEntry) (pattern : Text) : Bool :=
  log.any fun entry => !entry.merge && entry.mentions pattern

/-- A working copy. -/
structure Work (Tree : Type) where
  head : Ref
  headTree : Tree
  /-- the index and the files -/
  tree : Tree
  /-- the commits made here, newest first -/
  made : List Made

variable {Tree : Type} [DecidableEq Tree]

def Work.goTo (repo : Repo Tree) (ref : Ref) (d : Work Tree) : Work Tree :=
  { d with head := ref, headTree := repo.tree ref, tree := repo.tree ref }

/-- The commit of the index. -/
def Work.commit (d : Work Tree) (commit : Made) : Work Tree :=
  { d with head := .made commit.message, headTree := d.tree, made := commit :: d.made }

def Work.HeadMessage (d : Work Tree) (message : Text) : Prop :=
  ∀ m, d.head = .made m → message = universalNewlines m

/-- A command that fails makes no commit, and may leave any files. -/
def Repo.sem (repo : Repo Tree) : Sem GitOp (Work Tree)
  | _, .resetHead, d, done, d' =>
    if done then d' = { d with tree := d.headTree } else d'.made = d.made
  | _, .clean, d, done, d' => if done then d' = d else d'.made = d.made
  | _, .checkout branch, d, done, d' =>
    if done then d' = d.goTo repo (.branch branch) else d'.made = d.made
  | _, .resetOrigin branch, d, done, d' =>
    if done then d' = d.goTo repo (.origin branch) else d'.made = d.made
  | _, .cherryPick sha, d, done, d' =>
    if done then ∃ tree, repo.pick d.tree sha = some tree ∧ d' = { d with tree := tree }
    else d'.made = d.made
  | _, .commit text, d, done, d' =>
    if done then ∃ message, d' = d.commit ⟨text, message⟩ else d'.made = d.made
  | _, .amend text, d, done, d' =>
    if done then ∃ message, d' = d.commit ⟨text, message⟩ else d'.made = d.made
  | _, .push _, d, _, d' => d' = d
  | _, .logMessage sha, d, answer, d' =>
    d' = d ∧ ∀ message, answer = some message → sha = "HEAD" → d.HeadMessage message
  | _, .logSubject sha, d, answer, d' =>
    d' = d ∧ (answer = none ∨ answer = (repo.message sha).map subjectRead)
  | _, .logGrep subject mergeBase, d, answer, d' =>
    d' = d ∧ (answer = none ∨ answer = some (selects (repo.log d.head mergeBase) subject))
  | _, .diffHead, d, answer, d' =>
    d' = d ∧ (answer = none ∨ answer = some (decide (d.tree ≠ d.headTree)))

/-! ## The commands that are checked -/

variable {repo : Repo Tree} {d : Work Tree} {branch : Branch}

theorem wp_run {Q : Except Error Unit → Work Tree → Prop} {o : GitOp Bool}
    (hok : ∀ d', repo.sem o d true d' → Q (.ok ()) d')
    (hfail : ∀ d', repo.sem o d false d' → Q (.error .calledProcessError) d') :
    wp repo.sem (fun _ => True) Q (run o) d := by
  intro done d' ho
  refine ⟨trivial, ?_⟩
  cases done with
  | true => exact hok d' ho
  | false => exact hfail d' ho

theorem exec_run {o : GitOp Bool} {d' : Work Tree} (h : repo.sem o d true d') :
    Exec repo.sem (run o) d (.ok ()) d' :=
  .op h .ret

theorem wp_checkoutAndClean {Q : Except Error Unit → Work Tree → Prop}
    (hok : ∀ d', d'.made = d.made → d' = d'.goTo repo (.origin branch) → Q (.ok ()) d')
    (hfail : ∀ d', d'.made = d.made → Q (.error .calledProcessError) d') :
    wp repo.sem (fun _ => True) Q (checkoutAndClean branch) d := by
  unfold checkoutAndClean
  rw [wp_bind]
  refine wp_run (fun d₁ h₁ => ?_) hfail
  obtain rfl : d₁ = { d with tree := d.headTree } := h₁
  rw [wp_bind]
  refine wp_run (fun d₂ h₂ => ?_) fun d₂ h₂ => hfail d₂ h₂
  obtain rfl : d₂ = { d with tree := d.headTree } := h₂
  rw [wp_bind]
  refine wp_run (fun d₃ h₃ => ?_) fun d₃ h₃ => hfail d₃ h₃
  obtain rfl : d₃ = Work.goTo repo (.branch branch) { d with tree := d.headTree } := h₃
  refine wp_run (fun d₄ h₄ => ?_) fun d₄ h₄ => hfail d₄ h₄
  obtain rfl : d₄ = Work.goTo repo (.origin branch)
    (Work.goTo repo (.branch branch) { d with tree := d.headTree }) := h₄
  exact hok _ rfl rfl

theorem exec_checkoutAndClean (repo : Repo Tree) (d : Work Tree) (branch : Branch) :
    Exec repo.sem (checkoutAndClean branch) d (.ok ()) (d.goTo repo (.origin branch)) := by
  have hreset : repo.sem .resetHead d true { d with tree := d.headTree } := rfl
  have hclean : repo.sem .clean { d with tree := d.headTree } true { d with tree := d.headTree } :=
    rfl
  have hcheckout : repo.sem (.checkout branch) { d with tree := d.headTree } true
    (d.goTo repo (.branch branch)) := rfl
  have horigin : repo.sem (.resetOrigin branch) (d.goTo repo (.branch branch)) true
    (d.goTo repo (.origin branch)) := rfl
  exact (exec_run hreset).bind
    ((exec_run hclean).bind ((exec_run hcheckout).bind (exec_run horigin)))

end Findmissing.GitInterface
