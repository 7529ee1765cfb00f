import DevUtil.Cvetriager.ContextGenerator
import DevUtil.Lib.Dict
import DevUtil.Lib.Lift
import DevUtil.Lib.Replace
import DevUtil.Lib.Text

/-!
# Applying fixes to the kernels

`patchapplier.py`, `clgenerator.py` and `bin/triage`. The contexts of all commits come first. Then
every commit is picked onto the branch of the bug in each kernel it is for, and the branches that
took it are pushed.
-/

namespace Cvetriager

open Lib Prog PosixPath

/-! ## Calls of git -/

/-- The calls of git that change a kernel repository. -/
inductive GitOp : Type → Type
  /-- `git fetch $LINUX master`; the exit, or no such directory -/
  | fetch (cwd remote : Text) : GitOp (Option Bool)
  /-- `git checkout -b branch`; what is on stderr if it fails -/
  | checkoutNew (cwd branch : Text) : GitOp (Option Text)
  /-- `git cherry-pick -s sha`; what is on stderr if it fails -/
  | cherryPick (cwd : Text) (sha : Sha) : GitOp (Option Text)
  | cherryPickAbort (cwd : Text) : GitOp Bool
  /-- `git commit --amend -m message`, with `-s` or without -/
  | commitAmend (cwd : Text) (signoff : Bool) (message : Text) : GitOp Bool
  /-- `git log -1 --format=%H` -/
  | logSha (cwd : Text) : GitOp (Option Text)
  /-- `git push`, with what it prints -/
  | push (cwd : Text) (args : List Text) : GitOp (Option Text)

/-- The calls of `contextgenerator.py` and `common.py`, and those that change a kernel
repository. -/
abbrev TriageOp (β : Type) : Type := Op β ⊕ GitOp β

inductive TriageError
  | context (e : Error)
  | patchApplierException (message : Text)
  /-- `PatchApplierException` for the exit of `git fetch` -/
  | fetchFailed
  | clGeneratorException (message : Text)
  | calledProcessError
  | exception (message : Text)
  | keyError (key : Text)
  | indexError
  | typeError
deriving DecidableEq

abbrev T := Prog TriageOp TriageError

/-- What `common.py` and `contextgenerator.py` do. -/
def asked {α : Type} (p : M α) : T α := p.lift (fun _ o => .inl o) .context

def call {β : Type} (o : GitOp β) : T β := perform (.inr o)

/-! ## `common.py` -/

def getCherryPickBranch (bugId : Text) (kernel : Kernel) : Text := 'b' :: bugId ++ '-' :: kernel

/-- The message of a pick, from the message of the commit. -/
def pickMessage (orgMsg : Text) (sha : Sha) (bugId : Text) : Text :=
  let bugTestLine := "BUG=chromium:".toList ++ bugId ++ "\nTEST=CQ\n\n".toList
  let cherryPicked := "(cherry picked from commit ".toList ++ sha ++ ")\n\n".toList
  "UPSTREAM: ".toList ++ orgMsg ++ cherryPicked ++ bugTestLine

def createCommitMessage (kernelPath : Text) (sha : Sha) (bugId : Text) : T Text := do
  let orgMsg ← asked (getCommitMessage (some kernelPath) sha)
  return pickMessage orgMsg sha bugId

def cherryPick (kernelPath : Text) (sha : Sha) (bugId : Text) : T Bool := do
  let fixCommitMessage ← createCommitMessage kernelPath sha bugId
  match ← call (.cherryPick kernelPath sha) with
  | some stderr =>
    if "bad revision".toList <:+: stderr then
      raise (.patchApplierException ("Invalid sha: ".toList ++ sha))
    else
      if ← call (.cherryPickAbort kernelPath) then return false
      else raise .calledProcessError
  | none =>
    if ← call (.commitAmend kernelPath true fixCommitMessage) then return true
    else raise .calledProcessError

def getGitPushCmd (kernel : Kernel) : Text :=
  "git push cros HEAD:refs/for/".toList ++ getCrosBranch kernel

def kernels : List Kernel :=
  ["v5.4", "v4.19", "v4.14", "v4.4", "v3.18", "v3.14", "v3.10", "v3.8"].map String.toList

/-- `commit_status['status'][commit][kern]` -/
inductive PatchStatus
  | fixed
  | appliesCleanly
  | conflict
deriving DecidableEq

def PatchStatus.text : PatchStatus → String
  | fixed => "FIXED"
  | appliesCleanly => "MISSING, applies cleanly"
  | conflict => "MISSING, conflict"

structure Opts where
  bug : Text
  relevantCommit : Bool := false
  pull : Bool := false
  test : Bool := false

/-- The status of every kernel, from what `apply_patch` returned. -/
def statusOf (patches : List Kernel) (cpStatus : Dict Kernel Bool) (kern : Kernel) :
    Except TriageError PatchStatus :=
  if kern ∉ patches then .ok .fixed
  else
    match cpStatus.get? kern with
    | none => .error (.keyError kern)
    | some true => .ok .appliesCleanly
    | some false => .ok .conflict

def statuses (patches : List Kernel) (cpStatus : Dict Kernel Bool) :
    List Kernel → T (List (Kernel × PatchStatus))
  | [] => return []
  | kern :: kerns =>
    match statusOf patches cpStatus kern with
    | .error e => raise e
    | .ok status => do
      let rest ← statuses patches cpStatus kerns
      return (kern, status) :: rest

end Cvetriager
