import Mathlib.Data.List.Infix
import DevUtil.Lib.Prog
import DevUtil.Variant.Status

/-!
# The steps

The functions that `perform_step` of `new_variant.py` dispatches to, as programs that
call what is outside: processes, files, git, gerrit.  Any of these may raise an
exception of its own.

A step gets the status and returns whether it succeeded, together with the status as
it leaves it in memory.  Only `save` writes that to the file.
-/

namespace Variant

open Lib Prog

/-! ## What is outside -/

abbrev Sha := Nat

/-- What `run_process` runs. The arguments of the scripts are left out. -/
inductive Process
  | script (path : String)
  /-- `repo upload . --br=branch_name --wip --verify --yes --hashtag=new_variant` -/
  | repoUpload (branchName : Branch) (cwd : Dir)
  /-- `repo abandon branch .` -/
  | repoAbandon (branch : Branch) (cwd : Dir)
  /-- `git filter-branch -f --msg-filter 'sed -E "s/^(Change-Id:
  {change_id})$/{cq_depend_str}\\n\\1/"' -- {sha}^..` -/
  | filterBranch (gitRepo : Dir) (changeId : ChangeId) (cqDependStr : String) (sha : Sha)
deriving DecidableEq

/-- The answer `none` is an exception. -/
inductive Call : Type → Type
  /-- `status.save()` -/
  | save (s : Status) : Call Unit
  /-- `os.remove` of the status file -/
  | remove : Call (Option Unit)
  /-- whether the process succeeded -/
  | runProcess (p : Process) : Call (Option Bool)
  /-- `emerge_with_workon` -/
  | emergeWithWorkon (config : Bool) : Call (Option Bool)
  | isfile (path : String) : Call (Option Bool)
  /-- `text in osutils.ReadFile(path)` -/
  | mentions (path : String) (text : String) : Call (Option Bool)
  | findGitTopLevel (cwd : String) : Call (Option Dir)
  | getCurrentBranch (cwd : Dir) : Call (Option (Option Branch))
  | getChangeId (cwd : Dir) : Call (Option (Option ChangeId))
  /-- the CL number under which a gerrit instance has a change-id -/
  | query (i : Instance) (changeId : ChangeId) : Call (Option (Option Nat))
  /-- the CLs of the public instance with this `Original-Change-Id` -/
  | queryOriginal (changeId : ChangeId) : Call (Option (List (Instance × Nat)))
  /-- `git log --max-count=1 --grep='^Change-Id: {change_id}$' --format=%H` -/
  | gitLogGrep (gitRepo : Dir) (changeId : ChangeId) : Call (Option (List Sha))
  /-- the lines of the message of a commit -/
  | gitLogMessage (gitRepo : Dir) (rev : Sha) : Call (Option (List String))

inductive Field
  | branchName
  | changeId
  | dir
  | clNumber
deriving DecidableEq

inductive Exn
  /-- a step that is not in `status.commits` -/
  | noCommit (key : StepName)
  /-- a key that is not in one of the commits -/
  | noField (key : Field)
  | systemExit
  | indexError
  | valueError
  | typeError
  /-- an exception of what is outside -/
  | outside
  /-- not an exception: the loop of `main` takes more turns than there are steps -/
  | outOfFuel
deriving DecidableEq

def Exn.isKeyError : Exn → Bool
  | noCommit _ | noField _ => true
  | systemExit | indexError | valueError | typeError | outside | outOfFuel => false

def call {α : Type} (c : Call (Option α)) : Prog Call Exn α :=
  .op c fun
    | none => .raise .outside
    | some a => .ret a

/-- `status.commits[key]` -/
def getCommit (s : Status) (key : StepName) : Prog Call Exn Commit :=
  match s.commits.get? key with
  | none => .raise (.noCommit key)
  | some commit => .ret commit

/-- `commit[key]` -/
def getField {α : Type} (key : Field) : Option α → Prog Call Exn α
  | none => .raise (.noField key)
  | some a => .ret a

/-- What `os.path.join` does with an attribute that the board may not have. -/
def getDir : Option String → Prog Call Exn String
  | none => .raise .typeError
  | some dir => .ret dir

/-- `os.path.join` -/
def join (a b : String) : String :=
  if b.startsWith "/" then b else if a.endsWith "/" then a ++ b else a ++ "/" ++ b

abbrev Step := Status → Prog Call Exn (Bool × Status)

/-! ## Steps that make a commit -/

/-- A commit that has been made and not uploaded yet. -/
def Commit.made (branchName : Branch) (changeId : ChangeId) (dir : Dir) : Commit where
  branchName := some branchName
  changeId := some changeId
  dir := some dir
  gerrit := none
  clNumber := none
  cqDepend := none
  needsReUpload := false

def getGitCommitData (cwd : String) : Prog Call Exn Commit := do
  let cwd ← call (.findGitTopLevel cwd)
  match ← call (.getCurrentBranch cwd) with
  | none => raise .systemExit
  | some branchName =>
    match ← call (.getChangeId cwd) with
    | none => raise .systemExit
    | some changeId => return Commit.made branchName changeId cwd

/-- Runs a script, and if that succeeds records under `key` the commit made in `cwd`. -/
def commitStep (script : String) (key : StepName) (cwd : String) : Step := fun s => do
  if ← call (.runProcess (.script script)) then
    let commit ← getGitCommitData cwd
    return (true, s.store key commit)
  else return (false, s)

def fwBuildConfig : Step := fun s =>
  commitStep "fw_build_config.sh" .fwBuildConfig
    (join (join "/mnt/host/source/src/project" s.board.base) s.variant) s

def createCorebootVariant : Step := fun s =>
  commitStep "create_coreboot_variant.sh" .cbVariant
    (join "/mnt/host/source/src/" s.board.corebootDir) s

/-- `status.cb_config_dir or 'third_party/chromiumos-overlay'` -/
def cbConfigDir (s : Status) : String :=
  match s.board.cbConfigDir with
  | none | some "" => "third_party/chromiumos-overlay"
  | some dir => dir

def createCorebootConfig : Step := fun s =>
  commitStep "create_coreboot_config.sh" .cbConfig (join "/mnt/host/source/src/" (cbConfigDir s)) s

def copyCrasConfig : Step :=
  commitStep "copy_cras_config.sh" .crasConfig "/mnt/host/source/src/overlays"

/-- Records the commit as that of the step which adds the image to it. -/
def addFitimage : Step := fun s => do
  let dir ← getDir s.board.fitimageDir
  commitStep (join (join "/mnt/host/source/src" dir) "files/add_fitimage.sh") .commitFit
    (join "/mnt/host/source/src" dir) s

def addVariantToPublicYaml : Step :=
  commitStep "add_variant_to_yaml.sh" .addPubYaml "/mnt/host/source/src/overlays"

def addVariantToPrivateYaml : Step := fun s => do
  let dir ← getDir s.board.privateYamlDir
  commitStep (join dir "add_variant.sh") .addPrivYaml dir s

/-- Records the commit before it looks whether the image is there. -/
def createInitialEcImage : Step := fun s => do
  if ← call (.runProcess (.script "create_initial_ec_image.sh")) then
    let commit ← getGitCommitData "/mnt/host/source/src/platform/ec/board"
    let found ← call
      (.isfile (join (join (join "/mnt/host/source/src/platform/ec" "build") s.variant) "ec.bin"))
    return (found, s.store .ecImage commit)
  else return (false, s)

/-! ## Steps that only build or check -/

/-- Emerges and looks for the name of the variant in a file that this makes. -/
def emergeConfig (file : String) : Step := fun s => do
  let path := join (join "/build" s.board.base) file
  if ← call (.emergeWithWorkon true) then
    if ← call (.isfile path) then
      let found ← call (.mentions path s.variant)
      return (found, s)
    else return (false, s)
  else return (false, s)

def projectConfig : Step := emergeConfig "usr/share/chromeos-config/yaml/project-config.json"

def buildConfig : Step := emergeConfig "usr/share/chromeos-config/yaml/config.yaml"

def emergeAll : Step := fun s => do
  let buildPath := "/build/" ++ s.board.base ++ "/firmware"
  if ← call (.emergeWithWorkon false) then
    if ← call (.isfile (join buildPath ("image-" ++ s.variant ++ ".bin"))) then
      let found ← call (.isfile (join buildPath ("image-" ++ s.variant ++ ".serial.bin")))
      return (found, s)
    else return (false, s)
  else return (false, s)

def genFitImageOutsideChroot : Step := fun s => do
  let dir ← getDir s.board.fitimageDir
  let outputs ← getDir s.board.fitimageOutputsDir
  let outputsDir := join (join "/mnt/host/source/src" dir) outputs
  let foundBin ← call (.isfile (join outputsDir ("fitimage-" ++ s.variant ++ ".bin")))
  let foundVersions ← call (.isfile (join outputsDir ("fitimage-" ++ s.variant ++ "-versions.txt")))
  return (foundBin && foundVersions, s)

def commitFitimage : Step := fun s => do
  let dir ← getDir s.board.fitimageDir
  let rc ← call
    (.runProcess (.script (join (join "/mnt/host/source/src" dir) "files/commit_fitimage.sh")))
  return (rc, s)

def ecBuildall : Step := fun s => return (true, s)

/-! ## Steps that find or make CLs -/

def findChangeId (changeId : ChangeId) : Prog Call Exn (Option (Instance × Nat)) := do
  match ← call (.query .chromium changeId) with
  | some number => return some (.chromium, number)
  | none =>
    match ← call (.query .chromeInternal changeId) with
    | some number => return some (.chromeInternal, number)
    | none =>
      match ← call (.query .coreboot changeId) with
      | some number => return some (.coreboot, number)
      | none => return none

/-- The commit with a CL. -/
def Commit.withCl (commit : Commit) (cl : Instance × Nat) : Commit :=
  { commit with gerrit := some cl.1, clNumber := some cl.2 }

/-- `'gerrit' in commit and 'cl_number' in commit` -/
def Commit.hasCl (commit : Commit) : Bool := commit.gerrit.isSome && commit.clNumber.isSome

def saveClData (s : Status) (key : StepName) (cl : Instance × Nat) : Prog Call Exn Status := do
  let commit ← getCommit s key
  let s := s.store key (commit.withCl cl)
  perform (.save s)
  return s

/-- Goes on after a CL that is not there, for which the user has to push the branch. -/
def pushLoop : List StepName → Bool → Step
  | [], rc, s => return (rc, s)
  | key :: keys, rc, s => do
    let commit ← getCommit s key
    if commit.hasCl then pushLoop keys rc s
    else
      let changeId ← getField .changeId commit.changeId
      match ← findChangeId changeId with
      | some cl => do
        let s ← saveClData s key cl
        pushLoop keys rc s
      | none => do
        -- the message for the user
        let _ ← getField .branchName commit.branchName
        let _ ← getField .dir commit.dir
        pushLoop keys false s

def pushCoreboot : Step := fun s => pushLoop s.board.corebootPushList true s

def repoUpload (branchName : Branch) (cwd : Dir) : Prog Call Exn Bool :=
  call (.runProcess (.repoUpload branchName cwd))

def uploadLoop : List StepName → Step
  | [], s => return (true, s)
  | key :: keys, s => do
    let commit ← getCommit s key
    if commit.hasCl then uploadLoop keys s
    else
      let changeId ← getField .changeId commit.changeId
      match ← findChangeId changeId with
      | some cl => do
        let s ← saveClData s key cl
        uploadLoop keys s
      | none => do
        let branchName ← getField .branchName commit.branchName
        let dir ← getField .dir commit.dir
        if ← repoUpload branchName dir then
          match ← findChangeId changeId with
          | some cl => do
            let s ← saveClData s key cl
            uploadLoop keys s
          | none => return (false, s)
        else return (false, s)

def uploadCLs : Step := fun s => uploadLoop s.board.repoUploadList s

/-- The upstream CL is all that is known of a commit which is merged already. -/
def Commit.upstream (cl : Instance × Nat) : Commit where
  branchName := none
  changeId := none
  dir := none
  gerrit := some cl.1
  clNumber := some cl.2
  cqDepend := none
  needsReUpload := false

def findCorebootUpstream : Step := fun s => do
  if (s.commits.get? .find).any Commit.hasCl then return (true, s)
  else
    match s.commits.get? .cbVariant with
    | none => return (false, s)
    | some commit =>
      match commit.changeId with
      | none => return (false, s)
      | some changeId =>
        match ← call (.queryOriginal changeId) with
        | [] => do
          -- the message for the user
          let _ ← getField .clNumber commit.clNumber
          return (false, s)
        | [cl] => return (true, s.store .find (Commit.upstream cl))
        | _ => return (false, s)

/-! ## Steps that amend commits -/

/-- The CLs of the commits, or `none` if one of them has none. -/
def dependLoop (s : Status) : List StepName → Prog Call Exn (Option (List (Instance × Nat)))
  | [] => return some []
  | dependKey :: keys => do
    let commit ← getCommit s dependKey
    match commit.gerrit, commit.clNumber with
    | some instanceName, some clNumber => do
      let rest ← dependLoop s keys
      return rest.map ((instanceName, clNumber) :: ·)
    | _, _ => return none

/-- `instance:number` -/
def showCl (cl : Instance × Nat) : String := cl.1.name ++ ":" ++ toString cl.2

def cqDependStr (cls : List (Instance × Nat)) : String :=
  "Cq-Depend: " ++ String.intercalate ", " (cls.map showCl)

def calcLoop : List (StepName × List StepName) → Step
  | [], s => return (true, s)
  | (key, dependKeys) :: depends, s => do
    match ← dependLoop s dependKeys with
    | none => return (false, s)
    | some cls => do
      let commit ← getCommit s key
      calcLoop depends (s.store key { commit with cqDepend := some (cqDependStr cls) })

def calcCqDepend : Step := fun s => calcLoop s.board.depends.items s

def changeIdToSha (gitRepo : Dir) (changeId : ChangeId) : Prog Call Exn (Option Sha) := do
  match ← call (.gitLogGrep gitRepo changeId) with
  | [] => return none
  | [sha] => return some sha
  | _ => raise .valueError

/-- `'Cq-Depend' in line` -/
def mentionsCqDepend (line : String) : Bool := decide ("Cq-Depend".toList <:+: line.toList)

def addCqDependToCommitMsg (gitRepo : Dir) (changeId : ChangeId) (cqDepend : String) :
    Prog Call Exn Bool := do
  match ← changeIdToSha gitRepo changeId with
  | none => return false
  | some sha => do
    let msg ← call (.gitLogMessage gitRepo sha)
    if msg.any mentionsCqDepend then return true
    else call (.runProcess (.filterBranch gitRepo changeId cqDepend sha))

def addLoop : List StepName → Step
  | [], s => return (true, s)
  | key :: keys, s => do
    let commit ← getCommit s key
    match commit.cqDepend with
    | none => addLoop keys s
    | some cqDepend =>
      match commit.dir, commit.changeId with
      | some dir, some changeId => do
        if ← addCqDependToCommitMsg dir changeId cqDepend then
          addLoop keys (s.store key { commit with needsReUpload := true })
        else return (false, s)
      | _, _ => return (false, s)

def addCqDepend : Step := fun s => addLoop s.commits.keys s

def reUploadLoop : List StepName → Step
  | [], s => return (true, s)
  | key :: keys, s => do
    let commit ← getCommit s key
    if commit.needsReUpload then
      let branchName ← getField .branchName commit.branchName
      let dir ← getField .dir commit.dir
      if ← repoUpload branchName dir then
        reUploadLoop keys (s.store key { commit with needsReUpload := false })
      else return (false, s)
    else reUploadLoop keys s

def reUpload : Step := fun s => reUploadLoop s.commits.keys s

/-! ## The end -/

def cleanUp : Step := fun s => do
  call .remove
  return (true, s)

instance decidableMemBranches (p : Branch × Dir) (ps : List (Branch × Dir)) : Decidable (p ∈ ps) :=
  List.instDecidableMemOfLawfulBEq p ps

/-- `abandoned` are the branches and directories done with. -/
def abortLoop : List StepName → List (Branch × Dir) → Step
  | [], _, s => return (true, s)
  | step :: steps, abandoned, s => do
    let commit ← getCommit s step
    let branch ← getField .branchName commit.branchName
    let cwd ← getField .dir commit.dir
    if (branch, cwd) ∈ abandoned then abortLoop steps abandoned s
    else if ← call (.runProcess (.repoAbandon branch cwd)) then
      abortLoop steps ((branch, cwd) :: abandoned) s
    else return (false, s)

def abort : Step := fun s => abortLoop s.commits.keys [] s

/-- The function for the step that the status is at. -/
def performStep : Step := fun s =>
  match s.step with
  | none => raise .systemExit
  | some .projectConfig => projectConfig s
  | some .fwBuildConfig => fwBuildConfig s
  | some .cbVariant => createCorebootVariant s
  | some .cbConfig => createCorebootConfig s
  | some .crasConfig => copyCrasConfig s
  | some .addFit => addFitimage s
  | some .genFit => genFitImageOutsideChroot s
  | some .commitFit => commitFitimage s
  | some .ecImage => createInitialEcImage s
  | some .ecBuildall => ecBuildall s
  | some .addPubYaml => addVariantToPublicYaml s
  | some .addPrivYaml => addVariantToPrivateYaml s
  | some .buildConfig => buildConfig s
  | some .emerge => emergeAll s
  | some .push => pushCoreboot s
  | some .upload => uploadCLs s
  | some .find => findCorebootUpstream s
  | some .calcCqDepend => calcCqDepend s
  | some .addCqDepend => addCqDepend s
  | some .reUpload => reUpload s
  | some .cleanUp => cleanUp s
  | some .abort => abort s

end Variant
