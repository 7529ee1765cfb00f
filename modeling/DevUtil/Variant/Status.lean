import DevUtil.Lib.Dict

/-!
# The status of a new variant

`variant_status.py`, `step_names.py` and the data that `get_status` copies from a
board's module: everything that `new_variant.py` keeps in its file between two runs.
-/

namespace Variant

open Lib

/-! ## Steps -/

/-- `step_names.py` -/
inductive StepName
  | projectConfig
  | cbVariant
  | cbConfig
  | crasConfig
  | addFit
  | genFit
  | commitFit
  | ecImage
  | ecBuildall
  | addPubYaml
  | addPrivYaml
  | buildConfig
  | fwBuildConfig
  | emerge
  | push
  | upload
  | find
  | calcCqDepend
  | addCqDepend
  | reUpload
  | cleanUp
  | abort
deriving DecidableEq

/-- The names in the order in which a file lists them. -/
def alphabetical : List StepName :=
  [.abort, .addCqDepend, .addFit, .addPrivYaml, .addPubYaml, .buildConfig, .calcCqDepend,
    .cbConfig, .cbVariant,
    .cleanUp, .commitFit, .crasConfig, .ecBuildall, .ecImage, .emerge, .find, .fwBuildConfig,
      .genFit, .projectConfig,
    .push, .reUpload, .upload]

def StepName.rank (n : StepName) : Nat := alphabetical.idxOf n

/-! ## Commits -/

abbrev Branch := String

abbrev Dir := String

abbrev ChangeId := String

/-- A gerrit instance. -/
inductive Instance
  | chromium
  | chromeInternal
  | coreboot
deriving DecidableEq

def Instance.name : Instance → String
  | chromium => "chromium"
  | chromeInternal => "chrome-internal"
  | coreboot => "coreboot"

/-- An entry of `status.commits`: the keys that it has. -/
structure Commit where
  branchName : Option Branch
  changeId : Option ChangeId
  dir : Option Dir
  gerrit : Option Instance
  clNumber : Option Nat
  cqDepend : Option String
  /-- not there is as good as false -/
  needsReUpload : Bool
deriving DecidableEq

abbrev Commits := Dict StepName Commit

/-! ## Boards -/

/-- The attributes of a board's module. -/
structure Board where
  base : String
  corebootDir : String
  cbConfigDir : Option String
  fitimageDir : Option String
  fitimageOutputsDir : Option String
  privateYamlDir : Option String
  stepList : List StepName
  repoUploadList : List StepName
  corebootPushList : List StepName
  depends : Dict StepName (List StepName)

/-! ## The status -/

structure Status where
  board : Board
  variant : String
  /-- `None` after the last step -/
  step : Option StepName
  commits : Commits

/-- What `load` finds after `save`: YAML sorts the keys of a map. -/
def Status.dumped (s : Status) : Status :=
  { s with
    commits := s.commits.sorted StepName.rank
    board := { s.board with depends := s.board.depends.sorted StepName.rank } }

/-- `status.commits[key] = commit` -/
def Status.store (s : Status) (key : StepName) (commit : Commit) : Status :=
  { s with commits := s.commits.set key commit }

@[simp] theorem Status.store_step (s : Status) (key : StepName) (commit : Commit) :
    (s.store key commit).step = s.step := rfl

@[simp] theorem Status.store_board (s : Status) (key : StepName) (commit : Commit) :
    (s.store key commit).board = s.board := rfl

@[simp] theorem Status.store_commits (s : Status) (key : StepName) (commit : Commit) :
    (s.store key commit).commits = s.commits.set key commit := rfl

@[simp] theorem Status.dumped_step (s : Status) : s.dumped.step = s.step := rfl

@[simp] theorem Status.dumped_stepList (s : Status) : s.dumped.board.stepList = s.board.stepList :=
  rfl

@[simp] theorem Status.dumped_commits (s : Status) (key : StepName) :
    s.dumped.commits.get? key = s.commits.get? key :=
  Dict.get?_sorted _ s.commits key

@[simp] theorem Status.dumped_depends (s : Status) (key : StepName) :
    s.dumped.board.depends.get? key = s.board.depends.get? key :=
  Dict.get?_sorted _ s.board.depends key

end Variant
