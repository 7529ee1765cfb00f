import Mathlib.Logic.Function.Basic
import DevUtil.Lib.Interleave

/-!
# Setting up telemetry

`TelemetrySetup.Setup` of `telemetry_setup.py`, by any number of instances for one build.
Every system call, request and tar run is one atomic step, and so is each call that an
`rmtree` makes. The existence of `src` tells all later callers that the work is done.

`_ExtractTarball` looks at exceptions only. After an exception it removes the directory with
the lock file in it, and those who wait go on with the old file.

`Moves` lists what a step can do, with the effect on the instance and on the disk.
-/

namespace GsCache

open Lib Interleave

/-! ## The directory of a build -/

abbrev Bytes := List UInt8

def dependencies : List String :=
  ["dep-telemetry_dep.tar.bz2", "dep-page_cycler_dep.tar.bz2", "dep-chrome_test.tar.bz2",
    "dep-perf_data_dep.tar.bz2"]

/-- A tar run into a directory, and if it got through. -/
structure Extraction where
  tarball : Bytes
  whole : Bool
deriving DecidableEq

/-- The open file that `flock` locks. -/
abbrev Inode := Nat

/-- `telemetry_src` -/
structure TelemetrySrc where
  /-- `.lock` -/
  lock : Option Inode
  testSrc : Option (List Extraction)
  src : Option (List Extraction)
  /-- there is a `src/test_src` -/
  nested : Bool
deriving DecidableEq

structure Disk where
  /-- `staged.timestamp` of the build is there -/
  staged : Bool
  dir : Option TelemetrySrc
  nextInode : Inode
  locked : Inode → Bool

inductive SetupError
  | telemetrySetupError
  | requestException
  | osError
deriving DecidableEq

def Disk.mkDirP (d : Disk) : Disk :=
  match d.dir with
  | some _ => d
  | none => { d with dir := some ⟨none, none, none, false⟩ }

def Disk.touchTimestamp (d : Disk) : Disk := { d with staged := true }

/-- `open(lock_file, 'w+')` -/
def Disk.openLock (d : Disk) : Except SetupError (Inode × Disk) :=
  match d.dir with
  | none => .error .osError
  | some dir =>
    match dir.lock with
    | some f => .ok (f, d)
    | none =>
      .ok (d.nextInode, { d with dir := some { dir with lock := some d.nextInode },
                                 nextInode := d.nextInode + 1 })

def Disk.setLocked (d : Disk) (f : Inode) (b : Bool) : Disk :=
  { d with locked := Function.update d.locked f b }

def Disk.srcExists (d : Disk) : Bool :=
  match d.dir with
  | none => false
  | some dir => dir.src.isSome

/-- `shutil.move(test_src, src_folder)` -/
def Disk.moveTestSrc (d : Disk) : Except SetupError Disk :=
  match d.dir with
  | none => .error .osError
  | some dir =>
    match dir.testSrc, dir.src with
    | none, _ => .error .osError
    | some tree, none => .ok { d with dir := some { dir with testSrc := none, src := some tree } }
    | some _, some _ =>
      -- into the directory that is there
      if dir.nested then .error .telemetrySetupError
      else .ok { d with dir := some { dir with testSrc := none, nested := true } }

/-! ## Downloads and tar -/

/-- How a request ends: `requests.get` raises, or there is a status and a stream that may break. -/
inductive Response
  | raised
  | status (code : Nat) (chunks : List Bytes) (broken : Bool)
deriving DecidableEq

/-- `raise_for_status` -/
def raisesForStatus (code : Nat) : Bool := decide (400 ≤ code ∧ code < 600)

/-- How a tar run ends. `wrote`: it has written something before it failed. -/
inductive TarRun
  | raised (wrote : Bool)
  | exited (code : Nat) (wrote : Bool)
deriving DecidableEq

def TarRun.raises : TarRun → Bool
  | .raised _ => true
  | .exited _ _ => false

/-- `_DownloadFilesFromTar`, on the files of the temp dir. -/
def downloadFilesFromTar (temp : String → Option Bytes) (filename : String) :
    Response → Except SetupError Unit × (String → Option Bytes)
  | .raised => (.error .requestException, temp)
  | .status code chunks broken =>
    if raisesForStatus code then
      if code = 404 then (.ok (), temp) else (.error .telemetrySetupError, temp)
    else
      let temp := Function.update temp filename (some chunks.flatten)
      if broken then (.error .telemetrySetupError, temp) else (.ok (), temp)

def TelemetrySrc.add (dir : TelemetrySrc) (x : Extraction) : TelemetrySrc :=
  { dir with testSrc := some (dir.testSrc.getD [] ++ [x]) }

/-- The tar run of `_ExtractTarball`; into a directory that is gone it cannot exit with zero. -/
def extractTarball (d : Disk) (tarball : Bytes) : TarRun → Option Disk
  | .raised wrote =>
    match d.dir with
    | none => some d
    | some dir => some (if wrote then { d with dir := some (dir.add ⟨tarball, false⟩) } else d)
  | .exited code wrote =>
    match d.dir with
    | none => if code = 0 then none else some d
    | some dir =>
      some (if code = 0 ∨ wrote then
        { d with dir := some (dir.add ⟨tarball, decide (code = 0)⟩) } else d)

/-! ## The removal -/

/-- What a call of `unlink` or `rmdir` removes. -/
inductive Removal
  | lock
  /-- a file of the `i`-th tar run, in `test_src` or in `src` -/
  | file (inSrc : Bool) (i : Nat)
  /-- `test_src` or `src`, without files -/
  | tree (inSrc : Bool)
  | dir
deriving DecidableEq

def Extraction.damage (x : Extraction) : Extraction := { x with whole := false }

/-- Below the directory; none if it is not there, or has files. -/
def TelemetrySrc.remove (dir : TelemetrySrc) : Removal → Option TelemetrySrc
  | .lock => dir.lock.map fun _ => { dir with lock := none }
  | .file inSrc i =>
    if inSrc then dir.src.map fun tree => { dir with src := some (tree.modify i Extraction.damage) }
    else dir.testSrc.map fun tree => { dir with testSrc := some (tree.modify i Extraction.damage) }
  | .tree inSrc =>
    if inSrc then (dir.src.filter fun tree => !tree.any Extraction.whole).map fun _ =>
      { dir with src := none, nested := false }
    else (dir.testSrc.filter fun tree => !tree.any Extraction.whole).map fun _ =>
      { dir with testSrc := none }
  | .dir => none

def TelemetrySrc.isEmpty (dir : TelemetrySrc) : Bool :=
  dir.lock.isNone && dir.testSrc.isNone && dir.src.isNone

/-- A call that `shutil.rmtree` makes. They come in any order; one that fails ends it. -/
def Disk.rmtree (d : Disk) (g : Removal) : Except SetupError Disk :=
  match d.dir with
  | none => .error .osError
  | some dir =>
    if g = .dir then if dir.isEmpty then .ok { d with dir := none } else .error .osError
    else
      match dir.remove g with
      | none => .error .osError
      | some dir' => .ok { d with dir := some dir' }

/-! ## Setup -/

inductive Outcome
  | returned
  | failed (e : SetupError)
deriving DecidableEq

/-- Where an instance is in `Setup`. -/
inductive Phase
  | idle (last : Option Outcome)
  | mkDirP
  | touchTimestamp
  | openLock
  | flock (f : Inode)
  | checkSrc (f : Inode)
  | download (f : Inode) (deps : List String)
  | extract (f : Inode) (dep : String) (deps : List String)
  | rmtree (f : Inode)
  | move (f : Inode)
  | unlock (f : Inode) (outcome : Outcome)
deriving DecidableEq

structure Instance where
  phase : Phase
  /-- the files of the temp dir -/
  temp : String → Option Bytes

inductive Event
  | call
  | run
  | answer (r : Response)
  | tar (t : TarRun)
  | remove (g : Removal)
deriving DecidableEq

def Instance.goto (p : Instance) (phase : Phase) : Instance := { p with phase }

/-- The next step of an instance; it waits where there is none. -/
def setupStep (p : Instance) (d : Disk) : Event → Option (Instance × Disk)
  | .call =>
    match p.phase with
    | .idle _ => some (p.goto .mkDirP, d)
    | _ => none
  | .answer r =>
    match p.phase with
    | .download f (dep :: deps) =>
      match downloadFilesFromTar p.temp dep r with
      | (.ok (), temp) => some (⟨.extract f dep deps, temp⟩, d)
      | (.error e, temp) => some (⟨.unlock f (.failed e), temp⟩, d)
    | _ => none
  | .tar t =>
    match p.phase with
    | .extract f dep deps =>
      match p.temp dep with
      | none => none
      | some tarball =>
        match extractTarball d tarball t with
        | none => none
        | some d' => some (p.goto (if t.raises then .rmtree f else .download f deps), d')
    | _ => none
  | .remove g =>
    match p.phase with
    | .rmtree f =>
      match d.rmtree g with
      | .error e => some (p.goto (.unlock f (.failed e)), d)
      | .ok d' =>
        some (p.goto (if g = .dir then .unlock f (.failed .telemetrySetupError) else .rmtree f), d')
    | _ => none
  | .run =>
    match p.phase with
    | .idle _ => none
    | .mkDirP => some (p.goto .touchTimestamp, d.mkDirP)
    | .touchTimestamp => some (p.goto .openLock, d.touchTimestamp)
    | .openLock =>
      match d.openLock with
      | .error e => some (p.goto (.idle (some (.failed e))), d)
      | .ok (f, d') => some (p.goto (.flock f), d')
    | .flock f => if d.locked f then none else some (p.goto (.checkSrc f), d.setLocked f true)
    | .checkSrc f =>
      if d.srcExists then some (p.goto (.unlock f .returned), d)
      else some (p.goto (.download f dependencies), d)
    | .download f [] => some (p.goto (.move f), d)
    | .download _ (_ :: _) => none
    | .extract f dep deps =>
      match p.temp dep with
      | none => some (p.goto (.download f deps), d)
      | some _ => none
    | .rmtree _ => none
    | .move f =>
      match d.moveTestSrc with
      | .error e => some (p.goto (.unlock f (.failed e)), d)
      | .ok d' => some (p.goto (.unlock f .returned), d')
    | .unlock f outcome => some (p.goto (.idle (some outcome)), d.setLocked f false)

/-- A step of one instance. -/
def SetupStep (p : Instance) (d : Disk) (ev : Event) (p' : Instance) (d' : Disk) : Prop :=
  setupStep p d ev = some (p', d')

abbrev Setups := Config Disk Instance

/-- So many instances, and no directory for the build. -/
def beforeSetups (n : Nat) : Setups :=
  ⟨⟨false, none, 0, fun _ => false⟩, List.replicate n ⟨.idle none, fun _ => none⟩⟩

/-! ## What a step does -/

section Moves

variable {p p' : Instance} {d d' : Disk} {ev : Event}

/-- The steps of an instance, one for each. -/
inductive Moves (p : Instance) (d : Disk) : Event → Instance → Disk → Prop
  | call {last : Option Outcome} : p.phase = .idle last → Moves p d .call (p.goto .mkDirP) d
  | mkDirP : p.phase = .mkDirP → Moves p d .run (p.goto .touchTimestamp) d.mkDirP
  | touchTimestamp : p.phase = .touchTimestamp → Moves p d .run (p.goto .openLock) d.touchTimestamp
  | openFails {e : SetupError} : p.phase = .openLock → d.openLock = .error e →
      Moves p d .run (p.goto (.idle (some (.failed e)))) d
  | openLock {f : Inode} {d' : Disk} : p.phase = .openLock → d.openLock = .ok (f, d') →
      Moves p d .run (p.goto (.flock f)) d'
  | flock {f : Inode} : p.phase = .flock f → d.locked f = false →
      Moves p d .run (p.goto (.checkSrc f)) (d.setLocked f true)
  | srcThere {f : Inode} : p.phase = .checkSrc f → d.srcExists = true →
      Moves p d .run (p.goto (.unlock f .returned)) d
  | srcMissing {f : Inode} : p.phase = .checkSrc f → d.srcExists = false →
      Moves p d .run (p.goto (.download f dependencies)) d
  | downloaded {f : Inode} {dep : String} {deps : List String} {r : Response}
      {temp : String → Option Bytes} :
      p.phase = .download f (dep :: deps) → downloadFilesFromTar p.temp dep r = (.ok (), temp) →
      Moves p d (.answer r) ⟨.extract f dep deps, temp⟩ d
  | downloadFails {f : Inode} {dep : String} {deps : List String} {r : Response} {e : SetupError}
      {temp : String → Option Bytes} :
      p.phase = .download f (dep :: deps) → downloadFilesFromTar p.temp dep r = (.error e, temp) →
      Moves p d (.answer r) ⟨.unlock f (.failed e), temp⟩ d
  | noTarball {f : Inode} {dep : String} {deps : List String} : p.phase = .extract f dep deps →
      p.temp dep = none →
      Moves p d .run (p.goto (.download f deps)) d
  | extracted {f : Inode} {dep : String} {deps : List String} {tarball : Bytes} {t : TarRun}
      {d' : Disk} :
      p.phase = .extract f dep deps → p.temp dep = some tarball →
        extractTarball d tarball t = some d' →
      t.raises = false → Moves p d (.tar t) (p.goto (.download f deps)) d'
  | extractRaises {f : Inode} {dep : String} {deps : List String} {tarball : Bytes} {t : TarRun}
      {d' : Disk} :
      p.phase = .extract f dep deps → p.temp dep = some tarball →
        extractTarball d tarball t = some d' →
      t.raises = true → Moves p d (.tar t) (p.goto (.rmtree f)) d'
  | removes {f : Inode} {g : Removal} {d' : Disk} : p.phase = .rmtree f →
      d.rmtree g = .ok d' → g ≠ .dir →
      Moves p d (.remove g) (p.goto (.rmtree f)) d'
  | removed {f : Inode} {d' : Disk} : p.phase = .rmtree f → d.rmtree .dir = .ok d' →
      Moves p d (.remove .dir) (p.goto (.unlock f (.failed .telemetrySetupError))) d'
  | removeFails {f : Inode} {g : Removal} {e : SetupError} : p.phase = .rmtree f →
      d.rmtree g = .error e →
      Moves p d (.remove g) (p.goto (.unlock f (.failed e))) d
  | noMore {f : Inode} : p.phase = .download f [] → Moves p d .run (p.goto (.move f)) d
  | moved {f : Inode} {d' : Disk} : p.phase = .move f → d.moveTestSrc = .ok d' →
      Moves p d .run (p.goto (.unlock f .returned)) d'
  | moveFails {f : Inode} {e : SetupError} : p.phase = .move f → d.moveTestSrc = .error e →
      Moves p d .run (p.goto (.unlock f (.failed e))) d
  | unlock {f : Inode} {outcome : Outcome} : p.phase = .unlock f outcome →
      Moves p d .run (p.goto (.idle (some outcome))) (d.setLocked f false)

theorem moves_of_step (h : SetupStep p d ev p' d') : Moves p d ev p' d' := by
  unfold SetupStep setupStep at h
  split at h
  · split at h
    · next hp =>
      cases h
      exact .call hp
    · cases h
  · split at h
    · next hp =>
      split at h
      · next hr =>
        cases h
        exact .downloaded hp hr
      · next hr =>
        cases h
        exact .downloadFails hp hr
    · cases h
  · split at h
    · next hp =>
      split at h
      · cases h
      · next htar =>
        split at h
        · cases h
        · next hx =>
          cases h
          split
          · next hraises => exact .extractRaises hp htar hx hraises
          · next hraises => exact .extracted hp htar hx (Bool.not_eq_true _ ▸ hraises)
    · cases h
  · split at h
    · next hp =>
      split at h
      · next hg =>
        cases h
        exact .removeFails hp hg
      · next hg =>
        cases h
        split
        · next hdir =>
          subst hdir
          exact .removed hp hg
        · next hdir => exact .removes hp hg hdir
    · cases h
  · split at h
    · cases h
    · next hp =>
      cases h
      exact .mkDirP hp
    · next hp =>
      cases h
      exact .touchTimestamp hp
    · next hp =>
      split at h
      · next ho =>
        cases h
        exact .openFails hp ho
      · next ho =>
        cases h
        exact .openLock hp ho
    · next hp =>
      split at h
      · cases h
      · next hl =>
        cases h
        exact .flock hp (Bool.not_eq_true _ ▸ hl)
    · next hp =>
      split at h
      · next hs =>
        cases h
        exact .srcThere hp hs
      · next hs =>
        cases h
        exact .srcMissing hp (Bool.not_eq_true _ ▸ hs)
    · next hp =>
      cases h
      exact .noMore hp
    · cases h
    · next hp =>
      split at h
      · next htar =>
        cases h
        exact .noTarball hp htar
      · cases h
    · cases h
    · next hp =>
      split at h
      · next hm =>
        cases h
        exact .moveFails hp hm
      · next hm =>
        cases h
        exact .moved hp hm
    · next hp =>
      cases h
      exact .unlock hp

end Moves

end GsCache
