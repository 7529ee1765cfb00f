import DevUtil.Lib.Resources
import DevUtil.Willis.GitTree
import DevUtil.Willis.Rel

/-!
# The goroutines of `willis`

`main` of `willis.go` starts a goroutine for every git tree and one that reports the progress. They
share the channel `ch` that throttles them, the mutex `countMtx` with what it guards, the wait group
and the two channels by which the progress report is ended. A step is one access to what is shared,
so that an increment is a read and a write.

    a goroutine pays for what it takes of the throttle, the mutex, the counters and
      the wait group                                                                     (next_pays)
-/

namespace Willis

open Lib Interleave

/-! ## What `main` has before it starts goroutines -/

structure Setup where
  repoRoot : Text
  cwd : Text
  /-- what running a command gives -/
  exec : List Text → CommandResult
  /-- `pm` -/
  projectMap : Dict Text Project
  /-- the lines of `repo list` -/
  repoList : List Text
  /-- `runtime.NumCPU()` -/
  maxGoCount : Nat
  rootRooted : repoRoot.head? = some '/'
  cwdRooted : cwd.head? = some '/'
  cpus : 0 < maxGoCount

namespace Setup

def gitPath (line : Text) : Text := trimSpace ((line.splitOn ':').headD [])

def gitTree (w : Setup) (line : Text) : Text := join [w.repoRoot, gitPath line]

/-- `(*pm)[gitPath].Tracking` -/
def tracking (w : Setup) (line : Text) : Text :=
  ((w.projectMap.get? (gitPath line)).map Project.tracking).getD []

/-- The report of a tree. -/
def report (w : Setup) (line : Text) : GitTreeReport :=
  checkGitTree (runCommand w.exec) (w.gitTree line) (w.tracking line)

/-- The key of a tree in the results. -/
def relpath (w : Setup) (line : Text) : Text := (rel w.cwd (w.gitTree line)).getD (gitPath line)

end Setup

/-! ## The shared state -/

structure Shared where
  /-- `len(ch)` -/
  slots : Nat := 0
  /-- `countMtx` -/
  locked : Bool := false
  startedCounter : Int := 0
  runningCounter : Int := 0
  wg : Int := 0
  /-- goroutines started for the lines of `repo list` -/
  spawned : Nat := 0
  /-- the goroutine that reports the progress is started -/
  reporting : Bool := false
  /-- `main` waits for its value to be received from `finishProgressReporting` -/
  parked : Bool := false
  /-- `progressReportingFinished` is closed -/
  finished : Bool := false
  results : Dict Text GitTreeReport := Dict.empty
  stdout : List Text := []

/-! ## Where the goroutines are -/

inductive MainPc
  /-- `for _, line := range repoList`, at line `k` -/
  | adding (k : Nat)
  /-- `go func()` -/
  | spawning (k : Nat)
  | reporting
  /-- `wg.Wait()` -/
  | waiting
  /-- `finishProgressReporting <- true` -/
  | sending
  | parked
  /-- `<-progressReportingFinished` -/
  | closing
  | printing
  | exited

inductive WorkerPc
  /-- `ch <- true` -/
  | ready
  /-- `countMtx.Lock()` -/
  | admitted
  /-- `startedCounter++` -/
  | entered
  | startedRead (n : Int)
  /-- `runningCounter++` -/
  | counting
  | runningRead (n : Int)
  /-- `countMtx.Unlock()` -/
  | counted
  /-- `checkGitTree` -/
  | checking
  /-- `countMtx.Lock()` -/
  | checked (report : GitTreeReport)
  /-- `results[relpath] = report` -/
  | recording (report : GitTreeReport)
  /-- `runningCounter--` -/
  | recorded
  | stopRead (n : Int)
  /-- `countMtx.Unlock()` -/
  | stopped
  /-- `<-ch` -/
  | released
  /-- `wg.Done()` -/
  | leaving
  | done

inductive ProgressPc
  /-- `countMtx.Lock()` -/
  | locking
  /-- `reportProgress` -/
  | reporting
  /-- `select` -/
  | selecting
  /-- `close(progressReportingFinished)` -/
  | closing
  /-- `countMtx.Unlock()` before the return -/
  | ending
  | returned
  /-- `countMtx.Unlock()` by default -/
  | continuing
  | sleeping

inductive Goroutine
  | main (pc : MainPc)
  | progress (pc : ProgressPc)
  | worker (i : Nat) (line : Text) (pc : WorkerPc)

/-! ## Steps -/

/-- `%3d` -/
def pad3 (n : Int) : Text :=
  List.replicate (3 - (toString n).toList.length) ' ' ++ (toString n).toList

/-- What `reportProgress` writes. -/
def reportProgress (startedCounter runningCounter : Int) : Text :=
  "Started ".toList ++ pad3 startedCounter ++ " still going ".toList ++
    pad3 runningCounter ++ ['\r']

section

variable (w : Setup)

/-- `main`, from the loop over the lines on. -/
def mainNext (pc : MainPc) (s : Shared) : Option (MainPc × Shared) :=
  match pc with
  | .adding k =>
    if k < w.repoList.length then some (.spawning k, { s with wg := s.wg + 1 })
    else some (.reporting, s)
  | .spawning k => some (.adding (k + 1), { s with spawned := k + 1 })
  | .reporting => some (.waiting, { s with reporting := true })
  | .waiting => if s.wg = 0 then some (.sending, s) else none
  | .sending => some (.parked, { s with parked := true })
  | .parked => if s.parked then none else some (.closing, s)
  | .closing => if s.finished then some (.printing, s) else none
  | .printing => some (.exited, { s with stdout := s.stdout ++ printResults s.results })
  | .exited => none

/-- The goroutine of the tree at `line`, which is the line number `i`. -/
def workerNext (i : Nat) (line : Text) (pc : WorkerPc) (s : Shared) : Option (WorkerPc × Shared) :=
  match pc with
  | .ready =>
    if i < s.spawned ∧ s.slots < w.maxGoCount then some (.admitted, { s with slots := s.slots + 1 })
    else none
  | .admitted => if s.locked then none else some (.entered, { s with locked := true })
  | .entered => some (.startedRead s.startedCounter, s)
  | .startedRead n => some (.counting, { s with startedCounter := n + 1 })
  | .counting => some (.runningRead s.runningCounter, s)
  | .runningRead n => some (.counted, { s with runningCounter := n + 1 })
  | .counted => some (.checking, { s with locked := false })
  | .checking => some (.checked (w.report line), s)
  | .checked report =>
    if s.locked then none else some (.recording report, { s with locked := true })
  | .recording report =>
    some (.recorded, { s with results := s.results.set (w.relpath line) report })
  | .recorded => some (.stopRead s.runningCounter, s)
  | .stopRead n => some (.stopped, { s with runningCounter := n - 1 })
  | .stopped => some (.released, { s with locked := false })
  | .released => if 0 < s.slots then some (.leaving, { s with slots := s.slots - 1 }) else none
  | .leaving => some (.done, { s with wg := s.wg - 1 })
  | .done => none

def progressNext (pc : ProgressPc) (s : Shared) : Option (ProgressPc × Shared) :=
  match pc with
  | .locking =>
    if s.reporting ∧ s.locked = false then some (.reporting, { s with locked := true }) else none
  | .reporting =>
    some (.selecting,
      { s with stdout := s.stdout ++ [reportProgress s.startedCounter s.runningCounter] })
  | .selecting =>
    if s.parked then some (.closing, { s with parked := false }) else some (.continuing, s)
  | .closing => some (.ending, { s with finished := true })
  | .ending => some (.returned, { s with locked := false })
  | .returned => none
  | .continuing => some (.sleeping, { s with locked := false })
  | .sleeping => some (.locking, s)

def next (p : Goroutine) (s : Shared) : Option (Unit × Goroutine × Shared) :=
  match p with
  | .main pc => (mainNext w pc s).map fun (pc, s) => ((), .main pc, s)
  | .progress pc => (progressNext pc s).map fun (pc, s) => ((), .progress pc, s)
  | .worker i line pc => (workerNext w i line pc s).map fun (pc, s) => ((), .worker i line pc, s)

def GoStep (p : Goroutine) (s : Shared) (l : Unit) (p' : Goroutine) (s' : Shared) : Prop :=
  next w p s = some (l, p', s')

/-- Before the first line. -/
def initial : Config Shared Goroutine where
  shared := {}
  procs := .main (.adding 0) :: .progress .locking :: w.repoList.zipIdx.map fun (line, i) =>
    .worker i line .ready

/-- The configurations that some order of steps leads to. -/
def Reachable (c : Config Shared Goroutine) : Prop :=
  Run (GoStep w) (fun _ _ _ => True) (initial w) c

end

/-! ## Shares -/

/-- Whether a goroutine has a value in `ch`. -/
def slotHeld : Goroutine → Nat
  | .worker _ _ .ready => 0
  | .worker _ _ .leaving => 0
  | .worker _ _ .done => 0
  | .worker _ _ _ => 1
  | _ => 0

/-- Whether a goroutine is between `countMtx.Lock()` and `countMtx.Unlock()`. -/
def lockHeld : Goroutine → Nat
  | .worker _ _ .entered => 1
  | .worker _ _ (.startedRead _) => 1
  | .worker _ _ .counting => 1
  | .worker _ _ (.runningRead _) => 1
  | .worker _ _ .counted => 1
  | .worker _ _ (.recording _) => 1
  | .worker _ _ .recorded => 1
  | .worker _ _ (.stopRead _) => 1
  | .worker _ _ .stopped => 1
  | .progress .reporting => 1
  | .progress .selecting => 1
  | .progress .closing => 1
  | .progress .ending => 1
  | .progress .continuing => 1
  | _ => 0

/-- Whether a goroutine is counted as started. -/
def startedHeld : Goroutine → Nat
  | .worker _ _ .ready => 0
  | .worker _ _ .admitted => 0
  | .worker _ _ .entered => 0
  | .worker _ _ (.startedRead _) => 0
  | .worker _ _ _ => 1
  | _ => 0

/-- Whether a goroutine is counted as still going. -/
def runningHeld : Goroutine → Nat
  | .worker _ _ .counted => 1
  | .worker _ _ .checking => 1
  | .worker _ _ (.checked _) => 1
  | .worker _ _ (.recording _) => 1
  | .worker _ _ .recorded => 1
  | .worker _ _ (.stopRead _) => 1
  | _ => 0

/-- Whether a goroutine is still to be waited for. -/
def waitHeld : Goroutine → Nat
  | .main (.spawning _) => 1
  | .worker _ _ .done => 0
  | .worker _ _ _ => 1
  | _ => 0

/-- What the wait group counts, with the goroutines that are still to be started. -/
def waitLevel (w : Setup) (s : Shared) : Int := s.wg + ((w.repoList.length - s.spawned : Nat) : Int)

def lockLevel (s : Shared) : Int := if s.locked then 1 else 0

/-- A goroutine takes a share and the level goes up by it, or it gives it back. -/
structure Pays (w : Setup) (p : Goroutine) (s : Shared) (p' : Goroutine) (s' : Shared) : Prop where
  slots : (s'.slots : Int) + slotHeld p = s.slots + slotHeld p'
  lock : lockLevel s' + lockHeld p = lockLevel s + lockHeld p'
  started : s'.startedCounter + startedHeld p = s.startedCounter + startedHeld p'
  running : s'.runningCounter + runningHeld p = s.runningCounter + runningHeld p'
  wait : waitLevel w s' + waitHeld p = waitLevel w s + waitHeld p'

/-! ## What a goroutine knows -/

/-- What `main` knows of the shared state where it is. -/
def MainKnows (w : Setup) (pc : MainPc) (s : Shared) : Prop :=
  match pc with
  | .adding k => s.spawned = k ∧ k ≤ w.repoList.length ∧ s.reporting = false ∧ s.parked = false
  | .spawning k => s.spawned = k ∧ k < w.repoList.length ∧ s.reporting = false ∧ s.parked = false
  | .reporting => s.spawned = w.repoList.length ∧ s.reporting = false ∧ s.parked = false
  | .waiting => s.spawned = w.repoList.length ∧ s.reporting = true ∧ s.parked = false
  | .sending => s.spawned = w.repoList.length ∧ s.reporting = true ∧ s.parked = false ∧ s.wg = 0
  | .parked => s.spawned = w.repoList.length ∧ s.reporting = true ∧ s.wg = 0
  | .closing => s.spawned = w.repoList.length ∧ s.reporting = true ∧ s.wg = 0
  | .printing => s.spawned = w.repoList.length ∧ s.wg = 0 ∧ s.finished = true
  | .exited => s.spawned = w.repoList.length ∧ s.wg = 0 ∧ s.finished = true

def ProgressKnows (pc : ProgressPc) (s : Shared) : Prop :=
  match pc with
  | .ending => s.finished = true
  | .returned => s.finished = true
  | _ => s.finished = false

/-- The counters that were read are what they were; a report is the report of the tree. -/
def WorkerKnows (w : Setup) (line : Text) (pc : WorkerPc) (s : Shared) : Prop :=
  match pc with
  | .startedRead n => n = s.startedCounter
  | .runningRead n => n = s.runningCounter
  | .checked report => report = w.report line
  | .recording report => report = w.report line
  | .recorded => (s.results.get? (w.relpath line)).isSome
  | .stopRead n => n = s.runningCounter ∧ (s.results.get? (w.relpath line)).isSome
  | .stopped => (s.results.get? (w.relpath line)).isSome
  | .released => (s.results.get? (w.relpath line)).isSome
  | .leaving => (s.results.get? (w.relpath line)).isSome
  | .done => (s.results.get? (w.relpath line)).isSome
  | _ => True

/-- What the goroutine number `i` is, and knows. -/
def Knows (w : Setup) (i : Nat) (p : Goroutine) (s : Shared) : Prop :=
  match p with
  | .main pc => i = 0 ∧ MainKnows w pc s
  | .progress pc => i = 1 ∧ ProgressKnows pc s
  | .worker j line pc => i = j + 2 ∧ w.repoList[j]? = some line ∧ WorkerKnows w line pc s

variable {w : Setup} {s s' : Shared}

theorem lockLevel_le (s : Shared) : lockLevel s ≤ 1 := by
  unfold lockLevel
  split <;> omega

/-- Who unlocks has locked. -/
theorem lockLevel_unlock (h : 1 ≤ lockLevel s) :
    lockLevel { s with locked := false } + 1 = lockLevel s + 0 := by
  have hle := lockLevel_le s
  have hfree : lockLevel { s with locked := false } = 0 := rfl
  omega

theorem lockLevel_lock (h : s.locked = false) :
    lockLevel { s with locked := true } + 0 = lockLevel s + 1 := by
  simp [lockLevel, h]

theorem mainNext_pays {pc pc' : MainPc} (h : mainNext w pc s = some (pc', s'))
    (hk : MainKnows w pc s) :
    Pays w (.main pc) s (.main pc') s' := by
  cases pc with
  | adding k =>
    rw [mainNext] at h
    split at h
    · cases h
      exact ⟨rfl, rfl, rfl, rfl, by simp [waitLevel, waitHeld]; omega⟩
    · cases h
      exact ⟨rfl, rfl, rfl, rfl, rfl⟩
  | spawning k =>
    obtain ⟨hspawned, hk, -⟩ := hk
    cases h
    exact ⟨rfl, rfl, rfl, rfl, by simp [waitLevel, waitHeld, hspawned]; omega⟩
  | reporting =>
    cases h
    exact ⟨rfl, rfl, rfl, rfl, rfl⟩
  | waiting =>
    rw [mainNext] at h
    split at h <;> cases h
    exact ⟨rfl, rfl, rfl, rfl, rfl⟩
  | sending =>
    cases h
    exact ⟨rfl, rfl, rfl, rfl, rfl⟩
  | parked =>
    rw [mainNext] at h
    split at h <;> cases h
    exact ⟨rfl, rfl, rfl, rfl, rfl⟩
  | closing =>
    rw [mainNext] at h
    split at h <;> cases h
    exact ⟨rfl, rfl, rfl, rfl, rfl⟩
  | printing =>
    cases h
    exact ⟨rfl, rfl, rfl, rfl, rfl⟩
  | exited => cases h

theorem progressNext_pays {pc pc' : ProgressPc} (h : progressNext pc s = some (pc', s'))
    (hlock : lockHeld (.progress pc) ≤ lockLevel s) :
    Pays w (.progress pc) s (.progress pc') s' := by
  cases pc with
  | locking =>
    rw [progressNext] at h
    split at h
    · next hfree =>
      cases h
      exact ⟨rfl, lockLevel_lock hfree.2, rfl, rfl, rfl⟩
    · cases h
  | reporting =>
    cases h
    exact ⟨rfl, rfl, rfl, rfl, rfl⟩
  | selecting =>
    rw [progressNext] at h
    split at h <;> cases h <;> exact ⟨rfl, rfl, rfl, rfl, rfl⟩
  | closing =>
    cases h
    exact ⟨rfl, rfl, rfl, rfl, rfl⟩
  | ending =>
    cases h
    exact ⟨rfl, lockLevel_unlock hlock, rfl, rfl, rfl⟩
  | returned => cases h
  | continuing =>
    cases h
    exact ⟨rfl, lockLevel_unlock hlock, rfl, rfl, rfl⟩
  | sleeping =>
    cases h
    exact ⟨rfl, rfl, rfl, rfl, rfl⟩

theorem workerNext_pays {i : Nat} {line : Text} {pc pc' : WorkerPc}
    (h : workerNext w i line pc s = some (pc', s'))
    (hlock : lockHeld (.worker i line pc) ≤ lockLevel s) (hk : WorkerKnows w line pc s) :
    Pays w (.worker i line pc) s (.worker i line pc') s' := by
  cases pc with
  | ready =>
    rw [workerNext] at h
    split at h <;> cases h
    exact ⟨rfl, rfl, rfl, rfl, rfl⟩
  | admitted =>
    rw [workerNext] at h
    split at h
    · cases h
    · next hfree =>
      cases h
      exact ⟨rfl, lockLevel_lock (Bool.eq_false_of_not_eq_true hfree), rfl, rfl, rfl⟩
  | entered =>
    cases h
    exact ⟨rfl, rfl, rfl, rfl, rfl⟩
  | startedRead n =>
    obtain rfl : n = s.startedCounter := hk
    cases h
    refine ⟨rfl, rfl, ?_, rfl, rfl⟩
    simp [startedHeld]
  | counting =>
    cases h
    exact ⟨rfl, rfl, rfl, rfl, rfl⟩
  | runningRead n =>
    obtain rfl : n = s.runningCounter := hk
    cases h
    refine ⟨rfl, rfl, rfl, ?_, rfl⟩
    simp [runningHeld]
  | counted =>
    cases h
    exact ⟨rfl, lockLevel_unlock hlock, rfl, rfl, rfl⟩
  | checking =>
    cases h
    exact ⟨rfl, rfl, rfl, rfl, rfl⟩
  | checked report =>
    rw [workerNext] at h
    split at h
    · cases h
    · next hfree =>
      cases h
      exact ⟨rfl, lockLevel_lock (Bool.eq_false_of_not_eq_true hfree), rfl, rfl, rfl⟩
  | recording report =>
    cases h
    exact ⟨rfl, rfl, rfl, rfl, rfl⟩
  | recorded =>
    cases h
    exact ⟨rfl, rfl, rfl, rfl, rfl⟩
  | stopRead n =>
    obtain ⟨rfl, -⟩ : n = s.runningCounter ∧ _ := hk
    cases h
    refine ⟨rfl, rfl, rfl, ?_, rfl⟩
    simp [runningHeld]
  | stopped =>
    cases h
    exact ⟨rfl, lockLevel_unlock hlock, rfl, rfl, rfl⟩
  | released =>
    rw [workerNext] at h
    split at h
    · next hslots =>
      cases h
      refine ⟨?_, rfl, rfl, rfl, rfl⟩
      simp only [slotHeld]
      omega
    · cases h
  | leaving =>
    cases h
    refine ⟨rfl, rfl, rfl, rfl, ?_⟩
    simp only [waitLevel, waitHeld]
    omega
  | done => cases h

/-- The step of a goroutine that knows where it is. -/
theorem next_pays {i : Nat} {p p' : Goroutine} {l : Unit} (h : next w p s = some (l, p', s'))
    (hk : Knows w i p s) (hlock : lockHeld p ≤ lockLevel s) : Pays w p s p' s' := by
  cases p with
  | main pc =>
    obtain ⟨⟨pc', s₁⟩, hnext, heq⟩ := Option.map_eq_some_iff.mp h
    cases heq
    exact mainNext_pays hnext hk.2
  | progress pc =>
    obtain ⟨⟨pc', s₁⟩, hnext, heq⟩ := Option.map_eq_some_iff.mp h
    cases heq
    exact progressNext_pays hnext hlock
  | worker j line pc =>
    obtain ⟨⟨pc', s₁⟩, hnext, heq⟩ := Option.map_eq_some_iff.mp h
    cases heq
    exact workerNext_pays hnext hlock hk.2.2

end Willis
