import DevUtil.Willis.Goroutines

/-!
# What holds in every order of steps

    at no moment more trees are checked than `maxGoCount`, and one goroutine
      at most is between `Lock` and `Unlock`
    the counters are the numbers of goroutines that have started, and that
      are still going: no increment is lost                                    (safe)
-/

namespace Willis

open Lib Interleave

variable {w : Setup} {s s' : Shared}

/-! ## What a step leaves -/

structure MainLeaves (s s' : Shared) : Prop where
  slots : s'.slots = s.slots
  started : s'.startedCounter = s.startedCounter
  running : s'.runningCounter = s.runningCounter
  finished : s'.finished = s.finished
  results : s'.results = s.results

theorem mainNext_leaves {pc pc' : MainPc} (h : mainNext w pc s = some (pc', s')) :
    MainLeaves s s' := by
  cases pc <;> simp only [mainNext, Option.ite_none_right_eq_some,
    Option.ite_none_left_eq_some] at h
  case adding k => split at h <;> cases h <;> exact ⟨rfl, rfl, rfl, rfl, rfl⟩
  case waiting => cases h.2; exact ⟨rfl, rfl, rfl, rfl, rfl⟩
  case parked => cases h.2; exact ⟨rfl, rfl, rfl, rfl, rfl⟩
  case closing => cases h.2; exact ⟨rfl, rfl, rfl, rfl, rfl⟩
  case exited => cases h
  all_goals cases h; exact ⟨rfl, rfl, rfl, rfl, rfl⟩

structure ProgressLeaves (s s' : Shared) : Prop where
  slots : s'.slots = s.slots
  started : s'.startedCounter = s.startedCounter
  running : s'.runningCounter = s.runningCounter
  wg : s'.wg = s.wg
  spawned : s'.spawned = s.spawned
  reporting : s'.reporting = s.reporting
  results : s'.results = s.results
  parked : s.parked = false → s'.parked = false
  finished : s.finished = true → s'.finished = true

theorem progressNext_leaves {pc pc' : ProgressPc} (h : progressNext pc s = some (pc', s')) :
    ProgressLeaves s s' := by
  cases pc <;> simp only [progressNext, Option.ite_none_right_eq_some] at h
  case locking => cases h.2; exact ⟨rfl, rfl, rfl, rfl, rfl, rfl, rfl, id, id⟩
  case selecting =>
    split at h <;> cases h <;> exact ⟨rfl, rfl, rfl, rfl, rfl, rfl, rfl, by simp, id⟩
  case closing => cases h; exact ⟨rfl, rfl, rfl, rfl, rfl, rfl, rfl, id, fun _ => rfl⟩
  case returned => cases h
  all_goals cases h; exact ⟨rfl, rfl, rfl, rfl, rfl, rfl, rfl, id, id⟩

/-- Without the mutex a goroutine leaves what it guards. -/
structure WorkerLeaves (p : Goroutine) (s s' : Shared) : Prop where
  spawned : s'.spawned = s.spawned
  reporting : s'.reporting = s.reporting
  parked : s'.parked = s.parked
  finished : s'.finished = s.finished
  stdout : s'.stdout = s.stdout
  wg : waitHeld p = 0 → s'.wg = s.wg
  started : lockHeld p = 0 → s'.startedCounter = s.startedCounter
  running : lockHeld p = 0 → s'.runningCounter = s.runningCounter
  results : ∀ key, (s.results.get? key).isSome → (s'.results.get? key).isSome

theorem isSome_set {results : Dict Text GitTreeReport} {key : Text} (key' : Text)
    (report : GitTreeReport) (h : (results.get? key).isSome) :
    ((results.set key' report).get? key).isSome := by
  by_cases hkey : key = key'
  · rw [hkey, Dict.get?_set]
    rfl
  · rwa [Dict.get?_set_of_ne results hkey]

theorem workerNext_leaves {i : Nat} {line : Text} {pc pc' : WorkerPc}
    (h : workerNext w i line pc s = some (pc', s')) :
    WorkerLeaves (.worker i line pc) s s' := by
  cases pc <;> simp only [workerNext, Option.ite_none_right_eq_some,
    Option.ite_none_left_eq_some] at h
  case startedRead n =>
    cases h; exact ⟨rfl, rfl, rfl, rfl, rfl,
      fun _ => rfl, by simp [lockHeld], by simp [lockHeld], fun _ => id⟩
  case runningRead n =>
    cases h; exact ⟨rfl, rfl, rfl, rfl, rfl,
      fun _ => rfl, by simp [lockHeld], by simp [lockHeld], fun _ => id⟩
  case stopRead n =>
    cases h; exact ⟨rfl, rfl, rfl, rfl, rfl,
      fun _ => rfl, by simp [lockHeld], by simp [lockHeld], fun _ => id⟩
  case recording report =>
    cases h
    exact ⟨rfl, rfl, rfl, rfl, rfl, fun _ => rfl, fun _ => rfl,
      fun _ => rfl, fun _ => isSome_set _ _⟩
  case leaving =>
    cases h; exact ⟨rfl, rfl, rfl, rfl,
      rfl, by simp [waitHeld], fun _ => rfl, fun _ => rfl, fun _ => id⟩
  case ready =>
    cases h.2; exact ⟨rfl, rfl, rfl, rfl, rfl, fun _ => rfl,
      fun _ => rfl, fun _ => rfl, fun _ => id⟩
  case admitted =>
    cases h.2; exact ⟨rfl, rfl, rfl, rfl, rfl, fun _ => rfl,
      fun _ => rfl, fun _ => rfl, fun _ => id⟩
  case checked report =>
    cases h.2; exact ⟨rfl, rfl, rfl, rfl, rfl, fun _ => rfl,
      fun _ => rfl, fun _ => rfl, fun _ => id⟩
  case released =>
    cases h.2; exact ⟨rfl, rfl, rfl, rfl, rfl, fun _ => rfl,
      fun _ => rfl, fun _ => rfl, fun _ => id⟩
  case done => cases h
  all_goals cases h; exact ⟨rfl, rfl, rfl, rfl, rfl,
    fun _ => rfl, fun _ => rfl, fun _ => rfl, fun _ => id⟩

/-! ## What a goroutine knows after its own step -/

theorem mainNext_knows {pc pc' : MainPc} (h : mainNext w pc s = some (pc', s'))
    (hk : MainKnows w pc s) :
    MainKnows w pc' s' := by
  cases pc with
  | adding k =>
    obtain ⟨hspawned, hle, hreporting, hparked⟩ := hk
    rw [mainNext] at h
    split at h
    · next hlt =>
      cases h
      exact ⟨hspawned, hlt, hreporting, hparked⟩
    · next hge =>
      cases h
      exact ⟨by omega, hreporting, hparked⟩
  | spawning k =>
    obtain ⟨-, hlt, hreporting, hparked⟩ := hk
    cases h
    exact ⟨rfl, hlt, hreporting, hparked⟩
  | reporting =>
    cases h
    exact ⟨hk.1, rfl, hk.2.2⟩
  | waiting =>
    simp only [mainNext, Option.ite_none_right_eq_some] at h
    obtain ⟨hwg, h⟩ := h
    cases h
    exact ⟨hk.1, hk.2.1, hk.2.2, hwg⟩
  | sending =>
    cases h
    exact ⟨hk.1, hk.2.1, hk.2.2.2⟩
  | parked =>
    simp only [mainNext, Option.ite_none_left_eq_some] at h
    cases h.2
    exact hk
  | closing =>
    simp only [mainNext, Option.ite_none_right_eq_some] at h
    obtain ⟨hfinished, h⟩ := h
    cases h
    exact ⟨hk.1, hk.2.2, hfinished⟩
  | printing =>
    cases h
    exact hk
  | exited => cases h

theorem progressNext_knows {pc pc' : ProgressPc} (h : progressNext pc s = some (pc', s'))
    (hk : ProgressKnows pc s) :
    ProgressKnows pc' s' := by
  cases pc with
  | locking =>
    simp only [progressNext, Option.ite_none_right_eq_some] at h
    cases h.2
    exact hk
  | selecting =>
    rw [progressNext] at h
    split at h <;> cases h <;> exact hk
  | closing =>
    cases h
    rfl
  | returned => cases h
  | reporting => cases h; exact hk
  | ending => cases h; exact hk
  | continuing => cases h; exact hk
  | sleeping => cases h; exact hk

theorem workerNext_knows {i : Nat} {line : Text} {pc pc' : WorkerPc}
    (h : workerNext w i line pc s = some (pc', s')) (hk : WorkerKnows w line pc s) :
    WorkerKnows w line pc' s' := by
  cases pc with
  | ready =>
    simp only [workerNext, Option.ite_none_right_eq_some] at h
    cases h.2
    trivial
  | admitted =>
    simp only [workerNext, Option.ite_none_left_eq_some] at h
    cases h.2
    trivial
  | entered => cases h; rfl
  | startedRead n => cases h; trivial
  | counting => cases h; rfl
  | runningRead n => cases h; trivial
  | counted => cases h; trivial
  | checking => cases h; rfl
  | checked report =>
    simp only [workerNext, Option.ite_none_left_eq_some] at h
    cases h.2
    exact hk
  | recording report =>
    cases h
    simp [WorkerKnows]
  | recorded => cases h; exact ⟨rfl, hk⟩
  | stopRead n => cases h; exact hk.2
  | stopped => cases h; exact hk
  | released =>
    simp only [workerNext, Option.ite_none_right_eq_some] at h
    cases h.2
    exact hk
  | leaving => cases h; exact hk
  | done => cases h

/-! ## What it still knows after a step of another one -/

theorem mainKnows_of_worker {pc : MainPc} {p : Goroutine} (hl : WorkerLeaves p s s')
    (hwait : waitHeld p ≤ waitLevel w s) (hk : MainKnows w pc s) : MainKnows w pc s' := by
  -- `main` has waited for all of them
  have hwg : s.spawned = w.repoList.length → s.wg = 0 → s'.wg = 0 := by
    intro hspawned hzero
    rw [waitLevel, hspawned, hzero] at hwait
    rw [hl.wg (by omega), hzero]
  cases pc <;> simp only [MainKnows, hl.spawned, hl.reporting, hl.parked, hl.finished] at hk ⊢
  case sending => exact ⟨hk.1, hk.2.1, hk.2.2.1, hwg hk.1 hk.2.2.2⟩
  case parked => exact ⟨hk.1, hk.2.1, hwg hk.1 hk.2.2⟩
  case closing => exact ⟨hk.1, hk.2.1, hwg hk.1 hk.2.2⟩
  case printing => exact ⟨hk.1, hwg hk.1 hk.2.1, hk.2.2⟩
  case exited => exact ⟨hk.1, hwg hk.1 hk.2.1, hk.2.2⟩
  all_goals exact hk

theorem mainKnows_of_progress {pc : MainPc} (hl : ProgressLeaves s s') (hk : MainKnows w pc s) :
    MainKnows w pc s' := by
  cases pc <;> simp only [MainKnows, hl.spawned, hl.reporting, hl.wg] at hk ⊢
  case adding k => exact ⟨hk.1, hk.2.1, hk.2.2.1, hl.parked hk.2.2.2⟩
  case spawning k => exact ⟨hk.1, hk.2.1, hk.2.2.1, hl.parked hk.2.2.2⟩
  case reporting => exact ⟨hk.1, hk.2.1, hl.parked hk.2.2⟩
  case waiting => exact ⟨hk.1, hk.2.1, hl.parked hk.2.2⟩
  case sending => exact ⟨hk.1, hk.2.1, hl.parked hk.2.2.1, hk.2.2.2⟩
  case printing => exact ⟨hk.1, hk.2.1, hl.finished hk.2.2⟩
  case exited => exact ⟨hk.1, hk.2.1, hl.finished hk.2.2⟩
  all_goals exact hk

theorem progressKnows_of_finished {pc : ProgressPc} (hfinished : s'.finished = s.finished)
    (hk : ProgressKnows pc s) :
    ProgressKnows pc s' := by
  unfold ProgressKnows at hk ⊢
  rw [hfinished]
  exact hk

/-- A goroutine that has read a counter has the mutex, so nobody writes the counter. -/
theorem workerKnows_of_leaves {i : Nat} {line : Text} {pc : WorkerPc}
    (hstarted : lockHeld (.worker i line pc) = 1 → s'.startedCounter = s.startedCounter)
    (hrunning : lockHeld (.worker i line pc) = 1 → s'.runningCounter = s.runningCounter)
    (hresults : ∀ key, (s.results.get? key).isSome → (s'.results.get? key).isSome)
    (hk : WorkerKnows w line pc s) :
    WorkerKnows w line pc s' := by
  cases pc with
  | startedRead n => exact hk.trans (hstarted rfl).symm
  | runningRead n => exact hk.trans (hrunning rfl).symm
  | stopRead n => exact ⟨hk.1.trans (hrunning rfl).symm, hresults _ hk.2⟩
  | recorded => exact hresults _ hk
  | stopped => exact hresults _ hk
  | released => exact hresults _ hk
  | leaving => exact hresults _ hk
  | done => exact hresults _ hk
  | _ => exact hk

/-! ## The invariant -/

/-- Whether `main` has its value for the progress report on the channel, or had it. -/
def offered : MainPc → Nat
  | .parked => 1
  | .closing => 1
  | .printing => 1
  | .exited => 1
  | _ => 0

/-- Whether the progress report has received it. -/
def received : ProgressPc → Nat
  | .closing => 1
  | .ending => 1
  | .returned => 1
  | _ => 0

def parkedLevel (s : Shared) : Nat := if s.parked then 1 else 0

/-- The numbers of a progress report. -/
structure Sane (w : Setup) (startedCounter runningCounter : Int) : Prop where
  nonneg : 0 ≤ runningCounter
  running : runningCounter ≤ w.maxGoCount
  started : runningCounter ≤ startedCounter
  all : startedCounter ≤ w.repoList.length

/-- What `main` has written. -/
def written (pc : MainPc) (s : Shared) : List Text :=
  match pc with
  | .exited => printResults s.results
  | _ => []

/-- Progress reports, and at the end the results. -/
def Written (w : Setup) (pc : MainPc) (s : Shared) : Prop :=
  ∃ counts : List (Int × Int), (∀ n ∈ counts, Sane w n.1 n.2) ∧
    s.stdout = counts.map (fun n => reportProgress n.1 n.2) ++ written pc s

structure Inv (w : Setup) (c : Config Shared Goroutine) : Prop where
  length : c.procs.length = w.repoList.length + 2
  knows : ∀ i p, c.procs[i]? = some p → Knows w i p c.shared
  slots : (c.shared.slots : Int) = total slotHeld c.procs
  lock : lockLevel c.shared = total lockHeld c.procs
  started : c.shared.startedCounter = total startedHeld c.procs
  running : c.shared.runningCounter = total runningHeld c.procs
  wait : waitLevel w c.shared = total waitHeld c.procs
  bounded : c.shared.slots ≤ w.maxGoCount
  results : ∀ key report, c.shared.results.get? key = some report →
    ∃ line ∈ w.repoList, key = w.relpath line ∧ report = w.report line
  handshake : ∀ m r, c.procs[0]? = some (.main m) → c.procs[1]? = some (.progress r) →
    offered m = parkedLevel c.shared + received r
  written : ∀ m, c.procs[0]? = some (.main m) → Written w m c.shared

variable {c : Config Shared Goroutine}

theorem exists_main {p : Goroutine} (h : Knows w 0 p s) : ∃ m, p = .main m := by
  cases p with
  | main m => exact ⟨m, rfl⟩
  | progress r => exact absurd h.1 (by omega)
  | worker i line pc => exact absurd h.1 (by omega)

theorem exists_progress {p : Goroutine} (h : Knows w 1 p s) : ∃ r, p = .progress r := by
  cases p with
  | main m => exact absurd h.1 (by omega)
  | progress r => exact ⟨r, rfl⟩
  | worker i line pc => exact absurd h.1 (by omega)

theorem exists_worker {i : Nat} {p : Goroutine} (h : Knows w (i + 2) p s) :
    ∃ line pc, p = .worker i line pc := by
  cases p with
  | main m => exact absurd h.1 (by omega)
  | progress r => exact absurd h.1 (by omega)
  | worker j line pc =>
    obtain rfl : i = j := by
      have hij := h.1
      omega
    exact ⟨line, pc, rfl⟩

/-- `main`, the progress report, and one goroutine for each line. -/
theorem Inv.shape (h : Inv w c) : ∃ m r workers, c.procs = .main m :: .progress r :: workers ∧
    workers.length = w.repoList.length ∧ ∀ p ∈ workers, ∃ i line pc, p = .worker i line pc := by
  obtain ⟨p, rest, hprocs⟩ := List.exists_cons_of_length_eq_add_one h.length
  have hlength := h.length
  rw [hprocs, List.length_cons] at hlength
  obtain ⟨q, workers, rfl⟩ := List.exists_cons_of_length_eq_add_one (Nat.succ.inj hlength)
  have hknows := h.knows
  rw [hprocs] at hknows
  obtain ⟨m, rfl⟩ := exists_main (hknows 0 p rfl)
  obtain ⟨r, rfl⟩ := exists_progress (hknows 1 q rfl)
  refine ⟨m, r, workers, hprocs, by simpa using hlength, fun p hp => ?_⟩
  obtain ⟨i, hi⟩ := List.mem_iff_getElem?.mp hp
  have hworker := hknows (i + 2) p (by simpa using hi)
  exact ⟨i, exists_worker hworker⟩

/-- What a goroutine has, the level has. -/
theorem held_le {held : Goroutine → Nat} {level : Int} {i : Nat} {p : Goroutine}
    (hlevel : level = total held c.procs) (hp : c.procs[i]? = some p) : (held p : Int) ≤ level := by
  have hle : held p ≤ total held c.procs := le_total hp
  omega

theorem startedHeld_worker_le {p : Goroutine} (h : ∃ i line pc, p = .worker i line pc) :
    startedHeld p ≤ 1 := by
  obtain ⟨i, line, pc, rfl⟩ := h
  cases pc <;> simp [startedHeld]

theorem runningHeld_le (p : Goroutine) :
    runningHeld p ≤ startedHeld p ∧ runningHeld p ≤ slotHeld p := by
  cases p with
  | main pc => simp [runningHeld]
  | progress pc => simp [runningHeld]
  | worker i line pc => cases pc <;> simp [runningHeld, startedHeld, slotHeld]

theorem Inv.sane (h : Inv w c) : Sane w c.shared.startedCounter c.shared.runningCounter := by
  have hslots : total runningHeld c.procs ≤ total slotHeld c.procs :=
    total_mono fun p _ => (runningHeld_le p).2
  have hstarted : total runningHeld c.procs ≤ total startedHeld c.procs :=
    total_mono fun p _ => (runningHeld_le p).1
  have hall : total startedHeld c.procs ≤ w.repoList.length := by
    obtain ⟨m, r, workers, hprocs, hlength, hworkers⟩ := h.shape
    rw [hprocs, total_cons, total_cons, ← hlength]
    have hle : total startedHeld workers ≤ workers.length :=
      total_le_length fun p hp => startedHeld_worker_le (hworkers p hp)
    simp only [startedHeld]
    omega
  have hbounded := h.bounded
  have hs := h.slots
  have hst := h.started
  have hr := h.running
  constructor <;> omega

/-! ## Every step keeps it -/

/-- What a goroutine knows after a step of another one. -/
theorem Inv.others (h : Inv w c) {i j : Nat} {p p' q : Goroutine} {l : Unit} (hij : j ≠ i)
    (hp : c.procs[i]? = some p) (hq : c.procs[j]? = some q)
    (hnext : next w p c.shared = some (l, p', s')) : Knows w j q s' := by
  have hkq := h.knows j q hq
  have hkp := h.knows i p hp
  have hone : total lockHeld c.procs ≤ 1 := by
    have hle := lockLevel_le c.shared
    have hlock := h.lock
    omega
  cases p with
  | main pc =>
    obtain ⟨⟨pc', s₁⟩, hnext, heq⟩ := Option.map_eq_some_iff.mp hnext
    cases heq
    have hl := mainNext_leaves hnext
    cases q with
    | main m => exact absurd (hkq.1.trans hkp.1.symm) hij
    | progress r => exact ⟨hkq.1, progressKnows_of_finished hl.finished hkq.2⟩
    | worker k line pc =>
      refine ⟨hkq.1, hkq.2.1, workerKnows_of_leaves (i := k) (fun _ => hl.started)
        (fun _ => hl.running) (fun key => ?_) hkq.2.2⟩
      rw [hl.results]
      exact id
  | progress pc =>
    obtain ⟨⟨pc', s₁⟩, hnext, heq⟩ := Option.map_eq_some_iff.mp hnext
    cases heq
    have hl := progressNext_leaves hnext
    cases q with
    | main m => exact ⟨hkq.1, mainKnows_of_progress hl hkq.2⟩
    | progress r => exact absurd (hkq.1.trans hkp.1.symm) hij
    | worker k line pc =>
      refine ⟨hkq.1, hkq.2.1, workerKnows_of_leaves (i := k) (fun _ => hl.started)
        (fun _ => hl.running) (fun key => ?_) hkq.2.2⟩
      rw [hl.results]
      exact id
  | worker k line pc =>
    obtain ⟨⟨pc', s₁⟩, hnext, heq⟩ := Option.map_eq_some_iff.mp hnext
    cases heq
    have hl := workerNext_leaves hnext
    cases q with
    | main m => exact ⟨hkq.1, mainKnows_of_worker hl (held_le h.wait hp) hkq.2⟩
    | progress r => exact ⟨hkq.1, progressKnows_of_finished hl.finished hkq.2⟩
    | worker k' line' pc' =>
      -- of two goroutines one at most has the mutex
      have hfree : lockHeld (.worker k' line' pc') = 1 → lockHeld (.worker k line pc) = 0 :=
        fun hheld =>
        held_eq_zero hone hij hq hp (by omega)
      exact ⟨hkq.1, hkq.2.1, workerKnows_of_leaves (i := k') (fun hheld => hl.started (hfree hheld))
        (fun hheld => hl.running (hfree hheld)) hl.results hkq.2.2⟩

theorem next_knows {i : Nat} {p p' : Goroutine} {l : Unit} (hnext : next w p s = some (l, p', s'))
    (hk : Knows w i p s) :
    Knows w i p' s' := by
  cases p with
  | main pc =>
    obtain ⟨⟨pc', s₁⟩, hnext, heq⟩ := Option.map_eq_some_iff.mp hnext
    cases heq
    exact ⟨hk.1, mainNext_knows hnext hk.2⟩
  | progress pc =>
    obtain ⟨⟨pc', s₁⟩, hnext, heq⟩ := Option.map_eq_some_iff.mp hnext
    cases heq
    exact ⟨hk.1, progressNext_knows hnext hk.2⟩
  | worker j line pc =>
    obtain ⟨⟨pc', s₁⟩, hnext, heq⟩ := Option.map_eq_some_iff.mp hnext
    cases heq
    exact ⟨hk.1, hk.2.1, workerNext_knows hnext hk.2.2⟩

theorem workerNext_bounded {i : Nat} {line : Text} {pc pc' : WorkerPc}
    (h : workerNext w i line pc s = some (pc', s')) (hbounded : s.slots ≤ w.maxGoCount) :
    s'.slots ≤ w.maxGoCount := by
  cases pc <;> simp only [workerNext, Option.ite_none_right_eq_some,
    Option.ite_none_left_eq_some] at h
  case ready =>
    obtain ⟨hfree, h⟩ := h
    cases h
    show s.slots + 1 ≤ _
    omega
  case admitted => cases h.2; exact hbounded
  case checked report => cases h.2; exact hbounded
  case released =>
    obtain ⟨-, h⟩ := h
    cases h
    show s.slots - 1 ≤ _
    omega
  case done => cases h
  all_goals cases h; exact hbounded

/-- All results are results of the trees. -/
def Belong (w : Setup) (s : Shared) : Prop := ∀ key report, s.results.get? key = some report →
  ∃ line ∈ w.repoList, key = w.relpath line ∧ report = w.report line

theorem workerNext_belong {i : Nat} {line : Text} {pc pc' : WorkerPc}
    (h : workerNext w i line pc s = some (pc', s')) (hline : line ∈ w.repoList)
    (hk : WorkerKnows w line pc s) (hbelong : Belong w s) : Belong w s' := by
  cases pc <;> simp only [workerNext, Option.ite_none_right_eq_some,
    Option.ite_none_left_eq_some] at h
  case recording report =>
    obtain rfl : report = w.report line := hk
    cases h
    intro key report' hget
    rcases Dict.get?_set_cases hget with ⟨rfl, rfl⟩ | ⟨-, hget⟩
    · exact ⟨line, hline, rfl, rfl⟩
    · exact hbelong key report' hget
  case ready => cases h.2; exact hbelong
  case admitted => cases h.2; exact hbelong
  case checked report => cases h.2; exact hbelong
  case released => cases h.2; exact hbelong
  case done => cases h
  all_goals cases h; exact hbelong

theorem mainNext_handshake {pc pc' : MainPc} {n : Nat} (h : mainNext w pc s = some (pc', s'))
    (hk : MainKnows w pc s) (hn : offered pc = parkedLevel s + n) :
    offered pc' = parkedLevel s' + n := by
  cases pc <;> simp only [mainNext, Option.ite_none_right_eq_some,
    Option.ite_none_left_eq_some] at h
  case adding k => split at h <;> cases h <;> exact hn
  case sending =>
    cases h
    have hfree : parkedLevel s = 0 := by simp [parkedLevel, hk.2.2.1]
    rw [hfree] at hn
    simp only [offered, parkedLevel, if_true] at hn ⊢
    omega
  case waiting => cases h.2; exact hn
  case parked => cases h.2; exact hn
  case closing => cases h.2; exact hn
  case exited => cases h
  all_goals cases h; exact hn

theorem progressNext_handshake {pc pc' : ProgressPc} {n : Nat}
    (h : progressNext pc s = some (pc', s')) (hn : n = parkedLevel s + received pc) :
    n = parkedLevel s' + received pc' := by
  cases pc <;> simp only [progressNext, Option.ite_none_right_eq_some] at h
  case locking => cases h.2; exact hn
  case selecting =>
    split at h
    · next hparked =>
      cases h
      simp only [parkedLevel, hparked, if_true, received] at hn
      rw [hn]
      rfl
    · cases h
      exact hn
  case returned => cases h
  all_goals cases h; exact hn

theorem mainNext_written {pc pc' : MainPc} (h : mainNext w pc s = some (pc', s'))
    (hw : Written w pc s) :
    Written w pc' s' := by
  obtain ⟨counts, hsane, hstdout⟩ := hw
  refine ⟨counts, hsane, ?_⟩
  cases pc <;> simp only [mainNext, Option.ite_none_right_eq_some,
    Option.ite_none_left_eq_some] at h
  case adding k => split at h <;> cases h <;> exact hstdout
  case waiting => cases h.2; exact hstdout
  case parked => cases h.2; exact hstdout
  case closing => cases h.2; exact hstdout
  case printing =>
    cases h
    simp only [written, List.append_nil] at hstdout ⊢
    rw [hstdout]
  case exited => cases h
  all_goals cases h; exact hstdout

/-- The progress report writes nothing after the results. -/
theorem progressNext_written {m : MainPc} {pc pc' : ProgressPc}
    (h : progressNext pc s = some (pc', s')) (hk : ProgressKnows pc s) (hm : MainKnows w m s)
    (hsane : Sane w s.startedCounter s.runningCounter) (hw : Written w m s) : Written w m s' := by
  obtain ⟨counts, hcounts, hstdout⟩ := hw
  cases pc <;> simp only [progressNext, Option.ite_none_right_eq_some] at h
  case reporting =>
    cases h
    have hnone : written m s = [] := by
      cases m with
      | exited =>
        have hfinished : s.finished = false := hk
        rw [hm.2.2] at hfinished
        cases hfinished
      | _ => rfl
    rw [hnone, List.append_nil] at hstdout
    refine ⟨counts ++ [(s.startedCounter, s.runningCounter)], ?_, ?_⟩
    · intro n hn
      rcases List.mem_append.mp hn with hn | hn
      · exact hcounts n hn
      · rw [List.mem_singleton.mp hn]
        exact hsane
    · have hnone' : written m
          { s with stdout := s.stdout ++ [reportProgress s.startedCounter s.runningCounter] } =
              [] := by
        cases m <;> first | rfl | exact hnone
      rw [hnone', hstdout]
      simp
  case locking => cases h.2; exact ⟨counts, hcounts, hstdout⟩
  case selecting => split at h <;> cases h <;> exact ⟨counts, hcounts, hstdout⟩
  case returned => cases h
  all_goals cases h; exact ⟨counts, hcounts, hstdout⟩

/-- After `main` has waited no tree is left. -/
theorem workerNext_written {m : MainPc} {i : Nat} {line : Text} {pc pc' : WorkerPc}
    (h : workerNext w i line pc s = some (pc', s')) (hm : MainKnows w m s)
    (hwait : (waitHeld (.worker i line pc) : Int) ≤ waitLevel w s) (hw : Written w m s) :
    Written w m s' := by
  obtain ⟨counts, hcounts, hstdout⟩ := hw
  refine ⟨counts, hcounts, ?_⟩
  rw [(workerNext_leaves h).stdout, hstdout]
  cases m with
  | exited =>
    rw [waitLevel, hm.1, hm.2.1] at hwait
    have hdone : waitHeld (.worker i line pc) = 0 := by omega
    cases pc <;> simp [waitHeld] at hdone
    cases h
  | _ => rfl

/-- The fields that are not sums over all goroutines. -/
theorem Inv.step_rest (h : Inv w c) {i : Nat} {p p' : Goroutine} {l : Unit}
    (hp : c.procs[i]? = some p) (hnext : next w p c.shared = some (l, p', s')) :
    s'.slots ≤ w.maxGoCount ∧ Belong w s' ∧
      (∀ m r, (c.procs.set i p')[0]? = some (.main m) →
        (c.procs.set i p')[1]? = some (.progress r) →
        offered m = parkedLevel s' + received r) ∧
      (∀ m, (c.procs.set i p')[0]? = some (.main m) → Written w m s') := by
  obtain ⟨m, r, workers, hprocs, -, -⟩ := h.shape
  have hm : c.procs[0]? = some (.main m) := by rw [hprocs]; rfl
  have hr : c.procs[1]? = some (.progress r) := by rw [hprocs]; rfl
  have hhand := h.handshake m r hm hr
  have hwritten := h.written m hm
  have hkm := (h.knows 0 _ hm).2
  have hkr := (h.knows 1 _ hr).2
  have hkp := h.knows i p hp
  have hlen := h.length
  cases p with
  | main pc =>
    obtain ⟨⟨pc', s₁⟩, hnext, heq⟩ := Option.map_eq_some_iff.mp hnext
    cases heq
    obtain rfl : i = 0 := hkp.1
    obtain rfl : pc = m := by
      rw [hm] at hp
      cases hp
      rfl
    have hl := mainNext_leaves hnext
    refine ⟨by rw [hl.slots]; exact h.bounded, ?_, ?_, ?_⟩
    · intro key report hget
      rw [hl.results] at hget
      exact h.results key report hget
    · intro m' r' hm' hr'
      rw [List.getElem?_set_self (by omega)] at hm'
      rw [List.getElem?_set_ne (by omega), hr] at hr'
      cases hm'
      cases hr'
      exact mainNext_handshake hnext hkm hhand
    · intro m' hm'
      rw [List.getElem?_set_self (by omega)] at hm'
      cases hm'
      exact mainNext_written hnext hwritten
  | progress pc =>
    obtain ⟨⟨pc', s₁⟩, hnext, heq⟩ := Option.map_eq_some_iff.mp hnext
    cases heq
    obtain rfl : i = 1 := hkp.1
    obtain rfl : pc = r := by
      rw [hr] at hp
      cases hp
      rfl
    have hl := progressNext_leaves hnext
    refine ⟨by rw [hl.slots]; exact h.bounded, ?_, ?_, ?_⟩
    · intro key report hget
      rw [hl.results] at hget
      exact h.results key report hget
    · intro m' r' hm' hr'
      rw [List.getElem?_set_ne (by omega), hm] at hm'
      rw [List.getElem?_set_self (by omega)] at hr'
      cases hm'
      cases hr'
      exact progressNext_handshake hnext hhand
    · intro m' hm'
      rw [List.getElem?_set_ne (by omega), hm] at hm'
      cases hm'
      exact progressNext_written hnext hkr hkm h.sane hwritten
  | worker j line pc =>
    obtain ⟨⟨pc', s₁⟩, hnext, heq⟩ := Option.map_eq_some_iff.mp hnext
    cases heq
    obtain rfl : i = j + 2 := hkp.1
    have hl := workerNext_leaves hnext
    refine ⟨workerNext_bounded hnext h.bounded,
      workerNext_belong hnext (List.mem_of_getElem? hkp.2.1) hkp.2.2 h.results, ?_, ?_⟩
    · intro m' r' hm' hr'
      rw [List.getElem?_set_ne (by omega), hm] at hm'
      rw [List.getElem?_set_ne (by omega), hr] at hr'
      cases hm'
      cases hr'
      rw [hhand, parkedLevel, parkedLevel, hl.parked]
    · intro m' hm'
      rw [List.getElem?_set_ne (by omega), hm] at hm'
      cases hm'
      exact workerNext_written hnext hkm (held_le h.wait hp) hwritten

theorem Inv.step {c' : Config Shared Goroutine} {i : Nat} {l : Unit} (h : Inv w c)
    (hs : Step (GoStep w) c i l c') :
    Inv w c' := by
  cases hs with
  | mk hp hnext =>
    have hpays := next_pays hnext (h.knows i _ hp) (held_le h.lock hp)
    obtain ⟨hbounded, hbelong, hhand, hwritten⟩ := h.step_rest hp hnext
    exact {
      length := by rw [List.length_set, h.length]
      knows := locals_set h.knows (next_knows hnext (h.knows i _ hp)) fun j q hij hq _ =>
        h.others hij hp hq hnext
      slots := conserved_set h.slots hp hpays.slots
      lock := conserved_set h.lock hp hpays.lock
      started := conserved_set h.started hp hpays.started
      running := conserved_set h.running hp hpays.running
      wait := conserved_set h.wait hp hpays.wait
      bounded := hbounded
      results := hbelong
      handshake := hhand
      written := hwritten }

/-! ## Before the first step -/

theorem procs_initial {i : Nat} {p : Goroutine} (h : (initial w).procs[i]? = some p) :
    i = 0 ∧ p = .main (.adding 0) ∨ i = 1 ∧ p = .progress .locking ∨
      ∃ j line, i = j + 2 ∧ w.repoList[j]? = some line ∧ p = .worker j line .ready := by
  unfold initial at h
  cases i with
  | zero =>
    cases h
    exact .inl ⟨rfl, rfl⟩
  | succ i =>
    cases i with
    | zero =>
      cases h
      exact .inr (.inl ⟨rfl, rfl⟩)
    | succ j =>
      rw [List.getElem?_cons_succ, List.getElem?_cons_succ, List.getElem?_map,
        List.getElem?_zipIdx] at h
      cases hline : w.repoList[j]? with
      | none =>
        rw [hline] at h
        cases h
      | some line =>
        rw [hline] at h
        cases h
        exact .inr (.inr ⟨j, line, rfl, hline, by simp⟩)

/-- Nobody has anything. -/
theorem total_initial {held : Goroutine → Nat} (hmain : held (.main (.adding 0)) = 0)
    (hprogress : held (.progress .locking) = 0)
    (hworker : ∀ i line, held (.worker i line .ready) = 0) :
    total held (initial w).procs = 0 := by
  apply total_eq_zero
  intro p hp
  obtain ⟨i, hi⟩ := List.mem_iff_getElem?.mp hp
  rcases procs_initial hi with ⟨-, rfl⟩ | ⟨-, rfl⟩ | ⟨j, line, -, -, rfl⟩
  · exact hmain
  · exact hprogress
  · exact hworker j line

theorem total_wait_initial (lines : List (Text × Nat)) :
    total waitHeld (lines.map fun (line, i) => Goroutine.worker i line .ready) = lines.length := by
  induction lines with
  | nil => rfl
  | cons line lines ih =>
    rw [List.map_cons, total_cons, ih, List.length_cons]
    show 1 + lines.length = _
    omega

theorem inv_initial (w : Setup) : Inv w (initial w) where
  length := by simp [initial]
  knows := by
    intro i p hp
    rcases procs_initial hp with ⟨rfl, rfl⟩ | ⟨rfl, rfl⟩ | ⟨j, line, rfl, hline, rfl⟩
    · exact ⟨rfl, rfl, Nat.zero_le _, rfl, rfl⟩
    · exact ⟨rfl, rfl⟩
    · exact ⟨rfl, hline, trivial⟩
  slots := by
    rw [total_initial rfl rfl fun _ _ => rfl]
    rfl
  lock := by
    rw [total_initial rfl rfl fun _ _ => rfl]
    rfl
  started := by
    rw [total_initial rfl rfl fun _ _ => rfl]
    rfl
  running := by
    rw [total_initial rfl rfl fun _ _ => rfl]
    rfl
  wait := by
    simp only [initial, total_cons, total_wait_initial, List.length_zipIdx]
    simp [waitLevel, waitHeld]
  bounded := Nat.zero_le _
  results := by
    intro key report h
    cases h
  handshake := by
    intro m r hm hr
    cases hm
    cases hr
    rfl
  written := by
    intro m hm
    cases hm
    exact ⟨[], by simp, rfl⟩

theorem Reachable.inv (h : Reachable w c) : Inv w c :=
  Run.invariant (fun _ _ _ _ hi _ hs => hi.step hs) (inv_initial w) h

/-! ## Safety -/

/-- Whether a goroutine is checking its tree. -/
def checkHeld : Goroutine → Nat
  | .worker _ _ .checking => 1
  | _ => 0

structure Safe (w : Setup) (c : Config Shared Goroutine) : Prop where
  throttled : total checkHeld c.procs ≤ w.maxGoCount
  exclusive : ∀ (i j : Nat) p q, c.procs[i]? = some p → c.procs[j]? = some q → lockHeld p = 1 →
    lockHeld q = 1 → i = j
  started : c.shared.startedCounter = total startedHeld c.procs
  running : c.shared.runningCounter = total runningHeld c.procs

theorem checkHeld_le (p : Goroutine) : checkHeld p ≤ slotHeld p := by
  cases p with
  | main pc => exact Nat.zero_le _
  | progress pc => exact Nat.zero_le _
  | worker i line pc => cases pc <;> simp [checkHeld, slotHeld]

theorem safe (h : Reachable w c) : Safe w c where
  throttled := by
    have hi := h.inv
    have hle : total checkHeld c.procs ≤ total slotHeld c.procs :=
      total_mono fun p _ => checkHeld_le p
    have hslots := hi.slots
    have hbounded := hi.bounded
    omega
  exclusive := by
    intro i j p q hp hq hheld hheld'
    have hlock := h.inv.lock
    have hle := lockLevel_le c.shared
    have hone : total lockHeld c.procs ≤ 1 := by omega
    exact holder_unique hone hp hq (by omega) (by omega)
  started := h.inv.started
  running := h.inv.running

end Willis
