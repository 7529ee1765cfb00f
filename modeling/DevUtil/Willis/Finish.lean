import DevUtil.Lib.Fairness
import DevUtil.Willis.Throttle

/-!
# Every order of steps comes to an end

    where nobody can move, `main` has printed the results,       (exited_of_stuck)
    and no fair execution goes on forever                        (finishes)
    what is printed at the end does not depend on the order:
      progress reports, and then each tree that is not in sync
      with its own report                                        (output)
-/

namespace Willis

open Lib Interleave

variable {w : Setup} {s s' : Shared} {c : Config Shared Goroutine}

/-! ## Who can move -/

theorem enabled_of_next {i : Nat} {p : Goroutine} (hp : c.procs[i]? = some p)
    (h : (next w p c.shared).isSome) :
    Enabled (GoStep w) c i := by
  obtain ⟨⟨l, p', s'⟩, hnext⟩ := Option.isSome_iff_exists.mp h
  exact ⟨l, _, .mk hp hnext⟩

theorem enabled_worker {i j : Nat} {line : Text} {pc : WorkerPc}
    (hp : c.procs[i]? = some (.worker j line pc)) (h : (workerNext w j line pc c.shared).isSome) :
    Enabled (GoStep w) c i :=
  enabled_of_next hp (by rwa [next, Option.isSome_map])

theorem enabled_main {pc : MainPc} (hp : c.procs[0]? = some (.main pc))
    (h : (mainNext w pc c.shared).isSome) :
    Enabled (GoStep w) c 0 :=
  enabled_of_next hp (by rwa [next, Option.isSome_map])

theorem enabled_progress {pc : ProgressPc} (hp : c.procs[1]? = some (.progress pc))
    (h : (progressNext pc c.shared).isSome) : Enabled (GoStep w) c 1 :=
  enabled_of_next hp (by rwa [next, Option.isSome_map])

/-- Nobody waits who has the mutex. -/
theorem workerNext_of_lock {i : Nat} {line : Text} {pc : WorkerPc}
    (h : lockHeld (.worker i line pc) = 1) :
    (workerNext w i line pc s).isSome := by
  cases pc <;> first | rfl | cases h

/-- While the mutex is free, a goroutine that has begun goes on. -/
theorem workerNext_of_begun {i : Nat} {line : Text} {pc : WorkerPc} (hfree : s.locked = false)
    (hslots : slotHeld (.worker i line pc) ≤ s.slots) (hready : pc ≠ .ready) (hdone : pc ≠ .done) :
    (workerNext w i line pc s).isSome := by
  cases pc with
  | ready => exact absurd rfl hready
  | done => exact absurd rfl hdone
  | admitted => simp [workerNext, hfree]
  | checked report => simp [workerNext, hfree]
  | released =>
    have hpos : 0 < s.slots := hslots
    simp [workerNext, hpos]
  | _ => rfl

/-- While the progress report does not have the mutex, `main` or a worker can move, unless `main`
waits for the report. -/
theorem Inv.exists_enabled (h : Inv w c) {m : MainPc} {r : ProgressPc}
    (hm : c.procs[0]? = some (.main m)) (hr : c.procs[1]? = some (.progress r))
    (hexited : m ≠ .exited) (hlock : lockHeld (.progress r) = 0)
    (hparked : c.shared.parked = false) :
    ∃ i, i < w.repoList.length + 2 ∧ i ≠ 1 ∧ Enabled (GoStep w) c i := by
  have hindex : ∀ {i : Nat} {p : Goroutine}, c.procs[i]? = some p → i < w.repoList.length + 2 := by
    intro i p hp
    rw [← h.length]
    exact (List.getElem?_eq_some_iff.mp hp).1
  have hkm := (h.knows 0 _ hm).2
  have hkr := (h.knows 1 _ hr).2
  by_contra hnone
  have hnot : ∀ i p, i ≠ 1 → c.procs[i]? = some p → ¬Enabled (GoStep w) c i := fun i p hi hp hen =>
    hnone ⟨i, hindex hp, hi, hen⟩
  -- nobody has the mutex
  have hfree : c.shared.locked = false := by
    by_contra hlocked
    have hlevel : total lockHeld c.procs ≠ 0 := by
      have hl := h.lock
      rw [lockLevel, if_pos (by simpa using hlocked)] at hl
      omega
    obtain ⟨i, p, hp, hheld⟩ := exists_holder hlevel
    have hk := h.knows i p hp
    cases p with
    | main pc => exact hheld rfl
    | progress pc =>
      obtain rfl : i = 1 := hk.1
      rw [hr] at hp
      cases hp
      exact hheld hlock
    | worker j line pc =>
      have hone : lockHeld (.worker j line pc) = 1 := by
        cases pc <;> first | rfl | exact absurd rfl hheld
      have hi := hk.1
      exact hnot i _ (by omega) hp (enabled_worker hp (workerNext_of_lock hone))
  -- no goroutine of a tree is under way
  have hidle : ∀ (i j : Nat) line pc, c.procs[i]? = some (.worker j line pc) →
      pc = .ready ∨ pc = .done := by
    intro i j line pc hp
    by_contra hbegun
    rw [not_or] at hbegun
    have hi := (h.knows i _ hp).1
    have hslots := held_le h.slots hp
    exact hnot i _ (by omega) hp
      (enabled_worker hp (workerNext_of_begun hfree (by omega) hbegun.1 hbegun.2))
  have hslots : c.shared.slots = 0 := by
    have hzero : total slotHeld c.procs = 0 := by
      apply total_eq_zero
      intro p hp
      obtain ⟨i, hi⟩ := List.mem_iff_getElem?.mp hp
      cases p with
      | main pc => rfl
      | progress pc => rfl
      | worker j line pc => rcases hidle i j line pc hi with rfl | rfl <;> rfl
    have hs := h.slots
    omega
  -- none of those that are started is left
  have hdone : c.shared.spawned = w.repoList.length →
      c.shared.wg = total waitHeld [Goroutine.main m] := by
    intro hspawned
    have hwait := h.wait
    rw [waitLevel, hspawned] at hwait
    obtain ⟨m', r', workers, hprocs, -, hworkers⟩ := h.shape
    have hm' : m' = m := by
      rw [hprocs] at hm
      cases hm
      rfl
    have hzero : total waitHeld workers = 0 := by
      apply total_eq_zero
      intro p hp
      obtain ⟨i, hi⟩ := List.mem_iff_getElem?.mp hp
      have hproc : c.procs[i + 2]? = some p := by
        rw [hprocs]
        simpa using hi
      obtain ⟨line, pc, rfl⟩ := exists_worker (h.knows (i + 2) p hproc)
      rcases hidle _ _ line pc hproc with rfl | rfl
      · exfalso
        have hlt : i < c.shared.spawned := by
          have hlen := hindex hproc
          omega
        have hcpus := w.cpus
        refine hnot (i + 2) _ (by omega) hproc (enabled_worker hproc ?_)
        simp [workerNext, hlt, hslots, hcpus]
      · rfl
    rw [hprocs, total_cons, total_cons, hzero, hm'] at hwait
    simp only [waitHeld, total_cons, total_nil] at hwait ⊢
    omega
  have hstuck : mainNext w m c.shared = none := by
    by_contra hsome
    exact hnot 0 _ (by omega) hm (enabled_main hm (Option.isSome_iff_ne_none.mpr hsome))
  cases m with
  | adding k =>
    rw [mainNext] at hstuck
    split at hstuck <;> cases hstuck
  | waiting =>
    have hwg : c.shared.wg = 0 := by simpa [waitHeld] using hdone hkm.1
    simp [mainNext, hwg] at hstuck
  | parked => simp [mainNext, hparked] at hstuck
  | closing =>
    have hhand := h.handshake _ _ hm hr
    rw [parkedLevel, hparked] at hhand
    have hfinished : c.shared.finished = true := by
      cases r with
      | returned => exact hkr
      | closing => cases hlock
      | ending => cases hlock
      | _ => cases hhand
    simp [mainNext, hfinished] at hstuck
  | exited => exact hexited rfl
  | _ => cases hstuck

theorem finished_of_received {r : ProgressPc} (h : ProgressKnows r s) (hreceived : received r = 0) :
    s.finished = false := by
  cases r with
  | ending => cases hreceived
  | returned => cases hreceived
  | _ => exact h

/-- Whom `main` has waited for, they do not have the mutex. -/
theorem Inv.unlocked (h : Inv w c) {r : ProgressPc} (hr : c.procs[1]? = some (.progress r))
    (hlock : lockHeld (.progress r) = 0) (hwait : waitLevel w c.shared = 0) :
    c.shared.locked = false := by
  by_contra hlocked
  have hlevel : total lockHeld c.procs ≠ 0 := by
    have hl := h.lock
    rw [lockLevel, if_pos (by simpa using hlocked)] at hl
    omega
  obtain ⟨i, p, hp, hheld⟩ := exists_holder hlevel
  have hle := held_le h.wait hp
  rw [hwait] at hle
  have hk := h.knows i p hp
  cases p with
  | main pc => exact hheld rfl
  | progress pc =>
    obtain rfl : i = 1 := hk.1
    rw [hr] at hp
    cases hp
    exact hheld hlock
  | worker j line pc => cases pc <;> first | exact hheld rfl | simp [waitHeld] at hle

/-- While `main` waits for the progress report to receive its value, the report goes on. -/
theorem Inv.progress_enabled (h : Inv w c) {m : MainPc} {r : ProgressPc}
    (hm : c.procs[0]? = some (.main m)) (hr : c.procs[1]? = some (.progress r))
    (hparked : c.shared.parked = true) : Enabled (GoStep w) c 1 := by
  have hkm := (h.knows 0 _ hm).2
  have hhand := h.handshake _ _ hm hr
  rw [parkedLevel, if_pos hparked] at hhand
  have hreceived : received r = 0 := by
    cases m <;> simp only [offered] at hhand <;> omega
  have hfinished := finished_of_received (h.knows 1 _ hr).2 hreceived
  have hmain : c.shared.spawned = w.repoList.length ∧ c.shared.reporting = true ∧
      c.shared.wg = 0 := by
    cases m with
    | parked => exact hkm
    | closing => exact hkm
    | printing =>
      have htrue := hkm.2.2
      rw [hfinished] at htrue
      cases htrue
    | exited =>
      have htrue := hkm.2.2
      rw [hfinished] at htrue
      cases htrue
    | _ =>
      simp only [offered] at hhand
      omega
  apply enabled_progress hr
  cases r with
  | locking =>
    have hfree := h.unlocked hr rfl (by simp [waitLevel, hmain.1, hmain.2.2])
    simp [progressNext, hfree, hmain.2.1]
  | selecting => simp [progressNext, hparked]
  | returned => cases hreceived
  | _ => rfl

/-- `main` has returned. -/
def Exited (c : Config Shared Goroutine) : Prop := c.procs[0]? = some (.main .exited)

/-- There is no deadlock. -/
theorem exited_of_stuck (h : Reachable w c) (hstuck : ∀ i, ¬Enabled (GoStep w) c i) : Exited c := by
  have hi := h.inv
  obtain ⟨m, r, workers, hprocs, -, -⟩ := hi.shape
  have hm : c.procs[0]? = some (.main m) := by rw [hprocs]; rfl
  have hr : c.procs[1]? = some (.progress r) := by rw [hprocs]; rfl
  by_contra hexited
  have hne : m ≠ .exited := by
    rintro rfl
    exact hexited hm
  by_cases hlock : lockHeld (.progress r) = 0
  · cases hparked : c.shared.parked with
    | false =>
      obtain ⟨i, -, -, hen⟩ := hi.exists_enabled hm hr hne hlock hparked
      exact hstuck i hen
    | true => exact hstuck 1 (hi.progress_enabled hm hr hparked)
  · -- who has the mutex goes on
    refine hstuck 1 (enabled_progress hr ?_)
    cases r with
    | selecting =>
      rw [progressNext]
      split <;> rfl
    | locking => exact absurd rfl hlock
    | returned => exact absurd rfl hlock
    | sleeping => rfl
    | _ => rfl

/-! ## Steps that are left -/

def mainRank (w : Setup) : MainPc → Nat
  | .adding k => 2 * (w.repoList.length - k) + 8
  | .spawning k => 2 * (w.repoList.length - k) + 7
  | .reporting => 7
  | .waiting => 6
  | .sending => 5
  | .parked => 4
  | .closing => 3
  | .printing => 2
  | .exited => 1

def workerRank : WorkerPc → Nat
  | .ready => 15
  | .admitted => 14
  | .entered => 13
  | .startedRead _ => 12
  | .counting => 11
  | .runningRead _ => 10
  | .counted => 9
  | .checking => 8
  | .checked _ => 7
  | .recording _ => 6
  | .recorded => 5
  | .stopRead _ => 4
  | .stopped => 3
  | .released => 2
  | .leaving => 1
  | .done => 0

/-- The loop of the progress report may go round any number of times. -/
def progressRank : ProgressPc → Nat
  | .closing => 2
  | .ending => 1
  | .returned => 0
  | _ => 3

def rank (w : Setup) : Goroutine → Nat
  | .main pc => mainRank w pc
  | .progress pc => progressRank pc
  | .worker _ _ pc => workerRank pc

theorem mainNext_rank {pc pc' : MainPc} (h : mainNext w pc s = some (pc', s'))
    (hk : MainKnows w pc s) :
    mainRank w pc' < mainRank w pc := by
  cases pc <;> simp only [mainNext, Option.ite_none_right_eq_some,
    Option.ite_none_left_eq_some] at h
  case adding k =>
    split at h <;> cases h <;> simp only [mainRank] <;> omega
  case spawning k =>
    have hlt := hk.2.1
    cases h
    simp only [mainRank]
    omega
  case waiting => cases h.2; simp [mainRank]
  case parked => cases h.2; simp [mainRank]
  case closing => cases h.2; simp [mainRank]
  case exited => cases h
  all_goals cases h; simp [mainRank]

theorem workerNext_rank {i : Nat} {line : Text} {pc pc' : WorkerPc}
    (h : workerNext w i line pc s = some (pc', s')) :
    workerRank pc' < workerRank pc := by
  cases pc <;> simp only [workerNext, Option.ite_none_right_eq_some,
    Option.ite_none_left_eq_some] at h
  case ready => cases h.2; simp [workerRank]
  case admitted => cases h.2; simp [workerRank]
  case checked report => cases h.2; simp [workerRank]
  case released => cases h.2; simp [workerRank]
  case done => cases h
  all_goals cases h; simp [workerRank]

theorem progressNext_rank {pc pc' : ProgressPc} (h : progressNext pc s = some (pc', s')) :
    progressRank pc' ≤ progressRank pc := by
  cases pc <;> simp only [progressNext, Option.ite_none_right_eq_some] at h
  case locking => cases h.2; simp [progressRank]
  case selecting => split at h <;> cases h <;> simp [progressRank]
  case returned => cases h
  all_goals cases h; simp [progressRank]

/-- Only the progress report moves without getting nearer to its end. -/
theorem Inv.step_rank (h : Inv w c) {c' : Config Shared Goroutine} {i : Nat} {l : Unit}
    (hs : Step (GoStep w) c i l c') :
    total (rank w) c'.procs ≤ total (rank w) c.procs ∧
      (i ≠ 1 → total (rank w) c'.procs < total (rank w) c.procs) := by
  obtain ⟨p, p', hp, hnext, hprocs⟩ := hs.moved
  have hset := total_set (rank w) hp p'
  rw [← hprocs] at hset
  have hk := h.knows i p hp
  cases p with
  | main pc =>
    obtain ⟨⟨pc', s₁⟩, hnext, heq⟩ := Option.map_eq_some_iff.mp hnext
    cases heq
    have hlt : rank w (.main pc') < rank w (.main pc) := mainNext_rank hnext hk.2
    omega
  | progress pc =>
    obtain ⟨⟨pc', s₁⟩, hnext, heq⟩ := Option.map_eq_some_iff.mp hnext
    cases heq
    have hle : rank w (.progress pc') ≤ rank w (.progress pc) := progressNext_rank hnext
    exact ⟨by omega, fun hi => absurd hk.1 hi⟩
  | worker j line pc =>
    obtain ⟨⟨pc', s₁⟩, hnext, heq⟩ := Option.map_eq_some_iff.mp hnext
    cases heq
    have hlt : rank w (.worker j line pc') < rank w (.worker j line pc) := workerNext_rank hnext
    omega

/-! ## Fair executions -/

/-- How many steps the progress report is away from its next look at the channel. -/
def untilSelect : ProgressPc → Nat
  | .reporting => 1
  | .locking => 2
  | .sleeping => 3
  | .continuing => 4
  | _ => 0

theorem progressNext_untilSelect {pc pc' : ProgressPc} (h : progressNext pc s = some (pc', s'))
    (hrank : progressRank pc' = progressRank pc) (hselect : pc ≠ .selecting) :
    untilSelect pc = untilSelect pc' + 1 := by
  cases pc <;> simp only [progressNext, Option.ite_none_right_eq_some] at h
  case selecting => exact absurd rfl hselect
  case locking => cases h.2; rfl
  case returned => cases h
  case closing => cases h; cases hrank
  case ending => cases h; cases hrank
  all_goals cases h; rfl

/-- Only the progress report moves, and it does not get nearer to its end. -/
structure Quiet (c c' : Config Shared Goroutine) (r r' : ProgressPc) : Prop where
  here : c.procs[1]? = some (.progress r)
  there : c'.procs[1]? = some (.progress r')
  next : progressNext r c.shared = some (r', c'.shared)
  rank : progressRank r' = progressRank r

theorem Inv.quiet (h : Inv w c) {c' : Config Shared Goroutine} {i : Nat} {l : Unit}
    (hs : Step (GoStep w) c i l c') (hrank : total (rank w) c'.procs = total (rank w) c.procs) :
    ∃ r r', Quiet c c' r r' := by
  have hone : i = 1 := by
    by_contra hi
    have hlt := (h.step_rank hs).2 hi
    omega
  subst hone
  obtain ⟨p, p', hp, hnext, hprocs⟩ := hs.moved
  have hset := total_set (rank w) hp p'
  rw [← hprocs, hrank] at hset
  have hlen : 1 < c.procs.length := (List.getElem?_eq_some_iff.mp hp).1
  obtain ⟨r, rfl⟩ := exists_progress (h.knows 1 p hp)
  obtain ⟨⟨r', s₁⟩, hnext, heq⟩ := Option.map_eq_some_iff.mp hnext
  cases heq
  have hsame : progressRank r = progressRank r' := Nat.add_left_cancel hset
  exact ⟨r, r', hp, by rw [hprocs, List.getElem?_set_self hlen], hnext, hsame.symm⟩

/-- In a tail where only the progress report moves, it comes to its look at the channel. -/
theorem exists_selecting {config : Nat → Config Shared Goroutine} {N : Nat}
    (hquiet : ∀ n, N ≤ n → ∃ r r', Quiet (config n) (config (n + 1)) r r') {n : Nat} (hn : N ≤ n) :
    ∃ n', N ≤ n' ∧ (config n').procs[1]? = some (.progress .selecting) := by
  obtain ⟨r, r', hq⟩ := hquiet n hn
  induction hd : untilSelect r generalizing n r r' with
  | zero =>
    refine ⟨n, hn, ?_⟩
    by_cases hselect : r = .selecting
    · rw [hq.here, hselect]
    · have hpos := progressNext_untilSelect hq.next hq.rank hselect
      omega
  | succ d ih =>
    obtain ⟨r₁, r₁', hq'⟩ := hquiet (n + 1) (by omega)
    have hsame : r₁ = r' := by
      have hthere := hq.there
      rw [hq'.here] at hthere
      cases hthere
      rfl
    have hselect : r ≠ .selecting := by
      rintro rfl
      cases hd
    have hdrop := progressNext_untilSelect hq.next hq.rank hselect
    exact ih (by omega) r₁ r₁' hq' (by rw [hsame]; omega)

/-- From its look at the channel it goes to sleep, and nothing was on the channel. -/
theorem sleeping_of_selecting {c₁ c₂ c₃ : Config Shared Goroutine} {r₁ r₁' r₂ r₂' : ProgressPc}
    (hq : Quiet c₁ c₂ r₁ r₁') (hq' : Quiet c₂ c₃ r₂ r₂')
    (h : c₁.procs[1]? = some (.progress .selecting)) :
    c₃.procs[1]? = some (.progress .sleeping) ∧ c₃.shared.parked = false := by
  have hr : r₁ = .selecting := by
    have hhere := hq.here
    rw [h] at hhere
    cases hhere
    rfl
  subst hr
  have hnext := hq.next
  have hrank := hq.rank
  rw [progressNext] at hnext
  split at hnext
  · obtain ⟨hr', -⟩ := Prod.mk.inj (Option.some.inj hnext)
    rw [← hr'] at hrank
    cases hrank
  · next hparked =>
    obtain ⟨hr', hshared⟩ := Prod.mk.inj (Option.some.inj hnext)
    have hr₂ : r₂ = .continuing := by
      have hthere := hq.there
      rw [hq'.here, ← hr'] at hthere
      cases hthere
      rfl
    subst hr₂
    have hnext' := hq'.next
    rw [progressNext] at hnext'
    obtain ⟨hr₂', hshared'⟩ := Prod.mk.inj (Option.some.inj hnext')
    refine ⟨by rw [hq'.there, hr₂'], ?_⟩
    rw [← hshared', ← hshared]
    simpa using hparked

theorem not_fair (e : Execution (GoStep w) (initial w)) : ¬e.Fair := by
  have hinv : ∀ n, Inv w (e.config n) := fun n => Reachable.inv (e.run n)
  apply Execution.not_fair (fun c => total (rank w) c.procs) (b := 1) (m := w.repoList.length + 2)
  · exact fun n => ((hinv n).step_rank (e.moves n)).1
  · exact fun n hn => ((hinv n).step_rank (e.moves n)).2 hn
  · intro N hconst
    have hquiet : ∀ n, N ≤ n → ∃ r r', Quiet (e.config n) (e.config (n + 1)) r r' := by
      intro n hn
      apply (hinv n).quiet (e.moves n)
      have hnow := hconst n hn
      have hnext := hconst (n + 1) (by omega)
      omega
    obtain ⟨n, hn, hselect⟩ := exists_selecting hquiet (Nat.le_refl N)
    obtain ⟨r₁, r₁', hq⟩ := hquiet n hn
    obtain ⟨r₂, r₂', hq'⟩ := hquiet (n + 1) (by omega)
    obtain ⟨hsleeping, hparked⟩ := sleeping_of_selecting hq hq' hselect
    have hi := hinv (n + 2)
    obtain ⟨m, r, workers, hprocs, -, -⟩ := hi.shape
    have hm : (e.config (n + 2)).procs[0]? = some (.main m) := by rw [hprocs]; rfl
    have hexited : m ≠ .exited := by
      rintro rfl
      have hfinished : (e.config (n + 2)).shared.finished = false := (hi.knows 1 _ hsleeping).2
      have htrue := (hi.knows 0 _ hm).2.2.2
      rw [hfinished] at htrue
      cases htrue
    obtain ⟨i, hi, hne, hen⟩ := hi.exists_enabled hm hsleeping hexited rfl hparked
    exact ⟨n + 2, by omega, i, hi, hne, hen⟩

/-- In every order `main` comes to its end: no execution stops before, and no fair one goes on
forever. -/
theorem finishes (w : Setup) : (∀ c, Reachable w c → (∀ i, ¬Enabled (GoStep w) c i) → Exited c) ∧
    ∀ e : Execution (GoStep w) (initial w), ¬e.Fair :=
  ⟨fun _ => exited_of_stuck, not_fair⟩

/-! ## What is printed -/

/-- What one tree after the other would give. -/
def sequentialResults (w : Setup) : Dict Text GitTreeReport :=
  Dict.empty.setAll (w.repoList.map fun line => (w.relpath line, w.report line))

/-- A tree that is listed twice is compared with the same branch. -/
def OneBranchEach (w : Setup) : Prop := ∀ line ∈ w.repoList, ∀ line' ∈ w.repoList,
  w.gitTree line = w.gitTree line' → w.tracking line = w.tracking line'

theorem report_of_relpath (hone : OneBranchEach w) {line line' : Text} (hline : line ∈ w.repoList)
    (hline' : line' ∈ w.repoList) (h : w.relpath line = w.relpath line') :
    w.report line = w.report line' := by
  obtain ⟨hroot, hclean⟩ := join_rooted w.rootRooted (Setup.gitPath line)
  obtain ⟨hroot', hclean'⟩ := join_rooted w.rootRooted (Setup.gitPath line')
  have htree : w.gitTree line = w.gitTree line' := by
    unfold Setup.relpath Setup.gitTree at h
    rw [rel_rooted w.cwdRooted hroot, rel_rooted w.cwdRooted hroot'] at h
    have hsame := rel_injective w.cwdRooted hroot hroot' (by
      rw [rel_rooted w.cwdRooted hroot, rel_rooted w.cwdRooted hroot']
      exact congrArg some h)
    rwa [hclean, hclean'] at hsame
  rw [Setup.report, Setup.report, htree, hone line hline line' hline' htree]

/-- At the end every tree has its result. -/
theorem Inv.results_complete (h : Inv w c) (hexit : Exited c) {line : Text}
    (hline : line ∈ w.repoList) :
    (c.shared.results.get? (w.relpath line)).isSome := by
  have hkm := (h.knows 0 _ hexit).2
  obtain ⟨j, hj⟩ := List.mem_iff_getElem?.mp hline
  have hlen : j + 2 < c.procs.length := by
    rw [h.length]
    have hlt := (List.getElem?_eq_some_iff.mp hj).1
    omega
  have hproc := List.getElem?_eq_getElem hlen
  have hk := h.knows (j + 2) _ hproc
  obtain ⟨line', pc, hworker⟩ := exists_worker hk
  rw [hworker] at hproc hk
  have hle := held_le h.wait hproc
  rw [waitLevel, hkm.1, hkm.2.1] at hle
  have hsame : line' = line := by
    have hget := hk.2.1
    rw [hj] at hget
    cases hget
    rfl
  subst hsame
  cases pc with
  | done => exact hk.2.2
  | _ => simp [waitHeld] at hle

theorem Inv.results_eq (h : Inv w c) (hexit : Exited c) (hone : OneBranchEach w) (key : Text) :
    c.shared.results.get? key = (sequentialResults w).get? key := by
  by_cases hkey : ∃ line ∈ w.repoList, key = w.relpath line
  · obtain ⟨line, hline, rfl⟩ := hkey
    obtain ⟨report, hget⟩ := Option.isSome_iff_exists.mp (h.results_complete hexit hline)
    obtain ⟨line', hline', hpath, rfl⟩ := h.results _ _ hget
    rw [hget, report_of_relpath hone hline' hline hpath.symm]
    symm
    refine Dict.get?_setAll_of_mem (List.mem_map.mpr ⟨line, hline, rfl⟩) ?_
    intro report hreport
    obtain ⟨line'', hline'', heq⟩ := List.mem_map.mp hreport
    obtain ⟨hpath', rfl⟩ := Prod.mk.inj heq
    exact report_of_relpath hone hline'' hline hpath'
  · have hnone : c.shared.results.get? key = none := by
      rw [Dict.get?_eq_none, Dict.mem_keys]
      rintro ⟨report, hget⟩
      obtain ⟨line, hline, hpath, -⟩ := h.results _ _ hget
      exact hkey ⟨line, hline, hpath⟩
    rw [hnone, sequentialResults, Dict.get?_setAll_of_not_mem]
    · rfl
    · intro hmem
      obtain ⟨item, hitem, rfl⟩ := List.mem_map.mp hmem
      obtain ⟨line, hline, rfl⟩ := List.mem_map.mp hitem
      exact hkey ⟨line, hline, rfl⟩

theorem mem_listed (hone : OneBranchEach w) {key : Text} : key ∈ listedKeys (sequentialResults w) ↔
    ∃ line ∈ w.repoList, key = w.relpath line ∧
      ¬InSync (runCommand w.exec) (w.gitTree line) (w.tracking line) := by
  have hblank : ∀ line, (w.report line).blank = false ↔
      ¬InSync (runCommand w.exec) (w.gitTree line) (w.tracking line) := by
    intro line
    rw [← blank_iff, Bool.not_eq_true]
    rfl
  rw [mem_listedKeys]
  constructor
  · rintro ⟨report, hget, hreport⟩
    obtain ⟨line, hline, heq⟩ :=
      List.mem_map.mp ((Dict.get?_setAll hget).resolve_right fun h => by cases h)
    obtain ⟨rfl, rfl⟩ := Prod.mk.inj heq
    exact ⟨line, hline, rfl, (hblank line).mp hreport⟩
  · rintro ⟨line, hline, rfl, hsync⟩
    refine ⟨w.report line, Dict.get?_setAll_of_mem (List.mem_map.mpr ⟨line, hline, rfl⟩) ?_,
      (hblank line).mpr hsync⟩
    intro report hreport
    obtain ⟨line', hline', heq⟩ := List.mem_map.mp hreport
    obtain ⟨hpath, rfl⟩ := Prod.mk.inj heq
    exact report_of_relpath hone hline' hline hpath

/-- In whatever order the goroutines have moved, the trees that are listed are those that are not in
sync. -/
theorem output (hone : OneBranchEach w) (h : Reachable w c) (hexit : Exited c) :
    (∃ counts : List (Int × Int), (∀ n ∈ counts, Sane w n.1 n.2) ∧
      c.shared.stdout = counts.map (fun n => reportProgress n.1 n.2) ++
        printResults (sequentialResults w)) ∧
    ∀ key, key ∈ listedKeys (sequentialResults w) ↔
      ∃ line ∈ w.repoList, key = w.relpath line ∧
        ¬InSync (runCommand w.exec) (w.gitTree line) (w.tracking line) := by
  obtain ⟨counts, hsane, hstdout⟩ := h.inv.written _ hexit
  refine ⟨⟨counts, hsane, ?_⟩, fun key => mem_listed hone⟩
  rw [hstdout]
  exact congrArg _ (printResults_congr (h.inv.results_eq hexit hone))

/-! ## Two trees -/

def devTree : Text := "/repo/src/dev".toList

def kernelTree : Text := "/repo/src/kernel".toList

/-- The first tree is at the tracking branch, the second one has a file that is changed. -/
def twoTreesExec (args : List Text) : CommandResult :=
  if args = branchCommand devTree then
    ⟨"* (HEAD detached at m/main) 1a2b3c4 willis: fix\n".toList, [], none⟩
  else if args = statusCommand kernelTree then ⟨" M Makefile\n".toList, [], none⟩
  else ⟨[], [], none⟩

/-- A checkout of two trees, which are checked one at a time. -/
def twoTrees : Setup where
  repoRoot := "/repo".toList
  cwd := "/repo".toList
  exec := twoTreesExec
  projectMap := Dict.empty.set "src/dev".toList
    { remote := [], path := "src/dev".toList, revision := [], name := "dev".toList,
      tracking := "cros/main".toList }
  repoList := ["src/dev : dev-util".toList, "src/kernel : kernel".toList]
  maxGoCount := 1
  rootRooted := rfl
  cwdRooted := rfl
  cpus := Nat.one_pos

/-- The second tree comes first, and the first one waits for its slot; the progress report looks in
between. -/
def twoOrder : List Nat :=
  List.replicate 6 0 ++ List.replicate 4 3 ++ [2, 1, 1] ++ List.replicate 6 3 ++ [2] ++
    List.replicate 4 1 ++
    List.replicate 8 3 ++ List.replicate 15 2 ++ List.replicate 2 0 ++ List.replicate 8 1 ++
      List.replicate 3 0

theorem reachable_play (w : Setup) (order : List Nat) :
    Reachable w (play (next w) order (initial w)) :=
  Run.play (fun _ _ _ _ _ h => h) (fun _ _ _ _ _ _ _ _ => trivial) .refl

theorem safe_twoTrees :
    Safe twoTrees (play (next twoTrees) (twoOrder.take 18) (initial twoTrees)) :=
  safe (reachable_play twoTrees (twoOrder.take 18))

theorem exited_twoTrees : Exited (play (next twoTrees) twoOrder (initial twoTrees)) := by rfl

theorem oneBranchEach_twoTrees : OneBranchEach twoTrees := by
  have hne : twoTrees.gitTree "src/dev : dev-util".toList ≠
    twoTrees.gitTree "src/kernel : kernel".toList := by decide
  intro line hline line' hline' h
  rcases List.mem_pair.mp hline with rfl | rfl <;> rcases List.mem_pair.mp hline' with rfl | rfl
  · rfl
  · exact absurd h hne
  · exact absurd h.symm hne
  · rfl

theorem output_twoTrees :
    (∃ counts : List (Int × Int), (∀ n ∈ counts, Sane twoTrees n.1 n.2) ∧
      (play (next twoTrees) twoOrder (initial twoTrees)).shared.stdout =
        counts.map (fun n => reportProgress n.1 n.2) ++ printResults (sequentialResults twoTrees)) ∧
    ∀ key, key ∈ listedKeys (sequentialResults twoTrees) ↔ ∃ line ∈ twoTrees.repoList,
      key = twoTrees.relpath line ∧ ¬InSync (runCommand twoTrees.exec) (twoTrees.gitTree line)
        (twoTrees.tracking line) :=
  output oneBranchEach_twoTrees (reachable_play twoTrees twoOrder) exited_twoTrees

example : listedKeys (sequentialResults twoTrees) = ["src/kernel".toList] := by decide +kernel

end Willis
