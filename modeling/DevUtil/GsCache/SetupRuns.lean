import DevUtil.GsCache.SetupInvariant

/-!
# Runs of the setups

    all steps fit → src is complete, and a call without failures
      succeeds                                                 (setup_complete)

Then runs of a few instances, good and bad.
-/

namespace GsCache

open Lib Interleave

/-! ## A call without failures -/

/-- What happens in a call when nothing fails. -/
def smooth (server : String → Option Bytes) (p : Instance) : Event :=
  match p.phase with
  | .download _ (dep :: _) =>
    match server dep with
    | some x => .answer (.status 200 [x] false)
    | none => .answer (.status 404 [] false)
  | .extract _ dep _ => if (p.temp dep).isSome then .tar (.exited 0 true) else .run
  | _ => .run

/-- The next step of a call when nothing fails; there is none once it has returned. -/
def smoothStep (server : String → Option Bytes) (p : Instance) (d : Disk) :
    Option (Event × Instance × Disk) :=
  (setupStep p d (smooth server p)).map fun x => (smooth server p, x)

section Recovery

variable {server : String → Option Bytes} {temp : String → Option Bytes} {d : Disk}

theorem smoothStep_some {p : Instance} {e : Event} {x : Instance × Disk} (he : smooth server p = e)
    (h : setupStep p d e = some x) : smoothStep server p d = some (e, x) := by
  unfold smoothStep
  rw [he, h]
  rfl

theorem solo_step {p p' : Instance} {d' : Disk} {e : Event} (he : smooth server p = e)
    (h : setupStep p d e = some (p', d')) : Solo (smoothStep server) p d p' d' :=
  .head (smoothStep_some he h) .refl

/-- Up to the lock file. -/
theorem solo_open : ∃ f d' dir,
    Solo (smoothStep server) ⟨.mkDirP, temp⟩ d ⟨.flock f, temp⟩ d' ∧ d'.dir = some dir ∧
      d'.locked = d.locked := by
  have hmk : ∃ dir, d.mkDirP.dir = some dir ∧ d.mkDirP.locked = d.locked := by
    unfold Disk.mkDirP
    split
    · next dir hdir => exact ⟨dir, hdir, rfl⟩
    · exact ⟨_, rfl, rfl⟩
  obtain ⟨dir, hdir, hlocked⟩ := hmk
  have hopen : ∃ f d' dir', d.mkDirP.touchTimestamp.openLock = .ok (f, d') ∧ d'.dir = some dir' ∧
      d'.locked = d.locked := by
    unfold Disk.openLock
    rw [show d.mkDirP.touchTimestamp.dir = some dir from hdir]
    dsimp only
    split
    · next f hf => exact ⟨f, _, dir, rfl, hdir, hlocked⟩
    · exact ⟨_, _, _, rfl, rfl, hlocked⟩
  obtain ⟨f, d', dir', hopen, hdir', hlocked'⟩ := hopen
  refine ⟨f, d', dir', ?_, hdir', hlocked'⟩
  have hmkDirP : Solo (smoothStep server) ⟨.mkDirP, temp⟩ d ⟨.touchTimestamp, temp⟩ d.mkDirP :=
    solo_step rfl rfl
  have htouch : Solo (smoothStep server) ⟨.touchTimestamp, temp⟩ d.mkDirP
      ⟨.openLock, temp⟩ d.mkDirP.touchTimestamp :=
    solo_step rfl rfl
  have hlock : Solo (smoothStep server) ⟨.openLock, temp⟩ d.mkDirP.touchTimestamp
      ⟨.flock f, temp⟩ d' := by
    refine solo_step (e := .run) rfl ?_
    unfold setupStep
    dsimp only
    rw [hopen]
    rfl
  exact hmkDirP.trans (htouch.trans hlock)

/-- The tar run of a tarball, if there is one in the temp dir. -/
theorem solo_extract {f : Inode} {dep : String} {deps : List String} {dir : TelemetrySrc}
    (hdir : d.dir = some dir) :
    ∃ d' dir', Solo (smoothStep server) ⟨.extract f dep deps, temp⟩ d ⟨.download f deps, temp⟩ d' ∧
      d'.dir = some dir' ∧ dir'.src = dir.src ∧
        (dir.testSrc.isSome ∨ (temp dep).isSome → dir'.testSrc.isSome) := by
  cases htar : temp dep with
  | none =>
    refine ⟨d, dir, solo_step (e := .run) ?_ ?_, hdir, rfl,
      fun h => h.resolve_right Bool.false_ne_true⟩
    · simp [smooth, htar]
    · simp [setupStep, htar, Instance.goto]
  | some x =>
    let tree := dir.testSrc.getD [] ++ [⟨x, true⟩]
    let d' := { d with dir := some { dir with testSrc := some tree } }
    refine ⟨d', _, solo_step (e := .tar (.exited 0 true)) ?_ ?_, rfl, rfl, fun _ => rfl⟩
    · simp [smooth, htar]
    · simp [setupStep, htar, extractTarball, hdir, Instance.goto, TarRun.raises,
        TelemetrySrc.add, d', tree]

/-- The download of one dependency and its tar run. -/
theorem solo_dep {f : Inode} {dep : String} {deps : List String} {dir : TelemetrySrc}
    (hdir : d.dir = some dir) :
    ∃ temp' d' dir', Solo (smoothStep server) ⟨.download f (dep :: deps), temp⟩ d
      ⟨.download f deps, temp'⟩ d' ∧
      d'.dir = some dir' ∧ dir'.src = dir.src ∧
        (dir.testSrc.isSome ∨ (server dep).isSome → dir'.testSrc.isSome) := by
  cases hserver : server dep with
  | none =>
    have hget : Solo (smoothStep server) ⟨.download f (dep :: deps), temp⟩ d
        ⟨.extract f dep deps, temp⟩ d := by
      refine solo_step (e := .answer (.status 404 [] false)) ?_ rfl
      simp [smooth, hserver]
    obtain ⟨d', dir', hsolo, hdir', hsrc, htest⟩ := @solo_extract server temp d f dep deps dir hdir
    exact ⟨temp, d', dir', hget.trans hsolo, hdir', hsrc,
      fun h => htest (.inl (h.resolve_right Bool.false_ne_true))⟩
  | some x =>
    let temp' := Function.update temp dep (some [x].flatten)
    have hget : Solo (smoothStep server) ⟨.download f (dep :: deps), temp⟩ d
        ⟨.extract f dep deps, temp'⟩ d := by
      refine solo_step (e := .answer (.status 200 [x] false)) ?_ rfl
      simp [smooth, hserver]
    obtain ⟨d', dir', hsolo, hdir', hsrc, htest⟩ := @solo_extract server temp' d f dep deps dir hdir
    have htemp : (temp' dep).isSome := by
      show (Function.update temp dep (some [x].flatten) dep).isSome
      rw [Function.update_self]
      rfl
    exact ⟨temp', d', dir', hget.trans hsolo, hdir', hsrc, fun _ => htest (.inr htemp)⟩

theorem solo_deps {f : Inode} {deps : List String} {dir : TelemetrySrc} (hdir : d.dir = some dir) :
    ∃ temp' d' dir', Solo (smoothStep server) ⟨.download f deps, temp⟩ d
      ⟨.download f [], temp'⟩ d' ∧
      d'.dir = some dir' ∧ dir'.src = dir.src ∧
      (dir.testSrc.isSome ∨ (∃ dep ∈ deps, (server dep).isSome) → dir'.testSrc.isSome) := by
  induction deps generalizing temp d dir with
  | nil => exact ⟨temp, d, dir, .refl, hdir, rfl, fun h => h.resolve_right (by simp)⟩
  | cons dep deps ih =>
    obtain ⟨temp₁, d₁, dir₁, hsolo₁, hdir₁, hsrc₁, htest₁⟩ :=
      @solo_dep server temp d f dep deps dir hdir
    obtain ⟨temp₂, d₂, dir₂, hsolo₂, hdir₂, hsrc₂, htest₂⟩ := @ih temp₁ d₁ dir₁ hdir₁
    refine ⟨temp₂, d₂, dir₂, hsolo₁.trans hsolo₂, hdir₂, hsrc₂.trans hsrc₁, fun h => htest₂ ?_⟩
    rcases h with h | ⟨dep', hmem, hserved⟩
    · exact .inl (htest₁ (.inl h))
    · rcases List.mem_cons.mp hmem with rfl | hmem
      · exact .inl (htest₁ (.inr hserved))
      · exact .inr ⟨dep', hmem, hserved⟩

/-- The work under the lock. -/
theorem solo_locked {f : Inode} {dir : TelemetrySrc} (hdir : d.dir = some dir)
    (hserver : ∃ dep ∈ dependencies, (server dep).isSome) : ∃ temp' d',
    Solo (smoothStep server) ⟨.checkSrc f, temp⟩ d ⟨.unlock f .returned, temp'⟩ d' ∧
      d'.srcExists = true := by
  cases hsrc : dir.src with
  | some tree =>
    have hexists : d.srcExists = true := by simp [Disk.srcExists, hdir, hsrc]
    refine ⟨temp, d, solo_step (e := .run) rfl ?_, hexists⟩
    simp [setupStep, hexists, Instance.goto]
  | none =>
    have hmissing : d.srcExists = false := by simp [Disk.srcExists, hdir, hsrc]
    have hcheck : Solo (smoothStep server) ⟨.checkSrc f, temp⟩ d
        ⟨.download f dependencies, temp⟩ d := by
      refine solo_step (e := .run) rfl ?_
      simp [setupStep, hmissing, Instance.goto]
    obtain ⟨temp', d', dir', hsolo, hdir', hsrc', htest⟩ :=
      @solo_deps server temp d f dependencies dir hdir
    obtain ⟨tree, htree⟩ := Option.isSome_iff_exists.mp (htest (.inr hserver))
    have hnoMore : Solo (smoothStep server) ⟨.download f [], temp'⟩ d' ⟨.move f, temp'⟩ d' :=
      solo_step rfl rfl
    let moved := { d' with dir := some { dir' with testSrc := none, src := some tree } }
    have hmove : Solo (smoothStep server) ⟨.move f, temp'⟩ d'
        ⟨.unlock f .returned, temp'⟩ moved := by
      refine solo_step (e := .run) rfl ?_
      simp [setupStep, Disk.moveTestSrc, hdir', htree, hsrc', hsrc, Instance.goto, moved]
    exact ⟨temp', moved, hcheck.trans (hsolo.trans (hnoMore.trans hmove)), rfl⟩

/-- A call without failures returns, and leaves `src`. -/
theorem solo_setup (hfree : ∀ f, d.locked f = false)
    (hserver : ∃ dep ∈ dependencies, (server dep).isSome) : ∃ temp' d',
    Solo (smoothStep server) ⟨.mkDirP, temp⟩ d ⟨.idle (some .returned), temp'⟩ d' ∧
      d'.srcExists = true := by
  obtain ⟨f, d₁, dir, hopen, hdir, hlocked⟩ := @solo_open server temp d
  have hflock : Solo (smoothStep server) ⟨.flock f, temp⟩ d₁ ⟨.checkSrc f, temp⟩
      (d₁.setLocked f true) := by
    refine solo_step (e := .run) rfl ?_
    simp [setupStep, hlocked, hfree f, Instance.goto]
  have hdir' : (d₁.setLocked f true).dir = some dir := hdir
  obtain ⟨temp', d', hwork, hexists⟩ := @solo_locked server temp _ f dir hdir' hserver
  have hunlock : Solo (smoothStep server) ⟨.unlock f .returned, temp'⟩ d'
    ⟨.idle (some .returned), temp'⟩
      (d'.setLocked f false) := solo_step rfl rfl
  exact ⟨temp', d'.setLocked f false, hopen.trans (hflock.trans (hwork.trans hunlock)), hexists⟩

end Recovery

theorem smoothStep_eq {server : String → Option Bytes} {p p' : Instance} {ev : Event}
    {d d' : Disk} (h : smoothStep server p d = some (ev, p', d')) :
    ev = smooth server p ∧ SetupStep p d ev p' d' := by
  obtain ⟨x, hstep, heq⟩ := Option.map_eq_some_iff.mp h
  cases heq
  exact ⟨rfl, hstep⟩

theorem smooth_fits {server : String → Option Bytes} {c : Setups} {i : Nat} {p : Instance}
    (hp : c.procs[i]? = some p)
    (hothers : ∀ j q, j ≠ i → c.procs[j]? = some q → q.phase.removes = false) :
    StepFits server c i (smooth server p) := by
  have hrun : StepFits server c i .run := fun _ _ _ => hothers
  unfold smooth
  split
  · next f dep deps hphase =>
    split
    · next x hx =>
      intro q g dep' deps' hq hphase'
      cases hp.symm.trans hq
      cases hphase.symm.trans hphase'
      refine ⟨fun h => absurd h (by decide), fun _ _ y hy => ?_⟩
      rw [hx] at hy
      cases hy
      simp
    · next hnone =>
      intro q g dep' deps' hq hphase'
      cases hp.symm.trans hq
      cases hphase.symm.trans hphase'
      exact ⟨fun _ => hnone, fun h => absurd h (by decide)⟩
  · split
    · exact rfl
    · exact hrun
  · exact hrun

theorem inv_beforeSetups (server : String → Option Bytes) (n : Nat) :
    Inv server (beforeSetups n) where
  disk := ⟨fun dir tree hdir => (by cases hdir), fun f dir hdir => (by cases hdir.1)⟩
  instances i p hp := by
    cases List.eq_of_mem_replicate (List.mem_of_getElem? hp)
    exact fits_outside rfl rfl
  apart i j p q f _ hp _ hf := by
    cases List.eq_of_mem_replicate (List.mem_of_getElem? hp)
    cases hf
  locked f hf := by cases hf
  alone i j p q _ hp _ hremoves := by
    cases List.eq_of_mem_replicate (List.mem_of_getElem? hp)
    cases hremoves

theorem inv_of_run {server : String → Option Bytes} {n : Nat} {c : Setups}
    (h : Run SetupStep (StepFits server) (beforeSetups n) c) : Inv server c :=
  h.invariant (fun _ _ _ _ hinv hok hs => inv_step hinv hok hs) (inv_beforeSetups server n)

/-- `src` has all of what the server has. -/
def SrcComplete (server : String → Option Bytes) (d : Disk) : Prop :=
  ∀ dir tree, d.dir = some dir → dir.src = some tree → Complete server dependencies tree

/-- A call of instance `j` now, without failures and with the others at rest, returns, and `src` is
there. -/
def Recovers (server : String → Option Bytes) (c : Setups) (j : Nat) (p : Instance) : Prop :=
  ∃ k,
    let c' :=
      play (smoothStep server) (List.replicate k j) ⟨c.shared, c.procs.set j (p.goto .mkDirP)⟩
    (c'.procs[j]?.map Instance.phase) = some (.idle (some .returned)) ∧ c'.shared.srcExists = true ∧
      SrcComplete server c'.shared

/-- **In every run whose steps fit, `src` is complete whenever it is there, and a call without
failures succeeds after every call that has ended.** -/
theorem setup_complete {server : String → Option Bytes} {n : Nat} {c : Setups}
    (hrun : Run SetupStep (StepFits server) (beforeSetups n) c) : SrcComplete server c.shared ∧
    ((∃ dep ∈ dependencies, (server dep).isSome) →
      (∀ (i : Nat) q, c.procs[i]? = some q → q.phase.holds = none) →
      ∀ (j : Nat) p last, c.procs[j]? = some p → p.phase = .idle last → Recovers server c j p) := by
  have hinv := inv_of_run hrun
  refine ⟨hinv.disk.complete, fun hserver hholds j p last hp hidle => ?_⟩
  have hfree : ∀ f, c.shared.locked f = false := by
    intro f
    by_contra hlocked
    obtain ⟨i, q, hq, hqf⟩ := hinv.locked f (Bool.not_eq_false _ ▸ hlocked)
    rw [hholds i q hq] at hqf
    cases hqf
  have hcall : Interleave.Step SetupStep c j .call ⟨c.shared, c.procs.set j (p.goto .mkDirP)⟩ := by
    refine .mk hp ?_
    unfold SetupStep setupStep
    rw [hidle]
  obtain ⟨temp', d', hsolo, hexists⟩ := @solo_setup server p.temp c.shared hfree hserver
  have hset : (c.procs.set j (p.goto .mkDirP))[j]? = some (p.goto .mkDirP) :=
    List.getElem?_set_self (List.getElem?_eq_some_iff.mp hp).1
  obtain ⟨k, hk⟩ := hsolo.play (c := ⟨c.shared, c.procs.set j (p.goto .mkDirP)⟩) hset rfl
  have hj : j < c.procs.length := (List.getElem?_eq_some_iff.mp hp).1
  -- nobody else is removing the directory
  have hothers : ∀ q k r, k ≠ j → (c.procs.set j q)[k]? = some r → r.phase.removes = false := by
    intro q k r hk hr
    rw [List.getElem?_set_ne (Ne.symm hk)] at hr
    by_contra hremoves
    exact holds_of_removes (Bool.not_eq_false _ ▸ hremoves) (hholds k r hr)
  have hrun' : Run SetupStep (StepFits server) (beforeSetups n)
      ⟨d', c.procs.set j ⟨.idle (some .returned), temp'⟩⟩ := by
    refine Run.solo (fun p d ev p' d' h => (smoothStep_eq h).2) hsolo hj (fun q d ev q' d' h => ?_)
      (hrun.tail (l := .call) trivial hcall)
    rw [(smoothStep_eq h).1]
    exact smooth_fits (List.getElem?_set_self hj) (hothers q)
  refine ⟨k, ?_⟩
  rw [hk, List.set_set]
  refine ⟨?_, hexists, (inv_of_run hrun').disk.complete⟩
  rw [List.getElem?_set_self hj]
  rfl

/-- Two of the dependencies. -/
def twoTarballs : String → Option Bytes
  | "dep-telemetry_dep.tar.bz2" => some [1]
  | "dep-page_cycler_dep.tar.bz2" => some [2]
  | _ => none

/-! ## Runs of a few instances -/

abbrev Script := List (Nat × Event)

/-- Up to the first download. -/
def upToDownload (i : Nat) : Script :=
  [(i, .call), (i, .run), (i, .run), (i, .run), (i, .run), (i, .run)]

def downloads (i : Nat) (tarball : Bytes) : Script := [(i, .answer (.status 200 [tarball] false))]

/-- What the server does not have. -/
def passesOver (i : Nat) : Script := [(i, .answer (.status 404 [] false)), (i, .run)]

/-- The whole `rmtree`, after one tar run that has left something. -/
def removal (i : Nat) : Script :=
  [(i, .remove .lock), (i, .remove (.file false 0)), (i, .remove (.tree false)), (i, .remove .dir)]

/-- The work under the lock, and the end of the call. -/
def setsUp (i : Nat) : Script :=
  downloads i [1] ++ [(i, .tar (.exited 0 true))] ++ downloads i [2] ++
    [(i, .tar (.exited 0 true))] ++
    passesOver i ++ passesOver i ++ [(i, .run), (i, .run), (i, .run)]

def trueAnswer (served : Option Bytes) : Response → Bool
  | .raised => true
  | .status code chunks broken => (!decide (code = 404) || served.isNone) &&
      (raisesForStatus code || broken || served.all fun x => decide (chunks.flatten = x))

/-- `StepFits`, computed. -/
def stepFits (server : String → Option Bytes) (c : Setups) (i : Nat) : Event → Bool
  | .answer r =>
    match c.procs[i]?.map Instance.phase with
    | some (.download _ (dep :: _)) => trueAnswer (server dep) r
    | _ => true
  | .tar (.raised _) => (c.procs.eraseIdx i).all fun q => q.phase.needs.isNone
  | .tar (.exited code _) => decide (code = 0)
  | .run => !decide (c.procs[i]?.map Instance.phase = some .openLock) ||
      (c.procs.eraseIdx i).all fun q => !q.phase.removes
  | _ => true

theorem trueAnswer_sound {served : Option Bytes} {r : Response} (h : trueAnswer served r = true) :
    TrueAnswer served r := by
  cases r with
  | raised => trivial
  | status code chunks broken =>
    obtain ⟨hcode, hwhole⟩ := Bool.and_eq_true_iff.mp h
    refine ⟨fun hnotFound => ?_, fun hraises hbroken x hx => ?_⟩
    · simpa [hnotFound] using hcode
    · simpa [hraises, hbroken, hx] using hwhole

theorem stepFits_sound {server : String → Option Bytes} {c : Setups} {i : Nat} {ev : Event}
    (h : stepFits server c i ev = true) : StepFits server c i ev := by
  have hothers : ∀ {f : Instance → Bool}, (c.procs.eraseIdx i).all f = true →
      ∀ j q, j ≠ i → c.procs[j]? = some q → f q = true := fun hall j q hj hq =>
    List.all_eq_true.mp hall q (List.mem_eraseIdx_iff_getElem?.mpr ⟨j, hj, hq⟩)
  cases ev with
  | call => trivial
  | remove => trivial
  | answer r =>
    intro p f dep deps hp hphase
    rw [stepFits, hp, Option.map_some, hphase] at h
    exact trueAnswer_sound h
  | tar t =>
    cases t with
    | raised wrote => exact fun j q hj hq => Option.isNone_iff_eq_none.mp (hothers h j q hj hq)
    | exited code wrote =>
      have hcode : code = 0 := of_decide_eq_true h
      exact hcode
  | run =>
    intro p hp hphase j q hj hq
    rw [stepFits, hp, Option.map_some, hphase] at h
    simpa using hothers h j q hj hq

/-- The stream for 0 breaks; the tar run of 1 raises, and 2, which comes while 1 removes the
directory, finds it gone. -/
def failures : Script :=
  upToDownload 0 ++ [(0, .answer (.status 200 [[1]] true)), (0, .run)] ++
    upToDownload 1 ++ downloads 1 [1] ++ [(1, .tar (.raised true)), (2, .call), (2, .run)] ++
      removal 1 ++
    [(1, .run), (2, .run), (2, .run)]

/-- Then 2 is called again, and 0 waits for it. -/
def success : Script :=
  upToDownload 2 ++ [(0, .call), (0, .run), (0, .run), (0, .run)] ++ setsUp 2 ++
    [(0, .run), (0, .run), (0, .run)]

theorem isSome_failures :
    (follow setupStep (stepFits twoTarballs) failures (beforeSetups 3)).isSome = true := by decide

def afterFailures : Setups :=
  (follow setupStep (stepFits twoTarballs) failures (beforeSetups 3)).get isSome_failures

theorem isSome_success : (follow setupStep (stepFits twoTarballs) success afterFailures).isSome =
    true := by decide

def afterSuccess : Setups :=
  (follow setupStep (stepFits twoTarballs) success afterFailures).get isSome_success

theorem run_afterFailures : Run SetupStep (StepFits twoTarballs) (beforeSetups 3) afterFailures :=
  Run.follow (fun _ _ _ _ _ h => h) (fun _ _ _ h => stepFits_sound h) .refl
    (Option.some_get isSome_failures).symm

theorem run_afterSuccess : Run SetupStep (StepFits twoTarballs) (beforeSetups 3) afterSuccess :=
  Run.follow (fun _ _ _ _ _ h => h) (fun _ _ _ h => stepFits_sound h) run_afterFailures
    (Option.some_get isSome_success).symm

theorem setup_complete_afterFailures :
    (afterFailures.procs.map Instance.phase = [.idle (some (.failed .telemetrySetupError)),
      .idle (some (.failed .telemetrySetupError)), .idle (some (.failed .osError))] ∧
      ∃ p, afterFailures.procs[1]? = some p ∧ Recovers twoTarballs afterFailures 1 p) ∧
    afterSuccess.procs.map Instance.phase =
      [.idle (some .returned), .idle (some (.failed .telemetrySetupError)),
      .idle (some .returned)] ∧
    afterSuccess.shared.srcExists = true ∧ SrcComplete twoTarballs afterSuccess.shared := by
  have hholds : ∀ (i : Nat) q, afterFailures.procs[i]? = some q → q.phase.holds = none := by
    intro i q hq
    have hall : ∀ q ∈ afterFailures.procs, q.phase.holds = none := by decide
    exact hall q (List.mem_of_getElem? hq)
  refine ⟨⟨by decide, _, rfl, ?_⟩, by decide, by decide, (setup_complete run_afterSuccess).1⟩
  exact (setup_complete run_afterFailures).2
    ⟨"dep-telemetry_dep.tar.bz2", by decide, by decide⟩ hholds 1 _
    (some (.failed .telemetrySetupError)) rfl rfl

/-! ## What goes wrong -/

/-- A tar run exits with two. -/
def tarFails : Script :=
  upToDownload 0 ++ downloads 0 [1] ++ [(0, .tar (.exited 2 true))] ++ downloads 0 [2] ++
    [(0, .tar (.exited 0 true))] ++ passesOver 0 ++ passesOver 0 ++ [(0, .run), (0, .run)]

/-- 1 opens the lock file before 0 removes it. While 0 sets up in a new directory, 1 removes that,
and makes a third. -/
def tarRaises : Script :=
  upToDownload 0 ++ downloads 0 [1] ++ [(0, .tar (.raised true))] ++
    [(1, .call), (1, .run), (1, .run), (1, .run)] ++
    removal 0 ++ [(0, .run), (0, .call), (0, .run), (0, .run)] ++
    [(1, .run), (1, .run)] ++ downloads 1 [1] ++ [(1, .tar (.raised false))] ++
    [(0, .run), (0, .run), (0, .run)] ++ downloads 0 [1] ++ [(0, .tar (.exited 0 true))] ++
    removal 1 ++ [(1, .run), (1, .call), (1, .run)] ++
    downloads 0 [2] ++ [(0, .tar (.exited 0 true))] ++ passesOver 0 ++ passesOver 0 ++
      [(0, .run), (0, .run)]

def raisesNothing : Event → Bool
  | .tar t => !t.raises
  | _ => true

def exitsZero : Event → Bool
  | .tar (.exited code _) => decide (code = 0)
  | _ => true

/-- `src` in a configuration, if it is there. -/
def srcOf (c : Setups) : Option (List Extraction) := c.shared.dir.bind TelemetrySrc.src

theorem not_complete_of_srcOf {d : Disk} {tree : List Extraction}
    (h : d.dir.bind TelemetrySrc.src = some tree) (hmissing : (⟨[1], true⟩ : Extraction) ∉ tree) :
    ¬SrcComplete twoTarballs d := by
  intro hcomplete
  obtain ⟨dir, hdir, hsrc⟩ := Option.bind_eq_some_iff.mp h
  exact hmissing
    (hcomplete dir tree hdir hsrc "dep-telemetry_dep.tar.bz2" (by decide) [1] (by decide))

/-- A tar run that fails is enough; so are two that raise, while others wait and work. -/
theorem not_setupComplete :
    (∃ c, Run SetupStep (fun _ _ ev => raisesNothing ev = true) (beforeSetups 1) c ∧
      ¬SrcComplete twoTarballs c.shared) ∧
    ∃ c, Run SetupStep (fun _ _ ev => exitsZero ev = true) (beforeSetups 2) c ∧
      ¬SrcComplete twoTarballs c.shared := by
  have hnext : ∀ p d ev p' d', setupStep p d ev = some (p', d') → SetupStep p d ev p' d' :=
    fun _ _ _ _ _ h => h
  constructor
  · have hsrc : (follow setupStep (fun _ _ => raisesNothing) tarFails (beforeSetups 1)).map srcOf =
        some (some [⟨[1], false⟩, ⟨[2], true⟩]) := by decide
    obtain ⟨c, hfollow, hsrc⟩ := Option.map_eq_some_iff.mp hsrc
    exact ⟨c, Run.follow hnext (fun _ _ _ h => h) .refl hfollow,
      not_complete_of_srcOf hsrc (by decide)⟩
  · have hsrc : (follow setupStep (fun _ _ => exitsZero) tarRaises (beforeSetups 2)).map srcOf =
        some (some [⟨[2], true⟩]) := by decide
    obtain ⟨c, hfollow, hsrc⟩ := Option.map_eq_some_iff.mp hsrc
    exact ⟨c, Run.follow hnext (fun _ _ _ h => h) .refl hfollow,
      not_complete_of_srcOf hsrc (by decide)⟩

end GsCache
