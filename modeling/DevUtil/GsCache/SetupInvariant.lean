import DevUtil.GsCache.TelemetrySetup

/-!
# What the setups keep

What the steps of a run have to meet, and the invariant that they keep.

    every tar run that raises nothing exits with zero, no other instance needs the lock file
    from a tar run that raises until the directory is removed, and the answers of the server
    are true                                                   (StepFits)

Under it one instance holds the lock and nobody needs the file of a directory that is being
removed, so `test_src` has what the downloads so far have brought.
-/

namespace GsCache

open Lib Interleave

/-! ## The condition -/

/-- The lock file that an instance waits for or works under. -/
def Phase.needs : Phase → Option Inode
  | .flock f | .checkSrc f | .download f _ | .extract f _ _ | .move f => some f
  | _ => none

/-- The lock file that an instance has locked. -/
def Phase.holds : Phase → Option Inode
  | .checkSrc f | .download f _ | .extract f _ _ | .rmtree f | .move f | .unlock f _ => some f
  | _ => none

/-- The instance is removing the directory. -/
def Phase.removes : Phase → Bool
  | .rmtree _ => true
  | _ => false

/-- The dependencies that are not extracted yet. -/
def Phase.remaining : Phase → Option (List String)
  | .download _ deps => some deps
  | .extract _ dep deps => some (dep :: deps)
  | .move _ => some []
  | _ => none

/-- `404` is for what the server does not have, and a stream that does not break is whole. -/
def TrueAnswer (served : Option Bytes) : Response → Prop
  | .raised => True
  | .status code chunks broken => (code = 404 → served = none) ∧
      (raisesForStatus code = false → broken = false → ∀ x, served = some x → chunks.flatten = x)

/-- What the steps of a good run meet. -/
def StepFits (server : String → Option Bytes) (c : Setups) (i : Nat) : Event → Prop
  | .answer r =>
    ∀ p f dep deps, c.procs[i]? = some p → p.phase = .download f (dep :: deps) →
      TrueAnswer (server dep) r
  | .tar (.raised _) => ∀ j p, j ≠ i → c.procs[j]? = some p → p.phase.needs = none
  | .tar (.exited code _) => code = 0
  -- nobody opens the lock file of a directory that is being removed
  | .run => ∀ p, c.procs[i]? = some p → p.phase = .openLock →
      ∀ j q, j ≠ i → c.procs[j]? = some q → q.phase.removes = false
  | _ => True

/-! ## The invariant -/

/-- The tree has all of what the server has of these. -/
def Complete (server : String → Option Bytes) (deps : List String) (tree : List Extraction) :
    Prop :=
  ∀ dep ∈ deps, ∀ x, server dep = some x → ⟨x, true⟩ ∈ tree

/-- All but the remaining dependencies are in `test_src`. -/
def Collected (server : String → Option Bytes) (remaining : List String) (dir : TelemetrySrc) :
    Prop :=
  dir.src = none ∧ ∀ dep ∈ dependencies, dep ∉ remaining →
    ∀ x, server dep = some x → ⟨x, true⟩ ∈ dir.testSrc.getD []

/-- The directory with the lock file in it. -/
def Disk.HasLock (d : Disk) (f : Inode) (dir : TelemetrySrc) : Prop :=
  d.dir = some dir ∧ dir.lock = some f

structure InstanceFits (server : String → Option Bytes) (d : Disk) (p : Instance) : Prop where
  needs : ∀ f, p.phase.needs = some f → ∃ dir, d.HasLock f dir
  holds : ∀ f, p.phase.holds = some f → d.locked f = true
  opened : ∀ f, p.phase.holds = some f → f < d.nextInode
  collected : ∀ deps, p.phase.remaining = some deps →
    ∃ dir, d.dir = some dir ∧ Collected server deps dir
  fetched : ∀ f dep deps, p.phase = .extract f dep deps →
    ∀ x, server dep = some x → p.temp dep = some x
  removes : p.phase.removes = true → d.srcExists = false

structure DiskFits (server : String → Option Bytes) (d : Disk) : Prop where
  complete : ∀ dir tree, d.dir = some dir → dir.src = some tree → Complete server dependencies tree
  opened : ∀ f dir, d.HasLock f dir → f < d.nextInode

structure Inv (server : String → Option Bytes) (c : Setups) : Prop where
  disk : DiskFits server c.shared
  instances : ∀ (i : Nat) p, c.procs[i]? = some p → InstanceFits server c.shared p
  apart : ∀ (i j : Nat) p q f, i ≠ j → c.procs[i]? = some p → c.procs[j]? = some q →
    p.phase.holds = some f →
    q.phase.holds ≠ some f
  locked : ∀ f, c.shared.locked f = true →
    ∃ (i : Nat) (p : Instance), c.procs[i]? = some p ∧ p.phase.holds = some f
  alone : ∀ (i j : Nat) p q, i ≠ j → c.procs[i]? = some p → c.procs[j]? = some q →
    p.phase.removes = true →
    q.phase.needs = none

/-! ## Phases -/

theorem needs_of_remaining {phase : Phase} {deps : List String} (h : phase.remaining = some deps) :
    ∃ f, phase.needs = some f ∧ phase.holds = some f := by
  cases phase with
  | download f deps => exact ⟨f, rfl, rfl⟩
  | extract f dep deps => exact ⟨f, rfl, rfl⟩
  | move f => exact ⟨f, rfl, rfl⟩
  | idle => cases h
  | mkDirP => cases h
  | touchTimestamp => cases h
  | openLock => cases h
  | flock => cases h
  | checkSrc => cases h
  | rmtree => cases h
  | unlock => cases h

theorem needs_of_removes {phase : Phase} (h : phase.removes = true) : phase.needs = none := by
  cases phase with
  | rmtree => rfl
  | _ => cases h

/-! ## The disk -/

section Disk

variable {d d' : Disk}

theorem mkDirP_of_some {dir : TelemetrySrc} (h : d.dir = some dir) : d.mkDirP = d := by
  unfold Disk.mkDirP
  rw [h]

/-- The lock file is opened as it is there, or it is a new one. -/
theorem openLock_cases {f : Inode} (h : d.openLock = .ok (f, d')) :
    (∃ dir, d.HasLock f dir ∧ d' = d) ∨
      ∃ dir, d.dir = some dir ∧ dir.lock = none ∧ f = d.nextInode ∧
        d' = { d with dir := some { dir with lock := some f }, nextInode := d.nextInode + 1 } := by
  unfold Disk.openLock at h
  split at h
  · cases h
  · next dir hdir =>
    split at h
    · next hlock =>
      cases h
      exact .inl ⟨dir, ⟨hdir, hlock⟩, rfl⟩
    · next hlock =>
      cases h
      exact .inr ⟨dir, hdir, hlock, rfl, rfl⟩

/-- A tar run adds something, or nothing unless it exits with zero. -/
theorem extractTarball_cases {tarball : Bytes} {t : TarRun}
    (h : extractTarball d tarball t = some d') :
    (d' = d ∧ ∀ wrote, t ≠ .exited 0 wrote) ∨ ∃ dir x, d.dir = some dir ∧
      d' = { d with dir := some (dir.add x) } ∧
      ∀ wrote, t = .exited 0 wrote → x = ⟨tarball, true⟩ := by
  cases hdir : d.dir with
  | none =>
    cases t with
    | raised wrote =>
      rw [extractTarball, hdir] at h
      exact .inl ⟨(Option.some.inj h).symm, fun _ heq => by cases heq⟩
    | exited code wrote =>
      rw [extractTarball, hdir] at h
      dsimp only at h
      split at h
      · cases h
      · next hcode =>
        refine .inl ⟨(Option.some.inj h).symm, fun _ heq => ?_⟩
        cases heq
        exact hcode rfl
  | some dir =>
    cases t with
    | raised wrote =>
      rw [extractTarball, hdir] at h
      dsimp only at h
      split at h
      · exact .inr ⟨dir, _, rfl, (Option.some.inj h).symm, fun _ heq => by cases heq⟩
      · exact .inl ⟨(Option.some.inj h).symm, fun _ heq => by cases heq⟩
    | exited code wrote =>
      rw [extractTarball, hdir] at h
      dsimp only at h
      split at h
      · refine .inr ⟨dir, _, rfl, (Option.some.inj h).symm, fun _ heq => ?_⟩
        cases heq
        rfl
      · next hwrote =>
        refine .inl ⟨(Option.some.inj h).symm, fun _ heq => ?_⟩
        cases heq
        exact hwrote (.inl rfl)

/-- What is removed below the directory is neither a new lock file nor a new `src`. -/
theorem remove_keeps {dir dir' : TelemetrySrc} {g : Removal} (h : dir.remove g = some dir') :
    (∀ f, dir'.lock = some f → dir.lock = some f) ∧ (dir.src = none → dir'.src = none) := by
  cases g with
  | lock =>
    obtain ⟨f, -, rfl⟩ := Option.map_eq_some_iff.mp h
    exact ⟨fun g hg => (by cases hg), id⟩
  | file inSrc i =>
    cases inSrc with
    | true =>
      obtain ⟨tree, htree, rfl⟩ := Option.map_eq_some_iff.mp h
      refine ⟨fun _ hf => hf, fun hnone => ?_⟩
      rw [hnone] at htree
      cases htree
    | false =>
      obtain ⟨tree, -, rfl⟩ := Option.map_eq_some_iff.mp h
      exact ⟨fun _ hf => hf, id⟩
  | tree inSrc =>
    cases inSrc with
    | true =>
      obtain ⟨tree, -, rfl⟩ := Option.map_eq_some_iff.mp h
      exact ⟨fun _ hf => hf, fun _ => rfl⟩
    | false =>
      obtain ⟨tree, -, rfl⟩ := Option.map_eq_some_iff.mp h
      exact ⟨fun _ hf => hf, id⟩
  | dir => cases h

/-- What a call of an `rmtree` keeps of the disk. -/
structure Removes (d d' : Disk) : Prop where
  locked : d'.locked = d.locked
  opened : d'.nextInode = d.nextInode
  lock : ∀ f dir', d'.HasLock f dir' → ∃ dir, d.HasLock f dir
  src : d.srcExists = false → d'.srcExists = false

theorem rmtree_keeps {g : Removal} (h : d.rmtree g = .ok d') : Removes d d' := by
  unfold Disk.rmtree at h
  split at h
  · cases h
  · next dir hdir =>
    split at h
    · split at h
      · cases h
        exact ⟨rfl, rfl, fun f dir' h => (by cases h.1), fun _ => rfl⟩
      · cases h
    · split at h
      · cases h
      · next dir' hremove =>
        cases h
        obtain ⟨hlock, hsrc⟩ := remove_keeps hremove
        refine ⟨rfl, rfl, fun f dir'' hdir'' => ?_, fun hmissing => ?_⟩
        · obtain ⟨heq, hf⟩ := hdir''
          cases heq
          exact ⟨dir, hdir, hlock f hf⟩
        · rw [Disk.srcExists, hdir] at hmissing
          have hnone : dir.src = none := Option.not_isSome_iff_eq_none.mp (by simp [hmissing])
          simp [Disk.srcExists, hsrc hnone]

theorem moveTestSrc_ok {dir : TelemetrySrc} (hdir : d.dir = some dir) (hsrc : dir.src = none)
    (h : d.moveTestSrc = .ok d') :
    ∃ tree, dir.testSrc = some tree ∧
      d' = { d with dir := some { dir with testSrc := none, src := some tree } } := by
  unfold Disk.moveTestSrc at h
  rw [hdir] at h
  dsimp only at h
  rw [hsrc] at h
  split at h
  · cases h
  · next tree htree _ =>
    cases h
    exact ⟨tree, htree, rfl⟩
  · next hsome => cases hsome

/-- What is downloaded without an exception, if the answer is true. -/
theorem downloadFilesFromTar_ok {temp temp' : String → Option Bytes} {dep : String} {r : Response}
    {served : Option Bytes} (htrue : TrueAnswer served r)
    (h : downloadFilesFromTar temp dep r = (.ok (), temp')) {x : Bytes} (hx : served = some x) :
    temp' dep = some x := by
  cases r with
  | raised => cases h
  | status code chunks broken =>
    unfold downloadFilesFromTar at h
    dsimp only at h
    split at h
    · split at h
      · next hcode => exact absurd (htrue.1 hcode) (by rw [hx]; exact Option.some_ne_none x)
      · cases h
    · next hraises =>
      split at h
      · cases h
      · next hbroken =>
        cases h
        rw [Function.update_self, htrue.2 (Bool.not_eq_true _ ▸ hraises)
          (Bool.not_eq_true _ ▸ hbroken) x hx]

end Disk

/-! ## What a step leaves alone -/

section Spares

variable {server : String → Option Bytes} {p p' q : Instance} {d d' : Disk} {ev : Event}

/-- What a step keeps for the other instances. -/
structure Spares (p : Instance) (d d' : Disk) : Prop where
  dir : ∀ f dir, d.HasLock f dir → ∃ dir', d'.HasLock f dir' ∧
    (p.phase.remaining = none → dir' = dir)
  locked : ∀ f, p.phase.holds ≠ some f → d.locked f = true → d'.locked f = true
  opened : d.nextInode ≤ d'.nextInode
  src : p.phase.needs = none → d.srcExists = false → d'.srcExists = false

theorem spares_self : Spares p d d :=
  ⟨fun _ dir h => ⟨dir, h, fun _ => rfl⟩, fun _ _ h => h, Nat.le_refl _, fun _ h => h⟩

theorem spares_setLocked {f : Inode} {b : Bool} (h : b = true ∨ p.phase.holds = some f) :
    Spares p d (d.setLocked f b) := by
  refine ⟨fun _ dir h => ⟨dir, h, fun _ => rfl⟩, fun g hg hlocked => ?_, Nat.le_refl _,
    fun _ h => h⟩
  show Function.update d.locked f b g = true
  by_cases hfg : g = f
  · rw [hfg, Function.update_self]
    exact h.resolve_right (hfg ▸ hg)
  · rw [Function.update_of_ne hfg]
    exact hlocked

theorem spares_extract {f : Inode} {dep : String} {deps : List String} {tarball : Bytes}
    {t : TarRun} (hp : p.phase = .extract f dep deps) (hx : extractTarball d tarball t = some d') :
    Spares p d d' := by
  obtain ⟨rfl, -⟩ | ⟨dir, x, hdir, rfl, -⟩ := extractTarball_cases hx
  · exact spares_self
  · refine ⟨fun f dir' hdir' => ⟨_, ⟨rfl, ?_⟩, fun hnone => ?_⟩,
      fun _ _ h => h, Nat.le_refl _, fun hneeds => ?_⟩
    · rw [← Option.some.inj (hdir'.1.symm.trans hdir)]
      exact hdir'.2
    · rw [hp] at hnone
      cases hnone
    · rw [hp] at hneeds
      cases hneeds

/-- Everything but a removal. -/
theorem spares_of_moves (hfits : InstanceFits server d p) (h : Moves p d ev p' d')
    (hremoves : p.phase.removes = false) :
    Spares p d d' := by
  cases h with
  | call => exact spares_self
  | mkDirP =>
    refine ⟨fun f dir hdir => ⟨dir, ?_, fun _ => rfl⟩, fun f _ hf => ?_, ?_, fun _ hmissing => ?_⟩
    · rw [mkDirP_of_some hdir.1]
      exact hdir
    · unfold Disk.mkDirP
      split <;> exact hf
    · unfold Disk.mkDirP
      split <;> exact Nat.le_refl _
    · unfold Disk.mkDirP
      split
      · exact hmissing
      · rfl
  | touchTimestamp =>
    exact ⟨fun _ dir h => ⟨dir, h, fun _ => rfl⟩, fun _ _ h => h, Nat.le_refl _, fun _ h => h⟩
  | openFails => exact spares_self
  | openLock hp hopen =>
    obtain ⟨dir, -, rfl⟩ | ⟨dir, hdir, hlock, rfl, rfl⟩ := openLock_cases hopen
    · exact spares_self
    · refine ⟨fun f dir' hdir' => ?_, fun _ _ h => h, Nat.le_succ _, fun _ hmissing => ?_⟩
      swap
      · rwa [Disk.srcExists, hdir] at hmissing
      have heq : dir' = dir := Option.some.inj (hdir'.1.symm.trans hdir)
      have hlock' := hdir'.2
      rw [heq, hlock] at hlock'
      cases hlock'
  | flock hp hl => exact spares_setLocked (.inl rfl)
  | srcThere => exact spares_self
  | srcMissing => exact spares_self
  | downloaded => exact spares_self
  | downloadFails => exact spares_self
  | noTarball => exact spares_self
  | extracted hp htar hx => exact spares_extract hp hx
  | extractRaises hp htar hx => exact spares_extract hp hx
  | removes hp | removed hp | removeFails hp =>
    rw [hp] at hremoves
    cases hremoves
  | noMore => exact spares_self
  | moved hp hm =>
    obtain ⟨dir, hdir, hcollected⟩ := hfits.collected [] (by rw [hp]; rfl)
    obtain ⟨tree, -, rfl⟩ := moveTestSrc_ok hdir hcollected.1 hm
    refine ⟨fun f dir' hdir' => ⟨_, ⟨rfl, ?_⟩, fun hnone => ?_⟩,
      fun _ _ h => h, Nat.le_refl _, fun hneeds => ?_⟩
    · rw [← Option.some.inj (hdir'.1.symm.trans hdir)]
      exact hdir'.2
    · rw [hp] at hnone
      cases hnone
    · rw [hp] at hneeds
      cases hneeds
  | moveFails => exact spares_self
  | unlock hp => exact spares_setLocked (.inr (by rw [hp]; rfl))

/-- What an instance needs stays, whatever a second one does. -/
theorem fits_of_spares (hp : InstanceFits server d p) (hq : InstanceFits server d q)
    (h : Spares p d d') (hapart : ∀ f, p.phase.holds = some f → q.phase.holds ≠ some f)
    (halone : q.phase.removes = true → p.phase.needs = none) : InstanceFits server d' q where
  needs f hf := by
    obtain ⟨dir, hdir⟩ := hq.needs f hf
    obtain ⟨dir', hdir', -⟩ := h.dir f dir hdir
    exact ⟨dir', hdir'⟩
  holds f hf := h.locked f (fun hpf => hapart f hpf hf) (hq.holds f hf)
  opened f hf := Nat.lt_of_lt_of_le (hq.opened f hf) h.opened
  collected deps hdeps := by
    obtain ⟨f, hneeds, hholds⟩ := needs_of_remaining hdeps
    obtain ⟨dir, hdir⟩ := hq.needs f hneeds
    obtain ⟨dir', hdir', hsame⟩ := h.dir f dir hdir
    obtain ⟨dir'', hdir'', hcollected⟩ := hq.collected deps hdeps
    -- two that work under one lock file would both hold it
    have hnone : p.phase.remaining = none := by
      by_contra hsome
      obtain ⟨deps', hdeps'⟩ := Option.ne_none_iff_exists'.mp hsome
      obtain ⟨g, hneeds', hholds'⟩ := needs_of_remaining hdeps'
      obtain ⟨dirp, hdirp⟩ := hp.needs g hneeds'
      have hdireq : dirp = dir := Option.some.inj (hdirp.1.symm.trans hdir.1)
      have hfg : g = f := Option.some.inj (hdirp.2.symm.trans (hdireq ▸ hdir.2))
      exact hapart g hholds' (hfg ▸ hholds)
    have hdireq : dir'' = dir := Option.some.inj (hdir''.symm.trans hdir.1)
    rw [hdireq, ← hsame hnone] at hcollected
    exact ⟨dir', hdir'.1, hcollected⟩
  fetched := hq.fetched
  removes hremoves := h.src (halone hremoves) (hq.removes hremoves)

/-- Something is removed, and nobody else needs it. -/
theorem fits_of_removes (hq : InstanceFits server d q) (hneeds : q.phase.needs = none)
    (h : Removes d d') :
    InstanceFits server d' q where
  needs f hf := by
    rw [hneeds] at hf
    cases hf
  holds f hf := by
    rw [h.locked]
    exact hq.holds f hf
  opened f hf := by
    rw [h.opened]
    exact hq.opened f hf
  collected deps hdeps := by
    obtain ⟨f, hf, -⟩ := needs_of_remaining hdeps
    rw [hneeds] at hf
    cases hf
  fetched := hq.fetched
  removes hremoves := h.src (hq.removes hremoves)

end Spares

/-! ## A step keeps the invariant -/

section Own

variable {server : String → Option Bytes} {p p' : Instance} {d d' : Disk} {ev : Event}

theorem holds_of_removes {phase : Phase} (h : phase.removes = true) : phase.holds ≠ none := by
  cases phase with
  | rmtree f => exact Option.some_ne_none f
  | _ => cases h

/-- Outside the lock. -/
theorem fits_outside (hneeds : p.phase.needs = none) (hholds : p.phase.holds = none) :
    InstanceFits server d p where
  needs f hf := by
    rw [hneeds] at hf
    cases hf
  holds f hf := by
    rw [hholds] at hf
    cases hf
  opened f hf := by
    rw [hholds] at hf
    cases hf
  collected deps hdeps := by
    obtain ⟨f, hf, -⟩ := needs_of_remaining hdeps
    rw [hneeds] at hf
    cases hf
  fetched f dep deps hp := by
    rw [hp] at hneeds
    cases hneeds
  removes hremoves := absurd hholds (holds_of_removes hremoves)

/-- With nothing more to do than removing the directory and unlocking. -/
theorem fits_unlock {f : Inode} (hneeds : p'.phase.needs = none)
    (hholds : p'.phase.holds = some f) (hp : p.phase.holds = some f)
    (hfits : InstanceFits server d p) (hlocked : d'.locked = d.locked)
    (hnext : d'.nextInode = d.nextInode)
    (hremoves : p'.phase.removes = true → d'.srcExists = false) :
    InstanceFits server d' p' where
  needs g hg := by
    rw [hneeds] at hg
    cases hg
  holds g hg := by
    rw [hholds] at hg
    rw [hlocked]
    exact hfits.holds g (hp.trans hg)
  opened g hg := by
    rw [hholds] at hg
    rw [hnext]
    exact hfits.opened g (hp.trans hg)
  collected deps hdeps := by
    obtain ⟨g, hg, -⟩ := needs_of_remaining hdeps
    rw [hneeds] at hg
    cases hg
  fetched g dep deps hphase := by
    rw [hphase] at hneeds
    cases hneeds
  removes := hremoves

/-- From one step of the loop to the next. -/
theorem fits_loop {f : Inode} (hfits : InstanceFits server d p) (hpneeds : p.phase.needs = some f)
    (hpholds : p.phase.holds = some f) (hneeds : p'.phase.needs = some f)
    (hholds : p'.phase.holds = some f)
    (hcollected : ∀ deps, p'.phase.remaining = some deps →
      ∃ dir, d.dir = some dir ∧ Collected server deps dir)
    (hfetched : ∀ f dep deps, p'.phase = .extract f dep deps →
      ∀ x, server dep = some x → p'.temp dep = some x) :
    InstanceFits server d p' where
  needs g hg := hfits.needs g (hpneeds.trans (hneeds.symm.trans hg))
  holds g hg := hfits.holds g (hpholds.trans (hholds.symm.trans hg))
  opened g hg := hfits.opened g (hpholds.trans (hholds.symm.trans hg))
  collected := hcollected
  fetched := hfetched
  removes hremoves := by
    rw [needs_of_removes hremoves] at hneeds
    cases hneeds

theorem collected_init {dir : TelemetrySrc} (h : dir.src = none) :
    Collected server dependencies dir :=
  ⟨h, fun _ hdep hnot => absurd hdep hnot⟩

/-- After the tarball that has been extracted, or that there is none of. -/
theorem collected_next {dep : String} {deps : List String} {dir : TelemetrySrc}
    {tree : List Extraction} (h : Collected server (dep :: deps) dir)
    (hsub : ∀ e ∈ dir.testSrc.getD [], e ∈ tree)
    (hdep : ∀ x, server dep = some x → ⟨x, true⟩ ∈ tree) :
    Collected server deps { dir with testSrc := some tree } := by
  refine ⟨h.1, fun dep' hdep' hnot x hx => ?_⟩
  by_cases heq : dep' = dep
  · exact hdep x (heq ▸ hx)
  · have hnot' : dep' ∉ dep :: deps := fun hmem => (List.mem_cons.mp hmem).elim heq hnot
    exact hsub _ (h.2 dep' hdep' hnot' x hx)

/-- The local part of `StepFits`. -/
def MoveFits (server : String → Option Bytes) (p : Instance) : Event → Prop
  | .answer r => ∀ f dep deps, p.phase = .download f (dep :: deps) → TrueAnswer (server dep) r
  | .tar (.exited code _) => code = 0
  | _ => True

theorem fits_own (hfits : InstanceFits server d p) (hdisk : DiskFits server d)
    (hmove : MoveFits server p ev) (h : Moves p d ev p' d') : InstanceFits server d' p' := by
  cases h with
  | call => exact fits_outside rfl rfl
  | mkDirP => exact fits_outside rfl rfl
  | touchTimestamp => exact fits_outside rfl rfl
  | openFails => exact fits_outside rfl rfl
  | @openLock f d' hp hopen =>
    have hneeds : ∃ dir, d'.HasLock f dir := by
      obtain ⟨dir, hdir, rfl⟩ | ⟨dir, hdir, hlock, rfl, rfl⟩ := openLock_cases hopen
      · exact ⟨dir, hdir⟩
      · exact ⟨_, rfl, rfl⟩
    refine ⟨fun g hg => ?_, fun g hg => (by cases hg),
      fun g hg => (by cases hg), fun deps hdeps => (by cases hdeps),
      fun g dep deps hphase => (by cases hphase), fun hremoves => (by cases hremoves)⟩
    cases hg
    exact hneeds
  | @flock f hp hl =>
    have hneeds : ∃ dir, d.HasLock f dir := hfits.needs f (by rw [hp]; rfl)
    refine ⟨fun g hg => ?_, fun g hg => ?_, fun g hg => ?_, fun deps hdeps => (by cases hdeps),
      fun g dep deps hphase => (by cases hphase), fun hremoves => (by cases hremoves)⟩
    · cases hg
      exact hneeds
    · cases hg
      exact Function.update_self f true d.locked
    · cases hg
      obtain ⟨dir, hdir⟩ := hneeds
      exact hdisk.opened f dir hdir
  | srcThere hp => exact fits_unlock rfl rfl (by rw [hp]; rfl) hfits rfl rfl nofun
  | @srcMissing f hp hsrc =>
    obtain ⟨dir, hdir⟩ := hfits.needs f (by rw [hp]; rfl)
    refine fits_loop hfits (by rw [hp]; rfl) (by rw [hp]; rfl) rfl rfl (fun deps hdeps => ?_)
      (fun g dep deps hphase => by cases hphase)
    cases hdeps
    have hnone : dir.src = none := by
      unfold Disk.srcExists at hsrc
      rw [hdir.1] at hsrc
      exact Option.not_isSome_iff_eq_none.mp (by simp [hsrc])
    exact ⟨dir, hdir.1, collected_init hnone⟩
  | downloaded hp hr =>
    refine fits_loop hfits (by rw [hp]; rfl) (by rw [hp]; rfl) rfl rfl (fun deps' hdeps => ?_)
      (fun g dep' deps' hphase => ?_)
    · cases hdeps
      exact hfits.collected _ (by rw [hp]; rfl)
    · cases hphase
      intro x hx
      exact downloadFilesFromTar_ok (hmove _ _ _ hp) hr hx
  | downloadFails hp => exact fits_unlock rfl rfl (by rw [hp]; rfl) hfits rfl rfl nofun
  | @noTarball f dep deps hp htar =>
    refine fits_loop hfits (by rw [hp]; rfl) (by rw [hp]; rfl) rfl rfl (fun deps' hdeps => ?_)
      (fun g dep' deps' hphase => by cases hphase)
    cases hdeps
    obtain ⟨dir, hdir, hcollected⟩ := hfits.collected (dep :: deps) (by rw [hp]; rfl)
    refine ⟨dir, hdir, hcollected.1, fun dep' hdep' hnot x hx => ?_⟩
    by_cases heq : dep' = dep
    · -- what the server has would be in the temp dir
      have hfetched := hfits.fetched f dep deps hp x (heq ▸ hx)
      rw [htar] at hfetched
      cases hfetched
    · exact hcollected.2 dep' hdep' (fun hmem => (List.mem_cons.mp hmem).elim heq hnot) x hx
  | @extracted f dep deps tarball t d' hp htar hx hraises =>
    obtain ⟨wrote, rfl⟩ : ∃ wrote, t = .exited 0 wrote := by
      cases t with
      | raised => cases hraises
      | exited code wrote => exact ⟨wrote, by rw [show code = 0 from hmove]⟩
    obtain ⟨-, hzero⟩ | ⟨dir, x, hdir, rfl, hwhole⟩ := extractTarball_cases hx
    · exact absurd rfl (hzero wrote)
    · obtain rfl := hwhole wrote rfl
      obtain ⟨dir', hdir', hcollected⟩ := hfits.collected (dep :: deps) (by rw [hp]; rfl)
      cases hdir.symm.trans hdir'
      refine ⟨fun g hg => ?_, fun g hg => hfits.holds g (by rw [hp]; exact hg),
        fun g hg => hfits.opened g (by rw [hp]; exact hg), fun deps' hdeps => ?_,
        fun g dep' deps' hphase => (by cases hphase), fun hremoves => (by cases hremoves)⟩
      · obtain ⟨dir', hdir', hlock⟩ := hfits.needs g (by rw [hp]; exact hg)
        cases hdir.symm.trans hdir'
        exact ⟨_, rfl, hlock⟩
      · cases hdeps
        refine ⟨_, rfl, collected_next hcollected
          (fun e he => List.mem_append_left _ he) fun x hserved => ?_⟩
        have hfetched := hfits.fetched f dep deps hp x hserved
        rw [htar] at hfetched
        cases hfetched
        exact List.mem_append_right _ List.mem_cons_self
  | @extractRaises f dep deps tarball t d' hp htar hx =>
    obtain ⟨dir, hdir, hcollected⟩ := hfits.collected (dep :: deps) (by rw [hp]; rfl)
    obtain ⟨rfl, -⟩ | ⟨dir', x, hdir', rfl, -⟩ := extractTarball_cases hx
    · refine fits_unlock rfl rfl (by rw [hp]; rfl) hfits rfl rfl fun _ => ?_
      simp [Disk.srcExists, hdir, hcollected.1]
    · refine fits_unlock rfl rfl (by rw [hp]; rfl) hfits rfl rfl fun _ => ?_
      cases hdir.symm.trans hdir'
      simp [Disk.srcExists, TelemetrySrc.add, hcollected.1]
  | removes hp hg =>
    have hkeeps := rmtree_keeps hg
    exact fits_unlock rfl rfl (by rw [hp]; rfl) hfits hkeeps.locked hkeeps.opened fun _ =>
      hkeeps.src (hfits.removes (by rw [hp]; rfl))
  | removed hp hg =>
    have hkeeps := rmtree_keeps hg
    exact fits_unlock rfl rfl (by rw [hp]; rfl) hfits hkeeps.locked hkeeps.opened nofun
  | removeFails hp => exact fits_unlock rfl rfl (by rw [hp]; rfl) hfits rfl rfl nofun
  | noMore hp =>
    refine fits_loop hfits (by rw [hp]; rfl) (by rw [hp]; rfl) rfl rfl (fun deps hdeps => ?_)
      (fun g dep deps hphase => by cases hphase)
    cases hdeps
    exact hfits.collected [] (by rw [hp]; rfl)
  | moved hp hm =>
    obtain ⟨dir, hdir, hcollected⟩ := hfits.collected [] (by rw [hp]; rfl)
    obtain ⟨tree, -, rfl⟩ := moveTestSrc_ok hdir hcollected.1 hm
    exact fits_unlock rfl rfl (by rw [hp]; rfl) hfits rfl rfl nofun
  | moveFails hp => exact fits_unlock rfl rfl (by rw [hp]; rfl) hfits rfl rfl nofun
  | unlock => exact fits_outside rfl rfl

theorem diskFits_congr (hdisk : DiskFits server d) (hdir : d'.dir = d.dir)
    (hnext : d'.nextInode = d.nextInode) :
    DiskFits server d' where
  complete dir tree hdir' hsrc := hdisk.complete dir tree (hdir.symm.trans hdir') hsrc
  opened f dir hdir' := by
    rw [hnext]
    exact hdisk.opened f dir ⟨hdir.symm.trans hdir'.1, hdir'.2⟩

theorem diskFits_extract {tarball : Bytes} {t : TarRun} (hdisk : DiskFits server d)
    (hx : extractTarball d tarball t = some d') : DiskFits server d' := by
  obtain ⟨rfl, -⟩ | ⟨dir, x, hdir, rfl, -⟩ := extractTarball_cases hx
  · exact hdisk
  · refine ⟨fun dir' tree hdir' hsrc => ?_, fun f dir' hdir' => ?_⟩
    · cases hdir'
      exact hdisk.complete dir tree hdir hsrc
    · obtain ⟨hdir', hlock'⟩ := hdir'
      cases hdir'
      exact hdisk.opened f dir ⟨hdir, hlock'⟩

theorem diskFits_rmtree {g : Removal} (hdisk : DiskFits server d) (hmissing : d.srcExists = false)
    (hg : d.rmtree g = .ok d') : DiskFits server d' := by
  have hkeeps := rmtree_keeps hg
  refine ⟨fun dir tree hdir hsrc => ?_, fun f dir hdir => ?_⟩
  · have hthere : d'.srcExists = true := by simp [Disk.srcExists, hdir, hsrc]
    rw [hkeeps.src hmissing] at hthere
    cases hthere
  · obtain ⟨dir', hdir'⟩ := hkeeps.lock f dir hdir
    rw [hkeeps.opened]
    exact hdisk.opened f dir' hdir'

theorem diskFits_of_moves (hfits : InstanceFits server d p) (hdisk : DiskFits server d)
    (h : Moves p d ev p' d') :
    DiskFits server d' := by
  cases h with
  | mkDirP =>
    unfold Disk.mkDirP
    split
    · exact hdisk
    · refine ⟨fun dir tree hdir hsrc => ?_, fun f dir hdir => ?_⟩
      · cases hdir
        cases hsrc
      · obtain ⟨hdir, hlock⟩ := hdir
        cases hdir
        cases hlock
  | touchTimestamp => exact diskFits_congr hdisk rfl rfl
  | openLock hp hopen =>
    obtain ⟨dir, -, rfl⟩ | ⟨dir, hdir, hlock, rfl, rfl⟩ := openLock_cases hopen
    · exact hdisk
    · refine ⟨fun dir' tree hdir' hsrc => ?_, fun f dir' hdir' => ?_⟩
      · cases hdir'
        exact hdisk.complete dir tree hdir hsrc
      · obtain ⟨hdir', hlock'⟩ := hdir'
        cases hdir'
        cases hlock'
        exact Nat.lt_succ_self _
  | flock => exact diskFits_congr hdisk rfl rfl
  | extracted hp htar hx => exact diskFits_extract hdisk hx
  | extractRaises hp htar hx => exact diskFits_extract hdisk hx
  | removes hp hg => exact diskFits_rmtree hdisk (hfits.removes (by rw [hp]; rfl)) hg
  | removed hp hg => exact diskFits_rmtree hdisk (hfits.removes (by rw [hp]; rfl)) hg
  | moved hp hm =>
    obtain ⟨dir, hdir, hcollected⟩ := hfits.collected [] (by rw [hp]; rfl)
    obtain ⟨tree, htree, rfl⟩ := moveTestSrc_ok hdir hcollected.1 hm
    refine ⟨fun dir' tree' hdir' hsrc => ?_, fun f dir' hdir' => ?_⟩
    · cases hdir'
      cases hsrc
      intro dep hdep x hx
      have hmem := hcollected.2 dep hdep List.not_mem_nil x hx
      rw [htree] at hmem
      exact hmem
    · obtain ⟨hdir', hlock'⟩ := hdir'
      cases hdir'
      exact hdisk.opened f dir ⟨hdir, hlock'⟩
  | unlock => exact diskFits_congr hdisk rfl rfl
  | _ => exact hdisk

end Own

section Runs

variable {server : String → Option Bytes}

/-- A step locks, unlocks, or does neither. -/
theorem holds_of_moves {p p' : Instance} {d d' : Disk} {ev : Event} (h : Moves p d ev p' d') :
    (p'.phase.holds = p.phase.holds ∧ d'.locked = d.locked) ∨
      (∃ f, p.phase.holds = none ∧ p'.phase.holds = some f ∧ d.locked f = false ∧
        d' = d.setLocked f true) ∨
        ∃ f, p.phase.holds = some f ∧ p'.phase.holds = none ∧ d' = d.setLocked f false := by
  cases h with
  | @flock f hp hl => exact .inr (.inl ⟨f, by rw [hp]; rfl, rfl, hl, rfl⟩)
  | @unlock f outcome hp => exact .inr (.inr ⟨f, by rw [hp]; rfl, rfl, rfl⟩)
  | mkDirP hp =>
    refine .inl ⟨by rw [hp]; rfl, ?_⟩
    unfold Disk.mkDirP
    split <;> rfl
  | openLock hp hopen =>
    refine .inl ⟨by rw [hp]; rfl, ?_⟩
    obtain ⟨dir, -, rfl⟩ | ⟨dir, -, -, -, rfl⟩ := openLock_cases hopen <;> rfl
  | extracted hp htar hx | extractRaises hp htar hx =>
    refine .inl ⟨by rw [hp]; rfl, ?_⟩
    obtain ⟨rfl, -⟩ | ⟨dir, x, -, rfl, -⟩ := extractTarball_cases hx <;> rfl
  | removes hp hg | removed hp hg => exact .inl ⟨by rw [hp]; rfl, (rmtree_keeps hg).locked⟩
  | moved hp hm =>
    refine .inl ⟨by rw [hp]; rfl, ?_⟩
    unfold Disk.moveTestSrc at hm
    split at hm
    · cases hm
    · split at hm
      · cases hm
      · cases hm
        rfl
      · split at hm
        · cases hm
        · cases hm
          rfl
  | _ hp => exact .inl ⟨by rw [hp]; rfl, rfl⟩

/-- The others after the step of one. -/
theorem fits_others {c : Setups} {i j : Nat} {p p' q : Instance} {d' : Disk} {ev : Event}
    (hinv : Inv server c) (hstep : StepFits server c i ev) (hp : c.procs[i]? = some p)
    (hq : c.procs[j]? = some q) (hij : i ≠ j) (h : Moves p c.shared ev p' d') :
    InstanceFits server d' q := by
  cases hremoves : p.phase.removes with
  | true =>
    have hneeds : q.phase.needs = none := hinv.alone i j p q hij hp hq hremoves
    have hkeeps := fun g (hg : c.shared.rmtree g = .ok d') =>
      fits_of_removes (hinv.instances j q hq) hneeds (rmtree_keeps hg)
    cases h with
    | removes _ hg => exact hkeeps _ hg
    | removed _ hg => exact hkeeps _ hg
    | removeFails => exact hinv.instances j q hq
    | _ hp =>
      rw [hp] at hremoves
      cases hremoves
  | false =>
    exact fits_of_spares (hinv.instances i p hp) (hinv.instances j q hq)
      (spares_of_moves (hinv.instances i p hp) h hremoves) (fun f => hinv.apart i j p q f hij hp hq)
      (hinv.alone j i q p (Ne.symm hij) hq hp)

/-- Who needs the lock file after a step needed it before, or has just opened it. -/
theorem needs_of_moves {p p' : Instance} {d d' : Disk} {ev : Event} (h : Moves p d ev p' d')
    (hneeds : p'.phase.needs ≠ none) : p.phase.needs ≠ none ∨ p.phase = .openLock ∧ ev = .run := by
  cases h with
  | openLock hp => exact .inr ⟨hp, rfl⟩
  | flock hp | srcMissing hp | downloaded hp | noTarball hp | extracted hp | noMore hp =>
    rw [hp]
    exact .inl (Option.some_ne_none _)
  | _ => exact absurd rfl hneeds

/-- Who removes the directory after a step was at it before, or tar has just raised. -/
theorem removes_of_moves {p p' : Instance} {d d' : Disk} {ev : Event} (h : Moves p d ev p' d')
    (hremoves : p'.phase.removes = true) :
    p.phase.removes = true ∨ ∃ wrote, ev = .tar (.raised wrote) := by
  cases h with
  | @extractRaises f dep deps tarball t d' hp htar hx hraises =>
    cases t with
    | raised wrote => exact .inr ⟨wrote, rfl⟩
    | exited => cases hraises
  | removes hp =>
    rw [hp]
    exact .inl rfl
  | _ => cases hremoves

theorem moveFits_of_stepFits {c : Setups} {i : Nat} {p : Instance} {ev : Event}
    (hp : c.procs[i]? = some p) (h : StepFits server c i ev) : MoveFits server p ev := by
  cases ev with
  | answer r => exact fun f dep deps hphase => h p f dep deps hp hphase
  | tar t =>
    cases t with
    | raised => trivial
    | exited code wrote => exact h
  | call => trivial
  | run => trivial
  | remove => trivial

theorem inv_step {c c' : Setups} {i : Nat} {ev : Event} (hinv : Inv server c)
    (hok : StepFits server c i ev) (hs : Interleave.Step SetupStep c i ev c') : Inv server c' := by
  cases hs with
  | mk hp hst =>
    rename_i p p' d'
    have hmoves := moves_of_step hst
    have hfits := hinv.instances i p hp
    have hown := fits_own hfits hinv.disk (moveFits_of_stepFits hp hok) hmoves
    have hself : (c.procs.set i p')[i]? = some p' :=
      List.getElem?_set_self (List.getElem?_eq_some_iff.mp hp).1
    -- what the moving one holds, no other holds
    have hnew : ∀ j q f, i ≠ j → c.procs[j]? = some q → p'.phase.holds = some f →
        q.phase.holds ≠ some f := by
      intro j q f hij hq hpf hqf
      obtain ⟨hsame, -⟩ | ⟨g, -, hg, hfree, -⟩ | ⟨g, -, hnone, -⟩ := holds_of_moves hmoves
      · exact hinv.apart i j p q f hij hp hq (hsame ▸ hpf) hqf
      · cases hg.symm.trans hpf
        have hlocked := (hinv.instances j q hq).holds f hqf
        rw [hfree] at hlocked
        cases hlocked
      · rw [hnone] at hpf
        cases hpf
    refine ⟨diskFits_of_moves hfits hinv.disk hmoves,
      fun j q hq => ?_, fun j k q r f hjk hq hr hqf => ?_,
      fun f hf => ?_, fun j k q r hjk hq hr hremoves => ?_⟩
    · obtain ⟨rfl, rfl⟩ | ⟨hij, hq'⟩ := procs_set_cases hp hq
      · exact hown
      · exact fits_others hinv hok hp hq' hij hmoves
    · obtain ⟨rfl, rfl⟩ | ⟨hij, hq'⟩ := procs_set_cases hp hq
      · obtain ⟨hik, -⟩ | ⟨hik, hr'⟩ := procs_set_cases hp hr
        · exact absurd hik hjk
        · exact hnew k r f hik hr' hqf
      · obtain ⟨rfl, rfl⟩ | ⟨hik, hr'⟩ := procs_set_cases hp hr
        · exact fun hrf => hnew j q f hij hq' hrf hqf
        · exact hinv.apart j k q r f hjk hq' hr' hqf
    · -- the lock that is held after the step
      have hkeep : ∀ j q, c.procs[j]? = some q → q.phase.holds = some f →
          (i = j → p'.phase.holds = some f) →
          ∃ (j : Nat) (q : Instance), (c.procs.set i p')[j]? = some q ∧ q.phase.holds = some f := by
        intro j q hq hqf hi
        by_cases hij : i = j
        · exact ⟨i, p', hself, hi hij⟩
        · exact ⟨j, q, by rw [List.getElem?_set_ne hij]; exact hq, hqf⟩
      obtain ⟨hsame, hlocked⟩ | ⟨g, hfree, hg, -, rfl⟩ | ⟨g, hg, -, rfl⟩ := holds_of_moves hmoves
      · obtain ⟨j, q, hq, hqf⟩ := hinv.locked f (by rw [← hlocked]; exact hf)
        refine hkeep j q hq hqf fun hij => ?_
        subst hij
        cases hp.symm.trans hq
        exact hsame.trans hqf
      · by_cases hfg : f = g
        · exact ⟨i, p', hself, hfg ▸ hg⟩
        · have hf' : Function.update c.shared.locked g true f = true := hf
          rw [Function.update_of_ne hfg] at hf'
          obtain ⟨j, q, hq, hqf⟩ := hinv.locked f hf'
          refine hkeep j q hq hqf fun hij => ?_
          subst hij
          cases hp.symm.trans hq
          rw [hfree] at hqf
          cases hqf
      · have hf' : Function.update c.shared.locked g false f = true := hf
        have hfg : f ≠ g := by
          rintro rfl
          rw [Function.update_self] at hf'
          cases hf'
        rw [Function.update_of_ne hfg] at hf'
        obtain ⟨j, q, hq, hqf⟩ := hinv.locked f hf'
        refine hkeep j q hq hqf fun hij => ?_
        subst hij
        cases hp.symm.trans hq
        exact absurd (Option.some.inj (hqf.symm.trans hg)) hfg
    · obtain ⟨rfl, rfl⟩ | ⟨hij, hq'⟩ := procs_set_cases hp hq
      · obtain ⟨hik, -⟩ | ⟨hik, hr'⟩ := procs_set_cases hp hr
        · exact absurd hik hjk
        · obtain hremoves | ⟨wrote, rfl⟩ := removes_of_moves hmoves hremoves
          · exact hinv.alone i k p r hik hp hr' hremoves
          · exact hok k r (Ne.symm hik) hr'
      · obtain ⟨rfl, rfl⟩ | ⟨hik, hr'⟩ := procs_set_cases hp hr
        · by_contra hneeds
          obtain hneeds | ⟨hopen, rfl⟩ := needs_of_moves hmoves hneeds
          · exact hneeds (hinv.alone j i q p hjk hq' hp hremoves)
          · have hnot := hok p hp hopen j q hjk hq'
            rw [hremoves] at hnot
            cases hnot
        · exact hinv.alone j k q r hjk hq' hr' hremoves

end Runs

end GsCache
