import DevUtil.Findmissing.UpstreamRun

/-!
# linux_stable and the schedule of updates

A run of `synchronize_databases` brings `linux_upstream` up to date and then
`linux_stable`.  A stable commit is offered once: the stored tip moves past it
even when its INSERT is rejected because the upstream commit is not there yet.

So the table depends on the schedule: it is the one of a single run over
everything if the runs get over every commit and the first run that shows a
stable commit shows the upstream commit it names, too, and only then unless a
line of the log begins with a name in the middle of a description
(`scheduleIndependent_iff`).

* `Seen`: what the database has and where its tips stand after a run.
* `runs_ok`: the rows that a whole schedule stores.
-/

namespace Findmissing

open Lib

/-! ## Schedules -/

/-- The two clones, of whose histories the runs see more and more. -/
structure Timeline where
  branch : Branch
  upstream : Clone
  stable : Clone
  upstream_base : upstream.history.base = UPSTREAM_START_BRANCH
  stable_base : stable.history.base = versionTag branch

/-- How many commits of each a run sees. -/
structure Visible where
  upstream : Nat
  stable : Nat

def Visible.le (v w : Visible) : Prop := v.upstream ≤ w.upstream ∧ v.stable ≤ w.stable

section

variable (conn : Connection) (git : Git) (tl : Timeline)

/-- One run: first `linux_upstream`, then `linux_stable`. -/
def synchronize (v : Visible) (db : DB) : Except UpdateExn DB :=
  match updateUpstreamDb conn git (tl.upstream.take v.upstream) db with
  | .error e => .error e
  | .ok db => updateStableDb conn git (fun _ => tl.stable.take v.stable) [tl.branch] db

def runs : List Visible → DB → Except UpdateExn DB
  | [], db => .ok db
  | v :: vs, db =>
    match synchronize conn git tl v db with
    | .error e => .error e
    | .ok db => runs vs db

end

namespace Timeline

/-- Everything is visible. -/
def everything (tl : Timeline) : Visible :=
  ⟨tl.upstream.history.items.length, tl.stable.history.items.length⟩

/-- Nothing gets hidden again, and the last run sees everything. -/
structure Complete (tl : Timeline) (sched : List Visible) : Prop where
  pairwise : sched.Pairwise Visible.le
  last : ∃ v ∈ sched.getLast?, tl.everything.le v

/-- The loops get over every commit. -/
structure Fine (conn : Connection) (git : Git) (tl : Timeline) : Prop where
  upstream : ∀ c ∈ tl.upstream.history.items, c.UpstreamFine conn git
  stable : ∀ c ∈ tl.stable.history.items, c.merge = false → c.StableFine conn

/-- No line that a description goes on in begins with a name. -/
structure NoNames (tl : Timeline) : Prop where
  upstream : tl.upstream.NoNames tl.upstream.history.items
  stable : tl.stable.NoNames (tl.stable.history.items.filter fun c => !c.merge)

/-- The shas of `linux_upstream` once `n` commits are visible. -/
def upstreamShas (conn : Connection) (tl : Timeline) (n : Nat) : List Sha :=
  ((tl.upstream.history.items.take n).filter fun c => !c.merge && conn.encodes c.title).map
    Commit.sha

def shows (tl : Timeline) (c : Commit) (v : Visible) : Bool :=
  decide (c.sha ∈ (tl.stable.history.items.take v.stable).map Commit.sha)

/-- The first run that shows a stable commit shows the upstream commit it names, if that is ever
there. -/
def UpstreamFirst (conn : Connection) (tl : Timeline) (sched : List Visible) : Prop :=
  ∀ c ∈ tl.stable.history.items, c.merge = false → ∀ usha ∈ searchUpstreamSha c.message,
    usha ∈ tl.upstreamShas conn tl.upstream.history.items.length →
      ∀ v ∈ sched.find? (tl.shows c), usha ∈ tl.upstreamShas conn v.upstream

instance (conn : Connection) (tl : Timeline) (sched : List Visible) :
    Decidable (tl.UpstreamFirst conn sched) :=
  inferInstanceAs (Decidable (∀ c ∈ tl.stable.history.items, c.merge = false →
    ∀ usha ∈ searchUpstreamSha c.message,
      usha ∈ tl.upstreamShas conn tl.upstream.history.items.length →
        ∀ v ∈ sched.find? (tl.shows c), usha ∈ tl.upstreamShas conn v.upstream))

end Timeline

/-- No run raises, and the table after the schedule is the one after a single run and has exactly
the commits that name a sha of `linux_upstream`. -/
def ScheduleIndependent (conn : Connection) (git : Git) (tl : Timeline) (sched : List Visible) :
    Prop :=
  ∃ db db₁, runs conn git tl sched .empty = .ok db ∧
    runs conn git tl [tl.everything] .empty = .ok db₁ ∧ db.linuxStable = db₁.linuxStable ∧
    db.linuxStable.rows = (tl.stable.history.items.filter fun c => !c.merge).filterMap
      (storedRow git tl.branch db.inLinuxUpstream)

/-! ## One run -/

/-- The rows for `commits` when `n` upstream commits are visible. -/
def Timeline.stored (conn : Connection) (git : Git) (tl : Timeline) (n : Nat)
    (commits : List Commit) :
    List StableRow :=
  (commits.filter fun c => !c.merge).filterMap
    (storedRow git tl.branch fun sha => decide (sha ∈ tl.upstreamShas conn n))

structure Seen (conn : Connection) (git : Git) (tl : Timeline) (v : Visible) (db : DB) : Prop where
  upstream : db.linuxUpstream.rows = ((tl.upstream.history.items.take v.upstream).filter fun c =>
    !c.merge && conn.encodes c.title).map fun c => upstreamRow git c.entry
  stable : ∀ sha ∈ db.linuxStable.rows.map StableRow.sha,
    ∃ c ∈ tl.stable.history.items.take v.stable, c.sha = sha
  upstreamTip : tl.upstream.history.Tip (fun _ => true) v.upstream db.upstreamStart
  stableTip : tl.stable.history.Tip (fun c => !c.merge) v.stable
    ((db.shaTip .linuxStable tl.branch).getD (versionTag tl.branch))
  upstreamTip_ne : db.upstreamTip ≠ some ""
  stableTip_ne : db.shaTip .linuxStable tl.branch ≠ some ""

variable {conn : Connection} {git : Git} {tl : Timeline}

theorem Seen.empty (conn : Connection) (git : Git) (tl : Timeline) :
    Seen conn git tl ⟨0, 0⟩ .empty where
  upstream := rfl
  stable _ h := (nomatch h)
  upstreamTip := by
    show tl.upstream.history.Tip _ 0 UPSTREAM_START_BRANCH
    rw [← tl.upstream_base]
    exact Feed.Tip.base tl.upstream.history _
  stableTip := tl.stable_base ▸ Feed.Tip.base tl.stable.history _
  upstreamTip_ne := by decide
  stableTip_ne := by simp [DB.empty, DB.shaTip, Table.lookup]

theorem versionTag_ne (branch : Branch) : versionTag branch ≠ "" := by
  unfold versionTag
  intro h
  have := congrArg String.length h
  simp at this

theorem getD_ne {tip : Option Sha} {tag : Sha} (h : tip ≠ some "") (htag : tag ≠ "") :
    tip.getD tag ≠ "" := by
  cases tip with
  | none => exact htag
  | some tip => exact fun he => h (congrArg some he)

/-- What `linux_upstream` has is what is visible. -/
theorem Seen.inLinuxUpstream {v : Visible} {db : DB} (h : Seen conn git tl v db) :
    db.inLinuxUpstream = fun sha => decide (sha ∈ tl.upstreamShas conn v.upstream) := by
  funext sha
  rw [Bool.eq_iff_iff, inLinuxUpstream_eq_true, decide_eq_true_iff, h.upstream, List.map_map]
  rfl

/-- What becomes visible with `w`. -/
def Timeline.newUpstream (tl : Timeline) (v w : Visible) : List Commit :=
  (tl.upstream.history.items.take w.upstream).drop v.upstream

def Timeline.newStable (tl : Timeline) (v w : Visible) : List Commit :=
  ((tl.stable.history.items.take w.stable).drop v.stable).filter fun c => !c.merge

/-- The commits that the next run goes over. -/
theorem Seen.offered {v w : Visible} {db : DB} (h : Seen conn git tl v db) (hvw : v.le w) :
    (tl.upstream.take w.upstream).history.after db.upstreamStart = some (tl.newUpstream v w) ∧
      (∀ c ∈ tl.newUpstream v w, c.sha ∉ db.linuxUpstream.rows.map UpstreamRow.sha) ∧
      (∃ picked, (tl.stable.take w.stable).history.after
          ((db.shaTip .linuxStable tl.branch).getD (versionTag tl.branch)) = some picked ∧
        (picked.filter fun c => !c.merge) = tl.newStable v w) ∧
      ∀ c ∈ tl.newStable v w, c.sha ∉ db.linuxStable.rows.map StableRow.sha := by
  obtain ⟨commits, hlog, hcommits⟩ := h.upstreamTip w.upstream hvw.1
  rw [List.filter_true, List.filter_true] at hcommits
  refine ⟨?_, ?_, h.stableTip w.stable hvw.2, ?_⟩
  · unfold Timeline.newUpstream
    rw [← hcommits]
    exact hlog
  · intro c hc hmem
    rw [h.upstream, List.map_map] at hmem
    obtain ⟨c', hc', hsha⟩ := List.mem_map.mp hmem
    exact Feed.id_ne_of_mem_drop hc (List.mem_of_mem_filter hc') hsha.symm
  · intro c hc hmem
    obtain ⟨c', hc', hsha⟩ := h.stable _ hmem
    exact Feed.id_ne_of_mem_drop (List.mem_of_mem_filter hc) hc' hsha.symm

/-- What the first half of a run does. -/
theorem Seen.updateUpstream {v w : Visible} {db : DB} (h : Seen conn git tl v db) (hvw : v.le w)
    (hfine : ∀ c ∈ tl.newUpstream v w, c.UpstreamFine conn git) :
    ∃ db₁, updateUpstreamDb conn git (tl.upstream.take w.upstream) db = .ok db₁ ∧
      db₁.linuxUpstream.rows = ((tl.upstream.history.items.take w.upstream).filter fun c =>
        !c.merge && conn.encodes c.title).map (fun c => upstreamRow git c.entry) ∧
      db₁.linuxStable = db.linuxStable ∧
      ∀ p b, db₁.shaTip p b = if (Kernel.linuxUpstream, UPSTREAM_START_BRANCH) = (p, b) then
        some (Feed.nextTip Commit.sha db.upstreamStart (tl.newUpstream v w))
          else db.shaTip p b := by
  obtain ⟨hlog, hnew, -⟩ := h.offered hvw
  have hread : Readable conn git db.linuxUpstream ((tl.newUpstream v w).map Commit.entry) :=
    (readable_iff (nodup_of_after hlog)).mpr fun c hc _ => (hfine c hc).encodable
  obtain ⟨db₁, hrun, htable, -, hsame, -, htip⟩ := updateUpstreamDb_ok h.upstreamTip_ne hlog
    (fun c hc => (hfine c hc).oneLine) hread
  refine ⟨db₁, hrun, ?_, hsame, htip⟩
  have hall := Feed.drop_take_append tl.upstream.history.items (Nat.zero_le v.upstream) hvw.1
  rw [List.drop_zero, List.drop_zero] at hall
  rw [htable, rows_storeRows_entries (nodup_of_after hlog) hnew, h.upstream, ← List.map_append,
    ← List.filter_append]
  unfold Timeline.newUpstream
  rw [hall]

/-- A run that gets over the new commits stores those that name a sha visible in it. -/
theorem Seen.synchronize {v w : Visible} {db : DB} (h : Seen conn git tl v db) (hvw : v.le w)
    (hup : ∀ c ∈ tl.newUpstream v w, c.UpstreamFine conn git)
    (hst : ∀ c ∈ tl.newStable v w, c.StableFine conn) :
    ∃ db', synchronize conn git tl w db = .ok db' ∧ Seen conn git tl w db' ∧ db'.linuxStable.rows =
      db.linuxStable.rows ++
        tl.stored conn git w.upstream ((tl.stable.history.items.take w.stable).drop v.stable) := by
  obtain ⟨db₁, hrun₁, hrows₁, hsame₁, htip₁⟩ := h.updateUpstream hvw hup
  obtain ⟨-, -, ⟨picked, hlog, hpicked⟩, hnew⟩ := h.offered hvw
  have hother : db₁.shaTip .linuxStable tl.branch = db.shaTip .linuxStable tl.branch := by
    rw [htip₁, if_neg (by simp)]
  obtain ⟨db₂, hrun₂, hsame₂, hrows₂, htip₂⟩ := @updateStableDb_ok conn git
    (fun _ => tl.stable.take w.stable) _ _ _ _ (hother ▸ h.stableTip_ne) rfl (hother ▸ hlog)
    (hpicked.symm ▸ hst) (by rw [hpicked, hsame₁]; exact hnew)
  have hin : db₁.inLinuxUpstream = fun sha => decide (sha ∈ tl.upstreamShas conn w.upstream) := by
    funext sha
    rw [Bool.eq_iff_iff, inLinuxUpstream_eq_true, decide_eq_true_iff, hrows₁, List.map_map]
    rfl
  have hstored : db₂.linuxStable.rows = db.linuxStable.rows ++
      tl.stored conn git w.upstream ((tl.stable.history.items.take w.stable).drop v.stable) := by
    rw [hrows₂, hsame₁, hpicked, hin]
    rfl
  have hupTip : db₂.upstreamTip =
      some (Feed.nextTip Commit.sha db.upstreamStart (tl.newUpstream v w)) := by
    show db₂.shaTip _ _ = _
    rw [htip₂, if_neg (by simp), htip₁, if_pos rfl]
  have hstTip : db₂.shaTip .linuxStable tl.branch = some (Feed.nextTip Commit.sha
      ((db.shaTip .linuxStable tl.branch).getD (versionTag tl.branch)) (tl.newStable v w)) := by
    rw [htip₂, if_pos rfl, hother, hpicked]
  refine ⟨db₂, ?_, ⟨?_, ?_, ?_, ?_, ?_, ?_⟩, hstored⟩
  · unfold Findmissing.synchronize
    rw [hrun₁]
    exact hrun₂
  · rw [hsame₂, hrows₁]
  · intro sha hsha
    rw [hstored, List.map_append] at hsha
    rcases List.mem_append.mp hsha with hsha | hsha
    · obtain ⟨c, hc, rfl⟩ := h.stable sha hsha
      exact ⟨c, (List.take_subset_take_left _ hvw.2) hc, rfl⟩
    · obtain ⟨r, hr, rfl⟩ := List.mem_map.mp hsha
      obtain ⟨c, hc, hrow⟩ := List.mem_filterMap.mp hr
      exact ⟨c, List.mem_of_mem_drop (List.mem_of_mem_filter hc), (storedRow_sha hrow).symm⟩
  · unfold DB.upstreamStart
    rw [hupTip, Option.getD_some]
    have hfetch := h.upstreamTip.fetch hvw.1
    rwa [List.filter_true] at hfetch
  · rw [hstTip, Option.getD_some]
    exact h.stableTip.fetch hvw.2
  · rw [hupTip]
    exact fun he => nextTip_ne (getD_ne h.upstreamTip_ne (by decide)) _ (Option.some.inj he)
  · rw [hstTip]
    exact fun he => nextTip_ne (getD_ne h.stableTip_ne (versionTag_ne _)) _ (Option.some.inj he)

/-- A run that does not raise has got over the new commits. -/
theorem Seen.fine {v w : Visible} {db db' : DB} (h : Seen conn git tl v db) (hvw : v.le w)
    (hnames : tl.NoNames) (hrun : Findmissing.synchronize conn git tl w db = .ok db') :
    (∀ c ∈ tl.newUpstream v w, c.UpstreamFine conn git) ∧
      ∀ c ∈ tl.newStable v w, c.StableFine conn := by
  obtain ⟨hlog, hnew, ⟨picked, hlog', hpicked⟩, hnew'⟩ := h.offered hvw
  unfold Findmissing.synchronize at hrun
  split at hrun
  · cases hrun
  · next db₁ hrun₁ =>
    have hup : ∀ c ∈ tl.newUpstream v w, c.UpstreamFine conn git := by
      refine updateUpstreamDb_fine h.upstreamTip_ne hlog (fun c hc => ?_) hnew hrun₁
      exact hnames.upstream c (List.mem_of_mem_take (List.mem_of_mem_drop hc))
    refine ⟨hup, ?_⟩
    obtain ⟨db₁', hrun₁', -, hsame₁, htip₁⟩ := h.updateUpstream hvw hup
    cases hrun₁.symm.trans hrun₁'
    have hother : db₁.shaTip .linuxStable tl.branch = db.shaTip .linuxStable tl.branch := by
      rw [htip₁, if_neg (by simp)]
    rw [← hpicked]
    refine updateStableDb_fine (r := fun _ => tl.stable.take w.stable) (hother ▸ h.stableTip_ne) rfl
      (hother ▸ hlog') ?_ ?_ ?_ hrun
    · intro c hc
      obtain ⟨hc, hmerge⟩ := List.mem_filter.mp (hpicked ▸ hc)
      exact hnames.stable c
        (List.mem_filter.mpr ⟨List.mem_of_mem_take (List.mem_of_mem_drop hc), hmerge⟩)
    · rw [hpicked, hsame₁]
      exact hnew'
    · intro sha hsha
      rw [hsame₁] at hsha
      obtain ⟨c, hc, rfl⟩ := h.stable sha hsha
      show tl.stable.find c.sha ≠ none
      rw [tl.stable.find_sha c (List.mem_of_mem_take hc)]
      exact Option.some_ne_none c

/-! ## All runs -/

/-- The rows that a schedule stores when `n` stable commits have been seen before. -/
def Timeline.storedRuns (conn : Connection) (git : Git) (tl : Timeline) :
    Nat → List Visible → List StableRow
  | _, [] => []
  | n, v :: vs => tl.stored conn git v.upstream ((tl.stable.history.items.take v.stable).drop n) ++
    tl.storedRuns conn git v.stable vs

/-- What the last run of a schedule sees, `v` if there is none. -/
def lastVisible (v : Visible) (sched : List Visible) : Visible := sched.getLast?.getD v

theorem lastVisible_cons (v w : Visible) (ws : List Visible) :
    lastVisible v (w :: ws) = lastVisible w ws := by
  unfold lastVisible
  rw [List.getLast?_cons]
  rfl

theorem le_lastVisible {v : Visible} {sched : List Visible} (h : (v :: sched).Pairwise Visible.le) :
    v.le (lastVisible v sched) := by
  unfold lastVisible
  cases hlast : sched.getLast? with
  | none => exact ⟨Nat.le_refl _, Nat.le_refl _⟩
  | some w => exact (List.pairwise_cons.mp h).1 w (List.mem_of_getLast? hlast)

theorem Timeline.Fine.newUpstream (h : tl.Fine conn git) (v w : Visible) :
    ∀ c ∈ tl.newUpstream v w, c.UpstreamFine conn git :=
  fun c hc => h.upstream c (List.mem_of_mem_take (List.mem_of_mem_drop hc))

theorem Timeline.Fine.newStable (h : tl.Fine conn git) (v w : Visible) :
    ∀ c ∈ tl.newStable v w, c.StableFine conn := by
  intro c hc
  obtain ⟨hc, hmerge⟩ := List.mem_filter.mp hc
  exact h.stable c (List.mem_of_mem_take (List.mem_of_mem_drop hc)) (by simpa using hmerge)

theorem Seen.runs {v : Visible} {db : DB} (h : Seen conn git tl v db) (hfine : tl.Fine conn git)
    {sched : List Visible} (hsched : (v :: sched).Pairwise Visible.le) :
    ∃ db', runs conn git tl sched db = .ok db' ∧ Seen conn git tl (lastVisible v sched) db' ∧
      db'.linuxStable.rows = db.linuxStable.rows ++ tl.storedRuns conn git v.stable sched := by
  induction sched generalizing v db with
  | nil => exact ⟨db, rfl, h, (List.append_nil _).symm⟩
  | cons w ws ih =>
    obtain ⟨hv, hws⟩ := List.pairwise_cons.mp hsched
    obtain ⟨db₁, hrun, hseen, hrows⟩ := h.synchronize (hv w List.mem_cons_self)
      (hfine.newUpstream v w) (hfine.newStable v w)
    obtain ⟨db₂, hruns, hseen₂, hrows₂⟩ := ih hseen hws
    refine ⟨db₂, ?_, ?_, ?_⟩
    · unfold Findmissing.runs
      rw [hrun]
      exact hruns
    · rw [lastVisible_cons]
      exact hseen₂
    · rw [hrows₂, hrows, List.append_assoc]
      rfl

/-- Runs that do not raise have got over everything that was new in them. -/
theorem Seen.fine_of_runs {v : Visible} {db db' : DB} (h : Seen conn git tl v db)
    (hnames : tl.NoNames) {sched : List Visible} (hsched : (v :: sched).Pairwise Visible.le)
    (hruns : Findmissing.runs conn git tl sched db = .ok db') :
    (∀ c ∈ tl.newUpstream v (lastVisible v sched), c.UpstreamFine conn git) ∧
      ∀ c ∈ tl.newStable v (lastVisible v sched), c.StableFine conn := by
  induction sched generalizing v db with
  | nil =>
    have hup : tl.newUpstream v v = [] := List.drop_eq_nil_of_le (List.length_take_le _ _)
    have hst : (tl.stable.history.items.take v.stable).drop v.stable = [] :=
      List.drop_eq_nil_of_le (List.length_take_le _ _)
    show (∀ c ∈ tl.newUpstream v v, _) ∧ ∀ c ∈ tl.newStable v v, _
    unfold Timeline.newStable
    rw [hup, hst]
    exact ⟨fun c hc => (by cases hc), fun c hc => (by cases hc)⟩
  | cons w ws ih =>
    obtain ⟨hv, hws⟩ := List.pairwise_cons.mp hsched
    have hvw := hv w List.mem_cons_self
    unfold Findmissing.runs at hruns
    split at hruns
    · cases hruns
    · next db₁ hrun =>
      obtain ⟨hup, hst⟩ := h.fine hvw hnames hrun
      obtain ⟨db₁', hrun', hseen, -⟩ := h.synchronize hvw hup hst
      cases hrun.symm.trans hrun'
      obtain ⟨hups, hsts⟩ := ih hseen hws hruns
      have hle := le_lastVisible hws
      rw [lastVisible_cons]
      constructor
      · intro c hc
        unfold Timeline.newUpstream at hc
        rw [← Feed.drop_take_append _ hvw.1 hle.1] at hc
        exact (List.mem_append.mp hc).elim (hup c) (hups c)
      · intro c hc
        unfold Timeline.newStable at hc
        rw [← Feed.drop_take_append _ hvw.2 hle.2, List.filter_append] at hc
        exact (List.mem_append.mp hc).elim (hst c) (hsts c)

/-! ## First shown -/

theorem shows_iff {c : Commit} (hc : c ∈ tl.stable.history.items) {v : Visible} :
    tl.shows c v = true ↔ c ∈ tl.stable.history.items.take v.stable := by
  unfold Timeline.shows
  rw [decide_eq_true_iff]
  constructor
  · intro h
    obtain ⟨c', hc', hsha⟩ := List.mem_map.mp h
    rwa [← Feed.eq_of_id (List.mem_of_mem_take hc') hc hsha]
  · exact List.mem_map_of_mem

/-- What comes later is not shown yet. -/
theorem shows_eq_false {c : Commit} {v : Visible} (hc : c ∈ tl.stable.history.items.drop v.stable) :
    tl.shows c v = false := by
  rw [Bool.eq_false_iff, ne_eq, shows_iff (List.mem_of_mem_drop hc)]
  intro htake
  rw [← List.take_length (l := tl.stable.history.items)] at hc
  exact Feed.id_ne_of_mem_drop hc htake rfl

/-- A stored row is one that the first run showing its commit accepts. -/
theorem of_mem_storedRuns {r : StableRow} {v : Visible} {sched : List Visible}
    (hsched : (v :: sched).Pairwise Visible.le) (hr : r ∈ tl.storedRuns conn git v.stable sched) :
    ∃ c ∈ tl.stable.history.items.drop v.stable, ∃ w, sched.find? (tl.shows c) = some w ∧
      storedRow git tl.branch (fun sha => decide (sha ∈ tl.upstreamShas conn w.upstream)) c =
        some r := by
  induction sched generalizing v with
  | nil => cases hr
  | cons w ws ih =>
    obtain ⟨hv, hws⟩ := List.pairwise_cons.mp hsched
    rcases List.mem_append.mp hr with hr | hr
    · obtain ⟨c, hc, hrow⟩ := List.mem_filterMap.mp hr
      have hc' := List.mem_of_mem_filter hc
      have htake : c ∈ tl.stable.history.items.take w.stable := List.mem_of_mem_drop hc'
      refine ⟨c, ((List.take_sublist _ _).drop _).subset hc', w, ?_, hrow⟩
      exact List.find?_cons_of_pos ((shows_iff (List.mem_of_mem_take htake)).mpr htake)
    · obtain ⟨c, hc, x, hfind, hrow⟩ := ih hws hr
      refine ⟨c, ?_, x, ?_, hrow⟩
      · exact (List.drop_subset_drop_left _ (hv w List.mem_cons_self).2) hc
      · rw [List.find?_cons_of_neg (by rw [shows_eq_false hc]; exact Bool.false_ne_true), hfind]

theorem upstreamShas_mono {n m : Nat} (h : n ≤ m) {sha : Sha}
    (hsha : sha ∈ tl.upstreamShas conn n) :
    sha ∈ tl.upstreamShas conn m :=
  ((((List.take_prefix_take_left h).sublist.filter _)).map _).subset hsha

theorem upstreamShas_of_length_le {n : Nat} (h : tl.upstream.history.items.length ≤ n) :
    tl.upstreamShas conn n = tl.upstreamShas conn tl.upstream.history.items.length := by
  unfold Timeline.upstreamShas
  rw [List.take_of_length_le h, List.take_length]

theorem upstreamShas_mono_length {n : Nat} {sha : Sha} (hsha : sha ∈ tl.upstreamShas conn n) :
    sha ∈ tl.upstreamShas conn tl.upstream.history.items.length := by
  rcases Nat.le_total n tl.upstream.history.items.length with h | h
  · exact upstreamShas_mono h hsha
  · rwa [← upstreamShas_of_length_le h]

theorem stored_append (n : Nat) (cs cs' : List Commit) :
    tl.stored conn git n (cs ++ cs') = tl.stored conn git n cs ++ tl.stored conn git n cs' := by
  unfold Timeline.stored
  rw [List.filter_append, List.filterMap_append]

/-- If the upstream commits come first, no row is lost. -/
theorem storedRuns_eq {v : Visible} {sched : List Visible}
    (hsched : (v :: sched).Pairwise Visible.le)
    (hfirst : ∀ c ∈ tl.stable.history.items.drop v.stable, c.merge = false →
      ∀ usha ∈ searchUpstreamSha c.message,
        usha ∈ tl.upstreamShas conn tl.upstream.history.items.length →
          ∀ w ∈ sched.find? (tl.shows c), usha ∈ tl.upstreamShas conn w.upstream) :
    tl.storedRuns conn git v.stable sched = tl.stored conn git tl.upstream.history.items.length
      ((tl.stable.history.items.take (lastVisible v sched).stable).drop v.stable) := by
  induction sched generalizing v with
  | nil =>
    have hnil : (tl.stable.history.items.take v.stable).drop v.stable = [] :=
      List.drop_eq_nil_of_le (List.length_take_le _ _)
    show [] = tl.stored conn git _ ((tl.stable.history.items.take v.stable).drop v.stable)
    rw [hnil]
    rfl
  | cons w ws ih =>
    obtain ⟨hv, hws⟩ := List.pairwise_cons.mp hsched
    have hvw := (hv w List.mem_cons_self).2
    have hchunk : tl.stored conn git w.upstream
      ((tl.stable.history.items.take w.stable).drop v.stable) =
        tl.stored conn git tl.upstream.history.items.length
            ((tl.stable.history.items.take w.stable).drop v.stable) := by
      apply List.filterMap_congr
      intro c hc
      have hmerge : c.merge = false := by simpa using (List.mem_filter.mp hc).2
      have hc' := List.mem_of_mem_filter hc
      have htake : c ∈ tl.stable.history.items.take w.stable := List.mem_of_mem_drop hc'
      have hfind : (w :: ws).find? (tl.shows c) = some w :=
        List.find?_cons_of_pos ((shows_iff (List.mem_of_mem_take htake)).mpr htake)
      apply Option.ext
      intro r
      rw [storedRow_eq_some, storedRow_eq_some]
      simp only [decide_eq_true_eq]
      constructor
      · rintro ⟨usha, hsearch, hin, hr⟩
        exact ⟨usha, hsearch, upstreamShas_mono_length hin, hr⟩
      · rintro ⟨usha, hsearch, hin, hr⟩
        exact ⟨usha, hsearch, hfirst c (((List.take_sublist _ _).drop _).subset hc') hmerge usha
          hsearch hin w hfind, hr⟩
    have hrest := ih hws fun c hc hmerge usha hsearch hin x hx => by
      refine hfirst c (List.drop_subset_drop_left _ hvw hc) hmerge usha hsearch hin x ?_
      rwa [List.find?_cons_of_neg (by rw [shows_eq_false hc]; exact Bool.false_ne_true)]
    rw [lastVisible_cons, ← Feed.drop_take_append _ hvw (le_lastVisible hws).2,
      stored_append, ← hrest, ← hchunk]
    rfl

/-! ## When the schedule does not matter -/

theorem Timeline.Complete.from_start {sched : List Visible} (h : tl.Complete sched) :
    (⟨0, 0⟩ :: sched).Pairwise Visible.le :=
  List.pairwise_cons.mpr ⟨fun _ _ => ⟨Nat.zero_le _, Nat.zero_le _⟩, h.pairwise⟩

theorem Timeline.Complete.le_lastVisible {sched : List Visible} (h : tl.Complete sched) :
    tl.everything.le (lastVisible ⟨0, 0⟩ sched) := by
  obtain ⟨v, hv, hlast⟩ := h.last
  unfold lastVisible
  rw [Option.mem_def.mp hv]
  exact hlast

theorem runs_ok (hfine : tl.Fine conn git) {sched : List Visible} (h : tl.Complete sched) :
    ∃ db, runs conn git tl sched .empty = .ok db ∧
      db.linuxStable.rows = tl.storedRuns conn git 0 sched ∧ db.inLinuxUpstream = fun sha =>
        decide (sha ∈ tl.upstreamShas conn tl.upstream.history.items.length) := by
  obtain ⟨db, hruns, hseen, hrows⟩ := (Seen.empty conn git tl).runs hfine h.from_start
  refine ⟨db, hruns, hrows, ?_⟩
  rw [hseen.inLinuxUpstream, upstreamShas_of_length_le h.le_lastVisible.1]

/-- Where no name hides in a description, runs that do not raise have got over every commit. -/
theorem fine_of_runs (hnames : tl.NoNames) {sched : List Visible} (h : tl.Complete sched) {db : DB}
    (hruns : runs conn git tl sched .empty = .ok db) : tl.Fine conn git := by
  obtain ⟨hup, hst⟩ := (Seen.empty conn git tl).fine_of_runs hnames h.from_start hruns
  have hle := h.le_lastVisible
  unfold Timeline.newUpstream at hup
  unfold Timeline.newStable at hst
  rw [List.take_of_length_le hle.1] at hup
  rw [List.take_of_length_le hle.2] at hst
  exact ⟨hup, fun c hc hmerge => hst c (List.mem_filter.mpr ⟨hc, by simp [hmerge]⟩)⟩

theorem everything_complete (tl : Timeline) : tl.Complete [tl.everything] :=
  ⟨List.pairwise_singleton _ _, tl.everything, rfl, Nat.le_refl _, Nat.le_refl _⟩

/-- A single run stores every commit that names a sha of `linux_upstream`. -/
theorem storedRuns_everything (conn : Connection) (git : Git) (tl : Timeline) :
    tl.storedRuns conn git 0 [tl.everything] =
      tl.stored conn git tl.upstream.history.items.length tl.stable.history.items := by
  show tl.stored conn git _
    ((tl.stable.history.items.take tl.stable.history.items.length).drop 0) ++ [] = _
  rw [List.append_nil, List.drop_zero, List.take_length]
  rfl

theorem scheduleIndependent_iff_storedRuns (hfine : tl.Fine conn git) {sched : List Visible}
    (h : tl.Complete sched) : ScheduleIndependent conn git tl sched ↔
      tl.storedRuns conn git 0 sched =
        tl.stored conn git tl.upstream.history.items.length tl.stable.history.items := by
  obtain ⟨db, hruns, hrows, hin⟩ := runs_ok hfine h
  obtain ⟨db₁, hruns₁, hrows₁, -⟩ := runs_ok hfine (everything_complete tl)
  rw [storedRuns_everything] at hrows₁
  constructor
  · rintro ⟨db', db₁', hruns', hruns₁', hsame, -⟩
    cases hruns.symm.trans hruns'
    cases hruns₁.symm.trans hruns₁'
    rw [← hrows, hsame, hrows₁]
  · intro heq
    refine ⟨db, db₁, hruns, hruns₁, ?_, ?_⟩
    · apply Table.ext_rows
      rw [hrows, heq, hrows₁]
    · rw [hrows, heq, hin]
      rfl

theorem upstreamFirst_of_independent (hfine : tl.Fine conn git) {sched : List Visible}
    (h : tl.Complete sched) (hind : ScheduleIndependent conn git tl sched) :
    tl.UpstreamFirst conn sched := by
  intro c hc hmerge usha hsearch hfull v hfind
  rw [scheduleIndependent_iff_storedRuns hfine h] at hind
  have hrow : storedRow git tl.branch (fun sha => decide
      (sha ∈ tl.upstreamShas conn tl.upstream.history.items.length)) c =
      some (stableRow git tl.branch c.entry usha) :=
    storedRow_eq_some.mpr ⟨usha, hsearch, decide_eq_true hfull, rfl⟩
  have hmem : stableRow git tl.branch c.entry usha ∈ tl.storedRuns conn git 0 sched := by
    rw [hind]
    exact List.mem_filterMap.mpr ⟨c, List.mem_filter.mpr ⟨hc, by simp [hmerge]⟩, hrow⟩
  obtain ⟨c', hc', w, hfind', hrow'⟩ := of_mem_storedRuns h.from_start hmem
  have hcc : c = c' := Feed.eq_of_id hc (List.mem_of_mem_drop hc') (storedRow_sha hrow')
  subst hcc
  cases (Option.mem_def.mp hfind).symm.trans hfind'
  obtain ⟨usha', hsearch', hin, -⟩ := storedRow_eq_some.mp hrow'
  cases (Option.mem_def.mp hsearch).symm.trans hsearch'
  exact of_decide_eq_true hin

theorem independent_of_upstreamFirst (hfine : tl.Fine conn git) {sched : List Visible}
    (h : tl.Complete sched) (hfirst : tl.UpstreamFirst conn sched) :
    ScheduleIndependent conn git tl sched := by
  rw [scheduleIndependent_iff_storedRuns hfine h,
    storedRuns_eq h.from_start fun c hc => hfirst c (List.mem_of_mem_drop hc),
    List.take_of_length_le h.le_lastVisible.2]
  rfl

/-- The schedule does not matter if the loops get over every commit and the first run that shows
a stable commit shows the upstream commit it names; only then, unless a name hides in a
description. -/
theorem scheduleIndependent_iff (conn : Connection) (git : Git) (tl : Timeline)
    (sched : List Visible) (h : tl.Complete sched) :
    (tl.Fine conn git ∧ tl.UpstreamFirst conn sched → ScheduleIndependent conn git tl sched) ∧
      (tl.NoNames → ScheduleIndependent conn git tl sched →
        tl.Fine conn git ∧ tl.UpstreamFirst conn sched) := by
  constructor
  · rintro ⟨hfine, hfirst⟩
    exact independent_of_upstreamFirst hfine h hfirst
  · intro hnames hind
    have hruns := hind
    obtain ⟨db, -, hruns, -⟩ := hruns
    have hfine := fine_of_runs hnames h hruns
    exact ⟨hfine, upstreamFirst_of_independent hfine h hind⟩

/-! ## A stable commit that is fetched too early -/

def plainGit : Git := ⟨fun c => "1 " ++ c.sha, fun c => "1 " ++ c.sha, fun _ => none⟩

/-- One upstream commit and its backport. -/
def leakTimeline : Timeline where
  branch := "4.4"
  upstream := .only ⟨UPSTREAM_START_BRANCH, [mainlineCommit .empty], by decide⟩
  stable := .only ⟨versionTag "4.4", [backportCommit .empty], by decide⟩
  upstream_base := rfl
  stable_base := rfl

theorem leakTimeline_fine : leakTimeline.Fine .plain plainGit where
  upstream c hc := by
    rw [List.mem_singleton.mp hc]
    exact ⟨others_mainlineCommit .empty, fun _ _ _ _ _ _ => rfl⟩
  stable c hc _ := by
    rw [List.mem_singleton.mp hc]
    exact ⟨others_backportCommit .empty, fun _ => rfl⟩

theorem scheduleIndependent_iff_together :
    ScheduleIndependent .plain plainGit leakTimeline [⟨1, 0⟩, ⟨1, 1⟩] :=
  (scheduleIndependent_iff .plain plainGit leakTimeline [⟨1, 0⟩, ⟨1, 1⟩]
    ⟨by simp [Visible.le], ⟨1, 1⟩, rfl, by decide, by decide⟩).1 ⟨leakTimeline_fine, by decide⟩

/-- The backport is visible one run before the commit it names, and is never stored. -/
theorem backport_fetched_early : leakTimeline.Complete [⟨0, 1⟩, ⟨1, 1⟩] ∧
    ¬ScheduleIndependent .plain plainGit leakTimeline [⟨0, 1⟩, ⟨1, 1⟩] := by
  have hcomplete : leakTimeline.Complete [⟨0, 1⟩, ⟨1, 1⟩] :=
    ⟨by simp [Visible.le], ⟨1, 1⟩, rfl, by decide, by decide⟩
  refine ⟨hcomplete, fun h => ?_⟩
  exact absurd (upstreamFirst_of_independent leakTimeline_fine hcomplete h) (by decide)

end Findmissing
