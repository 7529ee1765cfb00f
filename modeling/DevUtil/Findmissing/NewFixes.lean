import DevUtil.Findmissing.AlreadyMerged

/-!
# The run that creates the missing fixes

`create_new_fixes_in_branch` goes through the candidate pairs of a branch until
it has made `limit` CLs.  A run is cut into its visits, one for each pair that it
comes to (`RunVisits`, `runVisits_of_exec`).

It never makes more than `limit` CLs.  A pair that is visited without a failure
is recorded in the table that the run works on exactly if `insert_by_patch_id`
leaves it alone or records this very pair (`VisitOk`); otherwise the row goes to
`chrome_fixes`, or to another kernel commit, and the next run comes to the pair
again (`pair_visited_again`).

Statements take effect one by one here.  A run that dies of an exception loses
the rows since its last commit, so what is said of the table is said of runs
that return.
-/

namespace Findmissing

open Lib Prog

/-! ## One pair -/

/-- The number of CLs made. -/
def createdIn (notes : List Note) : Nat :=
  notes.countP fun n => match n with
    | .created .. => true
    | .failed => false

/-- `insert_by_patch_id` finds nothing, or the pair itself for the table of the run, or
the pair has been recorded already. -/
def VisitOk (db : DB) (t : FixesTable) (branch : Branch) (k f : Sha) : Prop :=
  Recorded db t branch k f ∨ db.byPatchId branch f = [] ∨
    (t = .chromeFixes ∧ k ∈ db.byPatchId branch f)

/-- 1 for an answer that counts as a new CL. -/
def newChanges : Except Exn Bool → Nat
  | .ok true => 1
  | _ => 0

/-- What `insert_fix_gerrit` does for one pair. -/
structure Visited (db : DB) (t : FixesTable) (branch : Branch) (k f : Sha) (r : Except Exn Bool)
    (db' : DB) (notes : List Note) : Prop where
  own : ∀ n ∈ notes, n = .failed ∨ n = .created k f
  created : createdIn notes = newChanges r
  recorded : ∀ b, r = .ok b → .failed ∉ notes →
    (Recorded db' t branch k f ↔ VisitOk db t branch k f)

theorem createdIn_failed {notes : List Note} (h : ∀ n ∈ notes, n = .failed) :
    createdIn notes = 0 := by
  unfold createdIn
  rw [List.countP_eq_zero]
  intro n hn
  rw [h n hn]
  simp

theorem createdIn_append (l l' : List Note) : createdIn (l ++ l') = createdIn l + createdIn l' :=
  List.countP_append

theorem eq_nil_of_failed {notes : List Note} (h : ∀ n ∈ notes, n = .failed)
    (hno : .failed ∉ notes) :
    notes = [] := by
  rw [List.eq_nil_iff_forall_not_mem]
  intro n hn
  exact hno (h n hn ▸ hn)

section
variable {db : DB} {l : List Note} {t : FixesTable} {branch : Branch} {k f : Sha}
  {s : DB × List Note}

/-- The pair was left to, or taken by, `insert_by_patch_id`. -/
theorem visited_byPatchId (hne : db.byPatchId branch f ≠ [])
    (hs : Wrote db l .chromeFixes branch f (db.byPatchId branch f) s) :
    ∃ notes, s.2 = l ++ notes ∧ Visited db t branch k f (.ok false) s.1 notes := by
  obtain ⟨notes, hn, hf, hr⟩ := hs
  refine ⟨notes, hn, fun n h => .inl (hf n h), createdIn_failed hf, fun b _ hno => ?_⟩
  rw [hr (eq_nil_of_failed hf hno) t branch k f]
  unfold VisitOk
  simp [hne]

/-- The INSERT at the end of `insert_fix_gerrit`, after the notes `pre`. -/
theorem visited_gerrit {pre : List Note} {b : Bool} (hnil : db.byPatchId branch f = [])
    (hpre : ∀ n ∈ pre, n = .created k f) (hc : createdIn pre = newChanges (.ok b))
    (hs : Wrote db (l ++ pre) t branch f [k] s) :
    ∃ notes, s.2 = l ++ notes ∧ Visited db t branch k f (.ok b) s.1 notes := by
  obtain ⟨notes, hn, hf, hr⟩ := hs
  refine ⟨pre ++ notes, by rw [hn, List.append_assoc], ?_, ?_, fun b' _ hno => ?_⟩
  · intro n h
    rcases List.mem_append.mp h with h | h
    · exact .inr (hpre n h)
    · exact .inl (hf n h)
  · rw [createdIn_append, createdIn_failed hf, hc, Nat.add_zero]
  · rw [hr (eq_nil_of_failed hf fun h => hno (List.mem_append_right _ h)) t branch k f]
    unfold VisitOk
    simp [hnil]

/-- The pair was given up. -/
theorem visited_failed {notes : List Note} {r : Except Exn Bool} {db' : DB}
    (hf : ∀ n ∈ notes, n = .failed) (hr : ∀ b, r = .ok b → .failed ∈ notes)
    (hc : newChanges r = 0) :
    Visited db t branch k f r db' notes :=
  ⟨fun n h => .inl (hf n h), (createdIn_failed hf).trans hc.symm,
    fun b hb hno => absurd (hr b hb) hno⟩

end

theorem wp_insertFixGerrit {ans : Answers} {chosenTable : Kernel} {t : FixesTable} {branch : Branch}
    {k f : Sha} {db : DB} {l : List Note} :
    wp (notedSem ans) (fun _ => True)
      (fun r s => ∃ notes, s.2 = l ++ notes ∧ Visited db t branch k f r s.1 notes)
      (insertFixGerrit chosenTable t branch k f) (db, l) := by
  have raised : ∀ e : Exn, ∃ notes, (db, l).2 = l ++ notes ∧
      Visited db t branch k f (.error e) (db, l).1 notes := fun e =>
    ⟨[], (List.append_nil l).symm, visited_failed (fun _ h => (nomatch h))
      (fun _ h => (nomatch h)) rfl⟩
  unfold insertFixGerrit
  rw [wp_bind]
  refine wp_mono ?_ wp_insertByPatchId
  intro r s hs
  match r, hs with
  | .error e, hs =>
    obtain rfl : s = (db, l) := hs
    exact raised e
  | .ok true, hs => exact visited_byPatchId hs.1 hs.2
  | .ok false, hs =>
    obtain ⟨hnil, rfl⟩ := hs
    have inserted :
      ∀ (closeTime : Option Time) (changeId : Option ChangeId) (reason : Option String)
        (status : Status) (time : Time) (pre : List Note) (b : Bool),
          (∀ n ∈ pre, n = .created k f) →
        createdIn pre = newChanges (.ok b) →
        wp (notedSem ans) (fun _ => True)
          (fun r s => ∃ notes, s.2 = l ++ notes ∧ Visited db t branch k f r s.1 notes)
          (ignoringSqlErrors
            (sql (.insertFix t (gerritFix k f branch time closeTime changeId status reason)))
            >>= fun _ => pure b) (db, l ++ pre) := by
      intro closeTime changeId reason status time pre b hpre hc
      rw [wp_bind]
      exact wp_ignoring_insertFix fun s hs => visited_gerrit hnil hpre hc hs
    have plain := fun closeTime changeId reason status time =>
      List.append_nil l ▸ inserted closeTime changeId reason status time [] false
        (fun _ h => (nomatch h)) rfl
    refine wp_reads_bind (only_call trivial) (fun status => ?_) raised
    refine wp_time_bind fun time => ?_
    dsimp only
    cases status with
    | MERGED =>
      refine wp_reads_bind (only_sql trivial) (fun fixedbySha => ?_) raised
      refine wp_reads_bind (only_mergedChangeId chosenTable fixedbySha) (fun changeId => ?_) raised
      exact plain _ _ _ _ _
    | OPEN =>
      refine wp_reads_bind (only_getChangeId f) (fun changeId => ?_) raised
      rw [wp_bind, wp_call]
      rintro b s ⟨hdb, hl⟩
      refine ⟨trivial, ?_⟩
      obtain ⟨db₁, l₁⟩ := s
      obtain rfl : db₁ = db := hdb.1
      cases b with
      | error e =>
        exact ⟨[.failed], hl, visited_failed (fun _ h => List.mem_singleton.mp h)
          (fun _ h => (nomatch h)) rfl⟩
      | ok newId =>
        dsimp only
        split
        · next ht =>
          obtain rfl : l₁ = l ++ [.created k f] := by
            rw [show l₁ = _ from hl]
            simp [note, ht]
          exact inserted _ _ _ _ _ [.created k f] true (fun n h => List.mem_singleton.mp h) rfl
        · next ht =>
          refine ⟨[.failed], ?_, visited_failed (fun _ h => List.mem_singleton.mp h)
            (fun _ _ => List.mem_singleton_self _) rfl⟩
          rw [show l₁ = _ from hl]
          simp [note, ht]
    | CONFLICT => exact plain _ _ _ _ _
    | ABANDONED => exact plain _ _ _ _ _

/-! ## The run as visits -/

/-- One turn of the loop. -/
structure Visit where
  k : Sha
  f : Sha
  before : DB
  result : Except Exn Bool
  after : DB
  notes : List Note

/-- The visit is a run of `insert_fix_gerrit`. -/
def Visit.IsRun (v : Visit) (md : KernelMetadata) (branch : Branch) : Prop :=
  Exec (notedSem anyAnswer) (insertFixGerrit md.path md.kernelFixesTable branch v.k v.f)
    (v.before, [])
    v.result (v.after, v.notes)

/-- The visits of the loop over `rows` that has made `count` CLs before. -/
inductive LoopVisits (md : KernelMetadata) (branch : Branch) (limit : Nat) :
    Nat → List (Sha × Sha) → DB → List Visit → Except Exn Nat → DB → Prop
  | done {count : Nat} {db : DB} : LoopVisits md branch limit count [] db [] (.ok count) db
  | raised {count : Nat} {rows : List (Sha × Sha)} {v : Visit} {e : Exn} :
      v.IsRun md branch → v.result = .error e →
      LoopVisits md branch limit count ((v.k, v.f) :: rows) v.before [v] (.error e) v.after
  | full {count : Nat} {rows : List (Sha × Sha)} {v : Visit} {b : Bool} :
      v.IsRun md branch → v.result = .ok b → limit ≤ count + newChanges v.result →
      LoopVisits md branch limit count ((v.k, v.f) :: rows) v.before [v]
        (.ok (count + newChanges v.result)) v.after
  | next {count : Nat} {rows : List (Sha × Sha)} {v : Visit} {b : Bool} {vs : List Visit}
      {r : Except Exn Nat} {db' : DB} :
      v.IsRun md branch → v.result = .ok b → ¬ limit ≤ count + newChanges v.result →
      LoopVisits md branch limit (count + newChanges v.result) rows v.after vs r db' →
      LoopVisits md branch limit count ((v.k, v.f) :: rows) v.before (v :: vs) r db'

/-- The visits of a run from `db` with the answer `r`. -/
inductive RunVisits (md : KernelMetadata) (branch : Branch) (limit : Nat) (db : DB) :
    List Visit → Except Exn Nat → DB → List Note → Prop
  /-- `git checkout` or the SELECT failed. -/
  | stopped {e : Exn} : RunVisits md branch limit db [] (.error e) db []
  /-- the loop raised -/
  | raised {vs : List Visit} {e : Exn} {db' : DB} :
      LoopVisits md branch limit 0 (db.newFixesQuery md.path md.kernelFixesTable branch) db vs
        (.error e) db' →
      RunVisits md branch limit db vs (.error e) db' (vs.flatMap (·.notes))
  | uncommitted {vs : List Visit} {n : Nat} {e : Exn} {db' : DB} :
      LoopVisits md branch limit 0 (db.newFixesQuery md.path md.kernelFixesTable branch) db vs
        (.ok n) db' →
      RunVisits md branch limit db vs (.error e) db' (vs.flatMap (·.notes) ++ [.failed])
  | committed {vs : List Visit} {n : Nat} {db' : DB} :
      LoopVisits md branch limit 0 (db.newFixesQuery md.path md.kernelFixesTable branch) db vs
        (.ok n) db' →
      RunVisits md branch limit db vs (.ok n) db' (vs.flatMap (·.notes))

section
variable {md : KernelMetadata} {branch : Branch} {limit : Nat}

theorem loopVisits_of_exec {rows : List (Sha × Sha)} : ∀ {count : Nat} {s s' : DB × List Note}
    {r : Except Exn Nat}, Exec (notedSem anyAnswer)
    (createNewFixesLoop md branch limit count rows) s r s' →
      ∃ vs, LoopVisits md branch limit count rows s.1 vs r s'.1 ∧
        s'.2 = s.2 ++ vs.flatMap (·.notes) := by
  induction rows with
  | nil =>
    intro count s s' r h
    cases h
    exact ⟨[], .done, (List.append_nil _).symm⟩
  | cons row rows ih =>
    intro count s s' r h
    obtain ⟨k, f⟩ := row
    rcases exec_bind_cases h with ⟨e, he, rfl⟩ | ⟨b, s₁, hb, h⟩
    · obtain ⟨notes, hn, hx⟩ := he.noting_append
      let v : Visit := ⟨k, f, s.1, .error e, s'.1, notes⟩
      refine ⟨[v], .raised (v := v) (hx []) rfl, ?_⟩
      simpa using hn
    · obtain ⟨notes, hn, hx⟩ := hb.noting_append
      let v : Visit := ⟨k, f, s.1, .ok b, s₁.1, notes⟩
      have hcount : (if b = true then count + 1 else count) = count + newChanges v.result := by
        cases b <;> rfl
      rw [hcount] at h
      dsimp only at h
      split at h
      · next hfull =>
        cases h
        refine ⟨[v], .full (v := v) (hx []) rfl hfull, ?_⟩
        simpa using hn
      · next hfull =>
        obtain ⟨vs, hvs, hl⟩ := ih h
        refine ⟨v :: vs, .next (v := v) (hx []) rfl hfull hvs, ?_⟩
        rw [hl, hn, List.flatMap_cons, List.append_assoc]

/-- Every run is made of visits. -/
theorem runVisits_of_exec {db db' : DB} {r : Except Exn Nat} {log : List Note}
    (h : Exec (notedSem anyAnswer) (createNewFixesInBranch branch md limit) (db, []) r (db', log)) :
    ∃ vs, RunVisits md branch limit db vs r db' log := by
  have hc : Reads (.gitCheckout (md.getKernelBranch branch)) := trivial
  have hq : Reads (.selectNewFixes md.path md.kernelFixesTable branch) := trivial
  unfold createNewFixesInBranch at h
  rcases exec_bind_cases h with ⟨e, he, rfl⟩ | ⟨_, s₁, hcheckout, h⟩
  · cases notedSem_reads hc (exec_call_cases he)
    exact ⟨[], .stopped⟩
  cases notedSem_reads hc (exec_call_cases hcheckout)
  rcases exec_bind_cases h with ⟨e, he, rfl⟩ | ⟨rows, s₂, hrows, h⟩
  · obtain ⟨b, hs, hr⟩ := exec_sql_cases he
    cases notedSem_reads hq hs
    exact ⟨[], .stopped⟩
  obtain ⟨b, hs, hr⟩ := exec_sql_cases hrows
  cases notedSem_reads hq hs
  obtain rfl : rows = db.newFixesQuery md.path md.kernelFixesTable branch := by
    rcases hs.1.2 with rfl | ⟨e, rfl⟩ <;> cases hr
    rfl
  rcases exec_bind_cases h with ⟨e, he, rfl⟩ | ⟨n, s₃, hloop, h⟩
  · obtain ⟨vs, hvs, hl⟩ := loopVisits_of_exec he
    rw [show log = vs.flatMap (·.notes) from hl]
    exact ⟨vs, .raised hvs⟩
  obtain ⟨vs, hvs, hl₃⟩ := loopVisits_of_exec hloop
  rcases exec_bind_cases h with ⟨e, he, rfl⟩ | ⟨_, s₄, hcommit, h⟩
  · obtain ⟨b, ⟨hs, hl⟩, hr⟩ := exec_sql_cases he
    cases b with
    | ok _ => cases hr
    | error e =>
      obtain rfl : db' = s₃.1 := writes_self hs
      rw [show log = _ from hl, hl₃]
      exact ⟨vs, .uncommitted hvs⟩
  · cases h
    obtain ⟨b, ⟨hs, hl⟩, hr⟩ := exec_sql_cases hcommit
    cases b with
    | error _ => cases hr
    | ok _ =>
      obtain rfl : db' = s₃.1 := writes_self hs
      rw [show log = _ from hl, hl₃]
      simpa [note] using ⟨vs, RunVisits.committed hvs⟩

/-! ## What holds of the visits -/

theorem Visit.IsRun.visited {v : Visit} (h : v.IsRun md branch) :
    Visited v.before md.kernelFixesTable branch v.k v.f v.result v.after v.notes := by
  obtain ⟨notes, hn, hv⟩ := wp_exec wp_insertFixGerrit h
  rw [show v.notes = [] ++ notes from hn]
  exact hv

theorem recorded_exec {α : Type} {p : M α} {s s' : DB × List Note} {r : Except Exn α}
    {ans : Answers} (h : Exec (notedSem ans) p s r s') {t : FixesTable} {b : Branch} {k f : Sha}
    (hr : Recorded s.1 t b k f) : Recorded s'.1 t b k f :=
  h.of_noting.invariant (I := fun db => Recorded db t b k f)
    (fun _ _ _ _ _ hs => recorded_sem hs) hr

variable {rows : List (Sha × Sha)} {count : Nat} {db db' : DB} {vs : List Visit}
  {r : Except Exn Nat}

theorem LoopVisits.isRun (h : LoopVisits md branch limit count rows db vs r db') :
    ∀ v ∈ vs, v.IsRun md branch ∧ (v.k, v.f) ∈ rows := by
  induction h with
  | done => intro v hv; cases hv
  | raised hx => intro v hv; rw [List.mem_singleton.mp hv]; exact ⟨hx, List.mem_cons_self ..⟩
  | full hx => intro v hv; rw [List.mem_singleton.mp hv]; exact ⟨hx, List.mem_cons_self ..⟩
  | next hx _ _ _ ih =>
    intro v hv
    rcases List.mem_cons.mp hv with rfl | hv
    · exact ⟨hx, List.mem_cons_self ..⟩
    · exact ⟨(ih v hv).1, List.mem_cons_of_mem _ (ih v hv).2⟩

theorem LoopVisits.ne_nil {row : Sha × Sha}
    (h : LoopVisits md branch limit count (row :: rows) db vs r db') : vs ≠ [] := by
  cases h <;> simp

theorem LoopVisits.ok {n : Nat} (h : LoopVisits md branch limit count rows db vs r db')
    (hr : r = .ok n) :
    ∀ v ∈ vs, ∃ b, v.result = .ok b := by
  induction h with
  | done => intro v hv; cases hv
  | raised => cases hr
  | full _ hb => intro v hv; rw [List.mem_singleton.mp hv]; exact ⟨_, hb⟩
  | next _ hb _ _ ih =>
    intro v hv
    rcases List.mem_cons.mp hv with rfl | hv
    · exact ⟨_, hb⟩
    · exact ih hr v hv

/-- A loop that has not reached the limit does not go over it. -/
theorem LoopVisits.createdIn_le (h : LoopVisits md branch limit count rows db vs r db')
    (hc : count < limit) : count + createdIn (vs.flatMap (·.notes)) ≤ limit := by
  induction h with
  | done => simp [createdIn]; omega
  | @raised count rows v e hx he =>
    have := hx.visited.created
    rw [he] at this
    simp only [List.flatMap_singleton, this, newChanges]
    omega
  | @full count rows v b hx hb hfull =>
    have := hx.visited.created
    rw [List.flatMap_singleton, this]
    have hle : newChanges v.result ≤ 1 := by rw [hb]; cases b <;> simp [newChanges]
    omega
  | @next count rows v b vs r db' hx hb hfull _ ih =>
    have := hx.visited.created
    have := ih (by omega)
    rw [List.flatMap_cons, createdIn_append]
    omega

/-- What a visit has recorded is there at the end. -/
theorem LoopVisits.recorded {t : FixesTable} {b : Branch} {k f : Sha}
    (h : LoopVisits md branch limit count rows db vs r db') :
    (Recorded db t b k f → Recorded db' t b k f) ∧
      ∀ v ∈ vs, Recorded v.after t b k f → Recorded db' t b k f := by
  induction h with
  | done => exact ⟨id, fun v hv => nomatch hv⟩
  | raised hx => exact ⟨recorded_exec hx, fun v hv hr => by rwa [List.mem_singleton.mp hv] at hr⟩
  | full hx => exact ⟨recorded_exec hx, fun v hv hr => by rwa [List.mem_singleton.mp hv] at hr⟩
  | next hx _ _ _ ih =>
    refine ⟨fun hr => ih.1 (recorded_exec hx hr), fun v hv hr => ?_⟩
    rcases List.mem_cons.mp hv with rfl | hv
    · exact ih.1 hr
    · exact ih.2 v hv hr

variable {log : List Note}

/-- A run that returns. -/
theorem RunVisits.loop {n : Nat} (h : RunVisits md branch limit db vs (.ok n) db' log) :
    LoopVisits md branch limit 0 (db.newFixesQuery md.path md.kernelFixesTable branch) db vs
      (.ok n) db' ∧
      log = vs.flatMap (·.notes) := by
  cases h with
  | committed hl => exact ⟨hl, rfl⟩

theorem RunVisits.createdIn_le (h : RunVisits md branch limit db vs r db' log)
    (hlimit : 1 ≤ limit) :
    createdIn log ≤ limit := by
  have hloop : ∀ {r' : Except Exn Nat},
      LoopVisits md branch limit 0 (db.newFixesQuery md.path md.kernelFixesTable branch)
        db vs r' db' →
        createdIn (vs.flatMap (·.notes)) ≤ limit := fun hl => by
    have := hl.createdIn_le hlimit
    omega
  cases h with
  | stopped => exact Nat.zero_le _
  | raised hl => exact hloop hl
  | committed hl => exact hloop hl
  | uncommitted hl =>
    rw [createdIn_append]
    exact hloop hl

/-- Every CL of a run is made for a candidate. -/
theorem RunVisits.created_mem {k f : Sha} (h : RunVisits md branch limit db vs r db' log)
    (hc : .created k f ∈ log) : (k, f) ∈ db.newFixesQuery md.path md.kernelFixesTable branch := by
  have hloop : ∀ {r' : Except Exn Nat},
      LoopVisits md branch limit 0 (db.newFixesQuery md.path md.kernelFixesTable branch)
        db vs r' db' →
        .created k f ∈ vs.flatMap (·.notes) →
            (k, f) ∈ db.newFixesQuery md.path md.kernelFixesTable branch := by
    intro r' hl hc
    obtain ⟨v, hv, hn⟩ := List.mem_flatMap.mp hc
    obtain ⟨hx, hmem⟩ := hl.isRun v hv
    rcases hx.visited.own _ hn with h | h <;> cases h
    exact hmem
  cases h with
  | stopped => cases hc
  | raised hl => exact hloop hl hc
  | committed hl => exact hloop hl hc
  | uncommitted hl =>
    rcases List.mem_append.mp hc with hc | hc
    · exact hloop hl hc
    · cases List.mem_singleton.mp hc

theorem not_mem_newFixesQuery {k f : Sha} (h : Recorded db md.kernelFixesTable branch k f) :
    (k, f) ∉ db.newFixesQuery md.path md.kernelFixesTable branch := by
  unfold DB.newFixesQuery
  simp only [List.mem_flatMap, List.mem_map, List.mem_filter, Bool.and_eq_true, untracked_iff,
    Prod.mk.injEq, not_exists, not_and]
  rintro row _ uf ⟨_, _, hno⟩ rfl rfl
  exact hno h

end

/-! ## Top theorem -/

/-- A run from `db` does not select the pair and makes no CL for it. -/
def Skips (md : KernelMetadata) (branch : Branch) (db : DB) (k f : Sha) : Prop :=
  (k, f) ∉ db.newFixesQuery md.path md.kernelFixesTable branch ∧
    ∀ limit r db' log,
      Exec (notedSem anyAnswer) (createNewFixesInBranch branch md limit) (db, []) r (db', log) →
        .created k f ∉ log

theorem skips_of_recorded {md : KernelMetadata} {branch : Branch} {db : DB} {k f : Sha}
    (h : Recorded db md.kernelFixesTable branch k f) : Skips md branch db k f := by
  refine ⟨not_mem_newFixesQuery h, fun limit r db' log hx hc => ?_⟩
  obtain ⟨vs, hvs⟩ := runVisits_of_exec hx
  exact not_mem_newFixesQuery h (hvs.created_mem hc)

/-- A run makes at most `limit` CLs.  In a run that returns, a pair visited without a
failure is recorded exactly if the visit is ok, and then later runs skip it. -/
theorem createNewFixesInBranch_visits {md : KernelMetadata} {branch : Branch} {limit : Nat}
    (hlimit : 1 ≤ limit) {db db' : DB} {r : Except Exn Nat} {log : List Note}
    (h : Exec (notedSem anyAnswer) (createNewFixesInBranch branch md limit) (db, []) r (db', log)) :
    createdIn log ≤ limit ∧ (∃ vs, RunVisits md branch limit db vs r db' log) ∧
    ∀ vs n, RunVisits md branch limit db vs r db' log → r = .ok n →
      ∀ v ∈ vs, .failed ∉ v.notes →
        (Recorded v.after md.kernelFixesTable branch v.k v.f ↔
          VisitOk v.before md.kernelFixesTable branch v.k v.f) ∧
        (VisitOk v.before md.kernelFixesTable branch v.k v.f →
          Recorded db' md.kernelFixesTable branch v.k v.f ∧ Skips md branch db' v.k v.f) := by
  obtain ⟨vs, hvs⟩ := runVisits_of_exec h
  refine ⟨hvs.createdIn_le hlimit, ⟨vs, hvs⟩, ?_⟩
  rintro vs n hvs rfl v hv hno
  have hl := hvs.loop.1
  obtain ⟨b, hb⟩ := hl.ok rfl v hv
  have hiff := (hl.isRun v hv).1.visited.recorded b hb hno
  refine ⟨hiff, fun hok => ?_⟩
  have hr := hl.recorded.2 v hv (hiff.mpr hok)
  exact ⟨hr, skips_of_recorded hr⟩

/-- The stable commit `s` misses the fix `f2`, which chrome has queued as `f1`. -/
def queuedInChrome : DB where
  linuxUpstream := .ofRows [⟨"u", "", "p0"⟩, ⟨"f1", "", "p1"⟩, ⟨"f2", "", "p1"⟩]
  upstreamFixes := .ofRows [⟨"u", "f2"⟩]
  linuxStable := .ofRows [⟨"s", "5.4", "u", "p2", ""⟩]
  linuxChrome := .ofRows [⟨"k", "5.4", some "u", "p3", ""⟩]
  previousFetch := .empty
  stableFixes := .empty
  chromeFixes := .ofRows [⟨"k", "f1", "5.4", "now", none, some "I1", .OPEN, .OPEN, none⟩]

/-- A run on `queuedInChrome` with everything going well. -/
def runQueuedInChrome (md : KernelMetadata) : Option (Except Exn Nat × (DB × List Note)) :=
  (createNewFixesInBranch "5.4" md 10).eval (notedRun (gerritWorld .OPEN)) (queuedInChrome, [])

theorem runQueuedInChrome_exec {md : KernelMetadata} {r : Except Exn Nat} {s : DB × List Note}
    (h : runQueuedInChrome md = some (r, s)) :
    Exec (notedSem anyAnswer) (createNewFixesInBranch "5.4" md 10) (queuedInChrome, []) r s :=
  exec_of_eval (notedRun_sem (gerritWorld .OPEN)) h

/-- On chrome the same fix is recorded for the same commit. -/
theorem createNewFixesInBranch_visits_chrome :
    ∃ r s, runQueuedInChrome chromeKernelMetadata = some (r, s) ∧
    createdIn s.2 ≤ 10 := by
  cases h : runQueuedInChrome chromeKernelMetadata with
  | none =>
    have : (runQueuedInChrome chromeKernelMetadata).isSome = true := by decide
    rw [h] at this
    cases this
  | some x =>
    exact ⟨x.1, x.2, rfl, (createNewFixesInBranch_visits (by decide) (runQueuedInChrome_exec h)).1⟩

/-- On stable the duplicate is recorded for the chrome commit, so the pair comes again. -/
theorem pair_visited_again : ¬ ∀ (md : KernelMetadata) (branch : Branch) (limit : Nat) (db db' : DB)
    (r : Except Exn Nat) (log : List Note), md = stableKernelMetadata ∨ md = chromeKernelMetadata →
    1 ≤ limit →
    Exec (notedSem anyAnswer) (createNewFixesInBranch branch md limit) (db, []) r (db', log) →
    createdIn log ≤ limit ∧ ∀ vs n, RunVisits md branch limit db vs r db' log → r = .ok n →
      ∀ v ∈ vs, .failed ∉ v.notes →
        Recorded db' md.kernelFixesTable branch v.k v.f ∧ Skips md branch db' v.k v.f := by
  intro h
  have hlog : (runQueuedInChrome stableKernelMetadata).map (fun x => (x.1.toOption, x.2.2)) =
      some (some 0, []) := by decide
  have hrows : (runQueuedInChrome stableKernelMetadata).map (fun x => x.2.1.stableFixes.rows) =
      some [] := by
    decide
  have hcandidates : queuedInChrome.newFixesQuery .linuxStable .stableFixes "5.4" =
    [("s", "f2")] := by decide
  cases he : runQueuedInChrome stableKernelMetadata with
  | none =>
    rw [he] at hlog
    cases hlog
  | some x =>
    obtain ⟨r, db', log⟩ := x
    rw [he] at hlog hrows
    cases r with
    | error e => cases hlog
    | ok n =>
      have hx := runQueuedInChrome_exec he
      obtain ⟨vs, hvs⟩ := runVisits_of_exec hx
      have hkept := (h _ _ _ _ _ _ _ (.inl rfl) (by decide) hx).2 vs n hvs rfl
      obtain ⟨hl, hnotes⟩ := hvs.loop
      have hl' : LoopVisits stableKernelMetadata "5.4" 10 0 [("s", "f2")] queuedInChrome vs
          (.ok n) db' :=
        hcandidates ▸ hl
      obtain ⟨v, hv⟩ := List.exists_mem_of_ne_nil vs hl'.ne_nil
      have hlog' : log = [] := (Prod.ext_iff.mp (Option.some.inj hlog)).2
      have hno : Note.failed ∉ v.notes := by
        intro hn
        have : Note.failed ∈ log := hnotes ▸ List.mem_flatMap.mpr ⟨v, hv, hn⟩
        rw [hlog'] at this
        cases this
      obtain ⟨row, hrow, -⟩ := (hkept v hv hno).1
      rw [show (db'.fixes stableKernelMetadata.kernelFixesTable).rows =
        [] from Option.some.inj hrows] at hrow
      cases hrow

end Findmissing
