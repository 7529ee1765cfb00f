import DevUtil.Lib.Interleave
import DevUtil.Findmissing.Commands

/-!
# The robot's pass against the engineers' commands

Every SQL statement and every call of git or Gerrit is one atomic step.  Process
0 is the robot's pass over the unmerged rows, the other processes are engineers'
`abandon_fix_cl` and `restore_fix_cl`.

`update_change_abandoned` and `update_change_restored` guard the status in their
WHERE clause; `update_conflict_to_open` does not.  Between the robot's SELECT
and this UPDATE an engineer may abandon the row, and the UPDATE opens it again
(`abandoned_row_reopened`).

    every update_conflict_to_open meets a row that is OPEN or CONFLICT →
      MERGED rows stay MERGED, and only a restore opens an ABANDONED row
-/

namespace Findmissing

open Lib Prog Interleave

/-! ## Processes -/

/-- One pass of the robot over any branches. -/
inductive RobotPass : M Unit → Prop
  | fixupUnmergedPatches (branch : Branch) (md : KernelMetadata) :
      RobotPass (fixupUnmergedPatches branch md)
  | updateFixesInBranch (branch : Branch) (md : KernelMetadata) :
      RobotPass (updateFixesInBranch branch md)
  | next {p q : M Unit} : RobotPass p → RobotPass q → RobotPass (p >>= fun _ => q)

inductive EngineerCommand : M Unit → Prop
  | abandonFixCl (t : Option FixesTable) (shaList : List Sha) (reason : String) (force : Bool) :
      EngineerCommand (abandonFixCl t shaList reason force)
  | restoreFixCl (t : Option FixesTable) (shaList : List Sha) (reason : String) (force : Bool) :
      EngineerCommand (restoreFixCl t shaList reason force)

abbrev Cfg := Config DB (M Unit)

/-- A step of one process, for any answer of git and Gerrit. -/
abbrev procStep (p : M Unit) (db : DB) (ev : Event Op) (p' : M Unit) (db' : DB) : Prop :=
  Prog.Step (Op.sem anyAnswer) p db ev p' db'

/-- The runs whose steps all meet `ok` in the database before them. -/
abbrev FixesRun (ok : StepOk) : Cfg → Cfg → Prop :=
  Run procStep fun c _ ev => ok ev.o c.shared

/-! ## The robot never restores -/

def NotRestore : ∀ ⦃β : Type⦄, Op β → Prop
  | _, .updateRestored .. => False
  | _, _ => True

theorem notRestore_of_frozen {β : Type} (o : Op β) (h : Frozen o) : NotRestore o := by
  cases o with
  | updateRestored => exact h
  | _ => trivial

theorem only_updateChangeMerged (t : FixesTable) (k f : Sha) (reason : String) :
    Only NotRestore (updateChangeMerged t k f reason) :=
  only_bind (only_perform trivial) fun _ => only_bind (only_sql trivial) fun _ => only_sql trivial

theorem only_fixupRow (branch : Branch) (t : FixesTable)
    (x : Sha × Sha × Status × Option ChangeId) :
    Only NotRestore (fixupRow branch t x) := by
  obtain ⟨k, f, status, changeId⟩ := x
  refine only_bind (only_call trivial) fun newStatus => ?_
  split
  · refine only_bind ((only_getChangeId f).mono fun _ o ho =>
      notRestore_of_frozen o (frozen_of_reads o ho)) fun newId => ?_
    refine only_bind (only_call trivial) fun newId => ?_
    split
    · exact only_bind (only_sql trivial) fun _ => only_sql trivial
    · exact only_pure ()
  · split
    · dsimp only
      split
      · exact only_bind (only_call trivial) fun _ => only_updateChangeMerged t k f _
      · exact only_updateChangeMerged t k f _
    · exact only_pure ()

theorem only_fixupUnmergedPatches (branch : Branch) (md : KernelMetadata) :
    Only NotRestore (fixupUnmergedPatches branch md) :=
  only_bind (only_sql trivial) fun rows => only_each (only_fixupRow branch md.kernelFixesTable) rows

theorem only_of_robotPass {p : M Unit} (h : RobotPass p) : Only NotRestore p := by
  induction h with
  | fixupUnmergedPatches branch md => exact only_fixupUnmergedPatches branch md
  | updateFixesInBranch branch md =>
    exact only_bind (only_perform trivial) fun _ =>
      only_bind (only_ignoringSqlErrors (only_sql trivial)) fun _ =>
        only_bind (only_sql trivial) fun _ => only_fixupUnmergedPatches branch md
  | next _ _ ihp ihq => exact only_bind ihp fun _ => ihq

/-- What is left of the robot's pass never restores, whatever the others have done. -/
theorem robot_notRestore {ok : StepOk} {robot p : M Unit} {engineers : List (M Unit)} {db : DB}
    {c : Cfg} (hrobot : RobotPass robot) (hr : FixesRun ok ⟨db, robot :: engineers⟩ c)
    (hp : c.procs[0]? = some p) : Only NotRestore p := by
  have h := Run.invariant (I := fun c => ∀ j p, c.procs[j]? = some p → j = 0 → Only NotRestore p)
    (fun c i l c' hc _ hs => Step.locals (Q := fun j p => j = 0 → Only NotRestore p)
      (fun i p s l p' s' hp hst hi => ((hp hi).step hst).2) hc hs) ?_ hr
  · exact h 0 p hp rfl
  · intro j p hp hj
    subst hj
    cases hp
    exact only_of_robotPass hrobot

/-! ## One step -/

/-- `update_conflict_to_open` meets a row that is neither MERGED nor ABANDONED. -/
def ConflictStillOpen : StepOk
  | _, .updateConflictToOpen t k f _ _, db =>
    ∀ r ∈ (db.fixes t).rows, r.key = (k, f) → r.status ≠ .MERGED ∧ r.status ≠ .ABANDONED
  | _, _, _ => True

/-- What the step of process `i` may do to rows that are MERGED or ABANDONED. -/
structure StatusKept (c : Cfg) (i : Nat) (ev : Event Op) (c' : Cfg) : Prop where
  merged : ∀ t, ∀ r ∈ (c.shared.fixes t).rows, r.status = .MERGED →
    ∀ r' ∈ (c'.shared.fixes t).rows, r'.key = r.key → r'.status = .MERGED
  abandoned : ∀ t, ∀ r ∈ (c.shared.fixes t).rows, r.status = .ABANDONED →
    ∀ r' ∈ (c'.shared.fixes t).rows, r'.key = r.key → r'.status = .OPEN ∨ r'.status = .CONFLICT →
      i ≠ 0 ∧ ∃ status reason ans,
        ev = ⟨.updateRestored t r.kernelSha r.fixedbyUpstreamSha status reason, ans⟩

/-- The row with a key after an operation. -/
theorem sem_row_key {ans : Answers} {β : Type} {o : Op β} {db db' : DB} {b : β}
    (h : Op.sem ans o db b db') {t : FixesTable} {r r' : FixRow} (hr : r ∈ (db.fixes t).rows)
    (hr' : r' ∈ (db'.fixes t).rows) (hk : r'.key = r.key) : r' = r ∨ RowChange db t r o r' := by
  obtain ⟨r'', hr'', hk'', hc⟩ := sem_row_after h hr
  rw [Table.eq_of_key hr' hr'' (hk.trans hk''.symm)]
  exact hc

theorem merged_of_change {db : DB} {t : FixesTable} {r r' : FixRow}
    {β : Type} {o : Op β} (hr : r ∈ (db.fixes t).rows) (hok : ConflictStillOpen o db)
    (hc : RowChange db t r o r') (hm : r.status = .MERGED) : r'.status = .MERGED := by
  cases hc with
  | abandon _ hs => rw [hm] at hs; simp at hs
  | restore _ hs => rw [hm] at hs; cases hs
  | merge => rfl
  | reopen hk => exact absurd hm (hok r hr hk).1
  | inLinuxChrome => rfl

theorem restored_of_change {db : DB} {t : FixesTable} {r r' : FixRow} {β : Type} {o : Op β}
    (hr : r ∈ (db.fixes t).rows) (hok : ConflictStillOpen o db) (hc : RowChange db t r o r')
    (ha : r.status = .ABANDONED) (hs' : r'.status = .OPEN ∨ r'.status = .CONFLICT) (b : β) :
    ∃ status reason ans, (⟨o, b⟩ : Event Op) =
      ⟨.updateRestored t r.kernelSha r.fixedbyUpstreamSha status reason, ans⟩ := by
  cases hc with
  | abandon _ hs => rw [ha] at hs; simp at hs
  | restore hk _ => cases hk; exact ⟨_, _, _, rfl⟩
  | merge => simp at hs'
  | reopen hk => exact absurd ha (hok r hr hk).2
  | inLinuxChrome => simp at hs'

theorem statusKept {ok : StepOk}
    (hok : ∀ ⦃β : Type⦄ (o : Op β) db, ok o db → ConflictStillOpen o db) {robot : M Unit}
    {engineers : List (M Unit)} {db : DB} {c c' : Cfg} {i : Nat} {ev : Event Op}
    (hrobot : RobotPass robot) (hr : FixesRun ok ⟨db, robot :: engineers⟩ c)
    (ho : ok ev.o c.shared) (hs : Interleave.Step procStep c i ev c') : StatusKept c i ev c' := by
  have hrest : i = 0 → NotRestore ev.o := by
    rintro rfl
    cases hs with
    | mk hp hst => exact ((robot_notRestore hrobot hr hp).step hst).1
  cases hs with
  | mk hp hst =>
    cases hst with
    | @op β o k _ _ b hsem =>
      constructor
      · intro t r hr' hm r' hr'' hk
        rcases sem_row_key hsem hr' hr'' hk with rfl | hc
        · exact hm
        · exact merged_of_change hr' (hok _ _ ho) hc hm
      · intro t r hr' ha r' hr'' hk hs'
        rcases sem_row_key hsem hr' hr'' hk with rfl | hc
        · rw [ha] at hs'
          simp at hs'
        · obtain ⟨status, reason, ans, he⟩ := restored_of_change hr' (hok _ _ ho) hc ha hs' b
          refine ⟨?_, status, reason, ans, he⟩
          intro hi
          cases he
          exact hrest hi

/-! ## Runs -/

/-- MERGED is the end, over any number of steps. -/
theorem merged_stays {c c' : Cfg} (hr : FixesRun ConflictStillOpen c c') (t : FixesTable)
    (k : Sha × Sha) (h : ∃ r ∈ (c.shared.fixes t).rows, r.key = k ∧ r.status = .MERGED) :
    ∃ r ∈ (c'.shared.fixes t).rows, r.key = k ∧ r.status = .MERGED := by
  refine Run.invariant
    (I := fun c => ∃ r ∈ (c.shared.fixes t).rows, r.key = k ∧ r.status = .MERGED) ?_ h hr
  rintro c i ev c' ⟨r, hmem, hk, hm⟩ hok hs
  cases hs with
  | mk hp hst =>
    cases hst with
    | op hsem =>
      obtain ⟨r', hr', hk', rfl | hc⟩ := sem_row_after hsem hmem
      · exact ⟨r', hr', hk, hm⟩
      · exact ⟨r', hr', hk'.trans hk, merged_of_change hmem hok hc hm⟩

/-- In every run whose `update_conflict_to_open` steps meet the condition, whatever the
other processes run: a MERGED row stays MERGED, and an ABANDONED row becomes OPEN or
CONFLICT only by a restore that is not the robot's. -/
theorem merged_and_abandoned_kept {robot : M Unit} {others : List (M Unit)}
    (hrobot : RobotPass robot) {db : DB} {c : Cfg}
    (hr : FixesRun ConflictStillOpen ⟨db, robot :: others⟩ c) :
    (∀ c', FixesRun ConflictStillOpen c c' → ∀ t k,
      (∃ r ∈ (c.shared.fixes t).rows, r.key = k ∧ r.status = .MERGED) →
        ∃ r ∈ (c'.shared.fixes t).rows, r.key = k ∧ r.status = .MERGED) ∧
    ∀ i ev c', ConflictStillOpen ev.o c.shared → Interleave.Step procStep c i ev c' →
      StatusKept c i ev c' :=
  ⟨fun _ hr' t k => merged_stays hr' t k,
    fun _ _ _ ho hs => statusKept (fun _ _ _ h => h) hrobot hr ho hs⟩

/-! ## A lost update -/

/-- The robot's next step, carried out in an obliging world where the condition `ok` holds. -/
def nextStep (ok : StepOk) [∀ (β : Type) (o : Op β) (db : DB), Decidable (ok o db)] :
    M Unit → DB → Option (Event Op × M Unit × DB) :=
  advance (Op.runIf (gerritWorld .OPEN) ok)

theorem nextStep_procStep {ok : StepOk} [∀ (β : Type) (o : Op β) (db : DB), Decidable (ok o db)]
    (p : M Unit) (db : DB) (ev : Event Op) (p' : M Unit) (db' : DB)
    (h : nextStep ok p db = some (ev, p', db')) : ok ev.o db ∧ procStep p db ev p' db' := by
  have hs := step_of_advance Op.runIf_sem h
  cases hs with
  | op ho => exact ⟨ho.1, .op ho.2⟩

theorem nextStep_run {ok : StepOk} [∀ (β : Type) (o : Op β) (db : DB), Decidable (ok o db)]
    (is : List Nat) (c : Cfg) : FixesRun ok c (play (nextStep ok) is c) :=
  Run.play (fun p db ev p' db' h => (nextStep_procStep p db ev p' db' h).2)
    (fun c _ p ev p' db' _ h => (nextStep_procStep p c.shared ev p' db' h).1) .refl

/-- The row that an operation opens without a condition on its status. -/
def Op.opens {β : Type} : Op β → Option (FixesTable × Sha × Sha)
  | .updateConflictToOpen t k f _ _ => some (t, k, f)
  | _ => none

theorem conflictStillOpen_iff {β : Type} (o : Op β) (db : DB) : ConflictStillOpen o db ↔
    ∀ x ∈ o.opens, ∀ r ∈ (db.fixes x.1).rows, r.key = x.2 →
      r.status ≠ .MERGED ∧ r.status ≠ .ABANDONED := by
  cases o <;> simp [ConflictStillOpen, Op.opens]

instance : ∀ (β : Type) (o : Op β) (db : DB), Decidable (ConflictStillOpen o db) := fun _ o db =>
  decidable_of_iff _ (conflictStillOpen_iff o db).symm

/-- One fix, with its status. -/
def oneFix (status : InitialStatus) : DB where
  linuxUpstream := .ofRows [⟨"u", "", "p0"⟩, ⟨"f", "", "p1"⟩]
  upstreamFixes := .ofRows [⟨"u", "f"⟩]
  linuxStable := .empty
  linuxChrome := .ofRows [⟨"k", "5.4", some "u", "p2", ""⟩]
  previousFetch := .empty
  stableFixes := .empty
  chromeFixes := .ofRows [⟨"k", "f", "5.4", "now", none, none, status, status.toStatus, none⟩]

/-- The robot and one engineer who abandons the fix. -/
def robotAndEngineer (status : InitialStatus) : Cfg where
  shared := oneFix status
  procs := [fixupUnmergedPatches "5.4" chromeKernelMetadata, abandonFixCl none ["k", "f"] "" false]

/-- Two fixes of one commit: the first is MERGED, the second is in CONFLICT. -/
def mergedAndConflict : DB where
  linuxUpstream := .ofRows [⟨"u", "", "p0"⟩, ⟨"f", "", "p1"⟩, ⟨"g", "", "p3"⟩]
  upstreamFixes := .ofRows [⟨"u", "f"⟩, ⟨"u", "g"⟩]
  linuxStable := .empty
  linuxChrome := .ofRows [⟨"k", "5.4", some "u", "p2", ""⟩]
  previousFetch := .empty
  stableFixes := .empty
  chromeFixes := .ofRows [⟨"k", "f", "5.4", "now", none, none, .MERGED, .MERGED, none⟩,
    ⟨"k", "g", "5.4", "now", none, none, .CONFLICT, .CONFLICT, none⟩]

/-- The engineer asks for the merged one, while the robot makes a CL for the other one and opens its
row. -/
def robotOpens : List Nat := [0, 1, 1, 0, 0, 1, 0, 0]

/-- The robot's UPDATE meets its condition, and a MERGED row cannot be abandoned. -/
theorem merged_and_abandoned_kept_merged :
    let c : Cfg := ⟨mergedAndConflict,
      [fixupUnmergedPatches "5.4" chromeKernelMetadata, abandonFixCl none ["k", "f"] "" false]⟩
    (∃ r ∈ ((play (nextStep ConflictStillOpen) robotOpens c).shared.fixes .chromeFixes).rows,
      r.key = ("k", "g") ∧ r.status = .OPEN) ∧
    ∃ r ∈ ((play (nextStep ConflictStillOpen) robotOpens c).shared.fixes .chromeFixes).rows,
      r.key = ("k", "f") ∧ r.status = .MERGED :=
  ⟨by decide,
    (merged_and_abandoned_kept (.fixupUnmergedPatches "5.4" chromeKernelMetadata) .refl).1 _
    (nextStep_run robotOpens _) .chromeFixes ("k", "f")
    ⟨⟨"k", "f", "5.4", "now", none, none, .MERGED, .MERGED, none⟩, by decide, rfl, rfl⟩⟩

/-- The robot has read the row, the engineer has abandoned it, and the robot has made a CL. -/
def abandonedMeanwhile : Cfg := play (nextStep anyStep) [0, 1, 1, 1, 0, 0, 0]
    (robotAndEngineer .CONFLICT)

/-- The robot's UPDATE opens the row that the engineer has abandoned. -/
theorem abandoned_row_reopened :
    ¬ ∀ (robot : M Unit) (engineers : List (M Unit)) (db : DB) (c : Cfg),
    RobotPass robot → (∀ p ∈ engineers, EngineerCommand p) →
    FixesRun anyStep ⟨db, robot :: engineers⟩ c →
    ∀ i ev c', Interleave.Step procStep c i ev c' → StatusKept c i ev c' := by
  intro h
  have hkept := h _ _ _ abandonedMeanwhile (.fixupUnmergedPatches "5.4" chromeKernelMetadata)
    (fun p hp => List.mem_singleton.mp hp ▸ .abandonFixCl none ["k", "f"] "" false)
    (nextStep_run [0, 1, 1, 1, 0, 0, 0] (robotAndEngineer .CONFLICT)) 0
  have habandoned :
    (⟨"k", "f", "5.4", "now", some "now", none, .CONFLICT, .ABANDONED, some ""⟩ : FixRow) ∈
      (abandonedMeanwhile.shared.fixes .chromeFixes).rows := by decide
  have hopen : (⟨"k", "f", "5.4", "now", some "now", some "I1", .CONFLICT, .OPEN,
      some "Patch applies cleanly after originally conflicting."⟩ : FixRow) ∈
      ((play (nextStep anyStep) [0] abandonedMeanwhile).shared.fixes .chromeFixes).rows := by decide
  rcases step_of_play (fun p db ev p' db' (hn : nextStep anyStep p db = some (ev, p', db')) =>
      (nextStep_procStep p db ev p' db' hn).2) abandonedMeanwhile 0 with hstay | ⟨ev, hs⟩
  · rw [hstay] at hopen
    revert hopen
    decide
  · exact ((hkept ev _ hs).abandoned .chromeFixes _ habandoned rfl _ hopen rfl (.inl rfl)).1 rfl

end Findmissing
