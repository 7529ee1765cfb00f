import DevUtil.Findmissing.Commands

/-!
# The rows of the fixes tables in every session

Two properties of rows that eight statements in three modules have to keep:

* `OpenHasChangeId`: an OPEN row has a CL;
* `ClosedHasCloseTime`: `close_time` is set exactly in MERGED and ABANDONED rows.

Neither holds in every session, both because of the row that `insert_by_patch_id`
adds for a duplicate.  The duplicate of an OPEN row is ABANDONED, initially OPEN
and has no Change-Id, so `restore_fix_cl` makes it an OPEN row without a CL
(`open_row_without_changeId`).  The duplicate of a CONFLICT row is a CONFLICT row
with a `close_time` (`conflict_row_with_closeTime`).

    every restore meets RestoreHasChangeId → AllRows OpenHasChangeId
    every step meets CloseTimeOk → AllRows ClosedHasCloseTime
-/

namespace Findmissing

open Lib Prog

/-! ## Properties of rows -/

def OpenHasChangeId (r : FixRow) : Prop := r.status = .OPEN → r.fixChangeId.isSome = true

def ClosedHasCloseTime (r : FixRow) : Prop :=
  r.closeTime.isSome = true ↔ r.status = .MERGED ∨ r.status = .ABANDONED

instance (r : FixRow) : Decidable (OpenHasChangeId r) :=
  inferInstanceAs (Decidable (r.status = .OPEN → r.fixChangeId.isSome = true))

instance (r : FixRow) : Decidable (ClosedHasCloseTime r) :=
  inferInstanceAs
    (Decidable (r.closeTime.isSome = true ↔ r.status = .MERGED ∨ r.status = .ABANDONED))

/-! ## Conditions on the steps -/

/-- An ABANDONED row without Change-Id is not restored to OPEN. -/
def RestoreHasChangeId : StepOk
  | _, .updateRestored t k f _ _, db =>
    ∀ r ∈ (db.fixes t).rows, r.key = (k, f) → r.status = .ABANDONED → r.fixChangeId = none →
      ∀ row ∈ (db.statusQuery [t] [k, f] true).head?, restoredStatus row ≠ .OPEN
  | _, _, _ => True

/-- A CONFLICT row is found as a duplicate only if its duplicate is in the table already,
and an ABANDONED row is not restored to MERGED. -/
def CloseTimeOk : StepOk
  | _, .selectDuplicate branch f, db =>
    ∀ x ∈ db.duplicateQuery branch f, x.2.2 = .CONFLICT →
      ∃ r ∈ (db.fixes .chromeFixes).rows, r.key = (x.1, f)
  | _, .updateRestored t k f _ _, db =>
    ∀ r ∈ (db.fixes t).rows, r.key = (k, f) → r.status = .ABANDONED →
      ∀ row ∈ (db.statusQuery [t] [k, f] true).head?, restoredStatus row ≠ .MERGED
  | _, _, _ => True

instance : ∀ (β : Type) (o : Op β) (db : DB), Decidable (RestoreHasChangeId o db) := by
  intro β o db
  cases o with
  | updateRestored t k f _ _ =>
    exact inferInstanceAs
      (Decidable (∀ r ∈ (db.fixes t).rows, r.key = (k, f) → r.status = .ABANDONED →
      r.fixChangeId = none →
        ∀ row ∈ (db.statusQuery [t] [k, f] true).head?, restoredStatus row ≠ .OPEN))
  | _ => exact inferInstanceAs (Decidable True)

instance : ∀ (β : Type) (o : Op β) (db : DB), Decidable (CloseTimeOk o db) := by
  intro β o db
  cases o with
  | selectDuplicate branch f =>
    exact inferInstanceAs (Decidable (∀ x ∈ db.duplicateQuery branch f, x.2.2 = .CONFLICT →
      ∃ r ∈ (db.fixes .chromeFixes).rows, r.key = (x.1, f)))
  | updateRestored t k f _ _ =>
    exact inferInstanceAs
      (Decidable (∀ r ∈ (db.fixes t).rows, r.key = (k, f) → r.status = .ABANDONED →
      ∀ row ∈ (db.statusQuery [t] [k, f] true).head?, restoredStatus row ≠ .MERGED))
  | _ => exact inferInstanceAs (Decidable True)

/-! ## Statements that keep the properties -/

/-- A statement of the lists below changes no row but those it selects. -/
theorem preserves_of_change {P : FixRow → Prop} {db : DB} {β : Type} {o : Op β}
    (hi : ∀ t row, ¬ RowInsert db t o row)
    (hc : ∀ t, ∀ r ∈ (db.fixes t).rows, P r → ∀ r', RowChange db t r o r' → P r') :
    Preserves P db o :=
  fun t => ⟨hc t, fun r' h => absurd h (hi t r')⟩

theorem preserves_insert {P : FixRow → Prop} {db : DB} {t : FixesTable} {row : NewFix}
    (h : ∀ i, InitialStatus.ofStatus row.initialStatus = some i →
      (∀ r ∈ (db.fixes t).rows, r.key ≠ (row.kernelSha, row.fixedbyUpstreamSha)) →
        P (row.toRow i)) :
    Preserves P db (.insertFix t row) := by
  intro t'
  refine ⟨fun r _ _ r' hc => (nomatch hc), fun r' hi => ?_⟩
  cases hi with
  | mk hi _ hno => exact h _ hi hno

theorem openHasChangeId_preserved : CommandsPreserve RestoreHasChangeId OpenHasChangeId where
  abandon db t k f time reason := by
    refine preserves_of_change (fun _ _ hi => nomatch hi) fun t' r hr _ r' hc => ?_
    cases hc with
    | abandon => intro h; cases h
  merge db t k f time reason := by
    refine preserves_of_change (fun _ _ hi => nomatch hi) fun t' r hr _ r' hc => ?_
    cases hc with
    | merge => intro h; cases h
  inLinuxChrome db t branch time reason := by
    refine preserves_of_change (fun _ _ hi => nomatch hi) fun t' r hr _ r' hc => ?_
    cases hc with
    | inLinuxChrome => intro h; cases h
  restore db t k f row reason hrow hok := by
    refine preserves_of_change (fun _ _ hi => nomatch hi) fun t' r hr _ r' hc => ?_
    cases hc with
    | restore hk hs =>
      intro hopen
      rw [Option.isSome_iff_ne_none]
      intro hnone
      exact hok r hr hk hs hnone row hrow hopen
  reopen db t k f changeId reason ht _ := by
    refine preserves_of_change (fun _ _ hi => nomatch hi) fun t' r hr _ r' hc => ?_
    cases hc with
    | reopen => exact fun _ => isSome_of_truthy ht
  duplicate db branch f k recorded status time _ _ := by
    refine preserves_insert fun i _ _ hopen => ?_
    simp only [duplicateFix, NewFix.toRow] at hopen
    split at hopen
    · cases hopen
    · contradiction
  merged db k f branch time := preserves_insert fun i _ _ hopen => nomatch hopen
  gerritMerged db t k f branch time changeId reason :=
    preserves_insert fun i _ _ hopen => nomatch hopen
  gerritOpen db t k f branch time changeId reason ht :=
    preserves_insert fun i _ _ _ => isSome_of_truthy ht
  gerritOther db t k f branch time status reason ho _ :=
    preserves_insert fun i _ _ hopen => absurd hopen ho

theorem closedHasCloseTime_preserved : CommandsPreserve CloseTimeOk ClosedHasCloseTime where
  abandon db t k f time reason := by
    refine preserves_of_change (fun _ _ hi => nomatch hi) fun t' r hr _ r' hc => ?_
    cases hc with
    | abandon => simp [ClosedHasCloseTime]
  merge db t k f time reason := by
    refine preserves_of_change (fun _ _ hi => nomatch hi) fun t' r hr _ r' hc => ?_
    cases hc with
    | merge => simp [ClosedHasCloseTime]
  inLinuxChrome db t branch time reason := by
    refine preserves_of_change (fun _ _ hi => nomatch hi) fun t' r hr _ r' hc => ?_
    cases hc with
    | inLinuxChrome => simp [ClosedHasCloseTime]
  restore db t k f row reason hrow hok := by
    refine preserves_of_change (fun _ _ hi => nomatch hi) fun t' r hr _ r' hc => ?_
    cases hc with
    | restore hk hs =>
      have hm : restoredStatus row ≠ .MERGED := hok r hr hk hs row hrow
      simp [ClosedHasCloseTime, hm, restoredStatus_ne_abandoned]
  reopen db t k f changeId reason _ hconflict := by
    refine preserves_of_change (fun _ _ hi => nomatch hi) fun t' r hr hP r' hc => ?_
    cases hc with
    | reopen hk =>
      -- `close_time` is left alone, so it has to be null before
      have hs := hconflict r hr hk
      simp only [ClosedHasCloseTime, hs, reduceCtorEq, or_self, iff_false] at hP ⊢
      exact hP
  duplicate db branch f k recorded status time hdup hok := by
    refine preserves_insert fun i hi hno => ?_
    have hc : status ≠ .CONFLICT := by
      rintro rfl
      obtain ⟨r, hr, hk⟩ := hok _ hdup rfl
      exact hno r hr hk
    cases status with
    | CONFLICT => exact absurd rfl hc
    | _ => simp [ClosedHasCloseTime, duplicateFix, NewFix.toRow]
  merged db k f branch time := preserves_insert fun i _ _ => by
    simp [ClosedHasCloseTime, mergedFix, NewFix.toRow]
  gerritMerged db t k f branch time changeId reason := preserves_insert fun i _ _ => by
    simp [ClosedHasCloseTime, gerritFix, NewFix.toRow]
  gerritOpen db t k f branch time changeId reason _ := preserves_insert fun i _ _ => by
    simp [ClosedHasCloseTime, gerritFix, NewFix.toRow]
  gerritOther db t k f branch time status reason _ hm := preserves_insert fun i hi _ => by
    cases status with
    | ABANDONED => cases hi
    | MERGED => exact absurd rfl hm
    | _ => simp [ClosedHasCloseTime, gerritFix, NewFix.toRow]

/-! ## Sessions on a small database -/

/-- One chrome commit `k`, which names the upstream commit `u`; `f1` and `f2` are the
same fix of `u` under two upstream SHAs. -/
def twoShasOfOneFix : DB where
  linuxUpstream := .ofRows [⟨"u", "", "p0"⟩, ⟨"f1", "", "p1"⟩, ⟨"f2", "", "p1"⟩]
  upstreamFixes := .ofRows [⟨"u", "f1"⟩, ⟨"u", "f2"⟩]
  linuxStable := .empty
  linuxChrome := .ofRows [⟨"k", "5.4", some "u", "p2", ""⟩]
  previousFetch := .empty
  stableFixes := .empty
  chromeFixes := .empty

theorem twoShasOfOneFix_fixes (t : FixesTable) : (twoShasOfOneFix.fixes t).rows = [] := by
  cases t <;> rfl

/-- The robot creates the fixes that are missing on 5.4. -/
def createFixes : M Unit :=
  createNewFixesInBranch "5.4" chromeKernelMetadata 10 >>= fun _ => pure ()

def abandonFix (f : Sha) : M Unit := abandonFixCl (some .chromeFixes) ["k", f] "" false

def restoreFix (f : Sha) : M Unit := restoreFixCl (some .chromeFixes) ["k", f] "" false

theorem createAbandonRestore_commands (f : Sha) :
    ∀ p ∈ [createFixes, abandonFix f, restoreFix f], Command p := by
  intro p hp
  rcases List.mem_cons.mp hp with rfl | hp
  · exact .createNewFixesInBranch _ _ _
  rcases List.mem_cons.mp hp with rfl | hp
  · exact .abandonFixCl _ _ _ _
  · rw [List.mem_singleton.mp hp]
    exact .restoreFixCl _ _ _ _

theorem createAbandonRestore_session (ok : StepOk)
    [∀ (β : Type) (o : Op β) (db : DB), Decidable (ok o db)] (status : Status) (f : Sha) :
    FixesSession ok twoShasOfOneFix (runCommands (gerritWorld status) ok
      [createFixes, abandonFix f, restoreFix f] twoShasOfOneFix) :=
  FixesSession.runCommands _ .start (createAbandonRestore_commands f)

/-! ## Top theorems -/

/-- In every session whose restores meet the condition, every OPEN row has a Change-Id. -/
theorem open_rows_have_changeId {db₀ db : DB} (h₀ : ∀ t, (db₀.fixes t).rows = [])
    (hs : FixesSession RestoreHasChangeId db₀ db) : AllRows OpenHasChangeId db :=
  hs.rows openHasChangeId_preserved h₀

theorem open_rows_have_changeId_restored :
    AllRows OpenHasChangeId (runCommands (gerritWorld .OPEN) RestoreHasChangeId
      [createFixes, abandonFix "f1", restoreFix "f1"] twoShasOfOneFix) :=
  open_rows_have_changeId twoShasOfOneFix_fixes (createAbandonRestore_session _ _ _)

/-- The duplicate `f2` of the OPEN row `f1`, restored: an OPEN row without a CL. -/
theorem open_row_without_changeId : ¬ ∀ db₀ db : DB, (∀ t, (db₀.fixes t).rows = []) →
    FixesSession anyStep db₀ db → AllRows OpenHasChangeId db := by
  intro h
  have hrows := h _ _ twoShasOfOneFix_fixes (createAbandonRestore_session _ .OPEN "f2")
  have hrow :=
    hrows .chromeFixes ⟨"k", "f2", "5.4", "now", none, none, .OPEN, .OPEN, some ""⟩ (by decide)
  exact absurd hrow (by decide)

/-- In every session whose steps meet the condition, `close_time` is set exactly in the
rows that are MERGED or ABANDONED. -/
theorem closed_rows_have_closeTime {db₀ db : DB} (h₀ : ∀ t, (db₀.fixes t).rows = [])
    (hs : FixesSession CloseTimeOk db₀ db) : AllRows ClosedHasCloseTime db :=
  hs.rows closedHasCloseTime_preserved h₀

theorem closed_rows_have_closeTime_restored :
    AllRows ClosedHasCloseTime (runCommands (gerritWorld .OPEN) CloseTimeOk
      [createFixes, abandonFix "f2", restoreFix "f2"] twoShasOfOneFix) :=
  closed_rows_have_closeTime twoShasOfOneFix_fixes (createAbandonRestore_session _ _ _)

/-- The duplicate `f2` of the CONFLICT row `f1`: a CONFLICT row with a `close_time`. -/
theorem conflict_row_with_closeTime : ¬ ∀ db₀ db : DB, (∀ t, (db₀.fixes t).rows = []) →
    FixesSession anyStep db₀ db → AllRows ClosedHasCloseTime db := by
  intro h
  have hs : FixesSession anyStep twoShasOfOneFix
      (runCommands (gerritWorld .CONFLICT) anyStep [createFixes] twoShasOfOneFix) :=
    FixesSession.runCommands _ .start (by
      intro p hp
      rw [List.mem_singleton.mp hp]
      exact .createNewFixesInBranch _ _ _)
  have hrows := h _ _ twoShasOfOneFix_fixes hs
  have hrow := hrows .chromeFixes ⟨"k", "f2", "5.4", "now", some "now", none, .CONFLICT, .CONFLICT,
    some "Already merged/queued into linux_chrome [upstream sha f1]"⟩ (by decide)
  exact absurd hrow (by decide)

end Findmissing
