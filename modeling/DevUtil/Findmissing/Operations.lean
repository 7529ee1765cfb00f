import DevUtil.Lib.Prog
import DevUtil.Findmissing.Schema

/-!
# The atomic operations of findmissing

Every SQL statement and every call of git or Gerrit is one operation.  `Op.sem`
says what an operation may answer and what it does to the database:

* a SELECT answers its query and changes nothing;
* an UPDATE or INSERT changes the rows it names; an INSERT that breaks the
  primary key, a foreign key or an ENUM is rejected;
* any statement may also fail with any error and then changes nothing;
* git, Gerrit and the clock answer whatever `ans` allows.

The fixes tables are changed by six statements only; `fixes_cases` says what
each of them can do to a row.
-/

namespace Findmissing

open Lib

/-! ## Errors -/

inductive SqlError
  | duplicateEntry
  | noReferencedRow
  | dataTruncated
  | failed (code : Nat)
deriving DecidableEq

/-- The exceptions of the Python code. -/
inductive Exn
  | mysql (e : SqlError)
  | keyError
  | indexError
  | typeError
  | valueError
  | httpError
  | calledProcessError
  | systemExit (code : Nat)
deriving DecidableEq

/-- A change's status in Gerrit. -/
inductive GerritStatus
  | NEW
  | ABANDONED
  | MERGED
  | other (name : String)
deriving DecidableEq

/-- The values of an INSERT into a fixes table; `initial_status` is sent as text. -/
structure NewFix where
  kernelSha : Sha
  fixedbyUpstreamSha : Sha
  branch : Branch
  entryTime : Time
  closeTime : Option Time
  fixChangeId : Option ChangeId
  initialStatus : Status
  status : Status
  reason : Option String

/-- The row that a NewFix becomes. -/
def NewFix.toRow (row : NewFix) (initialStatus : InitialStatus) : FixRow :=
  ⟨row.kernelSha, row.fixedbyUpstreamSha, row.branch, row.entryTime, row.closeTime, row.fixChangeId,
    initialStatus, row.status, row.reason⟩

/-! ## Operations -/

inductive Op : Type → Type
  -- SELECT
  | selectPrimaryKey (t : FixesTable) (changeId : ChangeId) :
      Op (Except SqlError (Option (Sha × Sha)))
  | selectStatus (ts : List FixesTable) (shas : List Sha) (strict : Bool) :
      Op (Except SqlError (List FixStatusRow))
  | selectSync (t : FixesTable) : Op (Except SqlError (List (Branch × ChangeId)))
  | selectChangeIds (sha : Sha) :
      Op
        (Except SqlError (List (Option ChangeId × Option Branch × Option ChangeId × Option Branch)))
  | selectDuplicate (branch : Branch) (sha : Sha) :
      Op (Except SqlError (Option (Sha × Sha × Status)))
  | selectByPatchId (branch : Branch) (sha : Sha) : Op (Except SqlError (List Sha))
  | selectKernelSha (chosenTable : Kernel) (branch : Branch) (sha : Sha) :
      Op (Except SqlError (Option Sha))
  | selectUnmerged (t : FixesTable) (branch : Branch) :
      Op (Except SqlError (List (Sha × Sha × Status × Option ChangeId)))
  | selectNewFixes (chosenTable : Kernel) (chosenFixes : FixesTable) (branch : Branch) :
      Op (Except SqlError (List (Sha × Sha)))
  -- UPDATE, INSERT, COMMIT
  | updateAbandoned (t : FixesTable) (kernelSha fixedby : Sha) (closeTime : Time)
      (reason : Option String) :
      Op (Except SqlError Unit)
  | updateRestored (t : FixesTable) (kernelSha fixedby : Sha) (status : Status)
      (reason : Option String) :
      Op (Except SqlError Unit)
  | updateMerged (t : FixesTable) (kernelSha fixedby : Sha) (closeTime : Time)
      (reason : Option String) :
      Op (Except SqlError Unit)
  | updateConflictToOpen (t : FixesTable) (kernelSha fixedby : Sha) (changeId : Option ChangeId)
      (reason : Option String) : Op (Except SqlError Unit)
  | updateInLinuxChrome (t : FixesTable) (branch : Branch) (closeTime : Time)
      (reason : Option String) :
      Op (Except SqlError Unit)
  | insertFix (t : FixesTable) (row : NewFix) : Op (Except SqlError Unit)
  | commit : Op (Except SqlError Unit)
  -- the clock, git and Gerrit
  | getCurrentTime : Op Time
  | gitCheckout (branchName : String) : Op (Except Exn Unit)
  | getCherrypickStatus (branch : Branch) (sha : Sha) : Op (Except Exn Status)
  | getCommitChangeid (sha : Sha) : Op (Except Exn (Option ChangeId))
  | getStatus (changeId : ChangeId) (branch : Branch) : Op (Except Exn GerritStatus)
  | createChange (kernelSha fixedby : Sha) (branch : Branch) (changeId : Option ChangeId) :
      Op (Except Exn (Option ChangeId))
  | abandonChange (changeId : Option ChangeId) (branch : Branch) (reason : Option String) :
      Op (Except Exn Unit)
  | restoreChange (changeId : Option ChangeId) (branch : Branch) (reason : Option String) :
      Op (Except Exn Unit)

/-! ## What the statements write -/

/-- `WHERE kernel_sha = k AND fixedby_upstream_sha = f`. -/
def FixRow.has (k f : Sha) (r : FixRow) : Bool := decide (r.key = (k, f))

namespace DB

/-- Only rows with status OPEN or CONFLICT are abandoned. -/
def abandonRow (db : DB) (t : FixesTable) (k f : Sha) (closeTime : Time) (reason : Option String) :
    DB :=
  db.setFixes t <| (db.fixes t).update
    (fun r => r.has k f && decide (r.status = .OPEN ∨ r.status = .CONFLICT))
    (fun r => { r with status := .ABANDONED, closeTime := some closeTime, reason := reason })
    (fun _ => rfl)

def restoreRow (db : DB) (t : FixesTable) (k f : Sha) (status : Status) (reason : Option String) :
    DB :=
  db.setFixes t <| (db.fixes t).update
    (fun r => r.has k f && decide (r.status = .ABANDONED))
    (fun r => { r with status := status, closeTime := none, reason := reason })
    (fun _ => rfl)

def mergeRow (db : DB) (t : FixesTable) (k f : Sha) (closeTime : Time) (reason : Option String) :
    DB :=
  db.setFixes t <| (db.fixes t).update (fun r => r.has k f)
    (fun r => { r with status := .MERGED, closeTime := some closeTime, reason := reason })
    (fun _ => rfl)

/-- No condition on the status, and `close_time` stays as it is. -/
def openRow (db : DB) (t : FixesTable) (k f : Sha) (changeId : Option ChangeId)
    (reason : Option String) :
    DB :=
  db.setFixes t <| (db.fixes t).update (fun r => r.has k f)
    (fun r => { r with status := .OPEN, fixChangeId := changeId, reason := reason })
    (fun _ => rfl)

/-- The rows of a branch whose fixer is in `linux_chrome`. -/
def mergeInLinuxChrome (db : DB) (t : FixesTable) (branch : Branch) (closeTime : Time)
    (reason : Option String) : DB :=
  db.setFixes t <| (db.fixes t).update
    (fun r => decide (r.branch = branch) && db.inLinuxChrome branch r.fixedbyUpstreamSha &&
      decide (r.status = .OPEN ∨ r.status = .CONFLICT ∨ r.status = .ABANDONED))
    (fun r => { r with status := .MERGED, closeTime := some closeTime, reason := reason })
    (fun _ => rfl)

/-- `kernel_sha` must be in `linux_stable` or `linux_chrome`, `fixedby_upstream_sha` in
`linux_upstream`. -/
def referenced (db : DB) (t : FixesTable) (k f : Sha) : Bool :=
  (match t with
    | .stableFixes => db.linuxStable.rows.any fun r => decide (r.sha = k)
    | .chromeFixes => db.linuxChrome.rows.any fun r => decide (r.sha = k)) &&
  db.linuxUpstream.rows.any fun r => decide (r.sha = f)

def insertRow (db : DB) (t : FixesTable) (row : NewFix) : Except SqlError DB :=
  match InitialStatus.ofStatus row.initialStatus with
  | none => .error .dataTruncated
  | some initialStatus =>
    if !db.referenced t row.kernelSha row.fixedbyUpstreamSha then .error .noReferencedRow
    else match (db.fixes t).insert (row.toRow initialStatus) with
      | none => .error .duplicateEntry
      | some x => .ok (db.setFixes t x)

end DB

/-! ## Semantics -/

/-- What git, Gerrit and the clock may answer. -/
abbrev Answers := ∀ ⦃β : Type⦄, Op β → β → Prop

def anyAnswer : Answers := fun _ _ _ => True

section
variable {β : Type} (db : DB)

/-- A query: its value, or an error. -/
def reads (q : β) (b : Except SqlError β) (db' : DB) : Prop :=
  db' = db ∧ (b = .ok q ∨ ∃ e, b = .error e)

/-- A statement that writes: it is done, or it fails. -/
def writes (x : Except SqlError DB) (b : Except SqlError Unit) (db' : DB) : Prop :=
  (x = .ok db' ∧ b = .ok ()) ∨ (db' = db ∧ ∃ e, b = .error e)

def asks (ans : Answers) (o : Op β) (b : β) (db' : DB) : Prop := db' = db ∧ ans o b

end

def Op.sem (ans : Answers) : Sem Op DB
  | _, .selectPrimaryKey t changeId, db, b, db' => reads db (db.primaryKeyQuery t changeId) b db'
  | _, .selectStatus ts shas strict, db, b, db' => reads db (db.statusQuery ts shas strict) b db'
  | _, .selectSync t, db, b, db' => reads db (db.syncQuery t) b db'
  | _, .selectChangeIds sha, db, b, db' => reads db (db.changeIdQuery sha) b db'
  | _, .selectDuplicate branch sha, db, b, db' => reads db (db.duplicateQuery branch sha) b db'
  | _, .selectByPatchId branch sha, db, b, db' => reads db (db.patchIdQuery branch sha) b db'
  | _, .selectKernelSha tab branch sha, db, b, db' =>
    reads db (db.kernelShaQuery tab branch sha) b db'
  | _, .selectUnmerged t branch, db, b, db' => reads db (db.unmergedQuery t branch) b db'
  | _, .selectNewFixes tab t branch, db, b, db' => reads db (db.newFixesQuery tab t branch) b db'
  | _, .updateAbandoned t k f time reason, db, b, db' =>
      writes db (.ok (db.abandonRow t k f time reason)) b db'
  | _, .updateRestored t k f status reason, db, b, db' =>
      writes db (.ok (db.restoreRow t k f status reason)) b db'
  | _, .updateMerged t k f time reason, db, b, db' =>
    writes db (.ok (db.mergeRow t k f time reason)) b db'
  | _, .updateConflictToOpen t k f changeId reason, db, b, db' =>
      writes db (.ok (db.openRow t k f changeId reason)) b db'
  | _, .updateInLinuxChrome t branch time reason, db, b, db' =>
      writes db (.ok (db.mergeInLinuxChrome t branch time reason)) b db'
  | _, .insertFix t row, db, b, db' => writes db (db.insertRow t row) b db'
  | _, .commit, db, b, db' => writes db (.ok db) b db'
  | _, .getCurrentTime, db, b, db' => asks db ans .getCurrentTime b db'
  | _, .gitCheckout name, db, b, db' => asks db ans (.gitCheckout name) b db'
  | _, .getCherrypickStatus branch sha, db, b, db' =>
    asks db ans (.getCherrypickStatus branch sha) b db'
  | _, .getCommitChangeid sha, db, b, db' => asks db ans (.getCommitChangeid sha) b db'
  | _, .getStatus changeId branch, db, b, db' => asks db ans (.getStatus changeId branch) b db'
  | _, .createChange k f branch changeId, db, b, db' =>
    asks db ans (.createChange k f branch changeId) b db'
  | _, .abandonChange changeId branch reason, db, b, db' =>
      asks db ans (.abandonChange changeId branch reason) b db'
  | _, .restoreChange changeId branch reason, db, b, db' =>
      asks db ans (.restoreChange changeId branch reason) b db'

/-! ## One run -/

/-- What git, Gerrit and the clock answer in a run where the answers depend on the call only. -/
structure World where
  getCurrentTime : Time
  gitCheckout : String → Except Exn Unit
  getCherrypickStatus : Branch → Sha → Except Exn Status
  getCommitChangeid : Sha → Except Exn (Option ChangeId)
  getStatus : ChangeId → Branch → Except Exn GerritStatus
  createChange : Sha → Sha → Branch → Option ChangeId → Except Exn (Option ChangeId)
  abandonChange : Option ChangeId → Branch → Except Exn Unit
  restoreChange : Option ChangeId → Branch → Except Exn Unit

/-- Every cherry-pick ends with `status`; Gerrit accepts everything. -/
def gerritWorld (status : Status) : World where
  getCurrentTime := "now"
  gitCheckout _ := .ok ()
  getCherrypickStatus _ _ := .ok status
  getCommitChangeid _ := .ok none
  getStatus _ _ := .ok .NEW
  createChange _ _ _ _ := .ok (some "I1")
  abandonChange _ _ := .ok ()
  restoreChange _ _ := .ok ()

/-- The answer and the next database when no statement fails for a reason of its own. -/
def Op.run (w : World) : ∀ ⦃β : Type⦄, Op β → DB → β × DB
  | _, .selectPrimaryKey t changeId, db => (.ok (db.primaryKeyQuery t changeId), db)
  | _, .selectStatus ts shas strict, db => (.ok (db.statusQuery ts shas strict), db)
  | _, .selectSync t, db => (.ok (db.syncQuery t), db)
  | _, .selectChangeIds sha, db => (.ok (db.changeIdQuery sha), db)
  | _, .selectDuplicate branch sha, db => (.ok (db.duplicateQuery branch sha), db)
  | _, .selectByPatchId branch sha, db => (.ok (db.patchIdQuery branch sha), db)
  | _, .selectKernelSha tab branch sha, db => (.ok (db.kernelShaQuery tab branch sha), db)
  | _, .selectUnmerged t branch, db => (.ok (db.unmergedQuery t branch), db)
  | _, .selectNewFixes tab t branch, db => (.ok (db.newFixesQuery tab t branch), db)
  | _, .updateAbandoned t k f time reason, db => (.ok (), db.abandonRow t k f time reason)
  | _, .updateRestored t k f status reason, db => (.ok (), db.restoreRow t k f status reason)
  | _, .updateMerged t k f time reason, db => (.ok (), db.mergeRow t k f time reason)
  | _, .updateConflictToOpen t k f changeId reason, db => (.ok (), db.openRow t k f changeId reason)
  | _, .updateInLinuxChrome t branch time reason, db =>
    (.ok (), db.mergeInLinuxChrome t branch time reason)
  | _, .insertFix t row, db =>
    match db.insertRow t row with
    | .ok db' => (.ok (), db')
    | .error e => (.error e, db)
  | _, .commit, db => (.ok (), db)
  | _, .getCurrentTime, db => (w.getCurrentTime, db)
  | _, .gitCheckout name, db => (w.gitCheckout name, db)
  | _, .getCherrypickStatus branch sha, db => (w.getCherrypickStatus branch sha, db)
  | _, .getCommitChangeid sha, db => (w.getCommitChangeid sha, db)
  | _, .getStatus changeId branch, db => (w.getStatus changeId branch, db)
  | _, .createChange k f branch changeId, db => (w.createChange k f branch changeId, db)
  | _, .abandonChange changeId branch _, db => (w.abandonChange changeId branch, db)
  | _, .restoreChange changeId branch _, db => (w.restoreChange changeId branch, db)

/-- `Op.run` is one of the behaviours of `Op.sem`. -/
theorem Op.run_sem {ans : Answers} (w : World) {β : Type} (o : Op β) (db : DB)
    (h : ans o (o.run w db).1) : Op.sem ans o db (o.run w db).1 (o.run w db).2 := by
  cases o with
  | insertFix t row =>
    simp only [Op.run, Op.sem, writes]
    split
    · next db' hdb => exact .inl ⟨hdb, rfl⟩
    · next e _ => exact .inr ⟨rfl, e, rfl⟩
  | updateAbandoned | updateRestored | updateMerged | updateConflictToOpen | updateInLinuxChrome
  | commit => exact .inl ⟨rfl, rfl⟩
  | selectPrimaryKey | selectStatus | selectSync | selectChangeIds | selectDuplicate
  | selectByPatchId
  | selectKernelSha | selectUnmerged | selectNewFixes => exact ⟨rfl, .inl rfl⟩
  | _ => exact ⟨rfl, h⟩

end Findmissing
