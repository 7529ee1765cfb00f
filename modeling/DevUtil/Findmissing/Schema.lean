import DevUtil.Lib.Table

/-!
# The findmissing database

The tables of `scripts/sql/initialize_sql_tables.sql` and the queries that
`cloudsql_interface.py`, `missing.py` and `synchronize.py` send to them.

A row order is a list order: MySQL gives the rows of a query without ORDER BY
in the order of the index it picks, the same one from statement to statement.
`entry_time` and `close_time` are the texts that `get_current_time` returns.
-/

namespace Findmissing

open Lib

abbrev Sha := String
abbrev ChangeId := String
abbrev Branch := String
abbrev Time := String

/-- `common.Status`, the ENUM of the column `status`. -/
inductive Status
  | OPEN
  | MERGED
  | ABANDONED
  | CONFLICT
deriving DecidableEq, Repr

/-- The ENUM of the column `initial_status`: a fix is never abandoned at the start. -/
inductive InitialStatus
  | OPEN
  | MERGED
  | CONFLICT
deriving DecidableEq, Repr

def InitialStatus.toStatus : InitialStatus → Status
  | .OPEN => .OPEN
  | .MERGED => .MERGED
  | .CONFLICT => .CONFLICT

/-- The ENUM value for a status name, if the column has it. -/
def InitialStatus.ofStatus : Status → Option InitialStatus
  | .OPEN => some .OPEN
  | .MERGED => some .MERGED
  | .CONFLICT => some .CONFLICT
  | .ABANDONED => none

theorem InitialStatus.toStatus_ne_abandoned (s : InitialStatus) : s.toStatus ≠ .ABANDONED := by
  cases s <;> simp [toStatus]

/-- Python's truth value of a string or None. -/
def truthy : Option String → Bool
  | none => false
  | some s => s != ""

theorem isSome_of_truthy {s : Option String} (h : truthy s = true) : s.isSome = true := by
  cases s with
  | none => cases h
  | some _ => rfl

/-! ## Rows -/

structure UpstreamRow where
  sha : Sha
  description : String
  patchId : String
deriving DecidableEq

structure UpstreamFix where
  upstreamSha : Sha
  fixedbyUpstreamSha : Sha
deriving DecidableEq

def UpstreamFix.key (r : UpstreamFix) : Sha × Sha := (r.upstreamSha, r.fixedbyUpstreamSha)

structure StableRow where
  sha : Sha
  branch : Branch
  upstreamSha : Sha
  patchId : String
  description : String
deriving DecidableEq

structure ChromeRow where
  sha : Sha
  branch : Branch
  upstreamSha : Option Sha
  patchId : String
  description : String
deriving DecidableEq

/-- `common.Kernel`, as far as the tables name it. -/
inductive Kernel
  | linuxStable
  | linuxChrome
  | linuxUpstream
deriving DecidableEq, Repr

structure PreviousFetch where
  linux : Kernel
  branch : Branch
  shaTip : Sha
deriving DecidableEq

def PreviousFetch.key (r : PreviousFetch) : Kernel × Branch := (r.linux, r.branch)

/-- A row of `stable_fixes` or `chrome_fixes`. -/
structure FixRow where
  kernelSha : Sha
  fixedbyUpstreamSha : Sha
  branch : Branch
  entryTime : Time
  closeTime : Option Time
  fixChangeId : Option ChangeId
  initialStatus : InitialStatus
  status : Status
  reason : Option String
deriving DecidableEq

def FixRow.key (r : FixRow) : Sha × Sha := (r.kernelSha, r.fixedbyUpstreamSha)

/-- What no UPDATE of the status touches. -/
def FixRow.core (r : FixRow) : Sha × Sha × Branch × Time × Option ChangeId × InitialStatus :=
  (r.kernelSha, r.fixedbyUpstreamSha, r.branch, r.entryTime, r.fixChangeId, r.initialStatus)

/-! ## The database -/

inductive FixesTable
  | stableFixes
  | chromeFixes
deriving DecidableEq, Repr

structure DB where
  linuxUpstream : Table UpstreamRow.sha
  upstreamFixes : Table UpstreamFix.key
  linuxStable : Table StableRow.sha
  linuxChrome : Table ChromeRow.sha
  previousFetch : Table PreviousFetch.key
  stableFixes : Table FixRow.key
  chromeFixes : Table FixRow.key

namespace DB

/-- The state after `initialize_sql_tables.sql`. -/
def empty : DB := ⟨.empty, .empty, .empty, .empty, .empty, .empty, .empty⟩

def fixes (db : DB) : FixesTable → Table FixRow.key
  | .stableFixes => db.stableFixes
  | .chromeFixes => db.chromeFixes

def setFixes (db : DB) (t : FixesTable) (x : Table FixRow.key) : DB :=
  match t with
  | .stableFixes => { db with stableFixes := x }
  | .chromeFixes => { db with chromeFixes := x }

@[simp] theorem fixes_setFixes_self (db : DB) (t : FixesTable) (x : Table FixRow.key) :
    (db.setFixes t x).fixes t = x := by
  cases t <;> rfl

theorem fixes_setFixes_ne (db : DB) {t t' : FixesTable} (x : Table FixRow.key) (h : t' ≠ t) :
    (db.setFixes t x).fixes t' = db.fixes t' := by
  cases t <;> cases t' <;> first | rfl | exact absurd rfl h

theorem fixes_setFixes (db : DB) (t t' : FixesTable) (x : Table FixRow.key) :
    (db.setFixes t x).fixes t' = if t' = t then x else db.fixes t' := by
  split
  · next h => rw [h, fixes_setFixes_self]
  · next h => exact fixes_setFixes_ne db x h

@[simp] theorem setFixes_linuxUpstream (db : DB) (t : FixesTable) (x : Table FixRow.key) :
    (db.setFixes t x).linuxUpstream = db.linuxUpstream := by cases t <;> rfl

@[simp] theorem setFixes_upstreamFixes (db : DB) (t : FixesTable) (x : Table FixRow.key) :
    (db.setFixes t x).upstreamFixes = db.upstreamFixes := by cases t <;> rfl

@[simp] theorem setFixes_linuxStable (db : DB) (t : FixesTable) (x : Table FixRow.key) :
    (db.setFixes t x).linuxStable = db.linuxStable := by cases t <;> rfl

@[simp] theorem setFixes_linuxChrome (db : DB) (t : FixesTable) (x : Table FixRow.key) :
    (db.setFixes t x).linuxChrome = db.linuxChrome := by cases t <;> rfl

end DB

/-! ## Kernels -/

/-- A commit of `linux_stable` or `linux_chrome`, in the columns that both tables have. -/
structure KernelRow where
  sha : Sha
  branch : Branch
  upstreamSha : Option Sha
  patchId : String
deriving DecidableEq

/-- `common.KernelMetadata`, as far as `missing.py` reads it. -/
structure KernelMetadata where
  path : Kernel
  kernelFixesTable : FixesTable
  getKernelBranch : Branch → String

/-- Stable branch name. -/
def stableBranch (version : Branch) : String := "linux-" ++ version ++ ".y"

/-- Chromeos branch name. -/
def chromeosBranch (version : Branch) : String := "chromeos-" ++ version

def stableKernelMetadata : KernelMetadata := ⟨.linuxStable, .stableFixes, stableBranch⟩

def chromeKernelMetadata : KernelMetadata := ⟨.linuxChrome, .chromeFixes, chromeosBranch⟩

def StableRow.toKernelRow (r : StableRow) : KernelRow :=
  ⟨r.sha, r.branch, some r.upstreamSha, r.patchId⟩

def ChromeRow.toKernelRow (r : ChromeRow) : KernelRow := ⟨r.sha, r.branch, r.upstreamSha, r.patchId⟩

/-- The rows of the table named by `path`. -/
def DB.kernelRows (db : DB) : Kernel → List KernelRow
  | .linuxStable => db.linuxStable.rows.map StableRow.toKernelRow
  | .linuxChrome => db.linuxChrome.rows.map ChromeRow.toKernelRow
  | .linuxUpstream => []

/-! ## Queries -/

/-- A row of `get_fix_status_and_changeid`. -/
structure FixStatusRow where
  table : FixesTable
  branch : Branch
  kernelSha : Sha
  fixedbyUpstreamSha : Sha
  fixChangeId : Option ChangeId
  initialStatus : InitialStatus
  status : Status
deriving DecidableEq

def FixRow.toStatusRow (t : FixesTable) (r : FixRow) : FixStatusRow :=
  ⟨t, r.branch, r.kernelSha, r.fixedbyUpstreamSha, r.fixChangeId, r.initialStatus, r.status⟩

/-- `WHERE kernel_sha IN shas AND (or OR) fixedby_upstream_sha IN shas`. -/
def FixRow.named (shas : List Sha) (strict : Bool) (r : FixRow) : Bool :=
  if strict then shas.contains r.kernelSha && shas.contains r.fixedbyUpstreamSha
  else shas.contains r.kernelSha || shas.contains r.fixedbyUpstreamSha

namespace DB

/-- First row with a Change-Id (`get_fixes_table_primary_key`). -/
def rowOfChangeId (db : DB) (t : FixesTable) (changeId : ChangeId) : Option FixRow :=
  (db.fixes t).rows.find? fun r => decide (r.fixChangeId = some changeId)

def primaryKeyQuery (db : DB) (t : FixesTable) (changeId : ChangeId) : Option (Sha × Sha) :=
  (db.rowOfChangeId t changeId).map FixRow.key

def statusQuery (db : DB) (ts : List FixesTable) (shas : List Sha) (strict : Bool) :
    List FixStatusRow :=
  ts.flatMap fun t => ((db.fixes t).rows.filter (·.named shas strict)).map (·.toStatusRow t)

/-- The OPEN and ABANDONED rows with a Change-Id (`synchronize_fixes_tables_with_gerrit`). -/
def syncQuery (db : DB) (t : FixesTable) : List (Branch × ChangeId) :=
  (db.fixes t).rows.filterMap fun r =>
    if r.status = .OPEN ∨ r.status = .ABANDONED then r.fixChangeId.map fun c => (r.branch, c)
    else none

/-- The rows of a LEFT JOIN: the matches, or one NULL. -/
def orNull {α : Type} : List α → List (Option α)
  | [] => [none]
  | x :: xs => (x :: xs).map some

/-- Change-Ids and branches of both fixes tables, over all upstream commits with the
patch id of `sha` (`get_change_id`). -/
def changeIdQuery (db : DB) (sha : Sha) :
    List (Option ChangeId × Option Branch × Option ChangeId × Option Branch) :=
  let l1s := db.linuxUpstream.rows.filter fun l1 => decide (l1.sha = sha)
  l1s.flatMap fun l1 =>
    (db.linuxUpstream.rows.filter fun l2 => decide (l1.patchId = l2.patchId)).flatMap fun l2 =>
      (orNull (db.chromeFixes.rows.filter fun c => decide (c.fixedbyUpstreamSha = l2.sha))).flatMap
          fun c =>
        (orNull (db.stableFixes.rows.filter fun s => decide (s.fixedbyUpstreamSha = l2.sha))).map
            fun s =>
          (c.bind (·.fixChangeId), c.map (·.branch), s.bind (·.fixChangeId), s.map (·.branch))

/-- Rows of `chrome_fixes` on the branch whose fixer is another upstream commit with
the patch id of `upstreamSha`; the first one (`find_duplicate`). -/
def duplicateQuery (db : DB) (branch : Branch) (upstreamSha : Sha) : Option (Sha × Sha × Status) :=
  (db.chromeFixes.rows.flatMap fun c =>
    (db.linuxUpstream.rows.filter fun l1 => decide (c.fixedbyUpstreamSha = l1.sha)).flatMap
        fun l1 =>
      (db.linuxUpstream.rows.filter fun l2 => decide (l1.patchId = l2.patchId ∧ l1.sha ≠ l2.sha ∧
          c.branch = branch ∧ l2.sha = upstreamSha)).map fun _ =>
        (c.kernelSha, c.fixedbyUpstreamSha, c.status)).head?

/-- `(sha, fixedby)` is not in `SELECT kernel_sha, fixedby_upstream_sha ... WHERE branch`. -/
def untracked (db : DB) (t : FixesTable) (branch : Branch) (sha fixedby : Sha) : Bool :=
  (db.fixes t).rows.all fun r => !decide (r.branch = branch ∧ r.key = (sha, fixedby))

/-- The join of `insert_by_patch_id`: `lc.patch_id = lu.patch_id` for any upstream row
`lu`, and `lc.upstream_sha = uf.upstream_sha` for a row `uf` with the given fixer. -/
def patchIdQuery (db : DB) (branch : Branch) (fixedby : Sha) : List Sha :=
  db.linuxChrome.rows.flatMap fun lc =>
    (db.linuxUpstream.rows.filter fun lu => decide (lc.patchId = lu.patchId)).flatMap fun _ =>
      (db.upstreamFixes.rows.filter fun uf => decide (lc.upstreamSha = some uf.upstreamSha ∧
          uf.fixedbyUpstreamSha = fixedby ∧ lc.branch = branch) &&
          db.untracked .chromeFixes branch lc.sha uf.fixedbyUpstreamSha).map fun _ => lc.sha

/-- `upstream_sha_to_kernel_sha`. -/
def kernelShaQuery (db : DB) (chosenTable : Kernel) (branch : Branch) (upstreamSha : Sha) :
    Option Sha :=
  ((db.kernelRows chosenTable).find? fun r => decide (r.branch = branch) &&
    (decide (r.upstreamSha = some upstreamSha) ||
      db.linuxUpstream.rows.any fun lu =>
        decide (lu.sha = upstreamSha ∧ lu.patchId = r.patchId))).map (·.sha)

/-- `fixup_unmerged_patches`. -/
def unmergedQuery (db : DB) (t : FixesTable) (branch : Branch) :
    List (Sha × Sha × Status × Option ChangeId) :=
  ((db.fixes t).rows.filter fun r => decide (r.status ≠ .MERGED ∧ r.branch = branch)).map fun r =>
    (r.kernelSha, r.fixedbyUpstreamSha, r.status, r.fixChangeId)

/-- The fixes that a branch misses (`create_new_fixes_in_branch`). -/
def newFixesQuery (db : DB) (chosenTable : Kernel) (chosenFixes : FixesTable) (branch : Branch) :
    List (Sha × Sha) :=
  (db.kernelRows chosenTable).flatMap fun r =>
    (db.upstreamFixes.rows.filter fun uf => decide (r.upstreamSha = some uf.upstreamSha ∧
        r.branch = branch) && db.untracked chosenFixes branch r.sha
            uf.fixedbyUpstreamSha).map fun uf =>
      (r.sha, uf.fixedbyUpstreamSha)

/-- `lc.upstream_sha = fixedby` for some `lc` of the branch (`update_fixes_in_branch`). -/
def inLinuxChrome (db : DB) (branch : Branch) (fixedby : Sha) : Bool :=
  db.linuxChrome.rows.any fun lc => decide (lc.branch = branch ∧ lc.upstreamSha = some fixedby)

end DB

end Findmissing
