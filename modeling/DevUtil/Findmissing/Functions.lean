import DevUtil.Findmissing.Operations

/-!
# The functions of findmissing

`cloudsql_interface.py`, `missing.py`, `synchronize_fixes_tables_with_gerrit`
of `synchronize.py` and the engineers' commands of `main.py`, as programs of
atomic operations.  Logging and printing are left out.
-/

namespace Findmissing

open Lib Prog

abbrev M := Prog Op Exn

/-- `cursor.execute`: an error is raised. -/
def sql {β : Type} (o : Op (Except SqlError β)) : M β :=
  perform o >>= fun b => match b with
    | .ok b => pure b
    | .error e => raise (.mysql e)

/-- A call of git or Gerrit that may raise. -/
def call {β : Type} (o : Op (Except Exn β)) : M β :=
  perform o >>= fun b => match b with
    | .ok b => pure b
    | .error e => raise e

/-- `try: p except MySQLdb.Error: pass`. -/
def ignoringSqlErrors (p : M Unit) : M Unit :=
  p.tryCatch fun e => match e with
    | .mysql _ => pure ()
    | e => raise e

/-! ## cloudsql_interface.py -/

def getFixesTablePrimaryKey (fixesTable : FixesTable) (fixChangeId : ChangeId) : M (Sha × Sha) := do
  match ← sql (.selectPrimaryKey fixesTable fixChangeId) with
  | some key => pure key
  | none => raise .typeError

def getFixStatusAndChangeid (fixesTables : List FixesTable) (shaList : List Sha) (strict : Bool) :
    M (List FixStatusRow) :=
  sql (.selectStatus fixesTables shaList (if shaList.length < 2 then false else strict))

def updateChangeAbandoned (fixesTable : FixesTable) (kernelSha fixedbyUpstreamSha : Sha)
    (reason : Option String) : M Unit := do
  let closeTime ← perform .getCurrentTime
  sql (.updateAbandoned fixesTable kernelSha fixedbyUpstreamSha closeTime reason)
  sql .commit

/-- The status of a restored fix: OPEN if there is a CL, else what it was at the start. -/
def restoredStatus (row : FixStatusRow) : Status :=
  if truthy row.fixChangeId then .OPEN else row.initialStatus.toStatus

theorem restoredStatus_ne_abandoned (row : FixStatusRow) : restoredStatus row ≠ .ABANDONED := by
  unfold restoredStatus
  split
  · simp
  · exact row.initialStatus.toStatus_ne_abandoned

def updateChangeRestored (fixesTable : FixesTable) (kernelSha fixedbyUpstreamSha : Sha)
    (reason : Option String) : M Unit := do
  let rows ← getFixStatusAndChangeid [fixesTable] [kernelSha, fixedbyUpstreamSha] true
  match rows with
  | [] => raise .indexError
  | row :: _ =>
    sql (.updateRestored fixesTable kernelSha fixedbyUpstreamSha (restoredStatus row) reason)
    sql .commit

def DEFAULT_MERGED_REASON : String := "Fix merged into linux chrome"

def updateChangeMerged (fixesTable : FixesTable) (kernelSha fixedbyUpstreamSha : Sha)
    (reason : String) : M Unit := do
  let closeTime ← perform .getCurrentTime
  sql (.updateMerged fixesTable kernelSha fixedbyUpstreamSha closeTime (some reason))
  sql .commit

/-- The status is set in the row that the Change-Id is looked up to, not in the row
that the caller read. -/
def updateChangeStatus (fixesTable : FixesTable) (fixChangeId : ChangeId) (status : Status) :
    M Unit := do
  let (kernelSha, fixedbyUpstreamSha) ← getFixesTablePrimaryKey fixesTable fixChangeId
  match status with
  | .OPEN => updateChangeRestored fixesTable kernelSha fixedbyUpstreamSha none
  | .ABANDONED => updateChangeAbandoned fixesTable kernelSha fixedbyUpstreamSha none
  | .MERGED => updateChangeMerged fixesTable kernelSha fixedbyUpstreamSha DEFAULT_MERGED_REASON
  | .CONFLICT => raise .valueError

def updateConflictToOpen (fixesTable : FixesTable) (kernelSha fixedbyUpstreamSha : Sha)
    (fixChangeId : Option ChangeId) : M Unit := do
  sql (.updateConflictToOpen fixesTable kernelSha fixedbyUpstreamSha fixChangeId
    (some "Patch applies cleanly after originally conflicting."))
  sql .commit

/-! ## synchronize.py -/

/-- `gerrit_to_db_status[gerrit_status]`. -/
def gerritStatusToDbStatus : GerritStatus → Except Exn Status
  | .NEW => .ok .OPEN
  | .ABANDONED => .ok .ABANDONED
  | .MERGED => .ok .MERGED
  | .other _ => .error .keyError

/-- The body of the loop over the rows; `except KeyError` goes on with the next row. -/
def synchronizeRow (fixesTable : FixesTable) (row : Branch × ChangeId) : M Unit :=
  tryCatch (do
    let (branch, fixChangeId) := row
    let gerritStatus ← call (.getStatus fixChangeId branch)
    match gerritStatusToDbStatus gerritStatus with
    | .ok status => updateChangeStatus fixesTable fixChangeId status
    | .error e => raise e) fun e =>
  if e = .keyError then pure () else raise e

def synchronizeFixesTable (fixesTable : FixesTable) : M Unit := do
  let rows ← sql (.selectSync fixesTable)
  each (synchronizeRow fixesTable) rows

def synchronizeFixesTablesWithGerrit : M Unit :=
  each synchronizeFixesTable [.stableFixes, .chromeFixes]

/-! ## missing.py -/

def upstreamShaToKernelSha (chosenTable : Kernel) (branch : Branch) (upstreamSha : Sha) :
    M (Option Sha) :=
  sql (.selectKernelSha chosenTable branch upstreamSha)

/-- `gerrit_interface.get_status` under `try ... except HTTPError: pass`: None when the
Change-Id is not in Gerrit. -/
def statusInGerrit (changeId : ChangeId) (branch : Branch) : M (Option GerritStatus) :=
  tryCatch (call (.getStatus changeId branch) >>= fun s => pure (some s)) fun e =>
    if e = .httpError then pure none else raise e

/-- `if change_id and branch: try: get_status`; None when nothing was found. -/
def statusIfListed : Option ChangeId → Option Branch → M (Option GerritStatus)
  | some c, some b => if c ≠ "" ∧ b ≠ "" then statusInGerrit c b else pure none
  | _, _ => pure none

/-- `change_id` and `status` after a lookup: an abandoned Change-Id does not replace another one. -/
def pickChangeId (changeId : Option ChangeId) (status : Option GerritStatus)
    (newId : Option ChangeId) :
    Option GerritStatus → Option ChangeId × Option GerritStatus
  | none => (changeId, status)
  | some newStatus =>
    if !truthy changeId || newStatus ≠ .ABANDONED then (newId, some newStatus)
    else (changeId, status)

/-- The loop of `get_change_id`: `change_id` and `status` so far, and the rows to come. -/
def getChangeIdLoop (changeId : Option ChangeId) (status : Option GerritStatus) :
    List (Option ChangeId × Option Branch × Option ChangeId × Option Branch) → M (Option ChangeId)
  | [] => pure changeId
  | (chromeChangeId, chromeBranch, stableChangeId, stableBranch) :: rows => do
    let chrome ← statusIfListed chromeChangeId chromeBranch
    let (changeId, status) := pickChangeId changeId status chromeChangeId chrome
    if chrome.isSome ∧ status ≠ some .ABANDONED then pure changeId
    else do
      let stable ← statusIfListed stableChangeId stableBranch
      let (changeId, status) := pickChangeId changeId status stableChangeId stable
      if status.isSome ∧ status ≠ some .ABANDONED then pure changeId
      else getChangeIdLoop changeId status rows

def getChangeId (sha : Sha) : M (Option ChangeId) := do
  let rows ← sql (.selectChangeIds sha)
  getChangeIdLoop none none rows

def findDuplicate (branch : Branch) (upstreamSha : Sha) : M (Option (Sha × Sha × Status)) :=
  sql (.selectDuplicate branch upstreamSha)

/-- The row that stands for a fix which is already queued or merged under another
upstream SHA. -/
def duplicateFix (kernelSha recordedUpstreamSha : Sha) (status : Status) (branch : Branch)
    (fixedbyUpstreamSha : Sha) (entryTime : Time) : NewFix where
  kernelSha := kernelSha
  fixedbyUpstreamSha := fixedbyUpstreamSha
  branch := branch
  entryTime := entryTime
  closeTime := some entryTime
  fixChangeId := none
  initialStatus := status
  -- OPEN becomes ABANDONED, everything else is kept
  status := if status = .OPEN then .ABANDONED else status
  reason :=
    some ("Already merged/queued into linux_chrome [upstream sha " ++ recordedUpstreamSha ++ "]")

/-- The row that stands for a fix which is already merged. -/
def mergedFix (chromeSha fixedbyUpstreamSha : Sha) (branch : Branch) (entryTime : Time) :
    NewFix where
  kernelSha := chromeSha
  fixedbyUpstreamSha := fixedbyUpstreamSha
  branch := branch
  entryTime := entryTime
  closeTime := some entryTime
  fixChangeId := none
  initialStatus := .MERGED
  status := .MERGED
  reason := some ("Already merged into linux_chrome [upstream sha " ++ fixedbyUpstreamSha ++ "]")

/-- Both INSERTs go to `chrome_fixes`, whatever table the caller works on. -/
def insertByPatchId (branch : Branch) (fixedbyUpstreamSha : Sha) : M Bool := do
  match ← findDuplicate branch fixedbyUpstreamSha with
  | some (kernelSha, recordedUpstreamSha, status) =>
    let entryTime ← perform .getCurrentTime
    ignoringSqlErrors do
      sql (.insertFix .chromeFixes (duplicateFix kernelSha recordedUpstreamSha status branch
        fixedbyUpstreamSha entryTime))
      sql .commit
    pure true
  | none =>
    let chromeShas ← sql (.selectByPatchId branch fixedbyUpstreamSha)
    if chromeShas = [] then pure false
    else
      each (fun chromeSha => do
        let entryTime ← perform .getCurrentTime
        ignoringSqlErrors do
          sql (.insertFix .chromeFixes (mergedFix chromeSha fixedbyUpstreamSha branch entryTime))
          sql .commit) chromeShas
      pure true

/-- The Change-Id of a fix that is already merged; stable commits have none. -/
def mergedChangeId (chosenTable : Kernel) : Option Sha → M (Option ChangeId)
  | some sha =>
    if chosenTable = .linuxChrome ∧ sha ≠ "" then call (.getCommitChangeid sha) else pure none
  | none => pure none

/-- The INSERT of `insert_fix_gerrit`. -/
def gerritFix (kernelSha fixedbyUpstreamSha : Sha) (branch : Branch) (entryTime : Time)
    (closeTime : Option Time) (fixChangeId : Option ChangeId) (clStatus : Status)
    (reason : Option String) : NewFix :=
  ⟨kernelSha, fixedbyUpstreamSha, branch, entryTime, closeTime, fixChangeId, clStatus,
    clStatus, reason⟩

/-- True if a new Gerrit CL was created. -/
def insertFixGerrit (chosenTable : Kernel) (chosenFixes : FixesTable) (branch : Branch)
    (kernelSha fixedbyUpstreamSha : Sha) : M Bool := do
  if ← insertByPatchId branch fixedbyUpstreamSha then pure false
  else
    let status ← call (.getCherrypickStatus branch fixedbyUpstreamSha)
    let entryTime ← perform .getCurrentTime
    let insert (closeTime : Option Time) (fixChangeId : Option ChangeId)
        (reason : Option String) : M Unit :=
      ignoringSqlErrors (sql (.insertFix chosenFixes (gerritFix kernelSha fixedbyUpstreamSha branch
        entryTime closeTime fixChangeId status reason)))
    match status with
    | .MERGED =>
      let fixedbyKernelSha ← upstreamShaToKernelSha chosenTable branch fixedbyUpstreamSha
      let fixChangeId ← mergedChangeId chosenTable fixedbyKernelSha
      insert (some entryTime) fixChangeId
        (some "Patch applied to linux_chrome before this robot was run")
      pure false
    | .OPEN =>
      let changeId ← getChangeId fixedbyUpstreamSha
      let fixChangeId ← call (.createChange kernelSha fixedbyUpstreamSha branch changeId)
      if truthy fixChangeId then
        insert none fixChangeId none
        pure true
      else pure false
    | .CONFLICT =>
      insert none none none
      pure false
    | .ABANDONED =>
      -- no branch of the `if`: get_cherrypick_status never answers ABANDONED
      insert none none none
      pure false

/-- The body of the loop over the unmerged rows. -/
def fixupRow (branch : Branch) (fixesTable : FixesTable)
    (row : Sha × Sha × Status × Option ChangeId) : M Unit := do
  let (kernelSha, fixedbyUpstreamSha, status, fixChangeId) := row
  let newStatus ← call (.getCherrypickStatus branch fixedbyUpstreamSha)
  if status = .CONFLICT ∧ newStatus = .OPEN then
    let changeId ← getChangeId fixedbyUpstreamSha
    let fixChangeId ← call (.createChange kernelSha fixedbyUpstreamSha branch changeId)
    if truthy fixChangeId then
      updateConflictToOpen fixesTable kernelSha fixedbyUpstreamSha fixChangeId
    else pure ()
  else if newStatus = .MERGED then
    let reason := "Fix was merged externally and detected by robot."
    if truthy fixChangeId then call (.abandonChange fixChangeId branch (some reason)) else pure ()
    updateChangeMerged fixesTable kernelSha fixedbyUpstreamSha reason
  else pure ()

def fixupUnmergedPatches (branch : Branch) (kernelMetadata : KernelMetadata) : M Unit := do
  let rows ← sql (.selectUnmerged kernelMetadata.kernelFixesTable branch)
  each (fixupRow branch kernelMetadata.kernelFixesTable) rows

def updateFixesInBranch (branch : Branch) (kernelMetadata : KernelMetadata) : M Unit := do
  let closeTime ← perform .getCurrentTime
  ignoringSqlErrors (sql (.updateInLinuxChrome kernelMetadata.kernelFixesTable branch closeTime
    (some "Patch has been applied to linux_chome")))
  sql .commit
  fixupUnmergedPatches branch kernelMetadata

/-- The loop of `create_new_fixes_in_branch`. -/
def createNewFixesLoop (kernelMetadata : KernelMetadata) (branch : Branch) (limit : Nat)
    (countNewChanges : Nat) : List (Sha × Sha) → M Nat
  | [] => pure countNewChanges
  | (kernelSha, fixedbyUpstreamSha) :: rows => do
    let newChange ← insertFixGerrit kernelMetadata.path kernelMetadata.kernelFixesTable
      branch kernelSha
      fixedbyUpstreamSha
    let countNewChanges := if newChange then countNewChanges + 1 else countNewChanges
    if countNewChanges ≥ limit then pure countNewChanges
    else createNewFixesLoop kernelMetadata branch limit countNewChanges rows

/-- The error of a failed SELECT is caught and logged; `fetchall` then raises one. -/
def createNewFixesInBranch (branch : Branch) (kernelMetadata : KernelMetadata) (limit : Nat) :
    M Nat := do
  call (.gitCheckout (kernelMetadata.getKernelBranch branch))
  let rows ← sql (.selectNewFixes kernelMetadata.path kernelMetadata.kernelFixesTable branch)
  let countNewChanges ← createNewFixesLoop kernelMetadata branch limit 0 rows
  sql .commit
  pure countNewChanges

/-- `missing_patches_sync` for the two callers that give no limit. -/
def missingPatchesSync (branches : List Branch) (kernelMetadata : KernelMetadata)
    (syncBranchMethod : Branch → KernelMetadata → M Unit) : M Unit :=
  each (fun b => syncBranchMethod b kernelMetadata) branches

def updateMissingPatches (branches : List Branch) : M Unit := do
  missingPatchesSync branches stableKernelMetadata updateFixesInBranch
  missingPatchesSync branches chromeKernelMetadata updateFixesInBranch

/-! ## main.py -/

def getFixesRows (fixesTable : Option FixesTable) (shaList : List Sha) (strict : Bool) :
    M (List FixStatusRow) :=
  getFixStatusAndChangeid (match fixesTable with
    | none => [.stableFixes, .chromeFixes]
    | some t => [t]) shaList strict

/-- The body of the loop of `abandon_fix_cl`. -/
def abandonRowCl (reason : String) (row : FixStatusRow) : M Unit :=
  if row.status = .ABANDONED then pure ()
  else if row.status ≠ .OPEN ∧ row.status ≠ .CONFLICT then pure ()
  else do
    if row.status = .OPEN then call (.abandonChange row.fixChangeId row.branch (some reason))
    else pure ()
    updateChangeAbandoned row.table row.kernelSha row.fixedbyUpstreamSha (some reason)

/-- The body of the loop of `restore_fix_cl`. -/
def restoreRowCl (reason : String) (row : FixStatusRow) : M Unit :=
  if row.status ≠ .ABANDONED then pure ()
  else do
    if truthy row.fixChangeId then call (.restoreChange row.fixChangeId row.branch (some reason))
    else pure ()
    updateChangeRestored row.table row.kernelSha row.fixedbyUpstreamSha (some reason)

/-- `abandon_fix_cl` and `restore_fix_cl` around their loop bodies. -/
def onFixRows (body : FixStatusRow → M Unit) (fixesTable : Option FixesTable) (shaList : List Sha)
    (force : Bool) : M Unit :=
  tryCatch (do
    let rows ← getFixesRows fixesTable shaList true
    if rows = [] then raise (.systemExit 1)
    else if rows.length > 1 ∧ force = false then raise (.systemExit 1)
    else do
      each body rows
      raise (.systemExit 0)) fun e =>
  if e = .keyError then raise (.systemExit 1) else raise e

def abandonFixCl (fixesTable : Option FixesTable) (shaList : List Sha) (reason : String)
    (force : Bool) :
    M Unit :=
  onFixRows (abandonRowCl reason) fixesTable shaList force

def restoreFixCl (fixesTable : Option FixesTable) (shaList : List Sha) (reason : String)
    (force : Bool) :
    M Unit :=
  onFixRows (restoreRowCl reason) fixesTable shaList force

end Findmissing
