import Mathlib.Data.List.Dedup
import DevUtil.Findmissing.KernelVersions
import DevUtil.Findmissing.SubsequentFixes

/-!
# `getopen.py`

The report of the fixes that are open.  A fixer is reported once, from the first row that
has it; the branches listed for it are those of the one commit that this row names.

    a run reports the first row of each fixer          (reports_branches)
    every open row is accounted for ↔ the commit of the first row
      with its fixer accounts for its branch           (report_integration_status_iff)
-/

namespace Findmissing

open Lib

/-! ## The kernels -/

def STABLE_BRANCHES : List Branch := ["4.4", "4.9", "4.14", "4.19", "5.4", "5.7", "5.8"]

def CHROMEOS_BRANCHES : List Branch := ["4.4", "4.14", "4.19", "5.4"]

inductive Repository
  | linuxStable
  | linuxStableRc
  | linuxChrome
deriving DecidableEq

/-- `common.KernelMetadata`, as far as `getopen.py` reads it. -/
structure OpenMetadata where
  path : Repository
  kernelFixesTable : FixesTable
  branches : List Branch
  branches_ne : branches ≠ []

def openMetadata (isChromium : Bool) : OpenMetadata :=
  if isChromium then ⟨.linuxChrome, .chromeFixes, CHROMEOS_BRANCHES, by decide⟩
  else ⟨.linuxStable, .stableFixes, STABLE_BRANCHES, by decide⟩

/-- `branch_name_pattern % branch` -/
def branchName : FixesTable → Branch → String
  | .stableFixes => stableBranch
  | .chromeFixes => chromeosBranch

/-- What git answers. -/
structure Repos where
  /-- `get_integrated_tag` of a sha -/
  integratedTag : Sha → Option String
  /-- `get_cherrypick_status` -/
  cherrypickStatus : Repository → (mergeBase branchName : String) → Sha → Status

inductive ReportError
  | typeError
  | list (e : ListError)
deriving DecidableEq

/-- An argument of a command must be a string. -/
def getIntegratedTag (repos : Repos) : Option Sha → Except ReportError (Option String)
  | some sha => .ok (repos.integratedTag sha)
  | none => .error .typeError

/-! ## Queries -/

/-- A row of `linux_stable` or `linux_chrome`. -/
structure KernelCommit where
  sha : Sha
  branch : Branch
  upstreamSha : Option Sha
  description : String

def StableRow.toKernelCommit (r : StableRow) : KernelCommit :=
  ⟨r.sha, r.branch, some r.upstreamSha, r.description⟩

def ChromeRow.toKernelCommit (r : ChromeRow) : KernelCommit :=
  ⟨r.sha, r.branch, r.upstreamSha, r.description⟩

namespace DB

/-- The table that goes with a fixes table. -/
def kernelCommits (db : DB) : FixesTable → List KernelCommit
  | .stableFixes => db.linuxStable.rows.map StableRow.toKernelCommit
  | .chromeFixes => db.linuxChrome.rows.map ChromeRow.toKernelCommit

def kernelCommit (db : DB) (t : FixesTable) (sha : Sha) : Option KernelCommit :=
  (db.kernelCommits t).find? fun k => decide (k.sha = sha)

end DB

/-- A row of the query of `report_integration_status_branch`. -/
structure OpenRow where
  fixedbySha : Sha
  fixedbyDescription : String
  fixesSha : Option Sha
  fixesDescription : String

namespace DB

/-- The JOINs, each on a primary key. -/
def joinFix (db : DB) (t : FixesTable) (ct : FixRow) : Option OpenRow :=
  (db.linuxUpstream.lookup ct.fixedbyUpstreamSha).bind fun lu =>
    (db.kernelCommit t ct.kernelSha).map fun k =>
      ⟨ct.fixedbyUpstreamSha, lu.description, k.upstreamSha, k.description⟩

def fixesWith (db : DB) (t : FixesTable) (status : Status) (branch : Branch) : List FixRow :=
  (db.fixes t).rows.filter fun ct => decide (ct.status = status ∧ ct.branch = branch)

def openQuery (db : DB) (t : FixesTable) (status : Status) (branch : Branch) : List OpenRow :=
  (db.fixesWith t status branch).filterMap (db.joinFix t)

/-- `SELECT sha, branch FROM table WHERE upstream_sha = fixesSha`; no row is equal to NULL. -/
def fixRowsQuery (db : DB) (t : FixesTable) : Option Sha → List (Sha × Branch)
  | some fixesSha =>
    ((db.kernelCommits t).filter fun k => decide (k.upstreamSha = some fixesSha)).map fun k =>
      (k.sha, k.branch)
  | none => []

/-- `SELECT sha, description FROM linux_upstream WHERE sha IN shas ORDER BY FIELD(sha, shas)`. -/
def descriptionsQuery (db : DB) (shas : List Sha) : List (Sha × String) :=
  shas.filterMap fun sha => (db.linuxUpstream.lookup sha).map fun r => (r.sha, r.description)

end DB

/-! ## The report -/

/-- What is printed of one fixer. -/
structure FixerReport where
  fixedbySha : Sha
  fixedbyDescription : String
  integrated : Option String
  fixesSha : Option Sha
  fixesDescription : String
  /-- the branch names and commits of `in ...` -/
  inBranches : List (String × Sha)
  upstream : Option String
  /-- the branches with the lines printed of them -/
  affected : List (Branch × String)
  fixedBy : List (Sha × String)

def orEmpty : Option String → String
  | some s => s
  | none => "None"

def FixerReport.lines (r : FixerReport) : List String :=
  ["Upstream commit " ++ r.fixedbySha ++ " (\"" ++ r.fixedbyDescription ++ "\")",
    "  upstream: " ++ (if truthy r.integrated then orEmpty r.integrated else "ToT"),
    "    Fixes: " ++ orEmpty r.fixesSha ++ " (\"" ++ r.fixesDescription ++ "\")"] ++
  r.inBranches.map (fun fix => "      in " ++ fix.1 ++ ": " ++ fix.2) ++
  (if truthy r.upstream then ["      upstream: " ++ orEmpty r.upstream] else []) ++
  (if r.affected = [] then [] else "    Affected branches:" :: r.affected.map Prod.snd) ++
  (if r.fixedBy = [] then [] else "    Fixed by:" :: r.fixedBy.map fun fix => "      " ++ fix.1 ++
    " (\"" ++ fix.2 ++ "\")")

/-- The line that `report_integration_status_sha` prints. -/
def reportIntegrationStatusSha (repos : Repos) (repository : Repository)
    (mergeBase branchName : String) (sha : Sha) :
    String :=
  let rcStatus := if repository = .linuxStable then
    repos.cherrypickStatus .linuxStableRc mergeBase branchName sha else .OPEN
  let disposition := match repos.cherrypickStatus repository mergeBase branchName sha with
    | .CONFLICT => if rcStatus = .MERGED then " (queued)" else " (conflicts - backport needed)"
    | .MERGED => " (already applied)"
    | _ => if rcStatus = .MERGED then " (queued)" else ""
  "      " ++ branchName ++ disposition

def byOrder (branches : List Branch) : List Branch :=
  branches.insertionSort fun x y => branchOrder x ≤ branchOrder y

section

variable (db : DB) (repos : Repos) (m : OpenMetadata)

/-- The rows of the commit that is fixed, on the branches supported. -/
def fixRows (row : OpenRow) : List (Sha × Branch) :=
  ((db.fixRowsQuery m.kernelFixesTable row.fixesSha).insertionSort fun x y => branchOrder x.2 ≤
    branchOrder y.2).filter
    fun fix => decide (fix.2 ∈ m.branches)

/-- What is printed of a row; `versions` are the branches of `version_list`. -/
def reportOf (row : OpenRow) (integrated start : Option String) (versions : List Branch) :
    FixerReport :=
  let fixRows := fixRows db m row
  let affected := byOrder (fixRows.map Prod.snd ++ versions).dedup
  { fixedbySha := row.fixedbySha
    fixedbyDescription := row.fixedbyDescription
    integrated := integrated
    fixesSha := row.fixesSha
    fixesDescription := row.fixesDescription
    inBranches := fixRows.map fun fix => (branchName m.kernelFixesTable fix.2, fix.1)
    upstream := start
    affected := affected.map fun branch => (branch,
      reportIntegrationStatusSha repos m.path ("v" ++ branch)
        (branchName m.kernelFixesTable branch) row.fixedbySha)
    -- the fixer itself comes first
    fixedBy := db.descriptionsQuery
      ((getSubsequentFixes (db.upstreamFixes.rows.length + 2) db row.fixedbySha).getD []).tail }

/-- The body of the loop, for a fixer that has not been handled. -/
def reportRow (row : OpenRow) : Except ReportError FixerReport := do
  let integrated ← getIntegratedTag repos (some row.fixedbySha)
  let start ← getIntegratedTag repos row.fixesSha
  let versions ← (versionList m.branches start integrated).mapError .list
  return reportOf db repos m row integrated start versions

inductive Printed
  | heading (branch : Branch)
  | report (r : FixerReport)

def Printed.lines : Printed → List String
  | .heading branch => ["", "Branch: linux-" ++ branch ++ ".y", ""]
  | .report r => r.lines

/-- What has been printed; of a report that an exception ends nothing is kept. -/
structure Reported where
  handledShas : List Sha
  printed : List Printed

def Reported.reports (s : Reported) : List FixerReport :=
  s.printed.filterMap fun
    | .heading _ => none
    | .report r => some r

def reportRows : List OpenRow → Reported → Reported × Except ReportError Unit
  | [], s => (s, .ok ())
  | row :: rows, s =>
    if row.fixedbySha ∈ s.handledShas then reportRows rows s
    else
      match reportRow db repos m row with
      | .ok r => reportRows rows ⟨s.handledShas ++ [row.fixedbySha], s.printed ++ [.report r]⟩
      | .error e => (⟨s.handledShas ++ [row.fixedbySha], s.printed⟩, .error e)

def statusOf (conflicts : Bool) : Status := if conflicts then .CONFLICT else .OPEN

def reportIntegrationStatusBranch (branch : Branch) (conflicts : Bool) (s : Reported) :
    Reported × Except ReportError Unit :=
  reportRows db repos m (db.openQuery m.kernelFixesTable (statusOf conflicts) branch) s

def reportBranches (conflicts : Bool) : List Branch → Reported → Reported × Except ReportError Unit
  | [], s => (s, .ok ())
  | b :: branches, s =>
    match reportIntegrationStatusBranch db repos m b conflicts
        { s with printed := s.printed ++ [.heading b] } with
    | (s, .ok _) => reportBranches conflicts branches s
    | (s, .error e) => (s, .error e)

end

/-- The databases are read as they are; the repositories have been synchronized before. -/
def reportIntegrationStatus (db : DB) (repos : Repos) (branch : Option Branch)
    (conflicts isChromium : Bool) :
    Reported × Except ReportError Unit :=
  let m := openMetadata isChromium
  match branch with
  | some b =>
    if b = "" then reportBranches db repos m conflicts m.branches ⟨[], []⟩
    else reportIntegrationStatusBranch db repos m b conflicts ⟨[], []⟩
  | none => reportBranches db repos m conflicts m.branches ⟨[], []⟩

/-! ## What is reported -/

section

variable {db : DB} {repos : Repos} {m : OpenMetadata} {rows rows' : List OpenRow}
  {s s' s'' : Reported}
  {r : Except ReportError Unit}

/-- The rows that are new when they are come to. -/
def newRows (handled : List Sha) (rows : List OpenRow) : List OpenRow :=
  firsts OpenRow.fixedbySha handled rows

/-- The new rows are reported, up to one whose report raises. -/
structure Reports (db : DB) (repos : Repos) (m : OpenMetadata) (rows : List OpenRow)
    (s s' : Reported) (r : Except ReportError Unit) : Prop where
  kept : s.reports ⊆ s'.reports
  sound : ∀ report ∈ s'.reports, report ∈ s.reports ∨
    ∃ row ∈ newRows s.handledShas rows, reportRow db repos m row = .ok report
  complete : (∀ row ∈ newRows s.handledShas rows, ∃ report, reportRow db repos m row = .ok report) →
    r = .ok () ∧ ∀ row ∈ newRows s.handledShas rows, ∀ report, reportRow db repos m row =
      .ok report → report ∈ s'.reports
  handled : r = .ok () → s'.handledShas = s.handledShas ++
    (newRows s.handledShas rows).map OpenRow.fixedbySha

theorem reports_nil (s : Reported) : Reports db repos m [] s s (.ok ()) where
  kept := fun _ h => h
  sound := fun _ h => .inl h
  complete := fun _ => ⟨rfl, List.forall_mem_nil _⟩
  handled := fun _ => (List.append_nil _).symm

theorem reports_concat (handled : List Sha) (printed : List Printed) (report : FixerReport) :
    (Reported.mk handled (printed ++ [.report report])).reports =
      (Reported.mk handled printed).reports ++ [report] := by
  simp [Reported.reports]

theorem reports_rows : ∀ (rows : List OpenRow) (s : Reported),
    Reports db repos m rows s (reportRows db repos m rows s).1
      (reportRows db repos m rows s).2 := by
  intro rows
  induction rows with
  | nil => exact reports_nil
  | cons row rows ih =>
    intro s
    unfold reportRows
    by_cases hin : row.fixedbySha ∈ s.handledShas
    · have hnew : newRows s.handledShas (row :: rows) = newRows s.handledShas rows := by
        unfold newRows
        rw [firsts_cons, if_pos hin]
      rw [if_pos hin]
      obtain ⟨hkept, hsound, hcomplete, hhandled⟩ := ih s
      exact ⟨hkept, by
          rw [hnew]; exact hsound, by rw [hnew]; exact hcomplete, by rw [hnew]; exact hhandled⟩
    · have hnew : newRows s.handledShas (row :: rows) =
          row :: newRows (s.handledShas ++ [row.fixedbySha]) rows := by
        unfold newRows
        rw [firsts_cons, if_neg hin]
      rw [if_neg hin]
      cases hrow : reportRow db repos m row with
      | error e =>
        refine ⟨fun _ h => h, fun _ h => .inl h, fun hall => ?_, fun h => (by cases h)⟩
        rw [hnew] at hall
        obtain ⟨report, hreport⟩ := hall row List.mem_cons_self
        rw [hrow] at hreport
        cases hreport
      | ok report =>
        obtain ⟨hkept, hsound, hcomplete, hhandled⟩ :=
          ih ⟨s.handledShas ++ [row.fixedbySha], s.printed ++ [.report report]⟩
        rw [reports_concat] at hkept hsound
        simp only
        refine ⟨fun x hx => hkept (List.mem_append_left _ hx),
          fun x hx => ?_, fun hall => ?_, fun hok => ?_⟩
        · rw [hnew]
          rcases hsound x hx with hx | ⟨row', hrow', hx⟩
          · rcases List.mem_append.mp hx with hx | hx
            · exact .inl hx
            · rw [List.mem_singleton.mp hx]
              exact .inr ⟨row, List.mem_cons_self, hrow⟩
          · exact .inr ⟨row', List.mem_cons_of_mem row hrow', hx⟩
        · rw [hnew] at hall ⊢
          obtain ⟨hok, hin⟩ :=
            hcomplete fun row' hrow' => hall row' (List.mem_cons_of_mem row hrow')
          refine ⟨hok, fun row' hrow' report' hreport' => ?_⟩
          rcases List.mem_cons.mp hrow' with rfl | hrow'
          · rw [hrow] at hreport'
            obtain rfl := Except.ok.inj hreport'
            exact hkept (List.mem_append_right _ (List.mem_singleton.mpr rfl))
          · exact hin row' hrow' report' hreport'
        · rw [hnew, hhandled hok, List.map_cons, List.append_assoc]
          rfl

theorem Reports.append (h : Reports db repos m rows s s' (.ok ()))
    (h' : Reports db repos m rows' s' s'' r) :
    Reports db repos m (rows ++ rows') s s'' r := by
  have hnew : newRows s.handledShas (rows ++ rows') = newRows s.handledShas rows ++
      newRows s'.handledShas rows' := by
    rw [h.handled rfl]
    exact firsts_append s.handledShas rows rows'
  refine ⟨fun x hx => h'.kept (h.kept hx), fun x hx => ?_, fun hall => ?_, fun hok => ?_⟩
  · rw [hnew]
    rcases h'.sound x hx with hx | ⟨row, hrow, hx⟩
    · rcases h.sound x hx with hx | ⟨row, hrow, hx⟩
      · exact .inl hx
      · exact .inr ⟨row, List.mem_append_left _ hrow, hx⟩
    · exact .inr ⟨row, List.mem_append_right _ hrow, hx⟩
  · rw [hnew] at hall ⊢
    obtain ⟨-, hin⟩ := h.complete fun row hrow => hall row (List.mem_append_left _ hrow)
    obtain ⟨hok, hin'⟩ := h'.complete fun row hrow => hall row (List.mem_append_right _ hrow)
    refine ⟨hok, fun row hrow report hreport => ?_⟩
    rcases List.mem_append.mp hrow with hrow | hrow
    · exact h'.kept (hin row hrow report hreport)
    · exact hin' row hrow report hreport
  · rw [hnew, h'.handled hok, h.handled rfl, List.map_append, List.append_assoc]

theorem Reports.stop {e : ReportError} (h : Reports db repos m rows s s' (.error e)) :
    Reports db repos m (rows ++ rows') s s' (.error e) := by
  have hsub : ∀ row ∈ newRows s.handledShas rows, row ∈ newRows s.handledShas (rows ++ rows') := by
    intro row hrow
    unfold newRows
    rw [firsts_append]
    exact List.mem_append_left _ hrow
  refine ⟨h.kept, fun x hx => ?_, fun hall => ?_, fun hok => (by cases hok)⟩
  · rcases h.sound x hx with hx | ⟨row, hrow, hx⟩
    · exact .inl hx
    · exact .inr ⟨row, hsub row hrow, hx⟩
  · obtain ⟨hok, -⟩ := h.complete fun row hrow => hall row (hsub row hrow)
    cases hok

/-- The open rows in the order in which the branches are gone through. -/
def DB.openRows (db : DB) (t : FixesTable) (status : Status) (branches : List Branch) :
    List OpenRow :=
  branches.flatMap (db.openQuery t status)

theorem reports_branches (conflicts : Bool) : ∀ (branches : List Branch) (s : Reported),
    Reports db repos m (db.openRows m.kernelFixesTable (statusOf conflicts) branches) s
      (reportBranches db repos m conflicts branches s).1
        (reportBranches db repos m conflicts branches s).2 := by
  intro branches
  induction branches with
  | nil => exact reports_nil
  | cons b branches ih =>
    intro s
    have hheading : (Reported.mk s.handledShas (s.printed ++ [.heading b])).reports =
        s.reports := by
      simp [Reported.reports]
    have hbranch : Reports db repos m (db.openQuery m.kernelFixesTable (statusOf conflicts) b)
        ⟨s.handledShas, s.printed ++ [.heading b]⟩ _ _ := reports_rows _ _
    obtain ⟨hkept, hsound, hcomplete, hhandled⟩ := hbranch
    rw [hheading] at hkept hsound
    have hbranch : Reports db repos m
        (db.openQuery m.kernelFixesTable (statusOf conflicts) b) s _ _ :=
      ⟨hkept, hsound, hcomplete, hhandled⟩
    unfold reportBranches reportIntegrationStatusBranch
    show Reports db repos m (db.openQuery _ _ b ++ db.openRows _ _ branches) s _ _
    revert hbranch
    cases reportRows db repos m (db.openQuery m.kernelFixesTable (statusOf conflicts) b)
      ⟨s.handledShas, s.printed ++ [.heading b]⟩ with
    | mk s' r =>
      cases r with
      | ok _ => exact fun hbranch => hbranch.append (ih s')
      | error e => exact fun hbranch => hbranch.stop

/-! ## What is listed -/

/-- The branch is from the first version on and before the second one, as `branch_order` has
them. -/
def OpenMetadata.Between (m : OpenMetadata) (start stop : Option String) (b : Branch) : Prop :=
  branchOrder ((baselineOf start).getD (m.branches.head m.branches_ne)) ≤ branchOrder b ∧
    branchOrder b < branchOrder ((baselineOf stop).getD (m.branches.getLast m.branches_ne)) +
      if (baselineOf stop).isSome then 0 else 1

theorem versionList_eq (m : OpenMetadata) (start stop : Option String) :
    ∃ versions, versionList m.branches start stop = .ok versions ∧
      ∀ b, b ∈ versions ↔ b ∈ m.branches ∧ m.Between start stop b := by
  have hfirst : (baselineOf start).or m.branches.head? =
      some ((baselineOf start).getD (m.branches.head m.branches_ne)) := by
    rw [List.head?_eq_some_head m.branches_ne]
    cases baselineOf start <;> rfl
  have hlast : (baselineOf stop).or m.branches.getLast? =
      some ((baselineOf stop).getD (m.branches.getLast m.branches_ne)) := by
    rw [List.getLast?_eq_some_getLast m.branches_ne]
    cases baselineOf stop <;> rfl
  unfold versionList
  rw [hfirst, hlast]
  refine ⟨_, rfl, fun b => ?_⟩
  rw [List.mem_filter, decide_eq_true_iff]
  rfl

/-- The commit that a row names accounts for the branch: it is on it, or in a version before that of
the fixer. -/
def Accounts (db : DB) (repos : Repos) (m : OpenMetadata) (fixesSha : Option Sha)
    (fixedbySha : Sha) (b : Branch) : Prop :=
  ∃ sha, fixesSha = some sha ∧
    ((∃ k ∈ db.kernelCommits m.kernelFixesTable, k.upstreamSha = some sha ∧ k.branch = b) ∨
    m.Between (repos.integratedTag sha) (repos.integratedTag fixedbySha) b)

theorem mem_fixRows {row : OpenRow} {sha : Sha} (hsha : row.fixesSha = some sha) {b : Branch} :
    b ∈ (fixRows db m row).map Prod.snd ↔
      b ∈ m.branches ∧ ∃ k ∈ db.kernelCommits m.kernelFixesTable, k.upstreamSha = some sha ∧
        k.branch = b := by
  unfold fixRows DB.fixRowsQuery
  rw [hsha]
  simp only [List.mem_map, List.mem_filter, List.mem_insertionSort, decide_eq_true_eq]
  constructor
  · rintro ⟨-, ⟨⟨k, ⟨hk, hup⟩, rfl⟩, hb⟩, rfl⟩
    exact ⟨hb, k, hk, hup, rfl⟩
  · rintro ⟨hb, k, hk, hup, rfl⟩
    exact ⟨(k.sha, k.branch), ⟨⟨k, ⟨hk, hup⟩, rfl⟩, hb⟩, rfl⟩

/-- A row without an upstream commit ends the run with an exception. -/
theorem reportRow_null {row : OpenRow} (h : row.fixesSha = none) :
    reportRow db repos m row = .error .typeError := by
  unfold reportRow
  rw [h]
  rfl

theorem reportRow_some (db : DB) (repos : Repos) (m : OpenMetadata) {row : OpenRow} {sha : Sha}
    (h : row.fixesSha = some sha) :
    ∃ report, reportRow db repos m row = .ok report ∧ report.fixedbySha = row.fixedbySha ∧
      ∀ b ∈ m.branches, b ∈ report.affected.map Prod.fst ↔
        Accounts db repos m row.fixesSha row.fixedbySha b := by
  obtain ⟨versions, hversions, hmem⟩ :=
    versionList_eq m (repos.integratedTag sha) (repos.integratedTag row.fixedbySha)
  have hok : reportRow db repos m row = .ok
      (reportOf db repos m row (repos.integratedTag row.fixedbySha)
          (repos.integratedTag sha) versions) := by
    unfold reportRow
    rw [h]
    show ((versionList m.branches (repos.integratedTag sha)
      (repos.integratedTag row.fixedbySha)).mapError ReportError.list >>=
      fun versions => pure (reportOf db repos m row _ _ versions)) = _
    rw [hversions]
    rfl
  refine ⟨_, hok, rfl, fun b hb => ?_⟩
  have hid : ∀ (line : Branch → String) (branches : List Branch),
      (branches.map fun branch => (branch, line branch)).map Prod.fst = branches := by
    intro line branches
    rw [List.map_map]
    exact List.map_id branches
  unfold reportOf
  rw [hid, byOrder, List.mem_insertionSort, List.mem_dedup, List.mem_append, mem_fixRows h, hmem]
  constructor
  · rintro (⟨-, hon⟩ | ⟨-, hbetween⟩)
    · exact ⟨sha, h, .inl hon⟩
    · exact ⟨sha, h, .inr hbetween⟩
  · rintro ⟨sha', hsha', hcase⟩
    rw [h] at hsha'
    obtain rfl := Option.some.inj hsha'
    exact hcase.imp (fun hon => ⟨hb, hon⟩) fun hbetween => ⟨hb, hbetween⟩

end

/-! ## The rows of the fixes table -/

/-- Each row of the fixes table has its fixer and its kernel commit. -/
structure Present (db : DB) (t : FixesTable) : Prop where
  fixer : ∀ ct ∈ (db.fixes t).rows, ∃ lu ∈ db.linuxUpstream.rows, lu.sha = ct.fixedbyUpstreamSha
  commit : ∀ ct ∈ (db.fixes t).rows, ∃ k ∈ db.kernelCommits t, k.sha = ct.kernelSha

/-- The upstream commit of the row, if its kernel commit has one. -/
def DB.fixesSha (db : DB) (t : FixesTable) (ct : FixRow) : Option Sha :=
  (db.kernelCommit t ct.kernelSha).bind (·.upstreamSha)

/-- The first row of the fixer, on the first branch that has one. -/
def DB.firstRow (db : DB) (t : FixesTable) (status : Status) (branches : List Branch)
    (fixedbySha : Sha) : Option FixRow :=
  (branches.flatMap (db.fixesWith t status)).find? fun ct =>
    decide (ct.fixedbyUpstreamSha = fixedbySha)

theorem joinFix_some {db : DB} {t : FixesTable} (h : Present db t) {ct : FixRow}
    (hct : ct ∈ (db.fixes t).rows) :
    ∃ row, db.joinFix t ct = some row ∧ row.fixedbySha = ct.fixedbyUpstreamSha ∧
      row.fixesSha = db.fixesSha t ct := by
  obtain ⟨lu, hlu, hsha⟩ := h.fixer ct hct
  obtain ⟨k, hk, hksha⟩ := h.commit ct hct
  have hlookup : ∃ lu', db.linuxUpstream.lookup ct.fixedbyUpstreamSha = some lu' :=
    Option.isSome_iff_exists.mp (List.find?_isSome.mpr ⟨lu, hlu, decide_eq_true hsha⟩)
  have hcommit : ∃ k', db.kernelCommit t ct.kernelSha = some k' :=
    Option.isSome_iff_exists.mp (List.find?_isSome.mpr ⟨k, hk, decide_eq_true hksha⟩)
  obtain ⟨lu', hlu'⟩ := hlookup
  obtain ⟨k', hk'⟩ := hcommit
  unfold DB.joinFix DB.fixesSha
  rw [hlu', hk']
  exact ⟨_, rfl, rfl, rfl⟩

theorem mem_fixesWith {db : DB} {t : FixesTable} {status : Status} {branches : List Branch}
    {ct : FixRow} :
    ct ∈ branches.flatMap (db.fixesWith t status) ↔
      ct ∈ (db.fixes t).rows ∧ ct.status = status ∧ ct.branch ∈ branches := by
  unfold DB.fixesWith
  simp only [List.mem_flatMap, List.mem_filter, decide_eq_true_eq]
  constructor
  · rintro ⟨b, hb, hct, hstatus, rfl⟩
    exact ⟨hct, hstatus, hb⟩
  · rintro ⟨hct, hstatus, hb⟩
    exact ⟨ct.branch, hb, hct, hstatus, rfl⟩

/-- The row of the report that a fixer gets. -/
theorem newRows_open {db : DB} {t : FixesTable} (h : Present db t) {status : Status}
    {branches : List Branch} {row : OpenRow} : row ∈ newRows [] (db.openRows t status branches) ↔
      ∃ ct, db.firstRow t status branches row.fixedbySha = some ct ∧
        db.joinFix t ct = some row := by
  have hrows : db.openRows t status branches = (branches.flatMap (db.fixesWith t status)).filterMap
      (db.joinFix t) :=
    (List.filterMap_flatMap).symm
  have hfind : ∀ cts : List FixRow, (∀ ct ∈ cts, ct ∈ (db.fixes t).rows) →
      (cts.filterMap (db.joinFix t)).find? (fun y => decide (y.fixedbySha = row.fixedbySha)) =
        (cts.find? fun ct => decide (ct.fixedbyUpstreamSha = row.fixedbySha)).bind
            (db.joinFix t) := by
    intro cts hcts
    induction cts with
    | nil => rfl
    | cons ct cts ih =>
      obtain ⟨y, hy, hkey, -⟩ := joinFix_some h (hcts ct List.mem_cons_self)
      have ih := ih fun ct' hct' => hcts ct' (List.mem_cons_of_mem ct hct')
      rw [List.filterMap_cons_some hy]
      by_cases heq : ct.fixedbyUpstreamSha = row.fixedbySha
      · rw [List.find?_cons_of_pos (by simpa [hkey] using heq),
          List.find?_cons_of_pos (by simpa using heq)]
        exact hy.symm
      · rw [List.find?_cons_of_neg (by simpa [hkey] using heq),
          List.find?_cons_of_neg (by simpa using heq)]
        exact ih
  unfold newRows
  rw [mem_firsts, hrows, hfind _ fun ct hct => (mem_fixesWith.mp hct).1, Option.bind_eq_some_iff]
  exact and_iff_right List.not_mem_nil

/-- Every row of the status on a supported branch is accounted for, its fixer reported with the
branch ↔ the upstream commit of the first row that has its fixer accounts for the branch. -/
theorem report_integration_status_iff (db : DB) (repos : Repos) (conflicts isChromium : Bool)
    (h : Present db (openMetadata isChromium).kernelFixesTable) :
    let m := openMetadata isChromium
    (∀ ct ∈ (db.fixes m.kernelFixesTable).rows, ct.status = statusOf conflicts →
      ct.branch ∈ m.branches →
      ∃ report ∈ (reportIntegrationStatus db repos none conflicts isChromium).1.reports,
        report.fixedbySha = ct.fixedbyUpstreamSha ∧ ct.branch ∈ report.affected.map Prod.fst) ↔
    ∀ ct ∈ (db.fixes m.kernelFixesTable).rows, ct.status = statusOf conflicts →
      ct.branch ∈ m.branches →
      ∀ first, db.firstRow m.kernelFixesTable (statusOf conflicts) m.branches
        ct.fixedbyUpstreamSha = some first →
        Accounts db repos m (db.fixesSha m.kernelFixesTable first) ct.fixedbyUpstreamSha
            ct.branch := by
  intro m
  have hreports : Reports db repos m
    (db.openRows m.kernelFixesTable (statusOf conflicts) m.branches) ⟨[], []⟩
      (reportIntegrationStatus db repos none conflicts isChromium).1
      (reportIntegrationStatus db repos none conflicts isChromium).2 :=
        reports_branches conflicts m.branches ⟨[], []⟩
  have hfirst : ∀ {fixedbySha : Sha} {first : FixRow},
      db.firstRow m.kernelFixesTable (statusOf conflicts) m.branches fixedbySha = some first →
        first.fixedbyUpstreamSha = fixedbySha ∧ first ∈ (db.fixes m.kernelFixesTable).rows ∧
          first.status = statusOf conflicts ∧ first.branch ∈ m.branches := by
    intro fixedbySha first hfirst
    exact ⟨by simpa using List.find?_some hfirst,
      mem_fixesWith.mp (List.mem_of_find?_eq_some hfirst)⟩
  constructor
  · intro hall ct hct hstatus hbranch first hrow
    obtain ⟨report, hreport, hfixedby, hlisted⟩ := hall ct hct hstatus hbranch
    obtain hnil | ⟨row, hnew, hok⟩ := hreports.sound report hreport
    · cases hnil
    · cases hfixes : row.fixesSha with
      | none =>
        rw [reportRow_null hfixes] at hok
        cases hok
      | some sha =>
        obtain ⟨report', hok', hfixedby', hlisted'⟩ := reportRow_some db repos m hfixes
        rw [hok] at hok'
        obtain rfl := Except.ok.inj hok'
        have heq : row.fixedbySha = ct.fixedbyUpstreamSha := hfixedby'.symm.trans hfixedby
        obtain ⟨first', hrow', hjoin⟩ := (newRows_open h).mp hnew
        rw [heq, hrow] at hrow'
        obtain rfl := Option.some.inj hrow'
        obtain ⟨row', hjoin', -, hsha⟩ := joinFix_some h (hfirst hrow).2.1
        rw [hjoin] at hjoin'
        obtain rfl := Option.some.inj hjoin'
        rw [← hsha, ← heq]
        exact (hlisted' ct.branch hbranch).mp hlisted
  · intro hall
    have hnonNull :
      ∀ row ∈ newRows [] (db.openRows m.kernelFixesTable (statusOf conflicts) m.branches),
        ∃ sha, row.fixesSha = some sha := by
      intro row hrow
      obtain ⟨first, hfirstRow, hjoin⟩ := (newRows_open h).mp hrow
      obtain ⟨hkey, hct, hstatus, hbranch⟩ := hfirst hfirstRow
      obtain ⟨row', hjoin', -, hsha⟩ := joinFix_some h hct
      rw [hjoin] at hjoin'
      obtain rfl := Option.some.inj hjoin'
      obtain ⟨sha, hfixes, -⟩ :=
        hall first hct hstatus hbranch first (by rw [hkey]; exact hfirstRow)
      exact ⟨sha, by rw [hsha, hfixes]⟩
    obtain ⟨-, hcomplete⟩ := hreports.complete fun row hrow => by
      obtain ⟨sha, hsha⟩ := hnonNull row hrow
      obtain ⟨report, hok, -⟩ := reportRow_some db repos m hsha
      exact ⟨report, hok⟩
    intro ct hct hstatus hbranch
    obtain ⟨first, hfirstRow⟩ : ∃ first, db.firstRow m.kernelFixesTable
      (statusOf conflicts) m.branches
        ct.fixedbyUpstreamSha = some first :=
      Option.isSome_iff_exists.mp
        (List.find?_isSome.mpr ⟨ct, mem_fixesWith.mpr ⟨hct, hstatus, hbranch⟩, by simp⟩)
    obtain ⟨hkey, hfirstMem, -⟩ := hfirst hfirstRow
    obtain ⟨row, hjoin, hrowKey, hsha⟩ := joinFix_some h hfirstMem
    have hrow : row ∈ newRows [] (db.openRows m.kernelFixesTable (statusOf conflicts) m.branches) :=
      (newRows_open h).mpr ⟨first, by rw [hrowKey, hkey]; exact hfirstRow, hjoin⟩
    obtain ⟨sha, hfixes⟩ := hnonNull row hrow
    obtain ⟨report, hok, hfixedby, hlisted⟩ := reportRow_some db repos m hfixes
    have hkey' : row.fixedbySha = ct.fixedbyUpstreamSha := hrowKey.trans hkey
    refine ⟨report, hcomplete row hrow report hok, hfixedby.trans hkey',
      (hlisted ct.branch hbranch).mpr ?_⟩
    rw [hsha, hkey']
    exact hall ct hct hstatus hbranch first hfirstRow

/-! ## Two commits with one fixer -/

/-- `f`, of v5.8, has an open row for `a'` in 4.14 and one for `b'` in 4.19; `a'` and `b'` are `x`
and `y`. -/
def twoFixed (x y : Sha) : DB where
  linuxUpstream :=
    ⟨[⟨"a", "a: first", "1"⟩, ⟨"b", "b: second", "2"⟩, ⟨"f", "f: fix", "3"⟩], by decide⟩
  upstreamFixes := ⟨[⟨"a", "f"⟩, ⟨"b", "f"⟩], by decide⟩
  linuxStable := ⟨[⟨"a'", "4.14", x, "1", "first"⟩, ⟨"b'", "4.19", y, "2", "second"⟩],
    List.nodup_cons.mpr ⟨by simp, List.nodup_singleton _⟩⟩
  linuxChrome := .empty
  previousFetch := .empty
  stableFixes := ⟨[⟨"a'", "f", "4.14", "t", none, none, .OPEN, .OPEN, none⟩,
    ⟨"b'", "f", "4.19", "t", none, none, .OPEN, .OPEN, none⟩], by decide⟩
  chromeFixes := .empty

/-- `a` is of v5.6, `b` of v5.7. -/
def tagged : Repos where
  integratedTag
    | "a" => some "v5.6"
    | "b" => some "v5.7"
    | _ => some "v5.8"
  cherrypickStatus _ _ _ _ := .OPEN

theorem twoFixed_present (x y : Sha) : Present (twoFixed x y) .stableFixes where
  fixer := by
    have hfixer : ∀ ct ∈ (twoFixed "a" "a").stableFixes.rows, ct.fixedbyUpstreamSha = "f" := by
      decide
    intro ct hct
    exact ⟨⟨"f", "f: fix", "3"⟩, List.mem_of_getLast? rfl, (hfixer ct hct).symm⟩
  commit := by
    intro ct hct
    rcases List.mem_cons.mp hct with rfl | hct
    · exact ⟨⟨"a'", "4.14", some x, "first"⟩, List.mem_cons_self, rfl⟩
    · obtain rfl := List.mem_singleton.mp hct
      exact ⟨⟨"b'", "4.19", some y, "second"⟩, List.mem_cons_of_mem _ List.mem_cons_self, rfl⟩

/-- Where both rows are for the backports of one commit, its branches are those of the rows. -/
theorem report_integration_status_backports :
    ∃ report ∈ (reportIntegrationStatus (twoFixed "a" "a") tagged none false false).1.reports,
      report.fixedbySha = "f" ∧ "4.19" ∈ report.affected.map Prod.fst := by
  have hrow : ∀ ct ∈ (twoFixed "a" "a").stableFixes.rows,
      (∃ k ∈ (twoFixed "a" "a").kernelCommits .stableFixes, k.upstreamSha = some "a" ∧
        k.branch = ct.branch) ∧
        ct.fixedbyUpstreamSha = "f" := by decide
  apply (report_integration_status_iff (twoFixed "a" "a") tagged false false
    (twoFixed_present "a" "a")).mpr ?_
    ⟨"b'", "f", "4.19", "t", none, none, .OPEN, .OPEN, none⟩ (by decide) rfl (by decide)
  intro ct hct _ _ first hfirst
  obtain ⟨hbackport, hfixer⟩ := hrow ct hct
  rw [hfixer] at hfirst
  obtain rfl : ⟨"a'", "f", "4.14", "t", none, none, .OPEN, .OPEN, none⟩ = first :=
    Option.some.inj hfirst
  exact ⟨"a", rfl, .inl hbackport⟩

/-- The row of `b'` is skipped; 4.19 is neither a branch that has `a` nor one from 5.6 on. -/
theorem report_integration_status_misses : ¬∀ (db : DB) (repos : Repos)
    (conflicts isChromium : Bool),
    Present db (openMetadata isChromium).kernelFixesTable →
    ∀ ct ∈ (db.fixes (openMetadata isChromium).kernelFixesTable).rows,
      ct.status = statusOf conflicts → ct.branch ∈ (openMetadata isChromium).branches →
      ∃ report ∈ (reportIntegrationStatus db repos none conflicts isChromium).1.reports,
        report.fixedbySha = ct.fixedbyUpstreamSha ∧ ct.branch ∈ report.affected.map Prod.fst := by
  intro h
  have hmiss :
    ∀ report ∈ (reportIntegrationStatus (twoFixed "a" "b") tagged none false false).1.reports,
      "4.19" ∉ report.affected.map Prod.fst := by decide
  obtain ⟨report, hreport, -, hlisted⟩ :=
    h (twoFixed "a" "b") tagged false false (twoFixed_present "a" "b")
    ⟨"b'", "f", "4.19", "t", none, none, .OPEN, .OPEN, none⟩ (by decide) rfl (by decide)
  exact hmiss report hreport hlisted

end Findmissing
