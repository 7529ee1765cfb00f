import DevUtil.Findmissing.Git
import DevUtil.Findmissing.Operations

/-!
# The commit tables

`initdb_upstream.py`, `initdb_stable.py`, `initdb_chromeos.py` and the functions
of `common.py` around them.  Each run goes over the lines of the log after the
stored tip, asks git for the commit whose name the line begins with, inserts a
row for it and stores the new tip.

An INSERT is rejected exactly for a duplicate key or a missing foreign key; the
functions log that and go on.  A line that does not begin with a name git knows,
and a text that the charset of the connection does not have, end a run before it
commits (an INSERT into `linux_upstream` apart, which is skipped).

* `stableFold_ok`, `stableFold_fine`: when the loop over linux_stable's log gets
  through, and the rows it stores.
* `startOf_ok`, `updateLast_shaTip`: the stored tip.
-/

namespace Findmissing

open Lib Regex

/-! ## Statements -/

namespace DB

def insertUpstream (db : DB) (row : UpstreamRow) : Except SqlError DB :=
  match db.linuxUpstream.insert row with
  | some t => .ok { db with linuxUpstream := t }
  | none => .error .duplicateEntry

def inLinuxUpstream (db : DB) (sha : Sha) : Bool :=
  db.linuxUpstream.rows.any fun r => decide (r.sha = sha)

def insertUpstreamFix (db : DB) (row : UpstreamFix) : Except SqlError DB :=
  if db.inLinuxUpstream row.upstreamSha && db.inLinuxUpstream row.fixedbyUpstreamSha then
    match db.upstreamFixes.insert row with
    | some t => .ok { db with upstreamFixes := t }
    | none => .error .duplicateEntry
  else .error .noReferencedRow

def inLinuxStable (db : DB) (sha : Sha) : Bool :=
  db.linuxStable.rows.any fun r => decide (r.sha = sha)

def insertStable (db : DB) (row : StableRow) : Except SqlError DB :=
  if db.inLinuxUpstream row.upstreamSha then
    match db.linuxStable.insert row with
    | some t => .ok { db with linuxStable := t }
    | none => .error .duplicateEntry
  else .error .noReferencedRow

def insertChrome (db : DB) (row : ChromeRow) : Except SqlError DB :=
  match db.linuxChrome.insert row with
  | some t => .ok { db with linuxChrome := t }
  | none => .error .duplicateEntry

def shaTip (db : DB) (path : Kernel) (branch : Branch) : Option Sha :=
  (db.previousFetch.lookup (path, branch)).map (·.shaTip)

def insertPreviousFetch (db : DB) (row : PreviousFetch) : Except SqlError DB :=
  match db.previousFetch.insert row with
  | some t => .ok { db with previousFetch := t }
  | none => .error .duplicateEntry

/-- The state after a statement whose errors are only logged. -/
def orSame (db : DB) : Except SqlError DB → DB
  | .ok db' => db'
  | .error _ => db

end DB

def PreviousFetch.setTip (lastSha : Sha) (r : PreviousFetch) : PreviousFetch :=
  { r with shaTip := lastSha }

theorem PreviousFetch.key_setTip (lastSha : Sha) (r : PreviousFetch) :
    (r.setTip lastSha).key = r.key := rfl

/-- `update_previous_fetch`. -/
def updatePreviousFetch (db : DB) (kernel : Kernel) (branch : Branch) (lastSha : Sha) : DB :=
  { db with previousFetch := db.previousFetch.update (fun r => decide (r.key = (kernel, branch)))
              (PreviousFetch.setTip lastSha) (PreviousFetch.key_setTip lastSha) }

/-- `if last: update_previous_fetch(...)`. -/
def updateLast (db : DB) (kernel : Kernel) (branch : Branch) : Option Sha → DB
  | some last => if last = "" then db else updatePreviousFetch db kernel branch last
  | none => db

/-- The commits that `git log start..HEAD` lists. -/
def gitLog (h : History) (start : Sha) : Except Exn (List Commit) :=
  match h.after start with
  | some commits => .ok commits
  | none => .error .calledProcessError

/-! ## The connection and the lines of the log -/

/-- What the database leaves open.  Names of commits, patch ids and branches are in every
charset. -/
structure Connection where
  /-- the charset of the connection has every character of the text -/
  encodes : String → Bool
  /-- the row of a result that is fetched first -/
  fetchone : List Sha → Option Sha
  mem_of_fetchone : ∀ {shas sha}, fetchone shas = some sha → sha ∈ shas
  nil_of_fetchone : ∀ {shas}, fetchone shas = none → shas = []

/-- Every text can be written, and the first row of the table comes first. -/
def Connection.plain : Connection where
  encodes _ := true
  fetchone := List.head?
  mem_of_fetchone := List.mem_of_head?
  nil_of_fetchone := List.head?_eq_none_iff.mp

inductive UpdateExn
  | exn (e : Exn)
  | unicodeEncodeError
deriving DecidableEq

/-- A line of the log: its first word, what follows it, and the commit that git finds for the
word. -/
structure Entry where
  sha : Sha
  description : String
  commit : Commit

def Commit.entry (c : Commit) : Entry := ⟨c.sha, c.title, c⟩

/-! ## initdb_upstream -/

abbrev UpstreamTable := Table UpstreamRow.sha

section

variable (conn : Connection) (git : Git)

def UpstreamTable.shasOfDescription (t : UpstreamTable) (desc : String) : List Sha :=
  (t.rows.filter fun r => decide (r.description = desc)).map UpstreamRow.sha

/-- `cursor.execute(q, [desc])` and `cursor.fetchone()` -/
def selectSha (t : UpstreamTable) (desc : String) : Except UpdateExn (Option Sha) :=
  if conn.encodes desc then .ok (conn.fetchone (UpstreamTable.shasOfDescription t desc))
  else .error .unicodeEncodeError

/-- The commit that a line of a commit message names as fixed. -/
def fixedSha (t : UpstreamTable) (d : String) : Except UpdateExn (Option Sha) :=
  match RF.search d with
  | none => .ok none
  | some name =>
    match git.showAbbrev name with
    | some fsha => .ok (some fsha)
    | none =>
      match RDESC.search d with
      | some desc => selectSha conn t (desc.replace "'" "''")
      | none => .ok none

/-- `fsha[0:12]` -/
def abbreviated (fsha : Sha) : Sha := String.ofList (fsha.toList.take 12)

/-- `if fsha: fixes.append(Fix(fsha[0:12], sha))` -/
def fixOf (sha fsha : Sha) : Option UpstreamFix :=
  if fsha = "" then none else some ⟨abbreviated fsha, sha⟩

def fixesOfLines (t : UpstreamTable) (sha : Sha) : List String → Except UpdateExn (List UpstreamFix)
  | [] => .ok []
  | d :: ds => do
    let fsha ← fixedSha conn git t d
    let fixes ← fixesOfLines t sha ds
    return (fsha.bind (fixOf sha)).toList ++ fixes

def upstreamRow (e : Entry) : UpstreamRow :=
  ⟨e.sha, e.description, firstField (git.patchId e.commit)⟩

/-- The variables of the loop of `update_upstream_table`. -/
structure UpstreamLoop where
  db : DB
  fixes : List UpstreamFix
  last : Option Sha

/-- `git rev-list` ends the run if git does not know the word; `elem[1]` of a merge is not looked
at. -/
def Clone.readLine (r : Clone) (line : String) : Except UpdateExn Entry :=
  match r.find (firstField line) with
  | none => .error (.exn .calledProcessError)
  | some c =>
    match secondField line with
    | some description => .ok ⟨firstField line, description, c⟩
    | none => if c.merge then .ok ⟨firstField line, "", c⟩ else .error (.exn .indexError)

def upstreamEntry (s : UpstreamLoop) (e : Entry) : Except UpdateExn UpstreamLoop :=
  if e.commit.merge then .ok { s with last := some e.sha }
  else if conn.encodes e.description then
    match s.db.insertUpstream (upstreamRow git e) with
    | .error _ => .ok { s with last := some e.sha }
    | .ok db => do
      let fixes ← fixesOfLines conn git db.linuxUpstream e.sha (splitlines e.commit.body)
      return ⟨db, s.fixes ++ fixes, some e.sha⟩
  else .ok { s with last := some e.sha }

def upstreamLine (r : Clone) (s : UpstreamLoop) (line : String) : Except UpdateExn UpstreamLoop :=
  do
  let e ← r.readLine line
  upstreamEntry conn git s e

def insertFixes (db : DB) (fixes : List UpstreamFix) : DB :=
  fixes.foldl (fun db fix => db.orSame (db.insertUpstreamFix fix)) db

def updateUpstreamTable (r : Clone) (branch : Branch) (start : Sha) (db : DB) :
    Except UpdateExn DB :=
  match gitLog r.history start with
  | .error e => .error (.exn e)
  | .ok commits => do
    let s ← (logLines commits).foldlM (upstreamLine conn git r) ⟨db, [], none⟩
    return updateLast (insertFixes s.db s.fixes) .linuxUpstream branch s.last

/-! ## initdb_stable -/

def stableRow (branch : Branch) (e : Entry) (usha : Sha) : StableRow :=
  ⟨e.sha, branch, usha, firstField (git.patchIdStable e.commit), e.description⟩

/-- The variables of the loops of `update_stable_table` and `update_chrome_table`. -/
structure KernelLoop where
  db : DB
  last : Option Sha

/-- `git show -s` ends the run if git does not know the word, and no handler of the INSERT is for a
UnicodeEncodeError. -/
def stableLine (r : Clone) (branch : Branch) (s : KernelLoop) (line : String) :
    Except UpdateExn KernelLoop :=
  match secondField line with
  | none => .error (.exn .indexError)
  | some description =>
    if s.db.inLinuxStable (firstField line) then .ok s
    else
      match r.find (firstField line) with
      | none => .error (.exn .calledProcessError)
      | some c =>
        match searchUpstreamSha c.message with
        | none => .ok ⟨s.db, some (firstField line)⟩
        | some usha =>
          if conn.encodes description then
            let row := stableRow git branch ⟨firstField line, description, c⟩ usha
            .ok ⟨s.db.orSame (s.db.insertStable row), some (firstField line)⟩
          else .error .unicodeEncodeError

/-- `git log --no-merges`. -/
def updateStableTable (r : Clone) (branch : Branch) (start : Sha) (db : DB) : Except UpdateExn DB :=
  match gitLog r.history start with
  | .error e => .error (.exn e)
  | .ok commits => do
    let s ← (logLines (commits.filter fun c => !c.merge)).foldlM
      (stableLine conn git r branch) ⟨db, none⟩
    return updateLast s.db .linuxStable branch s.last

/-! ## initdb_chromeos -/

def chromeRow (branch : Branch) (e : Entry) : ChromeRow :=
  let usha := if CHROMIUM.isMatch e.description then none else searchUpstreamSha e.commit.message
  ⟨e.sha, branch, usha, firstField (git.patchIdStable e.commit), e.description⟩

def chromeLine (r : Clone) (branch : Branch) (s : KernelLoop) (line : String) :
    Except UpdateExn KernelLoop :=
  match secondField line with
  | none => .error (.exn .indexError)
  | some description =>
    match r.find (firstField line) with
    | none => .error (.exn .calledProcessError)
    | some c =>
      if c.merge then .ok ⟨s.db, some (firstField line)⟩
      else if s.db.inLinuxStable (firstField line) then .ok ⟨s.db, some (firstField line)⟩
      else if conn.encodes description then
        let row := chromeRow git branch ⟨firstField line, description, c⟩
        .ok ⟨s.db.orSame (s.db.insertChrome row), some (firstField line)⟩
      else .error .unicodeEncodeError

def updateChromeTable (r : Clone) (branch : Branch) (start : Sha) (db : DB) : Except UpdateExn DB :=
  match gitLog r.history start with
  | .error e => .error (.exn e)
  | .ok commits => do
    let s ← (logLines commits).foldlM (chromeLine conn git r branch) ⟨db, none⟩
    return updateLast s.db .linuxChrome branch s.last

/-! ## common -/

/-- The commit to start from, stored if there is none yet. -/
def startOf (path : Kernel) (branch : Branch) (tag : Sha) (db : DB) : Except Exn (Sha × DB) :=
  match db.shaTip path branch with
  | some tip => if tip = "" then insertTag else .ok (tip, db)
  | none => insertTag
where
  insertTag : Except Exn (Sha × DB) :=
    match db.insertPreviousFetch ⟨path, branch, tag⟩ with
    | .ok db => .ok (tag, db)
    | .error e => .error (.mysql e)

def updateBranch (path : Kernel) (tagTemplate : Branch → Sha)
    (updateTable : Branch → Sha → DB → Except UpdateExn DB) (branch : Branch) (db : DB) :
    Except UpdateExn DB :=
  match startOf path branch (tagTemplate branch) db with
  | .error e => .error (.exn e)
  | .ok (start, db) => updateTable branch start db

/-- `update_kernel_db`, one branch after the other. -/
def updateKernelDb (path : Kernel) (tagTemplate : Branch → Sha)
    (updateTable : Branch → Sha → DB → Except UpdateExn DB) : List Branch → DB → Except UpdateExn DB
  | [], db => .ok db
  | branch :: branches, db =>
    match updateBranch path tagTemplate updateTable branch db with
    | .error e => .error e
    | .ok db => updateKernelDb path tagTemplate updateTable branches db

def UPSTREAM_START_BRANCH : Branch := "v4.4"

/-- `'v%s' % branch` -/
def versionTag (branch : Branch) : Sha := "v" ++ branch

def updateUpstreamDb (r : Clone) (db : DB) : Except UpdateExn DB :=
  updateKernelDb .linuxUpstream id (updateUpstreamTable conn git r) [UPSTREAM_START_BRANCH] db

def updateStableDb (r : Branch → Clone) (branches : List Branch) (db : DB) : Except UpdateExn DB :=
  updateKernelDb .linuxStable versionTag
    (fun branch => updateStableTable conn git (r branch) branch)
    branches db

def updateChromeDb (r : Branch → Clone) (branches : List Branch) (db : DB) : Except UpdateExn DB :=
  updateKernelDb .linuxChrome versionTag
    (fun branch => updateChromeTable conn git (r branch) branch)
    branches db

end

/-! ## The lines of a commit -/

theorem readLine_title (r : Clone) {c : Commit} (hc : r.find c.sha = some c) :
    r.readLine (c.sha ++ " " ++ c.title) = .ok c.entry := by
  unfold Clone.readLine
  rw [firstField_append _ c.isSha.no_blank, secondField_append _ c.isSha.no_blank, hc]
  rfl

/-- No line that a description goes on in begins with a name that git knows. -/
def Clone.NoNames (r : Clone) (commits : List Commit) : Prop :=
  ∀ c ∈ commits, ∀ l ∈ c.others, r.find (firstField l) = none

/-! ## What the functions leave alone -/

theorem insertFixes_eq (fixes : List UpstreamFix) (db : DB) :
    ∃ t, insertFixes db fixes = { db with upstreamFixes := t } := by
  induction fixes generalizing db with
  | nil => exact ⟨db.upstreamFixes, rfl⟩
  | cons fix fixes ih =>
    have hone : ∃ t, db.orSame (db.insertUpstreamFix fix) = { db with upstreamFixes := t } := by
      unfold DB.insertUpstreamFix
      split
      · split
        · next t _ => exact ⟨t, rfl⟩
        · exact ⟨db.upstreamFixes, rfl⟩
      · exact ⟨db.upstreamFixes, rfl⟩
    obtain ⟨t, ht⟩ := hone
    obtain ⟨t', ht'⟩ := ih { db with upstreamFixes := t }
    refine ⟨t', ?_⟩
    show insertFixes (db.orSame (db.insertUpstreamFix fix)) fixes = _
    rw [ht, ht']

theorem updateLast_eq (db : DB) (kernel : Kernel) (branch : Branch) (last : Option Sha) :
    ∃ t, updateLast db kernel branch last = { db with previousFetch := t } := by
  unfold updateLast
  split
  · split
    · exact ⟨db.previousFetch, rfl⟩
    · exact ⟨_, rfl⟩
  · exact ⟨db.previousFetch, rfl⟩

theorem insertTag_eq {path : Kernel} {branch : Branch} {tag start : Sha} {db db' : DB}
    (h : startOf.insertTag path branch tag db = .ok (start, db')) :
    ∃ t, db.previousFetch.insert ⟨path, branch, tag⟩ = some t ∧ start = tag ∧
      db' = { db with previousFetch := t } := by
  unfold startOf.insertTag DB.insertPreviousFetch at h
  split at h
  · next hins =>
    split at hins
    · next t ht =>
      cases hins
      cases h
      exact ⟨t, ht, rfl, rfl⟩
    · cases hins
  · cases h

theorem startOf_eq {path : Kernel} {branch : Branch} {tag start : Sha} {db db' : DB}
    (h : startOf path branch tag db = .ok (start, db')) :
    ∃ t, db' = { db with previousFetch := t } := by
  unfold startOf at h
  split at h
  · split at h
    · obtain ⟨t, -, -, ht⟩ := insertTag_eq h
      exact ⟨t, ht⟩
    · cases h
      exact ⟨db.previousFetch, rfl⟩
  · obtain ⟨t, -, -, ht⟩ := insertTag_eq h
    exact ⟨t, ht⟩

/-! ## What a run over linux_stable stores -/

theorem inLinuxUpstream_eq_true {db : DB} {sha : Sha} :
    db.inLinuxUpstream sha = true ↔ sha ∈ db.linuxUpstream.rows.map UpstreamRow.sha := by
  unfold DB.inLinuxUpstream
  simp [List.any_eq_true]

theorem inLinuxStable_eq_false {db : DB} {sha : Sha} :
    db.inLinuxStable sha = false ↔ sha ∉ db.linuxStable.rows.map StableRow.sha := by
  unfold DB.inLinuxStable
  simp [List.any_eq_false]


/-- The row that `update_stable_table` stores for a commit, if its INSERT is accepted. -/
def storedRow (git : Git) (branch : Branch) (inUpstream : Sha → Bool) (c : Commit) :
    Option StableRow :=
  match searchUpstreamSha c.message with
  | none => none
  | some usha => if inUpstream usha then some (stableRow git branch c.entry usha) else none

theorem storedRow_eq_some {git : Git} {branch : Branch} {inUpstream : Sha → Bool} {c : Commit}
    {r : StableRow} : storedRow git branch inUpstream c = some r ↔
      ∃ usha, searchUpstreamSha c.message = some usha ∧ inUpstream usha = true ∧
        r = stableRow git branch c.entry usha := by
  unfold storedRow
  constructor
  · intro h
    split at h
    · cases h
    · next usha hsearch =>
      split at h
      · next hup => exact ⟨usha, hsearch, hup, (Option.some.inj h).symm⟩
      · cases h
  · rintro ⟨usha, hsearch, hup, rfl⟩
    rw [hsearch]
    exact if_pos hup

theorem storedRow_sha {git : Git} {branch : Branch} {inUpstream : Sha → Bool} {c : Commit}
    {r : StableRow} (h : storedRow git branch inUpstream c = some r) : r.sha = c.sha := by
  obtain ⟨usha, -, -, rfl⟩ := storedRow_eq_some.mp h
  rfl

/-- The loop of `update_stable_table` gets over the commit: its description is one line, and can be
written if a row is to be inserted. -/
structure Commit.StableFine (conn : Connection) (c : Commit) : Prop where
  oneLine : c.others = []
  encodes : (searchUpstreamSha c.message).isSome = true → conn.encodes c.title = true

section

variable {conn : Connection} {git : Git} {r : Clone} {branch : Branch} {c : Commit} {s : KernelLoop}

theorem stableLine_title (hc : r.find c.sha = some c)
    (hnew : c.sha ∉ s.db.linuxStable.rows.map StableRow.sha)
    (henc : (searchUpstreamSha c.message).isSome = true → conn.encodes c.title = true) :
    ∃ t, stableLine conn git r branch s (c.sha ++ " " ++ c.title) =
        .ok ⟨{ s.db with linuxStable := t }, some c.sha⟩ ∧
      t.rows = s.db.linuxStable.rows ++ (storedRow git branch s.db.inLinuxUpstream c).toList := by
  unfold stableLine storedRow DB.insertStable
  rw [firstField_append _ c.isSha.no_blank, secondField_append _ c.isSha.no_blank, hc,
    inLinuxStable_eq_false.mpr hnew]
  cases hsearch : searchUpstreamSha c.message with
  | none => exact ⟨s.db.linuxStable, by simp [hsearch], by simp⟩
  | some usha =>
    have htitle := henc (by rw [hsearch]; rfl)
    by_cases hup : s.db.inLinuxUpstream usha
    · cases hins : s.db.linuxStable.insert (stableRow git branch c.entry usha) with
      | some t =>
        refine ⟨t, ?_, ?_⟩
        · have hrow : s.db.linuxStable.insert (stableRow git branch ⟨c.sha, c.title, c⟩ usha) =
              some t := hins
          have hin : s.db.inLinuxUpstream
            (stableRow git branch ⟨c.sha, c.title, c⟩ usha).upstreamSha =
              true := hup
          simp [hsearch, htitle, hin, hrow, DB.orSame]
        · simp only [hup, if_true]
          exact (Table.insert_eq_some.mp hins).2
      | none =>
        obtain ⟨r, hr, hk⟩ := Table.insert_eq_none.mp hins
        exact absurd (List.mem_map.mpr ⟨r, hr, hk⟩) hnew
    · refine ⟨s.db.linuxStable, ?_, by simp [hup]⟩
      have hin : ¬s.db.inLinuxUpstream (stableRow git branch ⟨c.sha, c.title, c⟩ usha).upstreamSha =
          true := hup
      simp [hsearch, htitle, hin, DB.orSame]

theorem stableLine_unencodable (hc : r.find c.sha = some c)
    (hnew : c.sha ∉ s.db.linuxStable.rows.map StableRow.sha)
    (hsearch : (searchUpstreamSha c.message).isSome = true) (henc : conn.encodes c.title = false) :
    stableLine conn git r branch s (c.sha ++ " " ++ c.title) = .error .unicodeEncodeError := by
  obtain ⟨usha, husha⟩ := Option.isSome_iff_exists.mp hsearch
  unfold stableLine
  rw [firstField_append _ c.isSha.no_blank, secondField_append _ c.isSha.no_blank, hc,
    inLinuxStable_eq_false.mpr hnew]
  simp [husha, henc]

theorem stableLine_unknown {line : String} (hline : r.find (firstField line) = none)
    (hnew : firstField line ∉ s.db.linuxStable.rows.map StableRow.sha) :
    ∃ e, stableLine conn git r branch s line = .error e := by
  unfold stableLine
  rw [hline, inLinuxStable_eq_false.mpr hnew]
  cases secondField line with
  | none => exact ⟨_, rfl⟩
  | some _ => exact ⟨_, rfl⟩

variable {commits : List Commit}

/-- What a new row is the row of. -/
theorem sha_of_stored {t : Table StableRow.sha} {sha : Sha} {inUpstream : Sha → Bool}
    (hrows : t.rows = s.db.linuxStable.rows ++ (storedRow git branch inUpstream c).toList)
    (h : sha ∈ t.rows.map StableRow.sha) :
    sha ∈ s.db.linuxStable.rows.map StableRow.sha ∨ sha = c.sha := by
  rw [hrows, List.map_append, List.mem_append] at h
  refine h.imp_right fun h => ?_
  obtain ⟨r, hr, rfl⟩ := List.mem_map.mp h
  exact storedRow_sha (Option.mem_toList.mp hr)

/-- The loop of `update_stable_table` over commits that the table does not have yet. -/
theorem stableFold_ok (hfind : ∀ c ∈ commits, r.find c.sha = some c)
    (hfine : ∀ c ∈ commits, c.StableFine conn) (hnd : (commits.map Commit.sha).Nodup)
    (s : KernelLoop) (hnew : ∀ c ∈ commits, c.sha ∉ s.db.linuxStable.rows.map StableRow.sha) :
    ∃ t, (logLines commits).foldlM (stableLine conn git r branch) s =
        .ok ⟨{ s.db with linuxStable := t }, ((commits.getLast?.map Commit.sha).or s.last)⟩ ∧
      t.rows = s.db.linuxStable.rows ++
        commits.filterMap (storedRow git branch s.db.inLinuxUpstream) := by
  induction commits generalizing s with
  | nil => exact ⟨s.db.linuxStable, rfl, by simp⟩
  | cons c commits ih =>
    obtain ⟨hc, hnd⟩ := List.nodup_cons.mp hnd
    have hlast : ((commits.getLast?.map Commit.sha).or (some c.sha)) =
        (((c :: commits).getLast?.map Commit.sha).or s.last) := by
      cases hl : commits.getLast? <;> simp [List.getLast?_cons, hl]
    -- one commit: a row is stored or not, and `last` moves
    obtain ⟨t₁, hstep, hrows⟩ := @stableLine_title _ git _ branch _ _
      (hfind c List.mem_cons_self) (hnew c List.mem_cons_self) (hfine c List.mem_cons_self).encodes
    have hnew₁ : ∀ c' ∈ commits, c'.sha ∉ t₁.rows.map StableRow.sha := by
      intro c' hc' hmem
      rcases sha_of_stored hrows hmem with hmem | heq
      · exact hnew c' (List.mem_cons_of_mem _ hc') hmem
      · exact hc (heq ▸ List.mem_map_of_mem hc')
    obtain ⟨t, hfold, ht⟩ := ih (fun c' hc' => hfind c' (List.mem_cons_of_mem c hc'))
      (fun c' hc' => hfine c' (List.mem_cons_of_mem c hc')) hnd
      ⟨{ s.db with linuxStable := t₁ }, some c.sha⟩ hnew₁
    refine ⟨t, ?_, ?_⟩
    · rw [logLines_cons, (hfine c List.mem_cons_self).oneLine, List.cons_append, List.nil_append,
        List.foldlM_cons, hstep]
      show (logLines commits).foldlM _ _ = _
      rw [hfold, hlast]
    · rw [ht]
      show t₁.rows ++ _ = _
      rw [hrows, List.append_assoc]
      congr 1
      cases hrow : storedRow git branch s.db.inLinuxUpstream c with
      | none => rw [List.filterMap_cons_none hrow]; rfl
      | some r => rw [List.filterMap_cons_some hrow]; rfl

/-- It gets through only if it gets over every commit. -/
theorem stableFold_fine (hfind : ∀ c ∈ commits, r.find c.sha = some c) (hnames : r.NoNames commits)
    (hnd : (commits.map Commit.sha).Nodup) {s s' : KernelLoop}
    (hnew : ∀ c ∈ commits, c.sha ∉ s.db.linuxStable.rows.map StableRow.sha)
    (hknown : ∀ sha ∈ s.db.linuxStable.rows.map StableRow.sha, r.find sha ≠ none)
    (hrun : (logLines commits).foldlM (stableLine conn git r branch) s = .ok s') :
    ∀ c ∈ commits, c.StableFine conn := by
  induction commits generalizing s with
  | nil => exact fun c hc => by cases hc
  | cons c commits ih =>
    obtain ⟨hc, hnd⟩ := List.nodup_cons.mp hnd
    have hfindc := hfind c List.mem_cons_self
    have hnewc := hnew c List.mem_cons_self
    rw [logLines_cons, List.cons_append, List.foldlM_cons] at hrun
    have henc : (searchUpstreamSha c.message).isSome = true → conn.encodes c.title = true := by
      intro hsearch
      by_contra htitle
      rw [stableLine_unencodable hfindc hnewc hsearch (Bool.eq_false_iff.mpr htitle)] at hrun
      cases hrun
    obtain ⟨t₁, hstep, hrows⟩ := @stableLine_title _ git _ branch _ _ hfindc hnewc henc
    rw [hstep] at hrun
    have hknown₁ : ∀ sha ∈ t₁.rows.map StableRow.sha, r.find sha ≠ none := by
      intro sha hsha
      rcases sha_of_stored hrows hsha with hsha | rfl
      · exact hknown sha hsha
      · rw [hfindc]
        exact Option.some_ne_none c
    have hone : c.others = [] := by
      cases hothers : c.others with
      | nil => rfl
      | cons l ls =>
        have hl := hnames c List.mem_cons_self l (by rw [hothers]; exact List.mem_cons_self)
        obtain ⟨e, herror⟩ := @stableLine_unknown conn git _ branch
          ⟨{ s.db with linuxStable := t₁ }, some c.sha⟩ _ hl fun hin => hknown₁ _ hin hl
        rw [hothers, List.cons_append] at hrun
        replace hrun : ((l :: (ls ++ logLines commits)).foldlM (stableLine conn git r branch)
          ⟨{ s.db with linuxStable := t₁ }, some c.sha⟩) = .ok s' := hrun
        rw [List.foldlM_cons, herror] at hrun
        cases hrun
    rw [hone, List.nil_append] at hrun
    have hnew₁ : ∀ c' ∈ commits, c'.sha ∉ t₁.rows.map StableRow.sha := by
      intro c' hc' hmem
      rcases sha_of_stored hrows hmem with hmem | heq
      · exact hnew c' (List.mem_cons_of_mem _ hc') hmem
      · exact hc (heq ▸ List.mem_map_of_mem hc')
    have hrest := ih (fun c' hc' => hfind c' (List.mem_cons_of_mem c hc'))
      (fun c' hc' => hnames c' (List.mem_cons_of_mem c hc')) hnd hnew₁ hknown₁ hrun
    exact List.forall_mem_cons.mpr ⟨⟨hone, henc⟩, hrest⟩

end

/-! ## The stored tip -/

theorem shaTip_insert {db : DB} {r : PreviousFetch} {t : Table PreviousFetch.key}
    (h : db.previousFetch.insert r = some t) (path : Kernel) (branch : Branch) :
    ({ db with previousFetch := t } : DB).shaTip path branch =
      if r.key = (path, branch) then some r.shaTip else db.shaTip path branch := by
  unfold DB.shaTip
  rw [Table.lookup_insert h]
  split <;> rfl

/-- A stored tip, or the tag, which is stored now. -/
theorem startOf_ok {db : DB} {path : Kernel} {branch : Branch} (tag : Sha)
    (h : db.shaTip path branch ≠ some "") :
    ∃ db', startOf path branch tag db = .ok ((db.shaTip path branch).getD tag, db') ∧
      ∀ p b, db'.shaTip p b =
        if (path, branch) = (p, b) then some ((db.shaTip path branch).getD tag)
        else db.shaTip p b := by
  unfold startOf
  cases htip : db.shaTip path branch with
  | some tip =>
    have hne : tip ≠ "" := fun he => h (he ▸ htip)
    refine ⟨db, ?_, ?_⟩
    · simp only [if_neg hne, Option.getD_some]
    · intro p b
      split
      · next heq =>
        cases heq
        exact htip
      · rfl
  | none =>
    have hnone : ∀ r ∈ db.previousFetch.rows, r.key ≠ (path, branch) :=
      Table.lookup_eq_none.mp (Option.map_eq_none_iff.mp htip)
    cases hins : db.previousFetch.insert ⟨path, branch, tag⟩ with
    | none =>
      obtain ⟨r, hr, hk⟩ := Table.insert_eq_none.mp hins
      exact absurd hk (hnone r hr)
    | some t =>
      refine ⟨_, ?_, fun p b => shaTip_insert hins p b⟩
      simp only [startOf.insertTag, DB.insertPreviousFetch, hins, Option.getD_none]

theorem updateLast_shaTip {db : DB} {path : Kernel} {branch : Branch} {tip : Sha}
    {last : Option Sha}
    (h : db.shaTip path branch = some tip) (hlast : last ≠ some "") (p : Kernel) (b : Branch) :
    (updateLast db path branch last).shaTip p b =
      if (path, branch) = (p, b) then some (last.getD tip) else db.shaTip p b := by
  cases last with
  | none =>
    show db.shaTip p b = _
    split
    · next heq =>
      cases heq
      exact h
    · rfl
  | some sha =>
    have hne : sha ≠ "" := fun he => hlast (congrArg some he)
    have hset : updateLast db path branch (some sha) = updatePreviousFetch db path branch sha :=
      if_neg hne
    rw [hset]
    unfold DB.shaTip at h ⊢
    have hlookup : (updatePreviousFetch db path branch sha).previousFetch.lookup (p, b) =
        (db.previousFetch.lookup (p, b)).map fun r =>
          if decide (r.key = (path, branch)) then r.setTip sha else r :=
      @Table.lookup_update _ _ _ _ _ _ _ (PreviousFetch.key_setTip sha) _
    rw [hlookup]
    cases hl : db.previousFetch.lookup (p, b) with
    | none =>
      split
      · next heq =>
        cases heq
        rw [hl] at h
        cases h
      · rfl
    | some r =>
      have hk := (Table.lookup_eq_some.mp hl).2
      by_cases heq : (path, branch) = (p, b)
      · rw [if_pos heq, Option.map_some, Option.map_some,
          if_pos (decide_eq_true (hk.trans heq.symm))]
        rfl
      · have hother : ¬decide (r.key = (path, branch)) = true := by
          rw [decide_eq_true_eq, hk]
          exact fun he => heq he.symm
        rw [if_neg heq, Option.map_some, if_neg hother]

theorem lastSha_ne (commits : List Commit) : commits.getLast?.map Commit.sha ≠ some "" := by
  cases commits.getLast? with
  | none => simp
  | some c => simp [c.isSha.ne]

theorem nextTip_ne {tip : Sha} (h : tip ≠ "") (commits : List Commit) :
    Feed.nextTip Commit.sha tip commits ≠ "" := by
  unfold Feed.nextTip
  cases commits.getLast? with
  | none => exact h
  | some c => exact c.isSha.ne

/-! ## One update of linux_stable -/

section

variable {conn : Connection} {git : Git} {r : Branch → Clone} {branch : Branch}
  {db : DB} {tip : Sha}
  {commits : List Commit}

theorem find_of_after {r : Clone} {start : Sha} (hlog : r.history.after start = some commits) :
    ∀ c ∈ commits, r.find c.sha = some c :=
  fun c hc => r.find_sha c ((Feed.after_sublist hlog).subset hc)

theorem nodup_of_after {r : Clone} {start : Sha} (hlog : r.history.after start = some commits) :
    (commits.map Commit.sha).Nodup :=
  r.history.nodup_items.sublist ((Feed.after_sublist hlog).map _)

theorem updateStableDb_eq {db₁ : DB}
    (hstart : startOf .linuxStable branch (versionTag branch) db = .ok (tip, db₁))
    (hlog : (r branch).history.after tip = some commits) :
    updateStableDb conn git r [branch] db =
      ((logLines (commits.filter fun c => !c.merge)).foldlM (stableLine conn git (r branch) branch)
          ⟨db₁, none⟩ >>= fun s => return updateLast s.db .linuxStable branch s.last) := by
  unfold updateStableDb updateKernelDb updateBranch
  simp only [hstart, updateStableTable, gitLog, hlog, updateKernelDb]
  cases (logLines (commits.filter fun c => !c.merge)).foldlM
    (stableLine conn git (r branch) branch) ⟨db₁, none⟩ <;> rfl

theorem updateStableDb_ok (hne : db.shaTip .linuxStable branch ≠ some "")
    (htip : (db.shaTip .linuxStable branch).getD (versionTag branch) = tip)
    (hlog : (r branch).history.after tip = some commits)
    (hfine : ∀ c ∈ commits.filter fun c => !c.merge, c.StableFine conn)
    (hnew : ∀ c ∈ commits.filter fun c => !c.merge,
      c.sha ∉ db.linuxStable.rows.map StableRow.sha) :
    ∃ db', updateStableDb conn git r [branch] db = .ok db' ∧
      db'.linuxUpstream = db.linuxUpstream ∧
      db'.linuxStable.rows = db.linuxStable.rows ++
        (commits.filter fun c => !c.merge).filterMap (storedRow git branch db.inLinuxUpstream) ∧
      ∀ p b, db'.shaTip p b = if (Kernel.linuxStable, branch) = (p, b) then
        some (Feed.nextTip Commit.sha tip (commits.filter fun c => !c.merge))
          else db.shaTip p b := by
  obtain ⟨db₁, hstart, htip₁⟩ := startOf_ok (versionTag branch) hne
  rw [htip] at hstart htip₁
  obtain ⟨f₁, hf₁⟩ := startOf_eq hstart
  have hnd := (nodup_of_after hlog).sublist ((List.filter_sublist (p := fun c => !c.merge)).map _)
  have hnew₁ : ∀ c ∈ commits.filter fun c => !c.merge,
      c.sha ∉ db₁.linuxStable.rows.map StableRow.sha := by
    rw [hf₁]
    exact hnew
  obtain ⟨t, hfold, hrows⟩ := @stableFold_ok _ git _ branch _
    (fun c hc => find_of_after hlog c (List.mem_of_mem_filter hc)) hfine hnd ⟨db₁, none⟩ hnew₁
  have hrun : updateStableDb conn git r [branch] db =
      .ok (updateLast { db₁ with linuxStable := t } .linuxStable branch
        ((commits.filter fun c => !c.merge).getLast?.map Commit.sha)) := by
    rw [updateStableDb_eq hstart hlog, hfold, Option.or_none]
    rfl
  obtain ⟨f₂, hlast⟩ := updateLast_eq { db₁ with linuxStable := t }
      .linuxStable branch ((commits.filter fun c => !c.merge).getLast?.map Commit.sha)
  refine ⟨_, hrun, ?_, ?_, ?_⟩
  · rw [hlast, hf₁]
  · rw [hlast, hrows, hf₁]
    rfl
  · intro p b
    have hkeep : ({ db₁ with linuxStable := t } : DB).shaTip = db₁.shaTip := rfl
    have htip₂ : ({ db₁ with linuxStable := t } : DB).shaTip .linuxStable branch = some tip := by
      rw [hkeep, htip₁, if_pos rfl]
    rw [updateLast_shaTip htip₂ (lastSha_ne _), hkeep, htip₁]
    split <;> rfl

/-- An update gets through only if its loop gets over every commit that is new. -/
theorem updateStableDb_fine (hne : db.shaTip .linuxStable branch ≠ some "")
    (htip : (db.shaTip .linuxStable branch).getD (versionTag branch) = tip)
    (hlog : (r branch).history.after tip = some commits)
    (hnames : (r branch).NoNames (commits.filter fun c => !c.merge))
    (hnew : ∀ c ∈ commits.filter fun c => !c.merge, c.sha ∉ db.linuxStable.rows.map StableRow.sha)
    (hknown : ∀ sha ∈ db.linuxStable.rows.map StableRow.sha, (r branch).find sha ≠ none) {db' : DB}
    (hrun : updateStableDb conn git r [branch] db = .ok db') :
    ∀ c ∈ commits.filter fun c => !c.merge, c.StableFine conn := by
  obtain ⟨db₁, hstart, -⟩ := startOf_ok (versionTag branch) hne
  rw [htip] at hstart
  obtain ⟨f₁, hf₁⟩ := startOf_eq hstart
  have hsame : db₁.linuxStable = db.linuxStable := by rw [hf₁]
  have hnd := (nodup_of_after hlog).sublist ((List.filter_sublist (p := fun c => !c.merge)).map _)
  rw [updateStableDb_eq hstart hlog] at hrun
  cases hfold : (logLines (commits.filter fun c => !c.merge)).foldlM
      (stableLine conn git (r branch) branch) ⟨db₁, none⟩ with
  | error e =>
    rw [hfold] at hrun
    cases hrun
  | ok s =>
    refine stableFold_fine (fun c hc => find_of_after hlog c (List.mem_of_mem_filter hc)) hnames hnd
      ?_ ?_ hfold
    · rw [hsame]
      exact hnew
    · rw [hsame]
      exact hknown

end

/-! ## One commit of linux_chrome -/

section

variable {conn : Connection} {git : Git} {branch : Branch} {c : Commit} {s : KernelLoop}

theorem chromeLine_title {r : Clone} (hc : r.find c.sha = some c) (hmerge : c.merge = false)
    (hnew : c.sha ∉ s.db.linuxStable.rows.map StableRow.sha) (henc : conn.encodes c.title = true) :
    chromeLine conn git r branch s (c.sha ++ " " ++ c.title) =
      .ok ⟨s.db.orSame (s.db.insertChrome (chromeRow git branch c.entry)), some c.sha⟩ := by
  unfold chromeLine
  rw [firstField_append _ c.isSha.no_blank, secondField_append _ c.isSha.no_blank, hc,
    inLinuxStable_eq_false.mpr hnew]
  simp [hmerge, henc, Commit.entry]

theorem updateChromeDb_ok {r : Branch → Clone} {db : DB}
    (hne : db.shaTip .linuxChrome branch ≠ some "")
    (hlog : (r branch).history.after ((db.shaTip .linuxChrome branch).getD (versionTag branch)) =
      some [c])
    (hone : c.others = []) (hmerge : c.merge = false) (henc : conn.encodes c.title = true)
    (hstable : c.sha ∉ db.linuxStable.rows.map StableRow.sha)
    (hchrome : c.sha ∉ db.linuxChrome.rows.map ChromeRow.sha) :
    ∃ db', updateChromeDb conn git r [branch] db = .ok db' ∧
      db'.linuxUpstream = db.linuxUpstream ∧
      db'.linuxChrome.rows = db.linuxChrome.rows ++ [chromeRow git branch c.entry] := by
  obtain ⟨db₁, hstart, -⟩ := startOf_ok (versionTag branch) hne
  obtain ⟨f, hf⟩ := startOf_eq hstart
  have hstep := @chromeLine_title conn git branch _ ⟨db₁, none⟩ _
    (find_of_after hlog c List.mem_cons_self) hmerge (by rw [hf]; exact hstable) henc
  cases hins : db₁.linuxChrome.insert (chromeRow git branch c.entry) with
  | none =>
    obtain ⟨r', hr', hk⟩ := Table.insert_eq_none.mp hins
    rw [hf] at hr'
    exact absurd (List.mem_map.mpr ⟨r', hr', hk⟩) hchrome
  | some t =>
    have hrows := (Table.insert_eq_some.mp hins).2
    have hrun : updateChromeDb conn git r [branch] db =
        .ok (updateLast { db₁ with linuxChrome := t } .linuxChrome branch (some c.sha)) := by
      have hlines : logLines [c] = [c.sha ++ " " ++ c.title] := by
        rw [logLines_cons, hone]
        rfl
      unfold updateChromeDb updateKernelDb updateBranch
      simp only [hstart, updateChromeTable, gitLog, hlog, updateKernelDb, hlines]
      rw [List.foldlM_cons, hstep]
      simp only [DB.insertChrome, hins]
      rfl
    obtain ⟨f₂, hlast⟩ :=
      updateLast_eq { db₁ with linuxChrome := t } .linuxChrome branch (some c.sha)
    refine ⟨_, hrun, ?_, ?_⟩
    · rw [hlast, hf]
    · rw [hlast, hrows, hf]

end

/-! ## A commit and its backport -/

def mainlineCommit (d : Diff) : Commit :=
  ⟨"aaaaaaaaaaaa", by decide, "mm: fix the leak", false, "    mm: fix the leak", "", d⟩

def backportCommit (d : Diff) : Commit :=
  ⟨"bbbbbbbbbbbb", by decide, "mm: fix the leak", false, "    commit aaaaaaaaaaaa upstream.", "", d⟩

theorem others_mainlineCommit (d : Diff) : (mainlineCommit d).others = [] := by
  show (splitlines ("mm: fix the leak" ++ "\n")).tail.filter (· ≠ "") = []
  decide

theorem others_backportCommit (d : Diff) : (backportCommit d).others = [] := by
  show (splitlines ("mm: fix the leak" ++ "\n")).tail.filter (· ≠ "") = []
  decide

end Findmissing
