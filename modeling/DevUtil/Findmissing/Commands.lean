import DevUtil.Findmissing.Steps

/-!
# Runs of the robot's operations and the engineers' commands

`Command` lists the programs that touch the fixes tables; `FixesSession` is a
run of them in any order, each cut off anywhere, with the linux tables changing
in between as the commit tables are synchronised.

A property `P` of single rows is carried through every such run once the
statements preserve it (`CommandsPreserve`, `FixesSession.rows`).  What a
function read before it writes is available there: the row that
`update_change_restored` looked up, the entry that `find_duplicate` found, and
that a row which `fixup_unmerged_patches` opens still is a CONFLICT.
-/

namespace Findmissing

open Lib Prog

/-! ## Rules for `sql` and `call` -/

section
variable {D : Type} {sem : Sem Op D} {I : D → Prop} {P : ∀ ⦃β : Type⦄, Op β → Prop} {α β : Type}

theorem wp_sql {Q : Except Exn β → D → Prop} {o : Op (Except SqlError β)} {d : D} :
    wp sem I Q (sql o) d ↔ ∀ b d', sem o d b d' → I d' ∧ (match b with
      | .ok b => Q (.ok b) d'
      | .error e => Q (.error (.mysql e)) d') := by
  unfold sql
  rw [wp_bind, wp_perform]
  constructor
  · intro h b d' ho
    have := h b d' ho
    cases b <;> exact this
  · intro h b d' ho
    have := h b d' ho
    cases b <;> exact this

/-- A query answers or fails, and leaves the state as it is. -/
theorem wp_query {Q : Except Exn β → D → Prop} {o : Op (Except SqlError β)} {v : β} {d : D}
    (hsem : ∀ b d', sem o d b d' → d' = d ∧ (b = .ok v ∨ ∃ e, b = .error e)) (hI : I d)
    (hok : Q (.ok v) d) (herr : ∀ e, Q (.error (.mysql e)) d) : wp sem I Q (sql o) d := by
  rw [wp_sql]
  intro b d' ho
  obtain ⟨rfl, hb⟩ := hsem b d' ho
  refine ⟨hI, ?_⟩
  rcases hb with rfl | ⟨e, rfl⟩
  · exact hok
  · exact herr e

theorem wp_call {Q : Except Exn β → D → Prop} {o : Op (Except Exn β)} {d : D} :
    wp sem I Q (call o) d ↔ ∀ b d', sem o d b d' → I d' ∧ Q b d' := by
  unfold call
  rw [wp_bind, wp_perform]
  constructor
  · intro h b d' ho
    have := h b d' ho
    cases b <;> exact this
  · intro h b d' ho
    have := h b d' ho
    cases b <;> exact this

theorem exec_sql_ok {o : Op (Except SqlError β)} {d d' : D} {b : β} (h : sem o d (.ok b) d') :
    Exec sem (sql o) d (.ok b) d' := .op h .ret

theorem exec_call_ok {o : Op (Except Exn β)} {d d' : D} {b : β} (h : sem o d (.ok b) d') :
    Exec sem (call o) d (.ok b) d' := .op h .ret

theorem exec_sql_cases {o : Op (Except SqlError β)} {d d' : D} {r : Except Exn β}
    (h : Exec sem (sql o) d r d') : ∃ b, sem o d b d' ∧ r = b.mapError .mysql := by
  rcases exec_bind_cases h with ⟨e, he, -⟩ | ⟨b, d₁, hb, h⟩
  · cases he with
    | op _ hk => cases hk
  · cases hb with
    | op ho hk =>
      cases hk
      cases b with
      | ok b => cases h; exact ⟨_, ho, rfl⟩
      | error e => cases h; exact ⟨_, ho, rfl⟩

theorem exec_call_cases {o : Op (Except Exn β)} {d d' : D} {r : Except Exn β}
    (h : Exec sem (call o) d r d') : sem o d r d' := by
  rcases exec_bind_cases h with ⟨e, he, -⟩ | ⟨b, d₁, hb, h⟩
  · cases he with
    | op _ hk => cases hk
  · cases hb with
    | op ho hk =>
      cases hk
      cases b with
      | ok b => cases h; exact ho
      | error e => cases h; exact ho

theorem keeps_sql {o : Op (Except SqlError β)} (h : ∀ d b d', sem o d b d' → I d → I d') :
    Keeps sem I (sql o) := by
  refine keeps_bind (keeps_perform h) fun b => ?_
  cases b with
  | ok b => exact keeps_pure b
  | error e => exact keeps_raise _

theorem only_sql {o : Op (Except SqlError β)} (h : P o) : Only P (sql o) := by
  refine only_bind (only_perform h) fun b => ?_
  cases b with
  | ok b => exact only_pure b
  | error e => exact only_raise _

theorem only_call {o : Op (Except Exn β)} (h : P o) : Only P (call o) := by
  refine only_bind (only_perform h) fun b => ?_
  cases b with
  | ok b => exact only_pure b
  | error e => exact only_raise _

theorem keeps_ignoringSqlErrors {p : M Unit} (h : Keeps sem I p) :
    Keeps sem I (ignoringSqlErrors p) := by
  refine keeps_tryCatch h fun e => ?_
  cases e with
  | mysql _ => exact keeps_pure ()
  | _ => exact keeps_raise _

theorem only_ignoringSqlErrors {p : M Unit} (h : Only P p) : Only P (ignoringSqlErrors p) := by
  refine only_tryCatch h fun e => ?_
  cases e with
  | mysql _ => exact only_pure ()
  | _ => exact only_raise _

end

/-! ## Functions that only read -/

/-- `Op.frozen`, as a condition on operations. -/
def Frozen : ∀ ⦃β : Type⦄, Op β → Prop := fun _ o => o.frozen

/-- The operations that change neither the database nor Gerrit. -/
def Reads : ∀ ⦃β : Type⦄, Op β → Prop
  | _, .commit => False
  | _, .createChange .. => False
  | _, .abandonChange .. => False
  | _, .restoreChange .. => False
  | _, o => o.frozen

theorem frozen_of_reads {β : Type} (o : Op β) (h : Reads o) : Frozen o := by
  cases o with
  | updateAbandoned => exact h
  | updateRestored => exact h
  | updateMerged => exact h
  | updateConflictToOpen => exact h
  | updateInLinuxChrome => exact h
  | insertFix => exact h
  | _ => trivial

theorem only_statusInGerrit (changeId : ChangeId) (branch : Branch) :
    Only Reads (statusInGerrit changeId branch) := by
  refine only_tryCatch (only_bind (only_call trivial) fun s => only_pure _) fun e => ?_
  split
  · exact only_pure _
  · exact only_raise e

theorem only_statusIfListed (changeId : Option ChangeId) (branch : Option Branch) :
    Only Reads (statusIfListed changeId branch) := by
  unfold statusIfListed
  split
  · split
    · exact only_statusInGerrit _ _
    · exact only_pure _
  · exact only_pure _

theorem only_getChangeIdLoop
    (rows : List (Option ChangeId × Option Branch × Option ChangeId × Option Branch)) :
    ∀ (changeId : Option ChangeId) (status : Option GerritStatus),
      Only Reads (getChangeIdLoop changeId status rows) := by
  induction rows with
  | nil => intro changeId status; exact only_pure _
  | cons row rows ih =>
    intro changeId status
    refine only_bind (only_statusIfListed _ _) fun chrome => ?_
    dsimp only
    split
    · exact only_pure _
    · refine only_bind (only_statusIfListed _ _) fun stable => ?_
      split
      · exact only_pure _
      · exact ih _ _

theorem only_mergedChangeId (chosenTable : Kernel) (sha : Option Sha) :
    Only Reads (mergedChangeId chosenTable sha) := by
  unfold mergedChangeId
  split
  · split
    · exact only_call trivial
    · exact only_pure _
  · exact only_pure _

theorem only_getChangeId (sha : Sha) : Only Reads (getChangeId sha) :=
  only_bind (only_sql trivial) fun rows => only_getChangeIdLoop rows _ _

/-! ## Semantics under a condition on the steps -/

/-- A condition on an operation and the database before it. -/
abbrev StepOk := ∀ ⦃β : Type⦄, Op β → DB → Prop

/-- No condition on the steps. -/
def anyStep : StepOk := fun _ _ _ => True

instance : ∀ (β : Type) (o : Op β) (db : DB), Decidable (anyStep o db) :=
  fun _ _ _ => isTrue trivial

section
variable {ans : Answers} {ok : StepOk} {I : DB → Prop} {α : Type}

theorem keeps_of_frozen {p : M α} (hp : Only Frozen p) : Keeps ((Op.sem ans).restrict ok) I p := by
  refine keeps_of_only (P := Frozen) (fun β o ho db b db' hs hI => ?_) hp
  rw [sem_frozen ho hs.2]
  exact hI

theorem keeps_of_reads {p : M α} (hp : Only Reads p) : Keeps ((Op.sem ans).restrict ok) I p :=
  keeps_of_frozen (hp.mono fun _ => frozen_of_reads)

theorem wp_of_frozen {Q : Except Exn α → DB → Prop} {p : M α} {db : DB} (hp : Only Frozen p)
    (hI : I db) (hQ : ∀ r, Q r db) : wp ((Op.sem ans).restrict ok) I Q p db :=
  wp_of_only_frozen (P := Frozen) (fun _ _ ho _ _ _ hs => sem_frozen ho hs.2) hI hQ hp

theorem keeps_read {o : Op (Except SqlError α)} (ho : o.frozen) :
    Keeps ((Op.sem ans).restrict ok) I (sql o) := keeps_of_frozen (only_sql ho)

theorem keeps_ask {o : Op (Except Exn α)} (ho : o.frozen) :
    Keeps ((Op.sem ans).restrict ok) I (call o) := keeps_of_frozen (only_call ho)

theorem keeps_time : Keeps ((Op.sem ans).restrict ok) I (perform .getCurrentTime : M Time) :=
  keeps_of_frozen (only_perform trivial)

/-- What comes first only reads. -/
theorem wp_frozen_bind {β : Type} {Q : Except Exn β → DB → Prop} {p : M α} {f : α → M β} {db : DB}
    (hp : Only Frozen p) (hI : I db) (hf : ∀ a, wp ((Op.sem ans).restrict ok) I Q (f a) db)
    (he : ∀ e, Q (.error e) db) : wp ((Op.sem ans).restrict ok) I Q (p >>= f) db := by
  rw [wp_bind]
  refine wp_of_frozen hp hI fun r => ?_
  cases r with
  | ok a => exact hf a
  | error e => exact he e

/-- A statement and its commit: only the statement counts. -/
theorem wp_sql_commit {Q : Except Exn Unit → DB → Prop} {o : Op (Except SqlError Unit)} {db : DB}
    (h : ∀ b db', (Op.sem ans).restrict ok o db b db' → I db' ∧ ∀ r, Q r db') :
    wp ((Op.sem ans).restrict ok) I Q (sql o >>= fun _ => sql .commit) db := by
  rw [wp_bind, wp_sql]
  intro b db' ho
  obtain ⟨hI, hQ⟩ := h b db' ho
  refine ⟨hI, ?_⟩
  cases b with
  | ok b => exact wp_of_frozen (only_sql trivial) hI hQ
  | error e => exact hQ _

/-! ## Properties of single rows -/

/-- Every row of both fixes tables has `P`. -/
def AllRows (P : FixRow → Prop) (db : DB) : Prop := ∀ t, ∀ r ∈ (db.fixes t).rows, P r

/-- What the operation does to rows preserves `P`. -/
def Preserves (P : FixRow → Prop) (db : DB) {β : Type} (o : Op β) : Prop :=
  ∀ t, (∀ r ∈ (db.fixes t).rows, P r → ∀ r', RowChange db t r o r' → P r') ∧
    ∀ r', RowInsert db t o r' → P r'

variable {P : FixRow → Prop}

theorem Preserves.sem {β : Type} {o : Op β} {db db' : DB} {b : β} (hp : Preserves P db o)
    (hs : (Op.sem ans).restrict ok o db b db') (hI : AllRows P db) : AllRows P db' := by
  intro t r' hr'
  rcases sem_row_before hs.2 hr' with hr | ⟨r, hr, hc⟩ | hi
  · exact hI t r' hr
  · exact (hp t).1 r hr (hI t r hr) r' hc
  · exact (hp t).2 r' hi

/-- The statements that the functions send, with what they read before, preserve `P`. -/
structure CommandsPreserve (ok : StepOk) (P : FixRow → Prop) : Prop where
  abandon : ∀ db t k f time reason, Preserves P db (.updateAbandoned t k f time reason)
  merge : ∀ db t k f time reason, Preserves P db (.updateMerged t k f time reason)
  inLinuxChrome : ∀ db t branch time reason, Preserves P db
    (.updateInLinuxChrome t branch time reason)
  /-- `update_change_restored` after its lookup -/
  restore : ∀ db t k f row reason, (db.statusQuery [t] [k, f] true).head? = some row →
    ok (.updateRestored t k f (restoredStatus row) reason) db →
    Preserves P db (.updateRestored t k f (restoredStatus row) reason)
  /-- `update_conflict_to_open` of a row that still is a CONFLICT -/
  reopen : ∀ db t k f changeId reason, truthy changeId = true →
    (∀ r ∈ (db.fixes t).rows, r.key = (k, f) → r.status = .CONFLICT) →
    Preserves P db (.updateConflictToOpen t k f changeId reason)
  /-- the INSERT after `find_duplicate` -/
  duplicate : ∀ db branch f k recorded status time,
    db.duplicateQuery branch f = some (k, recorded, status) → ok (.selectDuplicate branch f) db →
    Preserves P db (.insertFix .chromeFixes (duplicateFix k recorded status branch f time))
  merged : ∀ db k f branch time, Preserves P db
    (.insertFix .chromeFixes (mergedFix k f branch time))
  /-- the INSERTs of `insert_fix_gerrit` -/
  gerritMerged : ∀ db t k f branch time changeId reason, Preserves P db
    (.insertFix t (gerritFix k f branch time (some time) changeId .MERGED reason))
  gerritOpen : ∀ db t k f branch time changeId reason, truthy changeId = true → Preserves P db
    (.insertFix t (gerritFix k f branch time none changeId .OPEN reason))
  gerritOther : ∀ db t k f branch time status reason, status ≠ .OPEN → status ≠ .MERGED →
    Preserves P db
    (.insertFix t (gerritFix k f branch time none none status reason))

namespace CommandsPreserve

variable (h : CommandsPreserve ok P)

theorem keeps_preserved {β : Type} {o : Op (Except SqlError β)} (hp : ∀ db, Preserves P db o) :
    Keeps ((Op.sem ans).restrict ok) (AllRows P) (sql o) :=
  keeps_sql fun db _ _ hs hI => (hp db).sem hs hI

include h

theorem updateChangeAbandoned (t : FixesTable) (k f : Sha) (reason : Option String) :
    Keeps ((Op.sem ans).restrict ok) (AllRows P) (updateChangeAbandoned t k f reason) :=
  keeps_bind keeps_time fun time =>
    keeps_bind (keeps_preserved fun db => h.abandon db t k f time reason) fun _ =>
      keeps_read trivial

theorem updateChangeMerged (t : FixesTable) (k f : Sha) (reason : String) :
    Keeps ((Op.sem ans).restrict ok) (AllRows P) (updateChangeMerged t k f reason) :=
  keeps_bind keeps_time fun time =>
    keeps_bind (keeps_preserved fun db => h.merge db t k f time (some reason)) fun _ =>
      keeps_read trivial

/-- The lookup and the UPDATE see the same database. -/
theorem updateChangeRestored (t : FixesTable) (k f : Sha) (reason : Option String) :
    Keeps ((Op.sem ans).restrict ok) (AllRows P) (updateChangeRestored t k f reason) := by
  intro db hI
  unfold Findmissing.updateChangeRestored getFixStatusAndChangeid
  rw [wp_bind]
  refine wp_query (fun _ _ hread => hread.2) hI ?_ fun _ => hI
  dsimp only
  split
  · exact hI
  · next row rows heq =>
    have hrow : (db.statusQuery [t] [k, f] true).head? = some row := by
      rw [show db.statusQuery [t] [k, f] true = row :: rows from heq]
      rfl
    refine wp_sql_commit fun b db'' hs => ?_
    have := (h.restore db t k f row reason hrow hs.1).sem hs hI
    exact ⟨this, fun _ => this⟩

theorem updateChangeStatus (t : FixesTable) (changeId : ChangeId) (status : Status) :
    Keeps ((Op.sem ans).restrict ok) (AllRows P) (updateChangeStatus t changeId status) := by
  refine keeps_bind (keeps_bind (keeps_read trivial) fun key => ?_) fun key => ?_
  · cases key with
    | none => exact keeps_raise _
    | some key => exact keeps_pure key
  · cases status with
    | OPEN => exact h.updateChangeRestored t key.1 key.2 none
    | ABANDONED => exact h.updateChangeAbandoned t key.1 key.2 none
    | MERGED => exact h.updateChangeMerged t key.1 key.2 _
    | CONFLICT => exact keeps_raise _

theorem synchronizeRow (t : FixesTable) (row : Branch × ChangeId) :
    Keeps ((Op.sem ans).restrict ok) (AllRows P) (synchronizeRow t row) := by
  refine keeps_tryCatch (keeps_bind (keeps_ask trivial) fun s => ?_) fun e => ?_
  · cases gerritStatusToDbStatus s with
    | ok status => exact h.updateChangeStatus t row.2 status
    | error e => exact keeps_raise e
  · split
    · exact keeps_pure ()
    · exact keeps_raise e

theorem synchronizeFixesTablesWithGerrit :
    Keeps ((Op.sem ans).restrict ok) (AllRows P) synchronizeFixesTablesWithGerrit := by
  refine keeps_each (fun t => ?_) _
  exact keeps_bind (keeps_read trivial) fun rows =>
    keeps_each (fun row => h.synchronizeRow t row) rows

theorem insertByPatchId (branch : Branch) (f : Sha) :
    Keeps ((Op.sem ans).restrict ok) (AllRows P) (insertByPatchId branch f) := by
  intro db hI
  unfold Findmissing.insertByPatchId findDuplicate
  rw [wp_bind, wp_sql]
  rintro b db' ⟨hok, rfl, hb⟩
  refine ⟨hI, ?_⟩
  rcases hb with rfl | ⟨e, rfl⟩
  · dsimp only
    split
    · next k recorded status heq =>
      refine wp_frozen_bind (only_perform trivial) hI (fun time => ?_) fun _ => hI
      rw [wp_bind]
      unfold ignoringSqlErrors
      rw [wp_tryCatch]
      refine wp_sql_commit fun b db'' hs => ?_
      have hI' := (h.duplicate db' branch f k recorded status time heq hok).sem hs hI
      refine ⟨hI', fun r => ?_⟩
      rcases r with (_ | _) | _ <;> exact hI'
    · refine keeps_bind (keeps_read (by trivial)) (fun chromeShas => ?_) db' hI
      split
      · exact keeps_pure false
      · refine keeps_bind (keeps_each (fun k => ?_) chromeShas) fun _ => keeps_pure true
        refine keeps_bind keeps_time fun time => ?_
        refine keeps_ignoringSqlErrors (keeps_bind ?_ fun _ => keeps_read trivial)
        exact keeps_preserved fun db => h.merged db k f branch time
  · exact hI

theorem insertFixGerrit (chosenTable : Kernel) (t : FixesTable) (branch : Branch) (k f : Sha) :
    Keeps ((Op.sem ans).restrict ok) (AllRows P) (insertFixGerrit chosenTable t branch k f) := by
  refine keeps_bind (h.insertByPatchId branch f) fun success => ?_
  split
  · exact keeps_pure false
  · refine keeps_bind (keeps_ask trivial) fun status => ?_
    refine keeps_bind keeps_time fun time => ?_
    dsimp only
    have other : ∀ s, s ≠ .OPEN → s ≠ .MERGED → Keeps ((Op.sem ans).restrict ok) (AllRows P)
        (ignoringSqlErrors (sql (.insertFix t (gerritFix k f branch time none none s none)))) :=
      fun s h₁ h₂ => keeps_ignoringSqlErrors
        (keeps_preserved fun db => h.gerritOther db t k f branch time s none h₁ h₂)
    cases status with
    | MERGED =>
      refine keeps_bind (keeps_read trivial) fun fixedbySha => ?_
      refine keeps_bind (keeps_of_reads (only_mergedChangeId chosenTable fixedbySha))
        fun changeId => ?_
      exact keeps_bind (keeps_ignoringSqlErrors
        (keeps_preserved fun db => h.gerritMerged db t k f branch time changeId _)) fun _ =>
          keeps_pure false
    | OPEN =>
      refine keeps_bind (keeps_of_reads (only_getChangeId f)) fun changeId => ?_
      refine keeps_bind (keeps_ask trivial) fun fixChangeId => ?_
      split
      · next ht =>
        exact keeps_bind (keeps_ignoringSqlErrors
          (keeps_preserved fun db => h.gerritOpen db t k f branch time fixChangeId none ht))
          fun _ => keeps_pure true
      · exact keeps_pure false
    | CONFLICT => exact keeps_bind (other .CONFLICT (by simp) (by simp)) fun _ => keeps_pure false
    | ABANDONED => exact keeps_bind (other .ABANDONED (by simp) (by simp)) fun _ => keeps_pure false

theorem createNewFixesLoop (md : KernelMetadata) (branch : Branch) (limit : Nat)
    (rows : List (Sha × Sha)) : ∀ count,
      Keeps ((Op.sem ans).restrict ok) (AllRows P)
        (createNewFixesLoop md branch limit count rows) := by
  induction rows with
  | nil => intro count; exact keeps_pure count
  | cons row rows ih =>
    intro count
    refine keeps_bind (h.insertFixGerrit md.path md.kernelFixesTable branch row.1 row.2)
      fun new => ?_
    generalize (if new = true then count + 1 else count) = count'
    dsimp only
    split
    · exact keeps_pure count'
    · exact ih count'

theorem createNewFixesInBranch (branch : Branch) (md : KernelMetadata) (limit : Nat) :
    Keeps ((Op.sem ans).restrict ok) (AllRows P) (createNewFixesInBranch branch md limit) :=
  keeps_bind (keeps_ask trivial) fun _ => keeps_bind (keeps_read trivial) fun rows =>
    keeps_bind (h.createNewFixesLoop md branch limit rows 0) fun count =>
      keeps_bind (keeps_read trivial) fun _ => keeps_pure count

end CommandsPreserve

/-! ## The loop over the unmerged rows -/

/-- The rows that `fixup_unmerged_patches` has not come to yet: their keys differ, and a
CONFLICT among them still is one in the table. -/
def Pending (t : FixesTable) (rows : List (Sha × Sha × Status × Option ChangeId)) (db : DB) :
    Prop :=
  (rows.map fun x => (x.1, x.2.1)).Nodup ∧
    ∀ x ∈ rows, x.2.2.1 = .CONFLICT →
      ∀ r ∈ (db.fixes t).rows, r.key = (x.1, x.2.1) → r.status = .CONFLICT

theorem pending_unmergedQuery (db : DB) (t : FixesTable) (branch : Branch) :
    Pending t (db.unmergedQuery t branch) db := by
  constructor
  · unfold DB.unmergedQuery
    rw [List.map_map]
    exact (db.fixes t).nodup.sublist (List.filter_sublist.map _)
  · intro x hx hc r hr hk
    obtain ⟨r', hr', rfl⟩ := List.mem_map.mp hx
    rw [Table.eq_of_key hr (List.mem_filter.mp hr').1 hk]
    exact hc

/-- The UPDATEs of `fixup_unmerged_patches` touch the row of the current item only. -/
theorem Pending.tail {t : FixesTable} {k f : Sha} {x : Status × Option ChangeId}
    {rows : List (Sha × Sha × Status × Option ChangeId)} {db db' : DB}
    (h : Pending t ((k, f, x) :: rows) db)
    (hdb : ∀ r ∈ (db'.fixes t).rows, r.key = (k, f) ∨ r ∈ (db.fixes t).rows) :
    Pending t rows db' := by
  obtain ⟨hno, hrest⟩ := List.nodup_cons.mp h.1
  refine ⟨hrest, fun y hy hc r hr hk => ?_⟩
  rcases hdb r hr with hkf | hr
  · refine absurd ?_ hno
    exact List.mem_map.mpr ⟨y, hy, hk.symm.trans hkf⟩
  · exact h.2 y (List.mem_cons_of_mem _ hy) hc r hr hk

theorem updateConflictToOpen_only {db db' : DB} {t : FixesTable} {k f : Sha}
    {changeId : Option ChangeId} {reason : Option String} {b : Except SqlError Unit}
    (hs : (Op.sem ans).restrict ok (.updateConflictToOpen t k f changeId reason) db b db') :
    ∀ r ∈ (db'.fixes t).rows, r.key = (k, f) ∨ r ∈ (db.fixes t).rows := by
  intro r hr
  rcases sem_row_before hs.2 hr with hr | ⟨r₀, hr₀, hc⟩ | hi
  · exact .inr hr
  · cases hc with
    | reopen hk => exact .inl hk
  · cases hi

theorem updateMerged_only {db db' : DB} {t : FixesTable} {k f : Sha} {time : Time}
    {reason : Option String} {b : Except SqlError Unit}
    (hs : (Op.sem ans).restrict ok (.updateMerged t k f time reason) db b db') :
    ∀ r ∈ (db'.fixes t).rows, r.key = (k, f) ∨ r ∈ (db.fixes t).rows := by
  intro r hr
  rcases sem_row_before hs.2 hr with hr | ⟨r₀, hr₀, hc⟩ | hi
  · exact .inr hr
  · cases hc with
    | merge hk => exact .inl hk
  · cases hi

namespace CommandsPreserve

variable (h : CommandsPreserve ok P)

include h

theorem fixupRow (branch : Branch) (t : FixesTable) (x : Sha × Sha × Status × Option ChangeId)
    (rows : List (Sha × Sha × Status × Option ChangeId)) (db : DB) (hI : AllRows P db)
    (hx : Pending t (x :: rows) db) :
    wp ((Op.sem ans).restrict ok) (AllRows P) (fun _ db' => AllRows P db' ∧ Pending t rows db')
      (fixupRow branch t x) db := by
  obtain ⟨k, f, status, changeId⟩ := x
  have hrest : Pending t rows db := hx.tail fun r hr => .inr hr
  unfold Findmissing.fixupRow
  refine wp_frozen_bind (only_call trivial) hI (fun newStatus => ?_) fun _ => ⟨hI, hrest⟩
  split
  · next hstatus =>
    refine wp_frozen_bind ((only_getChangeId f).mono fun _ => frozen_of_reads) hI
      (fun newId => ?_) fun _ => ⟨hI, hrest⟩
    refine wp_frozen_bind (only_call trivial) hI (fun newId => ?_) fun _ => ⟨hI, hrest⟩
    split
    · next ht =>
      -- the row was read before the cherry-pick, but nobody has changed it since
      have hc := hx.2 _ (List.mem_cons_self ..) hstatus.1
      refine wp_sql_commit fun b db' hs => ?_
      have hI' := (h.reopen db t k f newId _ ht hc).sem hs hI
      exact ⟨hI', fun _ => ⟨hI', hx.tail (updateConflictToOpen_only hs)⟩⟩
    · exact ⟨hI, hrest⟩
  · split
    · have hmerge : wp ((Op.sem ans).restrict ok) (AllRows P)
          (fun _ db' => AllRows P db' ∧ Pending t rows db')
          (Findmissing.updateChangeMerged t k f "Fix was merged externally and detected by robot.")
              db := by
        refine wp_frozen_bind (only_perform trivial) hI (fun time => ?_) fun _ => ⟨hI, hrest⟩
        refine wp_sql_commit fun b db' hs => ?_
        have hI' := (h.merge db t k f time _).sem hs hI
        exact ⟨hI', fun _ => ⟨hI', hx.tail (updateMerged_only hs)⟩⟩
      dsimp only
      split
      · exact wp_frozen_bind (only_call trivial) hI (fun _ => hmerge) fun _ => ⟨hI, hrest⟩
      · exact hmerge
    · exact ⟨hI, hrest⟩

theorem fixupUnmergedPatches (branch : Branch) (md : KernelMetadata) :
    Keeps ((Op.sem ans).restrict ok) (AllRows P) (fixupUnmergedPatches branch md) := by
  intro db hI
  unfold Findmissing.fixupUnmergedPatches
  rw [wp_bind]
  refine wp_query (fun _ _ hread => hread.2) hI ?_ fun _ => hI
  refine wp_each (fun rows db => AllRows P db ∧ Pending md.kernelFixesTable rows db) ?_
    (fun db h => h.1) _ _ ⟨hI, pending_unmergedQuery db md.kernelFixesTable branch⟩
  intro x rows db hJ
  refine wp_mono ?_ (h.fixupRow branch md.kernelFixesTable x rows db hJ.1 hJ.2)
  intro r db' hr
  cases r with
  | ok _ => exact hr
  | error e => exact hr.1

theorem updateFixesInBranch (branch : Branch) (md : KernelMetadata) :
    Keeps ((Op.sem ans).restrict ok) (AllRows P) (updateFixesInBranch branch md) :=
  keeps_bind keeps_time fun time =>
    keeps_bind (keeps_ignoringSqlErrors
      (keeps_preserved fun db => h.inLinuxChrome db md.kernelFixesTable branch time _)) fun _ =>
        keeps_bind (keeps_read trivial) fun _ => h.fixupUnmergedPatches branch md

/-! ## The engineers' commands -/

theorem abandonRowCl (reason : String) (row : FixStatusRow) :
    Keeps ((Op.sem ans).restrict ok) (AllRows P) (abandonRowCl reason row) := by
  unfold Findmissing.abandonRowCl
  split
  · exact keeps_pure ()
  split
  · exact keeps_pure ()
  dsimp only
  split
  · exact keeps_bind (keeps_ask trivial) fun _ => h.updateChangeAbandoned _ _ _ _
  · exact h.updateChangeAbandoned _ _ _ _

theorem restoreRowCl (reason : String) (row : FixStatusRow) :
    Keeps ((Op.sem ans).restrict ok) (AllRows P) (restoreRowCl reason row) := by
  unfold Findmissing.restoreRowCl
  split
  · exact keeps_pure ()
  dsimp only
  split
  · exact keeps_bind (keeps_ask trivial) fun _ => h.updateChangeRestored _ _ _ _
  · exact h.updateChangeRestored _ _ _ _

omit h in
theorem onFixRows {body : FixStatusRow → M Unit}
    (hb : ∀ row, Keeps ((Op.sem ans).restrict ok) (AllRows P) (body row)) (t : Option FixesTable)
    (shaList : List Sha) (force : Bool) :
    Keeps ((Op.sem ans).restrict ok) (AllRows P) (onFixRows body t shaList force) := by
  refine keeps_tryCatch (keeps_bind (keeps_read trivial) fun rows => ?_) fun e => ?_
  · split
    · exact keeps_raise _
    split
    · exact keeps_raise _
    · exact keeps_bind (keeps_each hb rows) fun _ => keeps_raise _
  · split
    · exact keeps_raise _
    · exact keeps_raise e

end CommandsPreserve

end

/-! ## Sessions -/

/-- The robot's operations and the engineers' commands. -/
inductive Command : M Unit → Prop
  | insertByPatchId (branch : Branch) (f : Sha) :
      Command (insertByPatchId branch f >>= fun _ => pure ())
  | insertFixGerrit (chosenTable : Kernel) (t : FixesTable) (branch : Branch) (k f : Sha) :
      Command (insertFixGerrit chosenTable t branch k f >>= fun _ => pure ())
  | createNewFixesInBranch (branch : Branch) (md : KernelMetadata) (limit : Nat) :
      Command (createNewFixesInBranch branch md limit >>= fun _ => pure ())
  | fixupUnmergedPatches (branch : Branch) (md : KernelMetadata) :
      Command (fixupUnmergedPatches branch md)
  | updateFixesInBranch (branch : Branch) (md : KernelMetadata) :
      Command (updateFixesInBranch branch md)
  | synchronizeFixesTablesWithGerrit : Command synchronizeFixesTablesWithGerrit
  | abandonFixCl (t : Option FixesTable) (shaList : List Sha) (reason : String) (force : Bool) :
      Command (abandonFixCl t shaList reason force)
  | restoreFixCl (t : Option FixesTable) (shaList : List Sha) (reason : String) (force : Bool) :
      Command (restoreFixCl t shaList reason force)

/-- A change of the linux tables, which leaves the fixes tables alone. -/
def LinuxChange (db db' : DB) : Prop := ∀ t, db'.fixes t = db.fixes t

/-- The databases reached from `db₀` by commands whose steps all meet `ok`, for any
outcome of git and Gerrit calls. -/
abbrev FixesSession (ok : StepOk) (db₀ : DB) : DB → Prop :=
  Session ((Op.sem anyAnswer).restrict ok) Command LinuxChange db₀

/-- `Op.run`, refused where a step does not meet `ok`. -/
def Op.runIf (w : World) (ok : StepOk) [∀ (β : Type) (o : Op β) (db : DB), Decidable (ok o db)] :
    ∀ ⦃β : Type⦄, Op β → DB → Option (β × DB) :=
  fun _ o db => if ok o db then some (o.run w db) else none

theorem Op.runIf_sem {w : World} {ok : StepOk}
    [∀ (β : Type) (o : Op β) (db : DB), Decidable (ok o db)] ⦃β : Type⦄ (o : Op β) (db : DB)
    (b : β) (db' : DB) (h : Op.runIf w ok o db = some (b, db')) :
    (Op.sem anyAnswer).restrict ok o db b db' := by
  unfold Op.runIf at h
  split at h
  · next hok =>
    have : Op.sem anyAnswer o db (o.run w db).1 (o.run w db).2 := Op.run_sem w o db trivial
    rw [Option.some.inj h] at this
    exact ⟨hok, this⟩
  · cases h

/-- Commands one after another, in a world. -/
def runCommands (w : World) (ok : StepOk) [∀ (β : Type) (o : Op β) (db : DB), Decidable (ok o db)] :
    List (M Unit) → DB → DB
  | [], db => db
  | p :: ps, db => runCommands w ok ps (p.evalState (Op.runIf w ok) db)

theorem FixesSession.runCommands {ok : StepOk}
    [∀ (β : Type) (o : Op β) (db : DB), Decidable (ok o db)] {db₀ : DB} (w : World) :
    ∀ {ps : List (M Unit)} {db : DB}, FixesSession ok db₀ db → (∀ p ∈ ps, Command p) →
      FixesSession ok db₀ (runCommands w ok ps db) := by
  intro ps
  induction ps with
  | nil => intro db h _; exact h
  | cons p ps ih =>
    intro db h hps
    exact ih (Session.evalState Op.runIf_sem (hps p (List.mem_cons_self ..)) h)
      fun q hq => hps q (List.mem_cons_of_mem _ hq)

theorem CommandsPreserve.command {ans : Answers} {ok : StepOk} {P : FixRow → Prop}
    (h : CommandsPreserve ok P) {p : M Unit} (hp : Command p) :
    Keeps ((Op.sem ans).restrict ok) (AllRows P) p := by
  cases hp with
  | insertByPatchId branch f => exact keeps_bind (h.insertByPatchId branch f) fun _ => keeps_pure ()
  | insertFixGerrit chosenTable t branch k f =>
    exact keeps_bind (h.insertFixGerrit chosenTable t branch k f) fun _ => keeps_pure ()
  | createNewFixesInBranch branch md limit =>
    exact keeps_bind (h.createNewFixesInBranch branch md limit) fun _ => keeps_pure ()
  | fixupUnmergedPatches branch md => exact h.fixupUnmergedPatches branch md
  | updateFixesInBranch branch md => exact h.updateFixesInBranch branch md
  | synchronizeFixesTablesWithGerrit => exact h.synchronizeFixesTablesWithGerrit
  | abandonFixCl t shaList reason force => exact onFixRows (h.abandonRowCl reason) t shaList force
  | restoreFixCl t shaList reason force => exact onFixRows (h.restoreRowCl reason) t shaList force

/-- In every session from empty fixes tables, every row has `P`. -/
theorem FixesSession.rows {ok : StepOk} {P : FixRow → Prop} (h : CommandsPreserve ok P)
    {db₀ db : DB} (h₀ : ∀ t, (db₀.fixes t).rows = []) (hs : FixesSession ok db₀ db) :
    AllRows P db := by
  refine Session.invariant (I := AllRows P) (fun p hp => h.command hp) ?_ ?_ hs
  · intro db db' hd hI t r hr
    rw [hd t] at hr
    exact hI t r hr
  · intro t r hr
    rw [h₀ t] at hr
    cases hr

end Findmissing
