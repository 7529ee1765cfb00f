import DevUtil.Findmissing.Functions

/-!
# What one operation can do to the fixes tables

`sem_row_before`: where a row of the database after an operation comes from.
`sem_row_after`: what becomes of a row of the database before it.  Both say it
with `RowChange` (one constructor for each UPDATE, with its WHERE clause) and
`RowInsert`, so a proof about the fixes tables splits into these cases and
never unfolds a statement.
-/

namespace Findmissing

open Lib Prog

/-! ## Operations that leave the database alone -/

/-- Everything but the UPDATE and INSERT statements. -/
def Op.frozen {β : Type} : Op β → Prop
  | .updateAbandoned .. => False
  | .updateRestored .. => False
  | .updateMerged .. => False
  | .updateConflictToOpen .. => False
  | .updateInLinuxChrome .. => False
  | .insertFix .. => False
  | _ => True

theorem writes_self {db db' : DB} {b : Except SqlError Unit} (h : writes db (.ok db) b db') :
    db' = db := by
  rcases h with ⟨h, -⟩ | ⟨h, -⟩
  · exact (Except.ok.inj h).symm
  · exact h

theorem sem_frozen {ans : Answers} {β : Type} {o : Op β} (ho : o.frozen) {db db' : DB} {b : β}
    (h : Op.sem ans o db b db') : db' = db := by
  cases o with
  | commit => exact writes_self h
  | updateAbandoned => exact ho.elim
  | updateRestored => exact ho.elim
  | updateMerged => exact ho.elim
  | updateConflictToOpen => exact ho.elim
  | updateInLinuxChrome => exact ho.elim
  | insertFix => exact ho.elim
  | _ => exact h.1

/-! ## Rows -/

/-- The change of one row by an UPDATE that selects it. -/
inductive RowChange (db : DB) (t : FixesTable) (r : FixRow) : ∀ {β : Type}, Op β → FixRow → Prop
  | abandon {k f : Sha} {time : Time} {reason : Option String} :
      r.key = (k, f) → r.status = .OPEN ∨ r.status = .CONFLICT →
      RowChange db t r (.updateAbandoned t k f time reason)
        { r with status := .ABANDONED, closeTime := some time, reason := reason }
  | restore {k f : Sha} {status : Status} {reason : Option String} :
      r.key = (k, f) → r.status = .ABANDONED →
      RowChange db t r (.updateRestored t k f status reason)
        { r with status := status, closeTime := none, reason := reason }
  | merge {k f : Sha} {time : Time} {reason : Option String} :
      r.key = (k, f) →
      RowChange db t r (.updateMerged t k f time reason)
        { r with status := .MERGED, closeTime := some time, reason := reason }
  | reopen {k f : Sha} {changeId : Option ChangeId} {reason : Option String} :
      r.key = (k, f) →
      RowChange db t r (.updateConflictToOpen t k f changeId reason)
        { r with status := .OPEN, fixChangeId := changeId, reason := reason }
  | inLinuxChrome {branch : Branch} {time : Time} {reason : Option String} :
      r.branch = branch → db.inLinuxChrome branch r.fixedbyUpstreamSha = true → r.status ≠ .MERGED →
      RowChange db t r (.updateInLinuxChrome t branch time reason)
        { r with status := .MERGED, closeTime := some time, reason := reason }

/-- A row that an INSERT adds. -/
inductive RowInsert (db : DB) (t : FixesTable) : ∀ {β : Type}, Op β → FixRow → Prop
  | mk {row : NewFix} {initialStatus : InitialStatus} :
      InitialStatus.ofStatus row.initialStatus = some initialStatus →
      db.referenced t row.kernelSha row.fixedbyUpstreamSha = true →
      (∀ r ∈ (db.fixes t).rows, r.key ≠ (row.kernelSha, row.fixedbyUpstreamSha)) →
      RowInsert db t (.insertFix t row) (row.toRow initialStatus)

theorem has_iff {k f : Sha} {r : FixRow} : r.has k f = true ↔ r.key = (k, f) := by
  unfold FixRow.has
  rw [decide_eq_true_eq]

theorem insertRow_eq_ok {db db' : DB} {t : FixesTable} {row : NewFix} :
    db.insertRow t row = .ok db' ↔ ∃ i x, InitialStatus.ofStatus row.initialStatus = some i ∧
      db.referenced t row.kernelSha row.fixedbyUpstreamSha = true ∧
      (db.fixes t).insert (row.toRow i) = some x ∧ db' = db.setFixes t x := by
  unfold DB.insertRow
  constructor
  · intro h
    split at h
    · cases h
    · next i hi =>
      split at h
      · cases h
      · next hr =>
        split at h
        · cases h
        · next x hx => exact ⟨i, x, hi, by simpa using hr, hx, (Except.ok.inj h).symm⟩
  · rintro ⟨i, x, hi, hr, hx, rfl⟩
    rw [hi]
    simp only [hr, hx, Bool.not_true, Bool.false_eq_true, if_false]

section
variable {db db' : DB} {t t' : FixesTable} {p : FixRow → Bool} {g : FixRow → FixRow}
  {hg : ∀ r, (g r).key = r.key} {b : Except SqlError Unit} {r r' : FixRow}

/-- The rows after an UPDATE of `t`, which may have failed. -/
theorem writes_update_before
    (h : writes db (.ok (db.setFixes t ((db.fixes t).update p g hg))) b db')
    (hr' : r' ∈ (db'.fixes t').rows) :
    r' ∈ (db.fixes t').rows ∨ t' = t ∧ ∃ r ∈ (db.fixes t').rows, p r = true ∧ r' = g r := by
  rcases h with ⟨h, -⟩ | ⟨rfl, -⟩
  · cases h
    rw [DB.fixes_setFixes] at hr'
    split at hr'
    · next ht =>
      subst ht
      obtain ⟨r, hr, rfl⟩ := Table.mem_update.mp hr'
      split
      · next hp => exact .inr ⟨rfl, r, hr, hp, rfl⟩
      · exact .inl hr
    · exact .inl hr'
  · exact .inl hr'

theorem writes_update_after
    (h : writes db (.ok (db.setFixes t ((db.fixes t).update p g hg))) b db')
    (hr : r ∈ (db.fixes t').rows) :
    ∃ r' ∈ (db'.fixes t').rows, r'.key = r.key ∧ (r' = r ∨ t' = t ∧ p r = true ∧ r' = g r) := by
  rcases h with ⟨h, -⟩ | ⟨rfl, -⟩
  · cases h
    by_cases ht : t' = t
    · subst ht
      rw [DB.fixes_setFixes_self]
      by_cases hp : p r = true
      · exact ⟨g r, Table.mem_update.mpr ⟨r, hr, if_pos hp⟩, hg r, .inr ⟨rfl, hp, rfl⟩⟩
      · exact ⟨r, Table.mem_update.mpr ⟨r, hr, if_neg hp⟩, rfl, .inl rfl⟩
    · rw [DB.fixes_setFixes_ne db _ ht]
      exact ⟨r, hr, rfl, .inl rfl⟩
  · exact ⟨r, hr, rfl, .inl rfl⟩

end

theorem status_ne_merged {s : Status} (h : s = .OPEN ∨ s = .CONFLICT ∨ s = .ABANDONED) :
    s ≠ .MERGED := by
  rcases h with rfl | rfl | rfl <;> simp

/-- Where a row comes from. -/
theorem sem_row_before {ans : Answers} {β : Type} {o : Op β} {db db' : DB} {b : β}
    (h : Op.sem ans o db b db') {t : FixesTable} {r' : FixRow} (hr' : r' ∈ (db'.fixes t).rows) :
    r' ∈ (db.fixes t).rows ∨ (∃ r ∈ (db.fixes t).rows, RowChange db t r o r') ∨
      RowInsert db t o r' := by
  by_cases ho : o.frozen
  · rw [sem_frozen ho h] at hr'
    exact .inl hr'
  cases o with
  | updateAbandoned t₁ k f time reason =>
    rcases writes_update_before h hr' with hr | ⟨rfl, r, hr, hp, rfl⟩
    · exact .inl hr
    · simp only [Bool.and_eq_true, has_iff, decide_eq_true_eq] at hp
      exact .inr (.inl ⟨r, hr, .abandon hp.1 hp.2⟩)
  | updateRestored t₁ k f status reason =>
    rcases writes_update_before h hr' with hr | ⟨rfl, r, hr, hp, rfl⟩
    · exact .inl hr
    · simp only [Bool.and_eq_true, has_iff, decide_eq_true_eq] at hp
      exact .inr (.inl ⟨r, hr, .restore hp.1 hp.2⟩)
  | updateMerged t₁ k f time reason =>
    rcases writes_update_before h hr' with hr | ⟨rfl, r, hr, hp, rfl⟩
    · exact .inl hr
    · exact .inr (.inl ⟨r, hr, .merge (has_iff.mp hp)⟩)
  | updateConflictToOpen t₁ k f changeId reason =>
    rcases writes_update_before h hr' with hr | ⟨rfl, r, hr, hp, rfl⟩
    · exact .inl hr
    · exact .inr (.inl ⟨r, hr, .reopen (has_iff.mp hp)⟩)
  | updateInLinuxChrome t₁ branch time reason =>
    rcases writes_update_before h hr' with hr | ⟨rfl, r, hr, hp, rfl⟩
    · exact .inl hr
    · simp only [Bool.and_eq_true, decide_eq_true_eq] at hp
      exact .inr (.inl ⟨r, hr, .inLinuxChrome hp.1.1 hp.1.2 (status_ne_merged hp.2)⟩)
  | insertFix t₁ row =>
    rcases h with ⟨h, -⟩ | ⟨rfl, -⟩
    · obtain ⟨i, x, hi, href, hx, rfl⟩ := insertRow_eq_ok.mp h
      rw [DB.fixes_setFixes] at hr'
      split at hr'
      · next ht =>
        subst ht
        rw [(Table.insert_eq_some.mp hx).2] at hr'
        rcases List.mem_append.mp hr' with hr | hr
        · exact .inl hr
        · rw [List.mem_singleton.mp hr]
          exact .inr (.inr (.mk hi href (Table.insert_eq_some.mp hx).1))
      · exact .inl hr'
    · exact .inl hr'
  | _ => exact absurd trivial ho

/-- What becomes of a row: it keeps its key, and it is unchanged or changed by an UPDATE. -/
theorem sem_row_after {ans : Answers} {β : Type} {o : Op β} {db db' : DB} {b : β}
    (h : Op.sem ans o db b db') {t : FixesTable} {r : FixRow} (hr : r ∈ (db.fixes t).rows) :
    ∃ r' ∈ (db'.fixes t).rows, r'.key = r.key ∧ (r' = r ∨ RowChange db t r o r') := by
  by_cases ho : o.frozen
  · rw [sem_frozen ho h]
    exact ⟨r, hr, rfl, .inl rfl⟩
  cases o with
  | updateAbandoned t₁ k f time reason =>
    obtain ⟨r', hr', hk, rfl | ⟨rfl, hp, rfl⟩⟩ := writes_update_after h hr
    · exact ⟨r', hr', hk, .inl rfl⟩
    · simp only [Bool.and_eq_true, has_iff, decide_eq_true_eq] at hp
      exact ⟨_, hr', hk, .inr (.abandon hp.1 hp.2)⟩
  | updateRestored t₁ k f status reason =>
    obtain ⟨r', hr', hk, rfl | ⟨rfl, hp, rfl⟩⟩ := writes_update_after h hr
    · exact ⟨r', hr', hk, .inl rfl⟩
    · simp only [Bool.and_eq_true, has_iff, decide_eq_true_eq] at hp
      exact ⟨_, hr', hk, .inr (.restore hp.1 hp.2)⟩
  | updateMerged t₁ k f time reason =>
    obtain ⟨r', hr', hk, rfl | ⟨rfl, hp, rfl⟩⟩ := writes_update_after h hr
    · exact ⟨r', hr', hk, .inl rfl⟩
    · exact ⟨_, hr', hk, .inr (.merge (has_iff.mp hp))⟩
  | updateConflictToOpen t₁ k f changeId reason =>
    obtain ⟨r', hr', hk, rfl | ⟨rfl, hp, rfl⟩⟩ := writes_update_after h hr
    · exact ⟨r', hr', hk, .inl rfl⟩
    · exact ⟨_, hr', hk, .inr (.reopen (has_iff.mp hp))⟩
  | updateInLinuxChrome t₁ branch time reason =>
    obtain ⟨r', hr', hk, rfl | ⟨rfl, hp, rfl⟩⟩ := writes_update_after h hr
    · exact ⟨r', hr', hk, .inl rfl⟩
    · simp only [Bool.and_eq_true, decide_eq_true_eq] at hp
      exact ⟨_, hr', hk, .inr (.inLinuxChrome hp.1.1 hp.1.2 (status_ne_merged hp.2))⟩
  | insertFix t₁ row =>
    rcases h with ⟨h, -⟩ | ⟨rfl, -⟩
    · obtain ⟨i, x, hi, href, hx, rfl⟩ := insertRow_eq_ok.mp h
      refine ⟨r, ?_, rfl, .inl rfl⟩
      rw [DB.fixes_setFixes]
      split
      · next ht =>
        subst ht
        rw [(Table.insert_eq_some.mp hx).2]
        exact List.mem_append_left _ hr
      · exact hr
    · exact ⟨r, hr, rfl, .inl rfl⟩
  | _ => exact absurd trivial ho

end Findmissing
