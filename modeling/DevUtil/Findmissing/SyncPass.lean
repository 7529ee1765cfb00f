import DevUtil.Findmissing.Commands

/-!
# One synchronisation with Gerrit

`synchronize_fixes_tables_with_gerrit` reads the OPEN and ABANDONED rows with
their branch and Change-Id, asks Gerrit for each, and sets the status in the
first row that has the Change-Id, on whatever branch that row is.

So each report reaches the first row of its Change-Id and no other row is ever
touched (`synced_of_exec`).  The pass brings the tables in line with Gerrit
exactly if (`SyncFine`)

* every later row of a Change-Id has the reported status before the pass,
* the reports for the later rows leave the first row where its own report put it,
* and the first row, if it is no candidate itself, is left alone by them.

One CL on two branches with different reports is enough to break it
(`report_reaches_other_branch`).
-/

namespace Findmissing

open Lib Prog

/-! ## Reports -/

/-- What Gerrit reports for a change. -/
inductive Report
  | NEW
  | ABANDONED
  | MERGED
deriving DecidableEq

def Report.toGerrit : Report → GerritStatus
  | .NEW => .NEW
  | .ABANDONED => .ABANDONED
  | .MERGED => .MERGED

/-- The status that a report asks for. -/
def Report.toStatus : Report → Status
  | .NEW => .OPEN
  | .ABANDONED => .ABANDONED
  | .MERGED => .MERGED

theorem gerritStatusToDbStatus_report (x : Report) :
    gerritStatusToDbStatus x.toGerrit = .ok x.toStatus := by
  cases x <;> rfl

/-- A Gerrit that knows every change on every branch. -/
abbrev Gerrit := ChangeId → Branch → Report

def reports (g : Gerrit) : Answers
  | _, .getStatus changeId branch, ans => ans = .ok (g changeId branch).toGerrit
  | _, _, _ => True

/-- A row that the pass asks Gerrit about. -/
def FixRow.tracked (r : FixRow) : Bool :=
  decide (r.status = .OPEN ∨ r.status = .ABANDONED) && r.fixChangeId.isSome

/-- The report for the row's own Change-Id and branch. -/
def FixRow.report (g : Gerrit) (r : FixRow) : Report := g (r.fixChangeId.getD "") r.branch

/-! ## The status of one row under reports -/

/-- `rs` is the status that a restore gives. -/
def Report.advance (rs s : Status) : Report → Status
  | .NEW => if s = .ABANDONED then rs else s
  | .ABANDONED => if s = .OPEN ∨ s = .CONFLICT then .ABANDONED else s
  | .MERGED => .MERGED

/-- The row after the UPDATE for a report. -/
def FixRow.advance (rs : Status) (time : Time) (x : Report) (r : FixRow) : FixRow :=
  match x with
  | .NEW =>
    if r.status = .ABANDONED then { r with status := rs, closeTime := none, reason := none } else r
  | .ABANDONED =>
    if r.status = .OPEN ∨ r.status = .CONFLICT then
      { r with status := .ABANDONED, closeTime := some time, reason := none }
    else r
  | .MERGED =>
    { r with status := .MERGED, closeTime := some time, reason := some DEFAULT_MERGED_REASON }

theorem FixRow.advance_status (rs : Status) (time : Time) (x : Report) (r : FixRow) :
    (r.advance rs time x).status = x.advance rs r.status := by
  cases x <;> simp only [FixRow.advance, Report.advance] <;> split <;> rfl

theorem FixRow.advance_core (rs : Status) (time : Time) (x : Report) (r : FixRow) :
    (r.advance rs time x).core = r.core := by
  cases x with
  | MERGED => rfl
  | _ => simp only [FixRow.advance]; split <;> rfl

theorem FixRow.key_of_core {r r' : FixRow} (h : r'.core = r.core) : r'.key = r.key :=
  congrArg (fun x : Sha × Sha × Branch × Time × Option ChangeId × InitialStatus => (x.1, x.2.1)) h

theorem FixRow.advance_key (rs : Status) (time : Time) (x : Report) (r : FixRow) :
    (r.advance rs time x).key = r.key := key_of_core (r.advance_core rs time x)

/-- A row takes the reports one after the other, at any times. -/
inductive Evolves (rs : Status) (r : FixRow) : List Report → FixRow → Prop
  | nil : Evolves rs r [] r
  | snoc {xs : List Report} {x : Report} {r' : FixRow} (time : Time) :
      Evolves rs r xs r' → Evolves rs r (xs ++ [x]) (r'.advance rs time x)

theorem Evolves.status {rs : Status} {r r' : FixRow} {xs : List Report} (h : Evolves rs r xs r') :
    r'.status = xs.foldl (Report.advance rs) r.status := by
  induction h with
  | nil => rfl
  | snoc time _ ih => rw [FixRow.advance_status, ih, List.foldl_append]; rfl

theorem Evolves.core {rs : Status} {r r' : FixRow} {xs : List Report} (h : Evolves rs r xs r') :
    r'.core = r.core := by
  induction h with
  | nil => rfl
  | snoc time _ ih => rw [FixRow.advance_core, ih]

section
variable {rs : Status} {xs : List Report}

theorem foldl_merged : xs.foldl (Report.advance rs) .MERGED = .MERGED := by
  induction xs with
  | nil => rfl
  | cons x xs ih => cases x <;> exact ih

/-- The reports for rows that are OPEN or ABANDONED as they should be. -/
def NoMerge (xs : List Report) : Prop := ∀ x ∈ xs, x ≠ .MERGED

theorem NoMerge.tail {x : Report} (h : NoMerge (x :: xs)) : NoMerge xs :=
  fun y hy => h y (List.mem_cons_of_mem _ hy)

/-- `x` is the last report, counting one `x` before all of them. -/
theorem getLast_cons_iff {x : Report} :
    (x :: xs).getLast? = some x ↔ (∀ y ∈ xs, y = x) ∨ xs.getLast? = some x := by
  rw [List.getLast?_cons, Option.some.injEq]
  cases h : xs.getLast? with
  | none =>
    rw [List.getLast?_eq_none_iff] at h
    simp [h]
  | some y =>
    simp only [Option.getD_some, Option.some.injEq]
    refine ⟨.inr, ?_⟩
    rintro (hall | hy)
    · exact hall y (List.mem_of_getLast? h)
    · exact hy

theorem getLast_cons_ne {x y : Report} (h : x ≠ y) :
    (x :: xs).getLast? = some y ↔ xs.getLast? = some y := by
  rw [List.getLast?_cons, Option.some.injEq]
  cases xs.getLast? with
  | none => simp [h]
  | some z => simp

theorem not_all_of_cons {x y : Report} (h : x ≠ y) : ¬ ∀ z ∈ x :: xs, z = y :=
  fun hall => h (hall x (List.mem_cons_self ..))

/-- When an ABANDONED row ends ABANDONED, and when a restored one does. -/
theorem foldl_to_abandoned (hrs : rs ≠ .ABANDONED) (h : NoMerge xs) :
    (xs.foldl (Report.advance rs) .ABANDONED = .ABANDONED ↔
      (∀ x ∈ xs, x = .ABANDONED) ∨ rs ≠ .MERGED ∧ xs.getLast? = some .ABANDONED) ∧
    (rs ≠ .MERGED →
      (xs.foldl (Report.advance rs) rs = .ABANDONED ↔ xs.getLast? = some .ABANDONED)) := by
  induction xs with
  | nil => simp [hrs]
  | cons x xs ih =>
    obtain ⟨ihA, ihR⟩ := ih h.tail
    have hnew : Report.advance rs .ABANDONED .NEW = rs := rfl
    have hstay : Report.advance rs rs .NEW = rs := if_neg hrs
    simp only [List.foldl_cons]
    cases x with
    | MERGED => exact absurd rfl (h _ (List.mem_cons_self ..))
    | NEW =>
      rw [hnew, hstay, getLast_cons_ne (by simp : Report.NEW ≠ .ABANDONED)]
      refine ⟨?_, ihR⟩
      rw [or_iff_right (not_all_of_cons (by simp))]
      by_cases hm : rs = .MERGED
      · simp [hm, foldl_merged]
      · simp [hm, ihR hm]
    | ABANDONED =>
      rw [getLast_cons_iff, List.forall_mem_cons]
      have hfold : (∀ y ∈ xs, y = .ABANDONED) ∨ rs ≠ .MERGED ∧ xs.getLast? = some .ABANDONED ↔
          (∀ y ∈ xs, y = .ABANDONED) ∨ rs ≠ .MERGED ∧
            ((∀ y ∈ xs, y = .ABANDONED) ∨ xs.getLast? = some .ABANDONED) := by
        constructor
        · rintro (hall | ⟨hm, hl⟩)
          · exact .inl hall
          · exact .inr ⟨hm, .inr hl⟩
        · rintro (hall | ⟨hm, hall | hl⟩)
          · exact .inl hall
          · exact .inl hall
          · exact .inr ⟨hm, hl⟩
      refine ⟨?_, fun hm => ?_⟩
      · rw [show Report.advance rs .ABANDONED .ABANDONED = .ABANDONED from rfl, ihA, hfold]
        simp only [true_and]
      · have habandon : Report.advance rs rs .ABANDONED = .ABANDONED := by
          cases rs with
          | MERGED => exact absurd rfl hm
          | _ => rfl
        rw [habandon, ihA]
        simp only [ne_eq, hm, not_false_eq_true, true_and]

variable (rs) in
/-- When an OPEN or CONFLICT row (status `o`) ends as it was, and when an ABANDONED one
ends so. -/
theorem foldl_to_pending {o : Status} (ho : o = .OPEN ∨ o = .CONFLICT) (h : NoMerge xs) :
    (xs.foldl (Report.advance rs) o = o ↔
      (∀ x ∈ xs, x = .NEW) ∨ rs = o ∧ xs.getLast? = some .NEW) ∧
    (xs.foldl (Report.advance rs) .ABANDONED = o ↔ rs = o ∧ xs.getLast? = some .NEW) ∧
    (rs ≠ o → ∀ s, s ≠ o → xs.foldl (Report.advance rs) s ≠ o) := by
  have hoA : o ≠ .ABANDONED := by rcases ho with rfl | rfl <;> simp
  induction xs with
  | nil => simp [hoA.symm]
  | cons x xs ih =>
    obtain ⟨ihO, ihA, ihN⟩ := ih h.tail
    have hnew : Report.advance rs .ABANDONED .NEW = rs := rfl
    have hstay : Report.advance rs o .NEW = o := if_neg hoA
    have habandon : Report.advance rs o .ABANDONED = .ABANDONED := if_pos ho
    refine ⟨?_, ?_, ?_⟩
    · simp only [List.foldl_cons]
      cases x with
      | MERGED => exact absurd rfl (h _ (List.mem_cons_self ..))
      | NEW =>
        rw [hstay, ihO, List.forall_mem_cons, getLast_cons_iff]
        constructor
        · rintro (hall | ⟨hro, hl⟩)
          · exact .inl ⟨rfl, hall⟩
          · exact .inr ⟨hro, .inr hl⟩
        · rintro (⟨-, hall⟩ | ⟨hro, hall | hl⟩)
          · exact .inl hall
          · exact .inl hall
          · exact .inr ⟨hro, hl⟩
      | ABANDONED =>
        rw [habandon, ihA, getLast_cons_ne (by simp : Report.ABANDONED ≠ .NEW),
          or_iff_right (not_all_of_cons (by simp))]
    · simp only [List.foldl_cons]
      cases x with
      | MERGED => exact absurd rfl (h _ (List.mem_cons_self ..))
      | NEW =>
        rw [hnew, getLast_cons_iff]
        by_cases hro : rs = o
        · rw [hro] at ihO ⊢
          rw [ihO]
          simp only [true_and]
        · simp only [hro, ihN hro rs hro, false_and]
      | ABANDONED =>
        rw [show Report.advance rs .ABANDONED .ABANDONED = .ABANDONED from rfl, ihA,
          getLast_cons_ne (by simp : Report.ABANDONED ≠ .NEW)]
    · intro hro s hs
      refine ihN hro _ ?_
      cases x with
      | MERGED => exact absurd rfl (h _ (List.mem_cons_self ..))
      | NEW =>
        simp only [Report.advance]
        split
        · exact hro
        · exact hs
      | ABANDONED =>
        simp only [Report.advance]
        split
        · exact hoA.symm
        · exact hs

/-- The reports `later` leave a row where its own report `own` put it. -/
def FirstFine (rs s : Status) (own : Report) (later : List Report) : Prop :=
  match own with
  | .MERGED => True
  | .NEW => (s = .OPEN ∧ ∀ x ∈ later, x = .NEW) ∨ rs = .OPEN ∧ (own :: later).getLast? = some .NEW
  | .ABANDONED =>
    (∀ x ∈ later, x = .ABANDONED) ∨ rs ≠ .MERGED ∧ (own :: later).getLast? = some .ABANDONED

theorem firstFine_iff {s : Status} {own : Report} (hrs : rs ≠ .ABANDONED)
    (hs : s = .OPEN ∨ s = .ABANDONED) (h : NoMerge xs) :
    (own :: xs).foldl (Report.advance rs) s = own.toStatus ↔ FirstFine rs s own xs := by
  have hcons : ∀ {x : Report}, x ≠ .MERGED → NoMerge (x :: xs) := fun hx y hy => by
    rcases List.mem_cons.mp hy with rfl | hy
    · exact hx
    · exact h y hy
  cases own with
  | MERGED =>
    refine ⟨fun _ => trivial, fun _ => ?_⟩
    rw [List.foldl_cons]
    exact foldl_merged
  | NEW =>
    have hfold := foldl_to_pending rs (.inl rfl) (hcons (x := .NEW) (by simp))
    rcases hs with rfl | rfl
    · simp only [Report.toStatus, FirstFine, hfold.1, List.forall_mem_cons, true_and]
    · simp only [Report.toStatus, FirstFine, hfold.2.1, reduceCtorEq, false_and, false_or]
  | ABANDONED =>
    have hfirst : Report.advance rs s .ABANDONED = .ABANDONED := by rcases hs with rfl | rfl <;> rfl
    have hfold := (foldl_to_abandoned hrs (hcons (x := .ABANDONED) (by simp))).1
    rw [List.foldl_cons, show Report.advance rs .ABANDONED .ABANDONED = .ABANDONED from rfl,
      List.forall_mem_cons] at hfold
    rw [List.foldl_cons, hfirst]
    simp only [Report.toStatus, FirstFine, hfold, true_and]

/-- The reports `later` leave a CONFLICT row as it is. -/
def ConflictFine (rs : Status) (r : FixRow) (later : List Report) : Prop :=
  (∀ x ∈ later, x = .NEW) ∨
    rs = .CONFLICT ∧ later.getLast? = some .NEW ∧ r.closeTime = none ∧ r.reason = none

variable {r r' : FixRow}

theorem FixRow.ext_core (hc : r'.core = r.core) (hs : r'.status = r.status)
    (ht : r'.closeTime = r.closeTime) (hr : r'.reason = r.reason) : r' = r := by
  cases r
  cases r'
  simp only [FixRow.core, Prod.mk.injEq] at hc
  simp_all

theorem Evolves.all_new (h : Evolves rs r xs r') (hs : r.status ≠ .ABANDONED)
    (hall : ∀ x ∈ xs, x = .NEW) :
    r' = r := by
  induction h with
  | nil => rfl
  | snoc time _ ih =>
    rw [ih fun x hx => hall x (List.mem_append_left _ hx),
      hall _ (List.mem_append_right _ (List.mem_singleton_self _))]
    exact if_neg hs

theorem Evolves.merged (h : Evolves rs r xs r') (hs : r.status = .MERGED) (hno : NoMerge xs) :
    r' = r := by
  induction h with
  | nil => rfl
  | @snoc xs x r' time _ ih =>
    rw [ih fun y hy => hno y (List.mem_append_left _ hy)]
    cases x with
    | MERGED => exact absurd rfl (hno _ (List.mem_append_right _ (List.mem_singleton_self _)))
    | NEW => exact if_neg (by simp [hs])
    | ABANDONED => exact if_neg (by simp [hs])

/-- A CONFLICT row is as it was, or ABANDONED, or restored. -/
theorem Evolves.conflict_cases (h : Evolves rs r xs r') (hs : r.status = .CONFLICT)
    (hno : NoMerge xs) :
    ((∀ x ∈ xs, x = .NEW) ∧ r' = r) ∨ r'.status = .ABANDONED ∨
      r'.status = rs ∧ r'.closeTime = none ∧ r'.reason = none := by
  induction h with
  | nil => exact .inl ⟨fun _ hx => (nomatch hx), rfl⟩
  | @snoc xs x r' time _ ih =>
    have ih := ih fun y hy => hno y (List.mem_append_left _ hy)
    cases x with
    | MERGED => exact absurd rfl (hno _ (List.mem_append_right _ (List.mem_singleton_self _)))
    | NEW =>
      simp only [FixRow.advance]
      split
      · exact .inr (.inr ⟨rfl, rfl, rfl⟩)
      · next hr =>
        rcases ih with ⟨hall, he⟩ | ha | hrest
        · refine .inl ⟨fun y hy => ?_, he⟩
          rcases List.mem_append.mp hy with hy | hy
          · exact hall y hy
          · exact List.mem_singleton.mp hy
        · exact absurd ha hr
        · exact .inr (.inr hrest)
    | ABANDONED =>
      simp only [FixRow.advance]
      split
      · exact .inr (.inl rfl)
      · next hr =>
        rcases ih with ⟨-, rfl⟩ | ih
        · exact absurd (.inr hs) hr
        · exact .inr ih

theorem Evolves.conflict_iff (h : Evolves rs r xs r') (hs : r.status = .CONFLICT)
    (hno : NoMerge xs) :
    r' = r ↔ ConflictFine rs r xs := by
  have hfold := (foldl_to_pending rs (.inr rfl) hno).1
  rw [← hs, ← h.status] at hfold
  constructor
  · intro he
    rcases h.conflict_cases hs hno with ⟨hall, -⟩ | ha | ⟨-, ht, hr⟩
    · exact .inl hall
    · rw [he, hs] at ha
      cases ha
    · rcases hfold.mp (congrArg FixRow.status he) with hall | ⟨hrs, hl⟩
      · exact .inl hall
      · exact .inr ⟨hrs.trans hs, hl, he ▸ ht, he ▸ hr⟩
  · rintro (hall | ⟨hrs, hl, ht, hr⟩)
    · exact h.all_new (by simp [hs]) hall
    · rcases h.conflict_cases hs hno with ⟨-, he⟩ | ha | ⟨hst, htime, hreason⟩
      · exact he
      · rw [hfold.mpr (.inr ⟨hrs.trans hs.symm, hl⟩), hs] at ha
        cases ha
      · exact FixRow.ext_core h.core (hst.trans (hrs.trans hs.symm)) (htime.trans ht.symm)
          (hreason.trans hr.symm)

end

/-! ## Which row a report reaches -/

namespace DB

/-- The status that a restore gives the row. -/
def restoresTo (db : DB) (t : FixesTable) (k f : Sha) : Status :=
  ((db.statusQuery [t] [k, f] true).head?.map restoredStatus).getD .OPEN

/-- The reports that reach the row, in the order of the pass. -/
def reportsFor (db : DB) (g : Gerrit) (t : FixesTable) (r : FixRow) : List Report :=
  (db.syncQuery t).filterMap fun x =>
    if db.primaryKeyQuery t x.2 = some r.key then some (g x.2 x.1) else none

/-- The reports for the other tracked rows with the row's Change-Id. -/
def laterReports (db : DB) (g : Gerrit) (t : FixesTable) (r : FixRow) : List Report :=
  ((db.fixes t).rows.filter fun x =>
    x.tracked && decide (x.fixChangeId = r.fixChangeId) && decide (x.key ≠ r.key)).map (·.report g)

end DB

/-- The row is the first one with its Change-Id. -/
def IsFirst (db : DB) (t : FixesTable) (r : FixRow) : Prop :=
  ∃ changeId, r.fixChangeId = some changeId ∧ db.rowOfChangeId t changeId = some r

section
variable {db : DB} {g : Gerrit} {t : FixesTable} {r : FixRow}

theorem restoresTo_ne_abandoned {k f : Sha} : db.restoresTo t k f ≠ .ABANDONED := by
  unfold DB.restoresTo
  cases (db.statusQuery [t] [k, f] true).head? with
  | none => simp
  | some row => exact restoredStatus_ne_abandoned row

theorem syncQuery_eq : db.syncQuery t =
    ((db.fixes t).rows.filter FixRow.tracked).map fun r => (r.branch, r.fixChangeId.getD "") := by
  unfold DB.syncQuery
  rw [← List.filterMap_eq_map, List.filterMap_filter]
  apply List.filterMap_congr
  intro r _
  cases hc : r.fixChangeId <;> simp [FixRow.tracked, hc]

theorem mem_of_rowOfChangeId {changeId : ChangeId} (h : db.rowOfChangeId t changeId = some r) :
    r ∈ (db.fixes t).rows ∧ r.fixChangeId = some changeId := by
  unfold DB.rowOfChangeId at h
  exact ⟨List.mem_of_find?_eq_some h, by simpa using List.find?_some h⟩

theorem reportsFor_eq_nil (hr : r ∈ (db.fixes t).rows) (h : ¬ IsFirst db t r) :
    db.reportsFor g t r = [] := by
  unfold DB.reportsFor
  rw [List.filterMap_eq_nil_iff]
  intro x _
  refine if_neg fun hk => h ?_
  obtain ⟨r', hr', hkey⟩ := Option.map_eq_some_iff.mp hk
  obtain ⟨hmem, hc⟩ := mem_of_rowOfChangeId hr'
  rw [Table.eq_of_key hmem hr hkey] at hr' hc
  exact ⟨x.2, hc, hr'⟩

theorem primaryKeyQuery_eq_key {changeId changeId' : ChangeId}
    (hr : db.rowOfChangeId t changeId = some r) :
    db.primaryKeyQuery t changeId' = some r.key ↔ changeId' = changeId := by
  obtain ⟨hmem, hc⟩ := mem_of_rowOfChangeId hr
  unfold DB.primaryKeyQuery
  constructor
  · intro hk
    obtain ⟨r', hr', hkey⟩ := Option.map_eq_some_iff.mp hk
    obtain ⟨hmem', hc'⟩ := mem_of_rowOfChangeId hr'
    rw [Table.eq_of_key hmem' hmem hkey, hc] at hc'
    exact (Option.some.inj hc').symm
  · rintro rfl
    rw [hr]
    rfl

theorem reportsFor_of_first (h : IsFirst db t r) : db.reportsFor g t r =
    ((db.fixes t).rows.filter fun x => x.tracked && decide (x.fixChangeId = r.fixChangeId)).map
      (·.report g) := by
  obtain ⟨changeId, hc, hr⟩ := h
  unfold DB.reportsFor
  rw [syncQuery_eq, List.filterMap_map, ← List.filterMap_eq_map, List.filterMap_filter,
    List.filterMap_filter]
  apply List.filterMap_congr
  intro x _
  cases ht : x.tracked with
  | false => simp
  | true =>
    obtain ⟨c, hx⟩ := Option.isSome_iff_exists.mp (Bool.and_eq_true_iff.mp ht).2
    simp only [Function.comp_apply, hx, hc, Option.getD_some, primaryKeyQuery_eq_key hr, if_true,
      Option.some.injEq, Bool.true_and, decide_eq_true_eq, FixRow.report]

/-- No row before the first has its Change-Id, none after it has its key. -/
theorem IsFirst.split (h : IsFirst db t r) : ∃ pre post, (db.fixes t).rows = pre ++ r :: post ∧
    (∀ x ∈ pre, x.fixChangeId ≠ r.fixChangeId) ∧ ∀ x ∈ post, x.key ≠ r.key := by
  obtain ⟨changeId, hc, hr⟩ := h
  unfold DB.rowOfChangeId at hr
  obtain ⟨-, pre, post, hrows, hpre⟩ := List.find?_eq_some_iff_append.mp hr
  refine ⟨pre, post, hrows, ?_, ?_⟩
  · intro x hx
    rw [hc]
    simpa using hpre x hx
  · intro x hx hk
    have hno := (db.fixes t).nodup
    rw [hrows, List.map_append, List.map_cons] at hno
    have := (List.nodup_cons.mp (List.nodup_append.mp hno).2.1).1
    exact this (List.mem_map.mpr ⟨x, hx, hk⟩)

theorem reportsFor_eq (h : IsFirst db t r) : db.reportsFor g t r =
    (if r.tracked then [r.report g] else []) ++ db.laterReports g t r := by
  rw [reportsFor_of_first h]
  unfold DB.laterReports
  obtain ⟨pre, post, hrows, hpre, hpost⟩ := h.split
  have hpre₁ : pre.filter (fun x => x.tracked && decide (x.fixChangeId = r.fixChangeId)) = [] := by
    rw [List.filter_eq_nil_iff]
    intro x hx
    simp [hpre x hx]
  have hpre₂ : pre.filter (fun x => x.tracked && decide (x.fixChangeId = r.fixChangeId) &&
      decide (x.key ≠ r.key)) = [] := by
    rw [List.filter_eq_nil_iff]
    intro x hx
    simp [hpre x hx]
  have hpost' : post.filter (fun x => x.tracked && decide (x.fixChangeId = r.fixChangeId) &&
      decide (x.key ≠ r.key)) =
      post.filter (fun x => x.tracked && decide (x.fixChangeId = r.fixChangeId)) := by
    apply List.filter_congr
    intro x hx
    simp [hpost x hx]
  rw [hrows, List.filter_append, List.filter_append, hpre₁, hpre₂, List.filter_cons,
    List.filter_cons, hpost']
  cases ht : r.tracked <;> simp

/-! ## The queries depend on what no UPDATE touches -/

variable {db' : DB}

theorem primaryKeyQuery_congr
    (h : (db'.fixes t).rows.map FixRow.core = (db.fixes t).rows.map FixRow.core)
    (changeId : ChangeId) : db'.primaryKeyQuery t changeId = db.primaryKeyQuery t changeId := by
  have hcore : ∀ db : DB, db.primaryKeyQuery t changeId =
      (((db.fixes t).rows.map FixRow.core).find? fun x => decide (x.2.2.2.2.1 = some changeId)).map
        fun x => (x.1, x.2.1) := by
    intro db
    rw [List.find?_map, Option.map_map]
    rfl
  rw [hcore, hcore, h]

theorem restoresTo_congr
    (h : (db'.fixes t).rows.map FixRow.core = (db.fixes t).rows.map FixRow.core) (k f : Sha) :
    db'.restoresTo t k f = db.restoresTo t k f := by
  have hcore : ∀ db : DB, (db.statusQuery [t] [k, f] true).head?.map restoredStatus =
      (((db.fixes t).rows.map FixRow.core).find? fun x => [k, f].contains x.1 &&
        [k, f].contains x.2.1).map
        fun x => if truthy x.2.2.2.2.1 then .OPEN else x.2.2.2.2.2.toStatus := by
    intro db
    unfold DB.statusQuery
    rw [List.flatMap_singleton, List.head?_map, List.head?_filter, List.find?_map, Option.map_map,
      Option.map_map]
    rfl
  unfold DB.restoresTo
  rw [hcore, hcore, h]

/-! ## The run -/

/-- The UPDATE for a report. -/
def DB.reportRow (db : DB) (t : FixesTable) (k f : Sha) (time : Time) (x : Report) : DB :=
  db.setFixes t <| (db.fixes t).update (·.has k f) (FixRow.advance (db.restoresTo t k f) time x)
    (FixRow.advance_key _ time x)

theorem abandonRow_eq (k f : Sha) (time : Time) :
    db.abandonRow t k f time none = db.reportRow t k f time .ABANDONED := by
  refine congrArg (db.setFixes t) (Table.ext_rows (List.map_congr_left fun r _ => ?_))
  simp only [FixRow.advance, Bool.and_eq_true, decide_eq_true_eq, ite_and]

theorem restoreRow_eq (k f : Sha) (time : Time) :
    db.restoreRow t k f (db.restoresTo t k f) none = db.reportRow t k f time .NEW := by
  refine congrArg (db.setFixes t) (Table.ext_rows (List.map_congr_left fun r _ => ?_))
  simp only [FixRow.advance, Bool.and_eq_true, decide_eq_true_eq, ite_and]

/-- The tables after the pass has done the items `done` of the table `t`. -/
structure Advanced (db : DB) (g : Gerrit) (t : FixesTable) (done : List (Branch × ChangeId))
    (db' : DB) :
    Prop where
  other : ∀ t', t' ≠ t → db'.fixes t' = db.fixes t'
  core : (db'.fixes t).rows.map FixRow.core = (db.fixes t).rows.map FixRow.core
  rows : ∀ r ∈ (db.fixes t).rows, ∃ r' ∈ (db'.fixes t).rows,
    Evolves (db.restoresTo t r.kernelSha r.fixedbyUpstreamSha) r
      (done.filterMap fun x => if db.primaryKeyQuery t x.2 = some r.key then
        some (g x.2 x.1) else none) r'

theorem Advanced.refl : Advanced db g t [] db :=
  ⟨fun _ _ => rfl, rfl, fun r hr => ⟨r, hr, .nil⟩⟩

theorem Advanced.snoc {done : List (Branch × ChangeId)} {branch : Branch} {changeId : ChangeId}
    {k f : Sha} (time : Time) (h : Advanced db g t done db')
    (hk : db.primaryKeyQuery t changeId = some (k, f)) :
    Advanced db g t (done ++ [(branch, changeId)])
      (db'.reportRow t k f time (g changeId branch)) where
  other t' ht := (DB.fixes_setFixes_ne db' _ ht).trans (h.other t' ht)
  core := by
    unfold DB.reportRow
    rw [DB.fixes_setFixes_self, Table.map_update _ _ _ _ _ (FixRow.advance_core _ time _)]
    exact h.core
  rows r hr := by
    obtain ⟨r', hr', he⟩ := h.rows r hr
    unfold DB.reportRow
    rw [DB.fixes_setFixes_self]
    refine ⟨_, Table.mem_update.mpr ⟨r', hr', rfl⟩, ?_⟩
    rw [List.filterMap_append, List.filterMap_cons, List.filterMap_nil, hk]
    have hkey : r'.has k f = true ↔ (k, f) = r.key := by
      rw [has_iff, FixRow.key_of_core he.core]
      exact eq_comm
    by_cases hkf : (k, f) = r.key
    · rw [if_pos (hkey.mpr hkf), if_pos (congrArg some hkf), restoresTo_congr h.core]
      cases hkf
      exact he.snoc time
    · rw [if_neg (fun h => hkf (hkey.mp h)), if_neg (fun h => hkf (Option.some.inj h)),
        List.append_nil]
      exact he

/-- Every Change-Id of the pass is found in the table. -/
theorem primaryKeyQuery_of_sync {branch : Branch} {changeId : ChangeId}
    (h : (branch, changeId) ∈ db.syncQuery t) :
    ∃ key, db.primaryKeyQuery t changeId = some key := by
  rw [syncQuery_eq, List.mem_map] at h
  obtain ⟨r, hr, hx⟩ := h
  obtain ⟨hmem, ht⟩ := List.mem_filter.mp hr
  obtain ⟨c, hc⟩ := Option.isSome_iff_exists.mp (Bool.and_eq_true_iff.mp ht).2
  cases hx
  unfold DB.primaryKeyQuery DB.rowOfChangeId
  cases hfind : (db.fixes t).rows.find?
      (fun x => decide (x.fixChangeId = some (r.fixChangeId.getD ""))) with
  | none =>
    have := List.find?_eq_none.mp hfind r hmem
    simp [hc] at this
  | some r' => exact ⟨_, rfl⟩

/-- A statement that writes `db₁`, and its commit. -/
theorem wp_write_commit {ans : Answers} {Q : Except Exn Unit → DB → Prop}
    {o : Op (Except SqlError Unit)} (db₁ : DB)
    (ho : ∀ b db', Op.sem ans o db b db' → writes db (.ok db₁) b db') (hok : Q (.ok ()) db₁)
    (herr : ∀ e db', Q (.error (.mysql e)) db') :
    wp (Op.sem ans) (fun _ => True) Q (sql o >>= fun _ => sql .commit) db := by
  rw [wp_bind, wp_sql]
  intro b db' hs
  refine ⟨trivial, ?_⟩
  rcases ho b db' hs with ⟨h, rfl⟩ | ⟨-, e, rfl⟩
  · cases h
    dsimp only
    rw [wp_sql]
    intro b db'' hs
    obtain rfl := writes_self hs
    refine ⟨trivial, ?_⟩
    cases b with
    | ok _ => exact hok
    | error e => exact herr e _
  · exact herr e db'

/-- The outcome of one item: the UPDATE, or an error that ends the pass. -/
def ReportDone (db : DB) (t : FixesTable) (k f : Sha) (x : Report) (r : Except Exn Unit)
    (db' : DB) : Prop :=
  (∀ u, r = .ok u → ∃ time, db' = db.reportRow t k f time x) ∧ r ≠ .error .keyError

theorem reportDone_error {k f : Sha} {x : Report} {e : Exn} (he : e ≠ .keyError) :
    ReportDone db t k f x (.error e) db' :=
  ⟨fun _ h => (nomatch h), fun h => he (Except.error.inj h)⟩

theorem reportDone_ok {k f : Sha} {x : Report} (time : Time) :
    ReportDone db t k f x (.ok ()) (db.reportRow t k f time x) :=
  ⟨fun _ _ => ⟨time, rfl⟩, fun h => (nomatch h)⟩

theorem wp_updateChangeStatus {changeId : ChangeId} {k f : Sha} {x : Report}
    (hk : db.primaryKeyQuery t changeId = some (k, f)) :
    wp (Op.sem (reports g)) (fun _ => True) (ReportDone db t k f x)
      (updateChangeStatus t changeId x.toStatus) db := by
  unfold updateChangeStatus getFixesTablePrimaryKey
  rw [wp_bind, wp_bind]
  refine wp_query (fun _ _ hread => hread) trivial ?_ fun _ => reportDone_error (by simp)
  rw [hk]
  cases x with
  | NEW =>
    simp only [Report.toStatus, wp_pure]
    unfold updateChangeRestored getFixStatusAndChangeid
    rw [wp_bind]
    refine wp_query (fun _ _ hread => hread) trivial ?_ fun _ => reportDone_error (by simp)
    cases hrows : db.statusQuery [t] [k, f] (if [k, f].length < 2 then false else true) with
    | nil => exact reportDone_error (by simp)
    | cons row rows =>
      have hrs : restoredStatus row = db.restoresTo t k f := by
        unfold DB.restoresTo
        rw [show db.statusQuery [t] [k, f] true = row :: rows from hrows]
        rfl
      dsimp only
      refine wp_write_commit (db.reportRow t k f "" .NEW) (fun b db' hs => ?_)
        (reportDone_ok "") fun e _ => reportDone_error (by simp)
      rw [← restoreRow_eq, ← hrs]
      exact hs
  | ABANDONED =>
    simp only [Report.toStatus, wp_pure]
    unfold updateChangeAbandoned
    rw [wp_bind, wp_perform]
    rintro time db' ⟨rfl, -⟩
    refine ⟨trivial, wp_write_commit (db'.reportRow t k f time .ABANDONED) (fun b db'' hs => ?_)
      (reportDone_ok time) fun e _ => reportDone_error (by simp)⟩
    rw [← abandonRow_eq]
    exact hs
  | MERGED =>
    simp only [Report.toStatus, wp_pure]
    unfold updateChangeMerged
    rw [wp_bind, wp_perform]
    rintro time db' ⟨rfl, -⟩
    exact ⟨trivial, wp_write_commit (db'.reportRow t k f time .MERGED) (fun b db'' hs => hs)
      (reportDone_ok time) fun e _ => reportDone_error (by simp)⟩

theorem wp_synchronizeRow {branch : Branch} {changeId : ChangeId} {k f : Sha}
    (hk : db.primaryKeyQuery t changeId = some (k, f)) :
    wp (Op.sem (reports g)) (fun _ => True) (ReportDone db t k f (g changeId branch))
      (synchronizeRow t (branch, changeId)) db := by
  unfold synchronizeRow
  rw [wp_tryCatch, wp_bind, wp_call]
  rintro b db' ⟨rfl, hb⟩
  obtain rfl : b = .ok (g changeId branch).toGerrit := hb
  refine ⟨trivial, ?_⟩
  dsimp only
  rw [gerritStatusToDbStatus_report]
  refine wp_mono ?_ (wp_updateChangeStatus hk)
  intro r db'' hr
  cases r with
  | ok u => exact hr
  | error e =>
    dsimp only
    rw [if_neg fun he => hr.2 (congrArg Except.error he)]
    exact hr

/-- One table, when no statement fails. -/
theorem wp_synchronizeFixesTable :
    wp (Op.sem (reports g)) (fun _ => True)
      (fun r db' => ∀ u, r = .ok u → Advanced db g t (db.syncQuery t) db')
      (synchronizeFixesTable t) db := by
  unfold synchronizeFixesTable
  rw [wp_bind]
  refine wp_query (fun _ _ hread => hread) trivial ?_ fun _ u hu => nomatch hu
  refine wp_each
    (fun rest d => ∃ done, done ++ rest = db.syncQuery t ∧ Advanced db g t done d) ?_ ?_ _ _
    ⟨[], rfl, .refl⟩
  · rintro ⟨branch, changeId⟩ rest d ⟨done, hdone, had⟩
    have hmem : (branch, changeId) ∈ db.syncQuery t := by
      rw [← hdone]
      simp
    obtain ⟨⟨k, f⟩, hk⟩ := primaryKeyQuery_of_sync hmem
    rw [← primaryKeyQuery_congr had.core] at hk
    refine wp_mono ?_ (wp_synchronizeRow hk)
    intro r d' hr
    cases r with
    | ok u =>
      obtain ⟨time, rfl⟩ := hr.1 u rfl
      rw [primaryKeyQuery_congr had.core] at hk
      exact ⟨done ++ [(branch, changeId)], by rw [List.append_assoc]; exact hdone, had.snoc time hk⟩
    | error e => exact fun u hu => nomatch hu
  · rintro d ⟨done, hdone, had⟩ u -
    rw [List.append_nil] at hdone
    exact hdone ▸ had

/-- A pass in which nothing fails. -/
theorem exec_updateChangeStatus {changeId : ChangeId} {k f : Sha} {x : Report}
    (hk : db.primaryKeyQuery t changeId = some (k, f))
    (hrows : db.statusQuery [t] [k, f] true ≠ []) :
    ∃ db', Exec (Op.sem (reports g)) (updateChangeStatus t changeId x.toStatus) db
      (.ok ()) db' := by
  have hkey : Exec (Op.sem (reports g)) (getFixesTablePrimaryKey t changeId) db (.ok (k, f)) db :=
    (exec_sql_ok (o := .selectPrimaryKey t changeId) ⟨rfl, .inl (by rw [hk])⟩).bind .ret
  have hcommit : ∀ db : DB, Exec (Op.sem (reports g)) (sql .commit) db (.ok ()) db := fun _ =>
    exec_sql_ok (.inl ⟨rfl, rfl⟩)
  cases x with
  | NEW =>
    have hs : Exec (Op.sem (reports g)) (getFixStatusAndChangeid [t] [k, f] true) db
        (.ok (db.statusQuery [t] [k, f] true)) db := exec_sql_ok ⟨rfl, .inl rfl⟩
    cases h : db.statusQuery [t] [k, f] true with
    | nil => exact absurd h hrows
    | cons row rows =>
      rw [h] at hs
      exact ⟨_, hkey.bind (hs.bind ((exec_sql_ok (.inl ⟨rfl, rfl⟩)).bind (hcommit _)))⟩
  | ABANDONED =>
    exact ⟨_, hkey.bind
      (.op (b := "") ⟨rfl, trivial⟩ ((exec_sql_ok (.inl ⟨rfl, rfl⟩)).bind (hcommit _)))⟩
  | MERGED =>
    exact ⟨_, hkey.bind
      (.op (b := "") ⟨rfl, trivial⟩ ((exec_sql_ok (.inl ⟨rfl, rfl⟩)).bind (hcommit _)))⟩

theorem statusQuery_ne_nil {changeId : ChangeId} {k f : Sha}
    (hk : db.primaryKeyQuery t changeId = some (k, f)) : db.statusQuery [t] [k, f] true ≠ [] := by
  obtain ⟨r, hr, hkey⟩ := Option.map_eq_some_iff.mp hk
  obtain ⟨hmem, -⟩ := mem_of_rowOfChangeId hr
  refine List.ne_nil_of_mem (a := r.toStatusRow t) ?_
  unfold DB.statusQuery
  rw [List.flatMap_singleton]
  refine List.mem_map_of_mem (List.mem_filter.mpr ⟨hmem, ?_⟩)
  simp only [FixRow.key, Prod.mk.injEq] at hkey
  simp [FixRow.named, hkey.1, hkey.2]

theorem exec_synchronizeFixesTable (t : FixesTable) (db : DB) :
    ∃ db', Exec (Op.sem (reports g)) (synchronizeFixesTable t) db (.ok ()) db' := by
  have hrow : ∀ x ∈ db.syncQuery t, ∀ d : DB,
      (d.fixes t).rows.map FixRow.core = (db.fixes t).rows.map FixRow.core →
      ∃ d', Exec (Op.sem (reports g)) (synchronizeRow t x) d (.ok ()) d' ∧
        (d'.fixes t).rows.map FixRow.core = (db.fixes t).rows.map FixRow.core := by
    rintro ⟨branch, changeId⟩ hx d hd
    obtain ⟨⟨k, f⟩, hk⟩ := primaryKeyQuery_of_sync hx
    rw [← primaryKeyQuery_congr hd] at hk
    obtain ⟨d', hu⟩ :=
      exec_updateChangeStatus (g := g) (x := g changeId branch) hk (statusQuery_ne_nil hk)
    have hget : Exec (Op.sem (reports g)) (call (.getStatus changeId branch)) d
        (.ok (g changeId branch).toGerrit) d := exec_call_ok ⟨rfl, rfl⟩
    have hexec : Exec (Op.sem (reports g)) (synchronizeRow t (branch, changeId)) d (.ok ()) d' := by
      refine Exec.tryCatch_ok (hget.bind ?_)
      rw [gerritStatusToDbStatus_report]
      exact hu
    obtain ⟨time, rfl⟩ := (wp_exec (wp_synchronizeRow hk) hexec).1 () rfl
    refine ⟨_, hexec, ?_⟩
    unfold DB.reportRow
    rw [DB.fixes_setFixes_self, Table.map_update _ _ _ _ _ (FixRow.advance_core _ time _)]
    exact hd
  obtain ⟨db', hx, -⟩ := exec_each_ok hrow db rfl
  have hq : Exec (Op.sem (reports g)) (sql (.selectSync t)) db (.ok (db.syncQuery t)) db :=
    exec_sql_ok ⟨rfl, .inl rfl⟩
  exact ⟨db', hq.bind hx⟩

theorem exec_synchronize (db : DB) :
    ∃ db', Exec (Op.sem (reports g)) synchronizeFixesTablesWithGerrit db (.ok ()) db' := by
  have hloop : ∃ db', Exec (Op.sem (reports g)) synchronizeFixesTablesWithGerrit db
      (.ok ()) db' ∧ True :=
    exec_each_ok (I := fun _ => True)
      (fun t _ db _ => (exec_synchronizeFixesTable t db).imp fun _ h => ⟨h, trivial⟩) db trivial
  obtain ⟨db', hx, -⟩ := hloop
  exact ⟨db', hx⟩

/-- Each row has taken the reports that reach it. -/
def Synced (g : Gerrit) (db db' : DB) : Prop :=
  ∀ t, ∀ r ∈ (db.fixes t).rows, ∃ r' ∈ (db'.fixes t).rows,
    Evolves (db.restoresTo t r.kernelSha r.fixedbyUpstreamSha) r (db.reportsFor g t r) r'

theorem synced_of_exec
    (h : Exec (Op.sem (reports g)) synchronizeFixesTablesWithGerrit db (.ok ()) db') :
    Synced g db db' := by
  rcases exec_bind_cases h with ⟨e, -, he⟩ | ⟨_, db₁, hstable, h⟩
  · cases he
  rcases exec_bind_cases h with ⟨e, -, he⟩ | ⟨_, db₂, hchrome, h⟩
  · cases he
  cases h
  have hs := wp_exec wp_synchronizeFixesTable hstable () rfl
  have hc := wp_exec wp_synchronizeFixesTable hchrome () rfl
  intro t r hr
  cases t with
  | stableFixes =>
    rw [hc.other .stableFixes (by simp)]
    exact hs.rows r hr
  | chromeFixes =>
    have hsame : db₁.fixes .chromeFixes = db.fixes .chromeFixes := hs.other .chromeFixes (by simp)
    have hcore := congrArg (fun x : Table FixRow.key => x.rows.map FixRow.core) hsame
    have hq : db₁.syncQuery .chromeFixes = db.syncQuery .chromeFixes := by
      unfold DB.syncQuery
      rw [hsame]
    obtain ⟨r', hr', he⟩ := hc.rows r (hsame ▸ hr)
    rw [restoresTo_congr hcore, hq] at he
    simp only [primaryKeyQuery_congr hcore] at he
    exact ⟨r', hr', he⟩

end

/-! ## Top theorem -/

/-- The tables say what Gerrit reports: a tracked row has the status for its own Change-Id
and branch, and every other row is as it was. -/
def InSync (g : Gerrit) (db db' : DB) : Prop :=
  ∀ t, ∀ r ∈ (db.fixes t).rows,
    if r.tracked then ∃ r' ∈ (db'.fixes t).rows, r'.key = r.key ∧ r'.status = (r.report g).toStatus
    else r ∈ (db'.fixes t).rows

/-- Every pass in which nothing fails brings the tables in line with Gerrit. -/
def SyncsWithGerrit (g : Gerrit) (db : DB) : Prop :=
  ∀ db', Exec (Op.sem (reports g)) synchronizeFixesTablesWithGerrit db (.ok ()) db' →
    InSync g db db'

/-- The condition on one table. -/
structure SyncFine (g : Gerrit) (db : DB) (t : FixesTable) : Prop where
  later : ∀ r ∈ (db.fixes t).rows, r.tracked = true → ¬ IsFirst db t r →
    r.status = (r.report g).toStatus
  first : ∀ r ∈ (db.fixes t).rows, r.tracked = true → IsFirst db t r →
    FirstFine (db.restoresTo t r.kernelSha r.fixedbyUpstreamSha) r.status (r.report g)
      (db.laterReports g t r)
  conflict : ∀ r ∈ (db.fixes t).rows, r.status = .CONFLICT → IsFirst db t r →
    ConflictFine (db.restoresTo t r.kernelSha r.fixedbyUpstreamSha) r (db.laterReports g t r)

section
variable {g : Gerrit} {db db' : DB} {t : FixesTable} {r : FixRow}

theorem tracked_iff : r.tracked = true ↔
    (r.status = .OPEN ∨ r.status = .ABANDONED) ∧ r.fixChangeId.isSome = true := by
  unfold FixRow.tracked
  rw [Bool.and_eq_true, decide_eq_true_eq]

theorem noMerge_later (hl : ∀ r ∈ (db.fixes t).rows, r.tracked = true → ¬ IsFirst db t r →
    r.status = (r.report g).toStatus) (h : IsFirst db t r) : NoMerge (db.laterReports g t r) := by
  intro y hy hm
  obtain ⟨x, hx, rfl⟩ := List.mem_map.mp hy
  obtain ⟨hmem, hx⟩ := List.mem_filter.mp hx
  simp only [Bool.and_eq_true, decide_eq_true_eq] at hx
  obtain ⟨⟨htracked, hc⟩, hk⟩ := hx
  have hno : ¬ IsFirst db t x := by
    rintro ⟨c, hxc, hfirst⟩
    obtain ⟨c', hrc, hfirst'⟩ := h
    rw [hxc, hrc] at hc
    cases hc
    rw [hfirst] at hfirst'
    cases hfirst'
    exact hk rfl
  have hs := hl x hmem htracked hno
  rw [hm] at hs
  rcases (tracked_iff.mp htracked).1 with h | h <;> rw [h] at hs <;> cases hs

/-- What each row needs, once it is known which reports have reached it. -/
theorem inSync_iff (h : Synced g db db') : InSync g db db' ↔ ∀ t, SyncFine g db t := by
  have hkey : ∀ {t r r' r''} {xs : List Report} {rs : Status}, Evolves rs r xs r' →
      r' ∈ (db'.fixes t).rows → r'' ∈ (db'.fixes t).rows → r''.key = r.key → r'' = r' :=
    fun he hr' hr'' hk => Table.eq_of_key hr'' hr' (hk.trans (FixRow.key_of_core he.core).symm)
  constructor
  · intro hin t
    have hl : ∀ r ∈ (db.fixes t).rows, r.tracked = true → ¬ IsFirst db t r →
        r.status = (r.report g).toStatus := by
      intro r hr ht hno
      obtain ⟨r', hr', he⟩ := h t r hr
      rw [reportsFor_eq_nil hr hno] at he
      obtain ⟨r'', hr'', hk, hs⟩ := if_pos ht ▸ hin t r hr
      rw [hkey he hr' hr'' hk, he.status] at hs
      exact hs
    refine ⟨hl, fun r hr ht hf => ?_, fun r hr hs hf => ?_⟩
    · obtain ⟨r', hr', he⟩ := h t r hr
      rw [reportsFor_eq hf, if_pos ht, List.singleton_append] at he
      obtain ⟨r'', hr'', hk, hs⟩ := if_pos ht ▸ hin t r hr
      rw [hkey he hr' hr'' hk, he.status] at hs
      exact (firstFine_iff restoresTo_ne_abandoned (tracked_iff.mp ht).1 (noMerge_later hl hf)).mp
        hs
    · have ht : ¬ r.tracked = true := fun ht => by
        rcases (tracked_iff.mp ht).1 with h | h <;> rw [hs] at h <;> cases h
      obtain ⟨r', hr', he⟩ := h t r hr
      rw [reportsFor_eq hf, if_neg ht, List.nil_append] at he
      have hmem := hin t r hr
      rw [if_neg ht] at hmem
      exact (he.conflict_iff hs (noMerge_later hl hf)).mp (hkey he hr' hmem rfl).symm
  · intro hfine t r hr
    obtain ⟨r', hr', he⟩ := h t r hr
    obtain ⟨hl, hfirst, hconflict⟩ := hfine t
    by_cases hf : IsFirst db t r
    · have hno := noMerge_later hl hf
      rw [reportsFor_eq hf] at he
      split
      · next ht =>
        rw [if_pos ht, List.singleton_append] at he
        refine ⟨r', hr', FixRow.key_of_core he.core, ?_⟩
        rw [he.status]
        exact (firstFine_iff restoresTo_ne_abandoned (tracked_iff.mp ht).1 hno).mpr
          (hfirst r hr ht hf)
      · next ht =>
        rw [if_neg ht, List.nil_append] at he
        have hsame : r' = r := by
          cases hs : r.status with
          | MERGED => exact he.merged hs hno
          | CONFLICT => exact (he.conflict_iff hs hno).mpr (hconflict r hr hs hf)
          | OPEN | ABANDONED =>
            obtain ⟨c, hc, -⟩ := hf
            refine absurd (tracked_iff.mpr ⟨?_, by rw [hc]; rfl⟩) ht
            simp [hs]
        exact hsame ▸ hr'
    · rw [reportsFor_eq_nil hr hf] at he
      generalize hnil : ([] : List Report) = xs at he
      cases he with
      | nil =>
        split
        · next ht => exact ⟨r, hr', rfl, hl r hr ht hf⟩
        · exact hr'
      | snoc => simp at hnil

end

/-- The pass brings the tables in line with Gerrit exactly when both tables are fine. -/
theorem syncsWithGerrit_iff (g : Gerrit) (db : DB) :
    SyncsWithGerrit g db ↔ ∀ t, SyncFine g db t := by
  constructor
  · intro h
    obtain ⟨db', hx⟩ := exec_synchronize (g := g) db
    exact (inSync_iff (synced_of_exec hx)).mp (h db' hx)
  · intro h db' hx
    exact (inSync_iff (synced_of_exec hx)).mpr h

/-- One Change-Id on two branches. -/
def oneChangeTwoBranches : DB where
  linuxUpstream := .ofRows [⟨"u", "", "p0"⟩, ⟨"f", "", "p1"⟩]
  upstreamFixes := .ofRows [⟨"u", "f"⟩]
  linuxStable := .empty
  linuxChrome := .ofRows [⟨"k1", "5.4", some "u", "p2", ""⟩, ⟨"k2", "4.19", some "u", "p3", ""⟩]
  previousFetch := .empty
  stableFixes := .empty
  chromeFixes := .ofRows [⟨"k1", "f", "5.4", "now", none, some "I1", .OPEN, .OPEN, none⟩,
    ⟨"k2", "f", "4.19", "now", none, some "I1", .OPEN, .OPEN, none⟩]

/-- The CL is merged on 4.19 only: the row of 5.4 is set to MERGED, that of 4.19 stays OPEN. -/
theorem report_reaches_other_branch : ¬ ∀ (g : Gerrit) (db : DB), SyncsWithGerrit g db := by
  intro h
  let g : Gerrit := fun _ branch => if branch = "4.19" then .MERGED else .NEW
  obtain ⟨db', hx⟩ := exec_synchronize (g := g) oneChangeTwoBranches
  have hfine := (inSync_iff (synced_of_exec hx)).mp (h g _ db' hx) .chromeFixes
  have hrow : (⟨"k2", "f", "4.19", "now", none, some "I1", .OPEN, .OPEN, none⟩ : FixRow) ∈
      (oneChangeTwoBranches.fixes .chromeFixes).rows := by decide
  have hstatus := hfine.later _ hrow (by decide) (by
    rintro ⟨c, hc, hfirst⟩
    cases hc
    revert hfirst
    decide)
  revert hstatus
  decide

end Findmissing
