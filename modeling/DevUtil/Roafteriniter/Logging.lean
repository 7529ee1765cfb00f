import DevUtil.Roafteriniter.Stage2

/-!
# What stage 2 logs

`rai_check_assign_stmt` as a decision and an insertion.

    a statement leaves the line that it decides on, or nothing         (raiCheckAssignStmt_eq)
    the pass over a function leaves the lines of its assignments       (raiStage2Execute_leaves)
    it logs the required writes and no others ↔ no assignment is to
      a struct without a name                                          (raiStage2Execute_logs_iff)

The name of such a struct is a null pointer; `cache_contains` answers it with `CACHE_EINVAL`,
which is not `CACHE_CONTAINS_FAILED`.
-/

namespace Roafteriniter

/-- `cache_notcontains_insert` on `results`, and `die` where it fails. -/
def leaveLine (results : Contents) (line : CStr) : Option Contents :=
  match results.notcontainsInsert line with
  | none => none
  | some (.insertionFailed, _) => none
  | some (_, results) => some results

/-- The line that a statement comes to; `none` if it reads outside a mapping first. -/
def lineOf (interesting : Contents) (a : Assign) : Option (Option CStr) :=
  match a.lhs with
  | .componentRef (.varDecl arg0) =>
    if !isGlobal a.varpool arg0 || isVarAnnotated arg0 then some none
    else if !arg0.type.isRecord then some none
    else
      let typeName := (raiStructtypeStr arg0.type).map Name.str
      match typeName.elim (some .einval) interesting.contains with
      | none => none
      | some .containsFailed => some none
      | some _ =>
        some (some (logLine arg0.declName.str (typeName.getD null) a.fn.declName.str
          (isFnAnnotated a.fn)))
  | _ => some none

theorem raiCheckAssignStmt_eq (interesting : Contents) (a : Assign) (results : Contents) :
    raiCheckAssignStmt interesting a.varpool a.fn results a.lhs =
      match lineOf interesting a with
      | none => none
      | some none => some results
      | some (some line) => leaveLine results line := by
  obtain ⟨varpool, fn, lhs⟩ := a
  cases lhs with
  | other => rfl
  | varDecl decl => rfl
  | componentRef operand =>
    cases operand with
    | other => rfl
    | componentRef operand => rfl
    | varDecl arg0 =>
      simp only [raiCheckAssignStmt, lineOf]
      by_cases hvar : (!isGlobal varpool arg0 || isVarAnnotated arg0) = true
      · simp only [if_pos hvar]
      · simp only [if_neg hvar]
        by_cases hrecord : (!arg0.type.isRecord) = true
        · simp only [if_pos hrecord]
        · simp only [if_neg hrecord]
          cases ((raiStructtypeStr arg0.type).map Name.str).elim
              (some .einval) interesting.contains with
          | none => rfl
          | some ret => cases ret <;> rfl

theorem runAssigns_leaves {interesting : Contents} {assigns : List Assign}
    {results results' : Contents} (h : runAssigns interesting assigns results = some results') :
    (assigns.filterMap fun a => (lineOf interesting a).join).foldlM leaveLine results =
      some results' := by
  unfold runAssigns at h
  induction assigns generalizing results with
  | nil => exact h
  | cons a assigns ih =>
    rw [List.foldlM_cons, raiCheckAssignStmt_eq] at h
    rw [List.filterMap_cons]
    cases hline : lineOf interesting a with
    | none =>
      rw [hline] at h
      cases h
    | some line =>
      rw [hline] at h
      cases line with
      | none => exact ih h
      | some line =>
        obtain ⟨results₁, hleave, hrest⟩ := Option.bind_eq_some_iff.mp h
        show (line :: _).foldlM leaveLine results = some results'
        have hleaves : leaveLine results line = some results₁ := hleave
        rw [List.foldlM_cons, hleaves]
        exact ih hrest

/-- The pass over a function leaves the lines of its assignments, in order. -/
theorem raiStage2Execute_leaves {interesting : Contents} {varpool : List Nat} {cfun : Function}
    {results results' : Contents}
    (h : raiStage2Execute interesting varpool cfun results = some results') :
    ((cfun.assigns varpool).filterMap fun a => (lineOf interesting a).join).foldlM leaveLine
      results = some results' := by
  rw [raiStage2Execute_eq] at h
  exact runAssigns_leaves h

/-! ## The writes -/

/-- The statement leaves a line of the log, whatever the results are. -/
def Logs (interesting : Contents) (a : Assign) : Prop :=
  ∃ var type fn ok, ∀ results,
    raiCheckAssignStmt interesting a.varpool a.fn results a.lhs =
      leaveLine results (logLine var type fn ok)

/-- The assignment is to a member of a global without annotation. -/
def WritesGlobal (a : Assign) (var : VarDecl) : Prop :=
  a.lhs = .componentRef (.varDecl var) ∧ isGlobal a.varpool var = true ∧ isVarAnnotated var = false

/-- … of a struct type whose name is in the cache. -/
def Required (interesting : Contents) (a : Assign) : Prop :=
  ∃ var type, WritesGlobal a var ∧ raiStructtypeStr var.type = some type ∧
    type.str ∈ interesting.items

/-- … of a struct type without a name. -/
def WritesNameless (a : Assign) : Prop :=
  ∃ var, WritesGlobal a var ∧ var.type.isRecord = true ∧ raiStructtypeStr var.type = none

section

variable {interesting : Contents} {a : Assign}

/-- What the cache answers for the type of a variable; a null pointer is refused. -/
def typeAnswer (interesting : Contents) (var : VarDecl) : Option Ret :=
  ((raiStructtypeStr var.type).map Name.str).elim (some .einval) interesting.contains

theorem lineOf_writesGlobal {var : VarDecl} (h : WritesGlobal a var)
    (hrecord : var.type.isRecord = true) :
    lineOf interesting a = match typeAnswer interesting var with
      | none => none
      | some .containsFailed => some none
      | some _ =>
        some (some (logLine var.declName.str (((raiStructtypeStr var.type).map Name.str).getD null)
          a.fn.declName.str (isFnAnnotated a.fn))) := by
  obtain ⟨hlhs, hglobal, hannotated⟩ := h
  simp only [lineOf, hlhs, hglobal, hannotated, hrecord, Bool.not_true, Bool.or_self,
    Bool.false_eq_true, if_false]
  rfl

/-- A line comes from an assignment to a global of a struct type, of which the cache does not say
that it lacks it. -/
theorem writesGlobal_of_line {line : CStr} (h : lineOf interesting a = some (some line)) :
    ∃ var, WritesGlobal a var ∧ var.type.isRecord = true ∧
      typeAnswer interesting var ≠ some .containsFailed ∧
      typeAnswer interesting var ≠ none := by
  obtain ⟨varpool, fn, lhs⟩ := a
  cases lhs with
  | other => cases h
  | varDecl decl => cases h
  | componentRef operand =>
    cases operand with
    | other => cases h
    | componentRef operand => cases h
    | varDecl var =>
      by_cases hvar : (!isGlobal varpool var || isVarAnnotated var) = true
      · simp only [lineOf, if_pos hvar] at h
        cases h
      · by_cases hrecord : (!var.type.isRecord) = true
        · simp only [lineOf, if_neg hvar, if_pos hrecord] at h
          cases h
        · have hglobal : WritesGlobal ⟨varpool, fn, .componentRef (.varDecl var)⟩ var := by
            simpa [WritesGlobal] using hvar
          have hrec : var.type.isRecord = true := by simpa using hrecord
          rw [lineOf_writesGlobal hglobal hrec] at h
          refine ⟨var, hglobal, hrec, fun hfailed => ?_, fun hnone => ?_⟩
          · rw [hfailed] at h
            cases h
          · rw [hnone] at h
            cases h

theorem exists_line {var : VarDecl} {ret : Ret} (h : WritesGlobal a var)
    (hrecord : var.type.isRecord = true) (hret : typeAnswer interesting var = some ret)
    (hne : ret ≠ .containsFailed) :
    ∃ type, lineOf interesting a =
      some (some (logLine var.declName.str type a.fn.declName.str (isFnAnnotated a.fn))) := by
  refine ⟨((raiStructtypeStr var.type).map Name.str).getD null, ?_⟩
  rw [lineOf_writesGlobal h hrecord, hret]
  cases ret with
  | containsFailed => exact absurd rfl hne
  | insertionSuccess => rfl
  | insertionFailed => rfl
  | containsSuccess => rfl
  | einval => rfl

/-- An empty cache, where each line fits. -/
def roomy : Contents := .empty { testMapping with hdr := 0, inside := by decide }

theorem leaveLine_roomy (var type fn : CStr) (ok : Bool) :
    ∃ results, leaveLine roomy (logLine var type fn ok) = some results ∧
      results.items = [logLine var type fn ok] := by
  have hle : (logLine var type fn ok).length ≤ 98 := List.length_take_le _ _
  have hfits : used roomy.items + ((logLine var type fn ok).length + 1) ≤ roomy.size := by
    show 16 + (_ + 1) ≤ 0x1000
    omega
  obtain ⟨hret, hitems, -⟩ := Contents.insert_room (logLine_nonempty var type fn ok) hfits
  have hinsert : roomy.notcontainsInsert (logLine var type fn ok) =
    some (roomy.insert (logLine var type fn ok)) := rfl
  refine ⟨(roomy.insert (logLine var type fn ok)).2, ?_, hitems⟩
  unfold leaveLine
  rw [hinsert]
  generalize roomy.insert (logLine var type fn ok) = inserted at hret
  obtain ⟨ret, results⟩ := inserted
  obtain rfl : ret = .insertionSuccess := hret
  rfl

theorem logs_iff : Logs interesting a ↔ ∃ line, lineOf interesting a = some (some line) := by
  constructor
  · rintro ⟨var, type, fn, ok, hleaves⟩
    obtain ⟨results, hresults, hitems⟩ := leaveLine_roomy var type fn ok
    have hcheck := (hleaves roomy).trans hresults
    rw [raiCheckAssignStmt_eq] at hcheck
    cases hline : lineOf interesting a with
    | none =>
      rw [hline] at hcheck
      cases hcheck
    | some line =>
      cases line with
      | none =>
        rw [hline] at hcheck
        rw [← Option.some.inj hcheck] at hitems
        cases hitems
      | some line => exact ⟨line, rfl⟩
  · rintro ⟨line, hline⟩
    obtain ⟨var, hglobal, hrecord, hfailed, hnone⟩ := writesGlobal_of_line hline
    obtain ⟨ret, hret⟩ := Option.ne_none_iff_exists'.mp hnone
    obtain ⟨type, hline⟩ := exists_line hglobal hrecord hret fun he => hfailed (he ▸ hret)
    refine ⟨var.declName.str, type, a.fn.declName.str, isFnAnnotated a.fn, fun results => ?_⟩
    rw [raiCheckAssignStmt_eq, hline]

/-- A statement logs a required write, or one to a struct without a name. -/
theorem exists_line_iff : (∃ line, lineOf interesting a = some (some line)) ↔
    Required interesting a ∨ WritesNameless a := by
  constructor
  · rintro ⟨line, hline⟩
    obtain ⟨var, hglobal, hrecord, hfailed, hnone⟩ := writesGlobal_of_line hline
    unfold typeAnswer at hfailed hnone
    cases hname : raiStructtypeStr var.type with
    | none => exact .inr ⟨var, hglobal, hrecord, hname⟩
    | some type =>
      refine .inl ⟨var, type, hglobal, hname, ?_⟩
      by_contra hmem
      rw [hname] at hfailed hnone
      have hcontains : interesting.contains type.str = some .containsFailed ∨
          interesting.contains type.str = none := by
        unfold Contents.contains
        rw [if_neg hmem]
        by_cases hfull : interesting.Full
        · exact .inr (if_pos hfull)
        · exact .inl (if_neg hfull)
      rcases hcontains with hlacks | hoverrun
      · exact hfailed hlacks
      · exact hnone hoverrun
  · rintro (⟨var, type, hglobal, hname, hmem⟩ | ⟨var, hglobal, hrecord, hname⟩)
    · have hret : typeAnswer interesting var = some .containsSuccess := by
        unfold typeAnswer
        rw [hname]
        exact if_pos hmem
      obtain ⟨_, hline⟩ := exists_line hglobal (isRecord_of_name hname) hret (by decide)
      exact ⟨_, hline⟩
    · have hret : typeAnswer interesting var = some .einval := by
        unfold typeAnswer
        rw [hname]
        rfl
      obtain ⟨_, hline⟩ := exists_line hglobal hrecord hret (by decide)
      exact ⟨_, hline⟩

theorem not_required_of_nameless (h : WritesNameless a) : ¬Required interesting a := by
  obtain ⟨var, ⟨hlhs, -, -⟩, -, hnone⟩ := h
  rintro ⟨var', type, ⟨hlhs', -, -⟩, hname, -⟩
  rw [hlhs] at hlhs'
  cases hlhs'
  rw [hnone] at hname
  cases hname

/-- A function has its required writes logged, and no others. -/
theorem raiStage2Execute_logs_iff (interesting : Contents) (varpool : List Nat) (cfun : Function) :
    (∀ a ∈ cfun.assigns varpool, Logs interesting a ↔ Required interesting a) ↔
      ∀ a ∈ cfun.assigns varpool, ¬WritesNameless a := by
  constructor
  · intro h a ha hnameless
    exact not_required_of_nameless hnameless
      ((h a ha).mp (logs_iff.mpr (exists_line_iff.mpr (.inr hnameless))))
  · intro h a ha
    rw [logs_iff, exists_line_iff]
    exact or_iff_left (h a ha)

end

/-! ## A struct without a name -/

/-- `struct { int a; } cfg;` and `void setup(void) { cfg.a = 1; }` -/
def setupFunction : Function :=
  ⟨⟨name "setup", []⟩, [[.assign (.componentRef (.varDecl ⟨0, name "cfg", [], anonymous⟩))]]⟩

/-- The write is logged though no type is interesting. -/
theorem raiStage2Execute_logs_nameless :
    (raiStage2Execute roomy [0] setupFunction roomy).map Contents.items =
      some [lit "v:cfg t:(null) fn:setup status:NK"] ∧
      ¬∀ a ∈ setupFunction.assigns [0], Logs roomy a ↔ Required roomy a := by
  refine ⟨by decide, fun h => ?_⟩
  let a : Assign :=
    ⟨[0], ⟨name "setup", []⟩, .componentRef (.varDecl ⟨0, name "cfg", [], anonymous⟩)⟩
  have ha : a ∈ setupFunction.assigns [0] := List.mem_singleton.mpr rfl
  have hnameless : WritesNameless a := ⟨_, ⟨rfl, by decide, by decide⟩, rfl, rfl⟩
  exact not_required_of_nameless hnameless
    ((h a ha).mp (logs_iff.mpr (exists_line_iff.mpr (.inr hnameless))))

end Roafteriniter
