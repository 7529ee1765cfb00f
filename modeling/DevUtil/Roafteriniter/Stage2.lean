import Mathlib.Data.List.Dedup
import DevUtil.Roafteriniter.Types

/-!
# Stage 2

`rai_stage2_execute`: each assignment of a function to a member of a global of an
interesting type goes to the cache `results`, as one line of text.

Several compiler processes share that cache.  `rai_check_assign_stmt` changes it in one
locked operation, so a run of all of them is a sequence of assignments.

    Records interesting a w → a leaves w's line in results      (raiCheckAssignStmt_records)
    the lines of the writes fit → a run leaves just these       (runAssigns_records)
-/

namespace Roafteriniter

/-! ## Declarations and statements -/

structure VarDecl where
  /-- which tree node it is -/
  uid : Nat
  declName : Name
  /-- the values of its `section` attribute -/
  sections : List CStr
  type : CType

structure FunctionDecl where
  declName : Name
  sections : List CStr

/-- An expression, as far as stage 2 looks into it. -/
inductive Tree
  | componentRef (operand : Tree)
  | varDecl (decl : VarDecl)
  | other

inductive Gimple
  | assign (lhs : Tree)
  | other

/-- `cfun`: the basic blocks of a function. -/
structure Function where
  decl : FunctionDecl
  basicBlocks : List (List Gimple)

def init : CStr := lit ".init.text"

def initdata : CStr := lit ".init.data"

def roAfterInit : CStr := lit ".data..ro_after_init"

/-- `strncmp(str, sname, strlen(sname))` is 0 for some value. -/
def isAnnotated (sections : List CStr) (sname : CStr) : Bool :=
  sections.any fun str => sname.chars.isPrefixOf str.chars

def isFnAnnotated (fn : FunctionDecl) : Bool := isAnnotated fn.sections init

def isVarAnnotated (var : VarDecl) : Bool :=
  isAnnotated var.sections initdata || isAnnotated var.sections roAfterInit

/-- `varpool` are the variables that the compiler run has. -/
def isGlobal (varpool : List Nat) (var : VarDecl) : Bool := varpool.contains var.uid

/-! ## A line of the log -/

def LINELEN : Nat := 100

/-- The text that `snprintf` leaves in a buffer of `n` bytes. -/
def snprintf (n : Nat) (text : List Char) : List Char := text.take (n - 1)

/-- `%s` of a null pointer. -/
def null : CStr := lit "(null)"

def status (ok : Bool) : List Char := if ok then ['O', 'K'] else ['N', 'K']

/-- The line up to the status. -/
def lineHead (var type fn : CStr) : List Char :=
  (['v', ':'] ++ var.chars) ++
    ' ' :: ((['t', ':'] ++ type.chars) ++ ' ' :: ((['f', 'n', ':'] ++ fn.chars) ++
    ' ' :: ['s', 't', 'a', 't', 'u', 's', ':']))

def line (var type fn : CStr) (ok : Bool) : List Char := lineHead var type fn ++ status ok

theorem length_lineHead (var type fn : CStr) :
    (lineHead var type fn).length = var.length + type.length + fn.length + 17 := by
  simp [lineHead, CStr.length]
  omega

theorem NUL_notMem_line (var type fn : CStr) (ok : Bool) : NUL ∉ line var type fn ok := by
  have hvar := var.noNul
  have htype := type.noNul
  have hfn := fn.noNul
  have hstatus : NUL ∉ status ok := by cases ok <;> decide
  simp only [line, lineHead, List.mem_append, List.mem_cons, List.not_mem_nil, or_false, not_or]
  refine ⟨⟨⟨?_, hvar⟩, ?_, ⟨?_, htype⟩, ?_, ⟨?_, hfn⟩, ?_⟩, hstatus⟩ <;> decide

/-- `buffer` after the `snprintf`. -/
def logLine (var type fn : CStr) (ok : Bool) : CStr where
  chars := snprintf (LINELEN - 1) (line var type fn ok)
  noNul := fun h => NUL_notMem_line var type fn ok (List.mem_of_mem_take h)
  small := by
    have h : (snprintf (LINELEN - 1) (line var type fn ok)).length ≤ 98 := List.length_take_le _ _
    unfold PTRDIFF_MAX
    omega

theorem logLine_nonempty (var type fn : CStr) (ok : Bool) :
    (logLine var type fn ok).length ≠ 0 := by
  have h := length_lineHead var type fn
  have htake : (logLine var type fn ok).length = min 98 (line var type fn ok).length :=
    List.length_take
  rw [line, List.length_append] at htake
  omega

/-! ## The pass -/

/-- `none` is `die`, or a read outside a mapping. -/
def raiCheckAssignStmt (interesting : Contents) (varpool : List Nat)
    (currentFunctionDecl : FunctionDecl) (results : Contents) : Tree → Option Contents
  | .componentRef (.varDecl arg0) =>
    if !isGlobal varpool arg0 || isVarAnnotated arg0 then some results
    else if !arg0.type.isRecord then some results
    else
      let typeName := (raiStructtypeStr arg0.type).map Name.str
      -- a null pointer is answered with `CACHE_EINVAL`, which goes on
      match typeName.elim (some .einval) interesting.contains with
      | none => none
      | some .containsFailed => some results
      | some _ =>
        match results.notcontainsInsert (logLine arg0.declName.str (typeName.getD null)
            currentFunctionDecl.declName.str (isFnAnnotated currentFunctionDecl)) with
        | none => none
        | some (.insertionFailed, _) => none
        | some (_, results) => some results
  | _ => some results

def raiStage2Execute (interesting : Contents) (varpool : List Nat) (cfun : Function)
    (results : Contents) :
    Option Contents :=
  cfun.basicBlocks.foldlM (fun results bb => bb.foldlM (fun results stmt =>
    match stmt with
    | .assign lhs => raiCheckAssignStmt interesting varpool cfun.decl results lhs
    | .other => some results) results) results

/-- An assignment that a process comes to. -/
structure Assign where
  varpool : List Nat
  fn : FunctionDecl
  lhs : Tree

def runAssigns (interesting : Contents) (assigns : List Assign) (results : Contents) :
    Option Contents :=
  assigns.foldlM (fun results a => raiCheckAssignStmt interesting a.varpool a.fn results a.lhs)
    results

def Function.assigns (varpool : List Nat) (cfun : Function) : List Assign :=
  cfun.basicBlocks.flatten.filterMap fun stmt =>
    match stmt with
    | .assign lhs => some ⟨varpool, cfun.decl, lhs⟩
    | .other => none

/-- The pass over a function is the run of its assignments. -/
theorem raiStage2Execute_eq (interesting : Contents) (varpool : List Nat) (cfun : Function)
    (results : Contents) :
    raiStage2Execute interesting varpool cfun results =
      runAssigns interesting (cfun.assigns varpool) results := by
  unfold raiStage2Execute runAssigns Function.assigns
  rw [List.foldlM_filterMap]
  induction cfun.basicBlocks generalizing results with
  | nil => rfl
  | cons bb bbs ih =>
    rw [List.flatten_cons, List.foldlM_append, List.foldlM_cons]
    congr 1
    · congr 1
      funext results stmt
      cases stmt <;> rfl
    · funext results
      exact ih results

/-! ## Recorded writes -/

/-- A write that stage 2 has to record. -/
structure Write where
  var : Name
  type : Name
  fn : Name
  init : Bool
deriving DecidableEq

/-- The text that stands for it in `results`. -/
def Write.logLine (w : Write) : CStr := Roafteriniter.logLine w.var.str w.type.str w.fn.str w.init

theorem Write.logLine_nonempty (w : Write) : w.logLine.length ≠ 0 :=
  Roafteriniter.logLine_nonempty w.var.str w.type.str w.fn.str w.init

/-- The assignment is the write `w` to a global without annotation, of an interesting type. -/
structure Records (interesting : Contents) (a : Assign) (w : Write) : Prop where
  written : ∃ var : VarDecl, a.lhs = .componentRef (.varDecl var) ∧ isGlobal a.varpool var = true ∧
    isVarAnnotated var = false ∧ var.declName = w.var ∧ raiStructtypeStr var.type = some w.type
  interesting : w.type.str ∈ interesting.items
  fn : a.fn.declName = w.fn
  init : isFnAnnotated a.fn = w.init

/-- An assignment that is a write does no more than to leave its line. -/
theorem raiCheckAssignStmt_records {interesting : Contents} {a : Assign} {w : Write}
    (h : Records interesting a w) (results : Contents) :
    raiCheckAssignStmt interesting a.varpool a.fn results a.lhs =
      match results.notcontainsInsert w.logLine with
      | none => none
      | some (.insertionFailed, _) => none
      | some (_, results) => some results := by
  obtain ⟨var, hlhs, hglobal, hannotated, hvar, htype⟩ := h.written
  have hrecord := isRecord_of_name htype
  have hcontains : interesting.contains w.type.str = some .containsSuccess := if_pos h.interesting
  rw [hlhs, raiCheckAssignStmt]
  simp only [hglobal, hannotated, hrecord, htype, hvar, h.fn, h.init, hcontains, Option.map_some,
    Option.elim_some,
    Option.getD_some, Bool.not_true, Bool.or_self, Bool.false_eq_true, if_false]
  rfl

/-- The lines in `results`, each once, while a run has come as far as the writes `ws`. -/
structure Logged (ws : List Write) (results : Contents) : Prop where
  nodup : results.items.Nodup
  mem : ∀ s, s ∈ results.items ↔ ∃ w ∈ ws, w.logLine = s

theorem Logged.step {ws all : List Write} {w : Write} {results : Contents} (h : Logged ws results)
    (hall : ∀ v ∈ ws ++ [w], v ∈ all) (hroom : used (all.map Write.logLine).dedup < results.size) :
    ∃ ret results', results.notcontainsInsert w.logLine = some (ret, results') ∧
      ret ≠ .insertionFailed ∧
      results'.size = results.size ∧ Logged (ws ++ [w]) results' := by
  have hmem : ∀ s, (∃ v ∈ ws ++ [w], v.logLine = s) ↔ s ∈ results.items ∨ s = w.logLine := by
    intro s
    rw [h.mem]
    constructor
    · rintro ⟨v, hv, rfl⟩
      rcases List.mem_append.mp hv with hv | hv
      · exact .inl ⟨v, hv, rfl⟩
      · exact .inr (List.mem_singleton.mp hv ▸ rfl)
    · rintro (⟨v, hv, rfl⟩ | rfl)
      · exact ⟨v, List.mem_append_left _ hv, rfl⟩
      · exact ⟨w, List.mem_append_right _ (List.mem_singleton.mpr rfl), rfl⟩
  have hsub : ∀ s, (∃ v ∈ ws ++ [w], v.logLine = s) → s ∈ (all.map Write.logLine).dedup := by
    rintro s ⟨v, hv, rfl⟩
    exact List.mem_dedup.mpr (List.mem_map_of_mem (hall v hv))
  unfold Contents.notcontainsInsert Contents.contains
  by_cases hin : w.logLine ∈ results.items
  · refine ⟨.containsSuccess, results, by rw [if_pos hin], by decide, rfl, h.nodup, ?_⟩
    intro s
    rw [hmem]
    constructor
    · exact .inl
    · rintro (hs | rfl)
      · exact hs
      · exact hin
  · have hnotfull : ¬results.Full := by
      have := used_le_of_subset h.nodup fun s hs => hsub s ((hmem s).mpr (.inl hs))
      unfold Contents.Full
      omega
    have hnodup : (results.items ++ [w.logLine]).Nodup := by
      rw [List.nodup_append]
      refine ⟨h.nodup, by simp, ?_⟩
      intro s hs t ht
      rintro rfl
      exact hin (List.mem_singleton.mp ht ▸ hs)
    have hfits : used results.items + (w.logLine.length + 1) ≤ results.size := by
      have hle := used_le_of_subset hnodup fun s hs => hsub s ((hmem s).mpr (by
        rcases List.mem_append.mp hs with hs | hs
        · exact .inl hs
        · exact .inr (List.mem_singleton.mp hs)))
      rw [Contents.used_concat] at hle
      omega
    obtain ⟨hret, hitems, hsize⟩ := Contents.insert_room w.logLine_nonempty hfits
    refine ⟨(results.insert w.logLine).1, (results.insert w.logLine).2, ?_, ?_, hsize, ?_, ?_⟩
    · rw [if_neg hin, if_neg hnotfull]
    · rw [hret]
      decide
    · rw [hitems]
      exact hnodup
    · intro s
      rw [hitems, hmem, List.mem_append, List.mem_singleton]

/-- A run of writes leaves the line of each of them, and nothing else. -/
theorem runAssigns_records {interesting : Contents} {assigns : List Assign}
    {ws all done : List Write} {results : Contents}
    (h : List.Forall₂ (Records interesting) assigns ws) (hall : ∀ w ∈ done ++ ws, w ∈ all)
    (hroom : used (all.map Write.logLine).dedup < results.size) (hlogged : Logged done results) :
    ∃ results', runAssigns interesting assigns results = some results' ∧
      results'.size = results.size ∧
      Logged (done ++ ws) results' := by
  induction h generalizing done results with
  | nil => exact ⟨results, rfl, rfl, (List.append_nil done).symm ▸ hlogged⟩
  | @cons a w assigns ws hrec _ ih =>
    have hstep := hlogged.step (w := w) (fun v hv => hall v (by
      rw [← List.singleton_append, ← List.append_assoc]
      exact List.mem_append_left _ hv)) hroom
    obtain ⟨ret, results', hins, hret, hsize, hlogged'⟩ := hstep
    have ih := @ih (done ++ [w]) results' (by rwa [List.append_assoc, List.singleton_append])
      (hsize ▸ hroom) hlogged'
    obtain ⟨results'', hrun, hsize'', hlogged''⟩ := ih
    rw [List.append_assoc, List.singleton_append] at hlogged''
    refine ⟨results'', ?_, hsize''.trans hsize, hlogged''⟩
    have hcheck : raiCheckAssignStmt interesting a.varpool a.fn results a.lhs = some results' := by
      rw [raiCheckAssignStmt_records hrec, hins]
      cases ret with
      | insertionFailed => exact absurd rfl hret
      | insertionSuccess => rfl
      | containsSuccess => rfl
      | containsFailed => rfl
      | einval => rfl
    rw [runAssigns, List.foldlM_cons, hcheck]
    exact hrun

theorem logged_empty (m : Mapping) : Logged [] (.empty m) :=
  ⟨List.nodup_nil,
    fun _ => ⟨fun h => (List.not_mem_nil h).elim, fun ⟨_, h, _⟩ => (List.not_mem_nil h).elim⟩⟩

end Roafteriniter
