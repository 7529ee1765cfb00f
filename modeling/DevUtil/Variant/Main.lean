import DevUtil.Variant.Steps

/-!
# The program

`main` of `new_variant.py`: it gets the status from the file and performs the steps
from where the status is, saving the status before each of them.

A step is one operation of `main`; what it does is a run of the step's own program,
in a world that is the status file and whatever is outside.
-/

namespace Variant

open Lib Prog

/-- The status file, if there is one, and everything else. -/
structure World (X : Type) where
  file : Option Status
  outside : X

/-! ## What a call does -/

/-- Calls in a world whose outside answers as `ext` has it. -/
def callSem {X : Type} (ext : Sem Call X) : Sem Call (World X)
  | _, .save s, w, _, w' => w' = { w with file := some s.dumped }
  | _, .remove, w, a, w' =>
    ext .remove w.outside a w'.outside ∧ w'.file = if a.isSome then none else w.file
  | _, c, w, a, w' => ext c w.outside a w'.outside ∧ w'.file = w.file

/-- Calls carried out by `h`, where the outside is concerned. -/
def callEval {X : Type} (h : ∀ ⦃β : Type⦄, Call β → X → Option (β × X)) :
    ∀ ⦃β : Type⦄, Call β → World X → Option (β × World X)
  | _, .save s, w => some ((), { w with file := some s.dumped })
  | _, .remove, w =>
    (h .remove w.outside).map fun a => (a.1, ⟨if a.1.isSome then none else w.file, a.2⟩)
  | _, c, w => (h c w.outside).map fun a => (a.1, ⟨w.file, a.2⟩)

theorem callSem_of_callEval {X : Type} {ext : Sem Call X}
    {h : ∀ ⦃β : Type⦄, Call β → X → Option (β × X)}
    (hs : ∀ ⦃β : Type⦄ (c : Call β) (x : X) (a : β) (x' : X), h c x = some (a, x') → ext c x a x')
    ⦃β : Type⦄ (c : Call β) (w : World X) (a : β) (w' : World X)
    (hc : callEval h c w = some (a, w')) :
    callSem ext c w a w' := by
  cases c with
  | save s =>
    cases hc
    rfl
  | remove =>
    obtain ⟨b, hb, heq⟩ := Option.map_eq_some_iff.mp hc
    cases heq
    exact ⟨hs _ _ _ _ hb, rfl⟩
  | runProcess | emergeWithWorkon | isfile | mentions | findGitTopLevel | getCurrentBranch
  | getChangeId | query
    | queryOriginal | gitLogGrep | gitLogMessage =>
    obtain ⟨b, hb, heq⟩ := Option.map_eq_some_iff.mp hc
    cases heq
    exact ⟨hs _ _ _ _ hb, rfl⟩

/-! ## The program -/

/-- The arguments that `check_flags` lets through. -/
inductive Flags
  | newVariant (board : Board) (variant : String)
  | continueFlag
  | abortFlag

inductive Op : Type → Type
  | yamlFileExists : Op Bool
  | save (s : Status) : Op Unit
  | load : Op (Option Status)
  | performStep (s : Status) : Op (Except Exn (Bool × Status))

def opSem {X : Type} (ext : Sem Call X) : Sem Op (World X)
  | _, .yamlFileExists, w, a, w' => a = w.file.isSome ∧ w' = w
  | _, .save s, w, _, w' => w' = { w with file := some s.dumped }
  | _, .load, w, a, w' => a = w.file ∧ w' = w
  | _, .performStep s, w, a, w' => Exec (callSem ext) (performStep s) w a w'

/-- Operations with the calls of a step carried out by `h`. -/
def opEval {X : Type} (h : ∀ ⦃β : Type⦄, Call β → X → Option (β × X)) :
    ∀ ⦃β : Type⦄, Op β → World X → Option (β × World X)
  | _, .yamlFileExists, w => some (w.file.isSome, w)
  | _, .save s, w => some ((), { w with file := some s.dumped })
  | _, .load, w => some (w.file, w)
  | _, .performStep s, w => (performStep s).eval (callEval h) w

theorem opSem_of_opEval {X : Type} {ext : Sem Call X}
    {h : ∀ ⦃β : Type⦄, Call β → X → Option (β × X)}
    (hs : ∀ ⦃β : Type⦄ (c : Call β) (x : X) (a : β) (x' : X), h c x = some (a, x') → ext c x a x')
    ⦃β : Type⦄ (o : Op β) (w : World X) (a : β) (w' : World X) (ho : opEval h o w = some (a, w')) :
    opSem ext o w a w' := by
  cases o with
  | yamlFileExists =>
    cases ho
    exact ⟨rfl, rfl⟩
  | save s =>
    cases ho
    rfl
  | load =>
    cases ho
    exact ⟨rfl, rfl⟩
  | performStep s => exact exec_of_eval (callSem_of_callEval hs) ho

/-- If the outside always answers, so does everything. -/
theorem opEval_total {X : Type} {h : ∀ ⦃β : Type⦄, Call β → X → Option (β × X)}
    (ht : ∀ ⦃β : Type⦄ (c : Call β) (x : X), ∃ a x', h c x = some (a, x')) ⦃β : Type⦄ (o : Op β)
    (w : World X) :
    ∃ a w', opEval h o w = some (a, w') := by
  cases o with
  | yamlFileExists => exact ⟨_, _, rfl⟩
  | save s => exact ⟨_, _, rfl⟩
  | load => exact ⟨_, _, rfl⟩
  | performStep s =>
    apply eval_total
    intro β c w
    obtain ⟨a, x, ha⟩ := ht c w.outside
    cases c with
    | save s => exact ⟨_, _, rfl⟩
    | remove =>
      refine ⟨a, ⟨if a.isSome then none else w.file, x⟩, ?_⟩
      show (h .remove w.outside).map
        (fun b => (b.1, (⟨if b.1.isSome then none else w.file, b.2⟩ : World X))) = _
      rw [ha]
      rfl
    | runProcess | emergeWithWorkon | isfile | mentions | findGitTopLevel | getCurrentBranch
    | getChangeId | query
      | queryOriginal | gitLogGrep | gitLogMessage =>
      refine ⟨a, ⟨w.file, x⟩, ?_⟩
      show (h _ w.outside).map (fun b => (b.1, (⟨w.file, b.2⟩ : World X))) = _
      rw [ha]
      rfl

/-- Whether there is a status to go on with. -/
def getStatus : Flags → Prog Op Exn Bool
  | .newVariant board variant => do
    if ← perform .yamlFileExists then return false
    else
      match board.stepList with
      | [] => raise .indexError
      | step :: _ => do
        perform (.save { board := board, variant := variant, step := some step, commits := .empty })
        return true
  | .continueFlag | .abortFlag => perform .yamlFileExists

/-- `none` is the exit for a step that is not in the list. -/
def moveToNextStep (s : Status) : Option Status :=
  match s.step with
  | none => none
  | some step =>
    if step = .abort then some { s with step := some .cleanUp }
    else if step ∉ s.board.stepList then none
    else
      let idx := s.board.stepList.idxOf step
      if idx = s.board.stepList.length - 1 then some { s with step := none }
      else some { s with step := s.board.stepList[idx + 1]? }

/-- The loop of `main`, for at most so many turns. -/
def mainLoop : Nat → Status → Prog Op Exn Bool
  | 0, _ => raise .outOfFuel
  | fuel + 1, s =>
    match s.step with
    | none => return true
    | some _ => do
      perform (.save s)
      match ← perform (.performStep s) with
      | .error e => raise e
      | .ok (false, _) => return false
      | .ok (true, s) =>
        match moveToNextStep s with
        | none => raise .systemExit
        | some s => mainLoop fuel s

/-- `--abort` overrides the step. -/
def startAt : Flags → Status → Status
  | .abortFlag, s => { s with step := some .abort }
  | _, s => s

def main (flags : Flags) : Prog Op Exn Bool := do
  if ← getStatus flags then
    match ← perform .load with
    | none => raise .outside
    | some s => mainLoop (s.board.stepList.length + 2) (startAt flags s)
  else return false

end Variant
