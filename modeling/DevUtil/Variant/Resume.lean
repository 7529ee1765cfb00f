import Mathlib.Data.List.Induction
import Mathlib.Data.List.Nodup
import DevUtil.Variant.Loop

/-!
# Stopping and going on

The steps that `main` performs over all the runs that it takes to make a variant: a new
one and then any number with `--continue`, each ending where a step failed or raised.

`Progress`: the attempts so far are in order, and the file names the step that comes next.

    a run from there keeps it, and returns True if no step is left        (mainLoop_progress)
-/

namespace Variant

open Lib Prog

/-! ## What the runs did -/

def succeeded (log : Log) : List StepName := (log.filter Prod.snd).map Prod.fst

theorem succeeded_append (log log' : Log) :
    succeeded (log ++ log') = succeeded log ++ succeeded log' := by
  simp [succeeded]

theorem succeeded_true (log : Log) (n : StepName) :
    succeeded (log ++ [(n, true)]) = succeeded log ++ [n] :=
  succeeded_append log _

theorem succeeded_false (log : Log) (n : StepName) :
    succeeded (log ++ [(n, false)]) = succeeded log := by
  rw [succeeded_append]
  exact List.append_nil _

/-- Each attempt is at the step after those that had succeeded. -/
def InOrder (steps : List StepName) (log : Log) : Prop :=
  ∀ pre e post, log = pre ++ e :: post → steps[(succeeded pre).length]? = some e.1

theorem InOrder.nil (steps : List StepName) : InOrder steps [] := by
  intro pre e post h
  cases pre <;> cases h

theorem InOrder.concat {steps : List StepName} {log : Log} (h : InOrder steps log)
    {e : StepName × Bool} (he : steps[(succeeded log).length]? = some e.1) :
    InOrder steps (log ++ [e]) := by
  intro pre e' post heq
  rcases List.eq_nil_or_concat post with rfl | ⟨post', last, rfl⟩
  · obtain ⟨rfl, hlast⟩ := List.append_inj' heq rfl
    cases hlast
    exact he
  · rw [List.concat_eq_append, ← List.cons_append, ← List.append_assoc] at heq
    obtain ⟨rfl, -⟩ := List.append_inj' heq rfl
    exact h pre e' post' rfl

/-- The steps that succeeded are the first ones of the list. -/
theorem InOrder.succeeded_eq {steps : List StepName} {log : Log} (h : InOrder steps log) :
    succeeded log = steps.take (succeeded log).length := by
  induction log using List.reverseRecOn with
  | nil => rfl
  | append_singleton log e ih =>
    have hlog : InOrder steps log := by
      intro pre e' post heq
      exact h pre e' (post ++ [e]) (by rw [heq, List.append_assoc, List.cons_append])
    have he := h log e [] rfl
    have ih := ih hlog
    obtain ⟨n, b⟩ := e
    cases b with
    | false =>
      rw [succeeded_false]
      exact ih
    | true =>
      rw [succeeded_true, List.length_append, List.length_singleton, List.take_add_one, he, ← ih]
      rfl

theorem InOrder.prefix {steps : List StepName} {log : Log} (h : InOrder steps log) :
    succeeded log <+: steps := by
  rw [h.succeeded_eq]
  exact List.take_prefix _ _

/-- A step that succeeded is not attempted again. -/
theorem InOrder.once {steps : List StepName} (hnodup : steps.Nodup) {log : Log}
    (h : InOrder steps log) {pre post : Log} {n : StepName}
    (hlog : log = pre ++ (n, true) :: post) : ∀ e ∈ post, e.1 ≠ n := by
  intro e he hen
  obtain ⟨mid, last, rfl⟩ := List.append_of_mem he
  have hn := h pre (n, true) _ hlog
  have hsplit : log = (pre ++ (n, true) :: mid) ++ e :: last := by simp [hlog]
  have he := h _ e last hsplit
  have hlen : (succeeded pre).length < (succeeded (pre ++ (n, true) :: mid)).length := by
    rw [succeeded_append]
    show _ < (succeeded pre ++ n :: succeeded mid).length
    rw [List.length_append, List.length_cons]
    omega
  rw [hen] at he
  obtain ⟨hi, hgeti⟩ := List.getElem?_eq_some_iff.mp hn
  obtain ⟨hj, hgetj⟩ := List.getElem?_eq_some_iff.mp he
  have heq := hnodup.getElem_inj_iff.mp (hgeti.trans hgetj.symm)
  omega

/-! ## One step -/

/-- A status at the step `n` of the list. -/
def AtStep (steps : List StepName) (n : StepName) (s : Status) : Prop :=
  s.board.stepList = steps ∧ s.step = some n

theorem closed_atStep (steps : List StepName) (n : StepName) : Closed (AtStep steps n) where
  dumped := fun _ h => h
  made := fun _ _ _ _ _ h _ => h
  upstream := fun _ _ h => h
  withCl := fun _ _ _ _ h _ => h
  cqDepend := fun _ _ _ _ h _ => h
  needsReUpload := fun _ _ _ _ h _ _ => h

section

variable {X : Type} {ext : Sem Call X} {steps : List StepName}

/-- How a step leaves the file: only a `clean_up` that succeeds removes it. -/
structure StepDone (steps : List StepName) (n : StepName) (a : Except Exn (Bool × Status))
    (w : World X) : Prop where
  status : ∀ rc s, a = .ok (rc, s) → AtStep steps n s
  fuel : a ≠ .error .outOfFuel
  file : if n = .cleanUp ∧ Succeeds a = true then w.file = none else InFile (AtStep steps n) w

theorem exec_performStep {n : StepName} {s : Status} (hs : AtStep steps n s) {w w' : World X}
    (hw : InFile (AtStep steps n) w) {a : Except Exn (Bool × Status)}
    (h : Exec (callSem ext) (performStep s) w a w') : StepDone steps n a w' := by
  by_cases hn : n = .cleanUp
  · subst hn
    rcases exec_cleanUp hs.2 h with ⟨rfl, hfile, -⟩ | ⟨rfl, hfile, -⟩
    · refine ⟨?_, ?_, hfile⟩
      · intro rc s₁ h
        cases h
        exact hs
      · intro h
        cases h
    · refine ⟨?_, ?_, ?_⟩
      · intro rc s₁ h
        cases h
      · intro h
        cases h
      · obtain ⟨s₁, hs₁, hat⟩ := hw
        exact ⟨s₁, hfile.trans hs₁, hat⟩
  · have hcl : s.step ≠ some .cleanUp := by
      rw [hs.2]
      exact fun h => hn (Option.some.inj h)
    have hstep := wp_exec (ensures_performStep (closed_atStep steps n) (fun e h => h) hs hcl w hw) h
    refine ⟨?_, ?_, ?_⟩
    · rintro rc s' rfl
      exact hstep.2
    · rintro rfl
      exact hstep.2 rfl
    · rw [if_neg (fun h => hn h.1)]
      exact hstep.1

/-! ## The loop -/

/-- `abort`, if it is in the list at all, stands directly before `clean_up`. -/
def AbortAtEnd (steps : List StepName) : Prop :=
  ∀ pre post, steps = pre ++ .abort :: post → post = [.cleanUp]

/-- The lists that the runs are about. -/
structure ProperList (steps : List StepName) : Prop where
  nodup : steps.Nodup
  last : steps.getLast? = some .cleanUp
  abort : AbortAtEnd steps

/-- The next step is the one after the step that succeeded. -/
theorem moveToNextStep_eq (hsteps : ProperList steps) {n : StepName} {i : Nat}
    (hn : steps[i]? = some n) {s : Status} (hs : AtStep steps n s) :
    moveToNextStep s = some { s with step := steps[i + 1]? } := by
  obtain ⟨hlist, hstep⟩ := hs
  obtain ⟨hi, hget⟩ := List.getElem?_eq_some_iff.mp hn
  by_cases habort : n = .abort
  · have hsplit : steps = steps.take i ++ .abort :: steps.drop (i + 1) := by
      rw [← habort, ← hget, List.getElem_cons_drop, List.take_append_drop]
    have hpost := hsteps.abort _ _ hsplit
    have hnext : steps[i + 1]? = some .cleanUp := by
      rw [← List.getElem?_drop (i := i + 1) (j := 0), hpost]
      rfl
    unfold moveToNextStep
    simp only [hstep, habort, if_true, hnext]
  · subst hlist
    exact moveToNextStep_after hstep habort hsteps.nodup hn

/-- `clean_up` and no other step is the last one. -/
theorem ProperList.last_iff (hsteps : ProperList steps) {n : StepName} {i : Nat}
    (hn : steps[i]? = some n) :
    n = .cleanUp ↔ i + 1 = steps.length := by
  obtain ⟨hi, hget⟩ := List.getElem?_eq_some_iff.mp hn
  have hlast : steps[steps.length - 1]? = some .cleanUp := by
    rw [← List.getLast?_eq_getElem?]
    exact hsteps.last
  obtain ⟨hj, hgetj⟩ := List.getElem?_eq_some_iff.mp hlast
  constructor
  · rintro rfl
    have heq := hsteps.nodup.getElem_inj_iff.mp (hget.trans hgetj.symm)
    omega
  · intro h
    have heq : i = steps.length - 1 := by omega
    subst heq
    exact hget.symm.trans hgetj

/-- The attempts are in order, and the file is at the step that comes next. -/
structure Progress (steps : List StepName) (d : World X × Log) : Prop where
  inOrder : InOrder steps d.2
  file : match steps[(succeeded d.2).length]? with
    | none => d.1.file = none
    | some n => InFile (AtStep steps n) d.1

/-- The file is there until the whole list is done. -/
def FileUntilDone (steps : List StepName) (d : World X × Log) : Prop :=
  d.1.file = none → succeeded d.2 = steps

/-- How a run from an unfinished list ends. -/
structure RunEnds (steps : List StepName) (r : Except Exn Bool) (d : World X × Log) : Prop where
  progress : Progress steps d
  fuel : r ≠ .error .outOfFuel
  result : r = .ok true ↔ succeeded d.2 = steps

theorem Progress.done_iff {d : World X × Log} (h : Progress steps d) :
    d.1.file = none ↔ succeeded d.2 = steps := by
  have hfile := h.file
  have heq := h.inOrder.succeeded_eq
  by_cases hi : (succeeded d.2).length < steps.length
  · rw [List.getElem?_eq_getElem hi] at hfile
    obtain ⟨s, hs, -⟩ := hfile
    rw [hs]
    constructor
    · intro h
      cases h
    · intro h
      rw [h] at hi
      omega
  · rw [List.getElem?_eq_none (by omega)] at hfile
    rw [List.take_of_length_le (by omega)] at heq
    exact ⟨fun _ => heq, fun _ => hfile⟩

/-- What the loop of `main` starts a turn from. -/
structure Turn (steps : List StepName) (s : Status) (d : World X × Log) : Prop where
  inOrder : InOrder steps d.2
  list : s.board.stepList = steps
  step : s.step = steps[(succeeded d.2).length]?
  file : d.1.file = none ↔ s.step = none

theorem Turn.done {s : Status} {d : World X × Log} (h : Turn steps s d) (hnone : s.step = none) :
    RunEnds steps (.ok true) d := by
  have hstep := h.step
  rw [hnone] at hstep
  have hprogress : Progress steps d := by
    refine ⟨h.inOrder, ?_⟩
    rw [← hstep]
    exact h.file.mpr hnone
  refine ⟨hprogress, by simp, fun _ => hprogress.done_iff.mp (h.file.mpr hnone), fun _ => rfl⟩

/-- A step that failed or raised leaves the list where it is. -/
theorem progress_of_failed {n : StepName} {d : World X × Log} {a : Except Exn (Bool × Status)}
    {w : World X} (horder : InOrder steps d.2) (hn : steps[(succeeded d.2).length]? = some n)
    (hdone : StepDone steps n a w) (ha : Succeeds a = false) :
    Progress steps (w, d.2 ++ [(n, false)]) := by
  have hfile := hdone.file
  rw [if_neg (by rw [ha]; simp)] at hfile
  refine ⟨horder.concat hn, ?_⟩
  show match steps[(succeeded (d.2 ++ [(n, false)])).length]? with
    | none => w.file = none
    | some n => InFile (AtStep steps n) w
  rw [succeeded_false, hn]
  exact hfile

/-- A step that succeeded leads to the next turn. -/
theorem turn_of_succeeded (hsteps : ProperList steps) {n : StepName} {d : World X × Log}
    {s : Status} {w : World X} (horder : InOrder steps d.2)
    (hn : steps[(succeeded d.2).length]? = some n) (hdone : StepDone steps n (.ok (true, s)) w) :
    Turn steps { s with step := steps[(succeeded d.2).length + 1]? } (w, d.2 ++ [(n, true)]) := by
  have hs := hdone.status true s rfl
  have hlen : (succeeded (d.2 ++ [(n, true)])).length = (succeeded d.2).length + 1 := by
    rw [succeeded_true, List.length_append, List.length_singleton]
  have hlast := hsteps.last_iff hn
  have hfile := hdone.file
  refine ⟨horder.concat hn, hs.1, by rw [hlen], ?_⟩
  show w.file = none ↔ steps[(succeeded d.2).length + 1]? = none
  by_cases hclean : n = .cleanUp
  · rw [if_pos ⟨hclean, rfl⟩] at hfile
    have hnone : steps[(succeeded d.2).length + 1]? = none :=
      List.getElem?_eq_none (by have := hlast.mp hclean; omega)
    exact ⟨fun _ => hnone, fun _ => hfile⟩
  · rw [if_neg (fun h => hclean h.1)] at hfile
    obtain ⟨s', hs', -⟩ := hfile
    obtain ⟨hi, -⟩ := List.getElem?_eq_some_iff.mp hn
    have hne : (succeeded d.2).length + 1 ≠ steps.length := fun h => hclean (hlast.mpr h)
    rw [hs', List.getElem?_eq_getElem (by omega)]
    simp

/-- A turn, with turns enough to get to the end of the list. -/
def TurnsLeft (steps : List StepName) (fuel : Nat) (s : Status) (d : World X × Log) : Prop :=
  Turn steps s d ∧ steps.length + 1 ≤ (succeeded d.2).length + fuel

theorem turnKeeps_progress (hsteps : ProperList steps) :
    TurnKeeps ext (FileUntilDone steps) (TurnsLeft steps) (RunEnds steps) := by
  rintro fuel s n d ⟨hturn, hfuel⟩ hstep
  have hn : steps[(succeeded d.2).length]? = some n := hturn.step ▸ hstep
  have hundone : succeeded d.2 ≠ steps := by
    obtain ⟨hi, -⟩ := List.getElem?_eq_some_iff.mp hn
    intro h
    rw [h] at hi
    omega
  refine ⟨fun h => absurd h (Option.some_ne_none _), fun a w hexec => ?_⟩
  have hin : InFile (AtStep steps n) (Saved s d).1 := ⟨s.dumped, rfl, hturn.list, hstep⟩
  have hdone := exec_performStep ⟨hturn.list, hstep⟩ hin hexec
  have hfailed : Succeeds a = false → ∀ r, r ≠ .ok true → r ≠ .error .outOfFuel →
      FileUntilDone steps (w, d.2 ++ [(n, Succeeds a)]) ∧
          RunEnds steps r (w, d.2 ++ [(n, Succeeds a)]) := by
    intro ha r hr hfuel
    have hprogress := progress_of_failed hturn.inOrder hn hdone ha
    rw [ha]
    refine ⟨hprogress.done_iff.mp, hprogress, hfuel, ?_⟩
    constructor
    · exact fun h => absurd h hr
    · exact fun h => absurd ((succeeded_false d.2 n).symm.trans h) hundone
  cases a with
  | error e =>
    refine hfailed rfl _ (fun h => by cases h) fun h => hdone.fuel ?_
    cases h
    rfl
  | ok result =>
    obtain ⟨rc, s'⟩ := result
    cases rc with
    | false => exact hfailed rfl _ (fun h => by cases h) (fun h => by cases h)
    | true =>
      have hnext := turn_of_succeeded hsteps hturn.inOrder hn hdone
      refine ⟨fun h => (hnext.done (hnext.file.mp h)).progress.done_iff.mp h, ?_⟩
      apply AfterStep.of_move (moveToNextStep_eq hsteps hn (hdone.status true s' rfl))
      refine ⟨hnext, ?_⟩
      show steps.length + 1 ≤ (succeeded (d.2 ++ [(n, true)])).length + fuel
      rw [succeeded_true, List.length_append, List.length_singleton]
      omega

theorem mainLoop_progress (hsteps : ProperList steps) {fuel : Nat} {s : Status} {d : World X × Log}
    (h : TurnsLeft steps fuel s d) :
    wp ((opSem ext).noting noteStep) (FileUntilDone steps) (RunEnds steps) (mainLoop fuel s) d := by
  apply wp_mainLoop (turnKeeps_progress hsteps)
  · exact fun _ _ _ h hnone => h.1.done hnone
  · rintro s d ⟨hturn, hfuel⟩
    have hle := hturn.inOrder.prefix.length_le
    omega
  · exact h

/-! ## Runs -/

theorem continue_progress (hsteps : ProperList steps) {d : World X × Log} (h : Progress steps d)
    (hundone : succeeded d.2 ≠ steps) :
    wp ((opSem ext).noting noteStep) (FileUntilDone steps) (RunEnds steps)
      (main .continueFlag) d := by
  have hI : FileUntilDone steps d := h.done_iff.mp
  refine wp_main_old rfl hI (fun hnone => absurd (hI hnone) hundone) fun s hs => ?_
  apply mainLoop_progress hsteps
  have hfile := h.file
  cases hn : steps[(succeeded d.2).length]? with
  | none =>
    rw [hn] at hfile
    exact absurd (hI hfile) hundone
  | some n =>
    rw [hn] at hfile
    obtain ⟨s', hs', hlist, hstep⟩ := hfile
    rw [hs] at hs'
    cases hs'
    refine ⟨⟨h.inOrder, hlist, by rw [hn]; exact hstep, ?_⟩, ?_⟩
    · show d.1.file = none ↔ s.step = none
      rw [hs, hstep]
      simp
    · rw [hlist]
      omega

/-- The file is there from the first save to the end of the list. -/
def FileFromStart (steps : List StepName) (x : X) (d : World X × Log) : Prop :=
  d.1.file = none → d = (⟨none, x⟩, []) ∨ succeeded d.2 = steps

theorem new_progress (hsteps : ProperList steps) {board : Board} (hboard : board.stepList = steps)
    (variant : String) (x : X) :
    wp ((opSem ext).noting noteStep) (FileFromStart steps x) (RunEnds steps)
      (main (.newVariant board variant)) (⟨none, x⟩, []) := by
  refine wp_main_new (fun _ => .inl rfl) (fun h => absurd rfl h)
    (fun hnil => ?_) fun step rest hlist _ => ?_
  · have hlast := hsteps.last
    rw [← hboard, hnil] at hlast
    cases hlast
  · refine ⟨fun hnone => absurd hnone (Option.some_ne_none _), ?_⟩
    have hturn : TurnsLeft steps (board.stepList.length + 2) (newStatus board variant step).dumped
        (Saved (newStatus board variant step) ((⟨none, x⟩ : World X), [])) := by
      refine ⟨⟨InOrder.nil steps, hboard, ?_, ?_⟩, ?_⟩
      · rw [← hboard, hlist]
        rfl
      · show (some _ : Option Status) = none ↔ some step = none
        simp
      · show steps.length + 1 ≤ 0 + (board.stepList.length + 2)
        rw [hboard]
        omega
    exact wp_weaken (fun _ h hnone => .inr (h hnone)) (mainLoop_progress hsteps hturn)

/-! ## Sequences of runs -/

/-- The runs that make a variant: `main flags` is started next, from `d`. -/
inductive Starts (ext : Sem Call X) (board : Board) (variant : String) (x : X) :
    Flags → World X × Log → Prop
  | first : Starts ext board variant x (.newVariant board variant) (⟨none, x⟩, [])
  | again {flags : Flags} {d d' : World X × Log} {r : Except Exn Bool} :
      Starts ext board variant x flags d → Exec ((opSem ext).noting noteStep) (main flags) d r d' →
      Starts ext board variant x .continueFlag d'

/-- A `--continue` run that finds no file does nothing. -/
theorem continue_nothing {d : World X × Log} (hfile : d.1.file = none) :
    wp ((opSem ext).noting noteStep) (fun d' => d' = d) (fun r d' => r = .ok false ∧ d' = d)
      (main .continueFlag) d := by
  refine wp_main_old rfl rfl (fun _ => ⟨rfl, rfl⟩) fun s hs => ?_
  rw [hfile] at hs
  cases hs

/-- The state from which a run starts. -/
theorem starts_progress {board : Board} (hsteps : ProperList board.stepList) {variant : String}
    {x : X} {flags : Flags} {d : World X × Log} (h : Starts ext board variant x flags d) :
    (flags = .newVariant board variant ∧ d = (⟨none, x⟩, [])) ∨
      (flags = .continueFlag ∧ Progress board.stepList d) := by
  induction h with
  | first => exact .inl ⟨rfl, rfl⟩
  | @again flags d d' r _ hexec ih =>
    right
    refine ⟨rfl, ?_⟩
    rcases ih with ⟨rfl, rfl⟩ | ⟨rfl, hprogress⟩
    · exact (wp_exec (new_progress hsteps rfl variant x) hexec).progress
    · by_cases hdone : succeeded d.2 = board.stepList
      · obtain ⟨-, rfl⟩ := wp_exec (continue_nothing (hprogress.done_iff.mpr hdone)) hexec
        exact hprogress
      · exact (wp_exec (continue_progress hsteps hprogress hdone) hexec).progress

/-- The steps that have succeeded after a run are as they should be. -/
structure Orderly (steps : List StepName) (d : World X × Log) : Prop where
  inOrder : succeeded d.2 <+: steps
  once : ∀ pre n post, d.2 = pre ++ (n, true) :: post → ∀ e ∈ post, e.1 ≠ n
  file : d.1.file = none ↔ succeeded d.2 = steps

theorem Progress.orderly (hnodup : steps.Nodup) {d : World X × Log} (h : Progress steps d) :
    Orderly steps d where
  inOrder := h.inOrder.prefix
  once := fun _ _ _ hlog => h.inOrder.once hnodup hlog
  file := h.done_iff

/-- Over all runs the steps succeed in their order and each once, and the file is there until all
have; a run that finds steps left returns True exactly if it gets all of them done. -/
theorem runs_orderly {board : Board} (hsteps : ProperList board.stepList) {variant : String}
    {x : X} {flags : Flags} {d d' : World X × Log} {r : Except Exn Bool}
    (hstart : Starts ext board variant x flags d)
    (hexec : Exec ((opSem ext).noting noteStep) (main flags) d r d') :
    Orderly board.stepList d' ∧
    (succeeded d.2 ≠ board.stepList → (r = .ok true ↔ succeeded d'.2 = board.stepList)) ∧
    (succeeded d.2 = board.stepList → r = .ok false ∧ d' = d) ∧
    r ≠ .error .outOfFuel ∧
    ∀ p d'', Steps ((opSem ext).noting noteStep) (main flags) d p d'' →
      FileFromStart board.stepList x d'' := by
  rcases starts_progress hsteps hstart with ⟨rfl, rfl⟩ | ⟨rfl, hprogress⟩
  · have hwp := @new_progress X ext _ hsteps board rfl variant x
    have hends := wp_exec hwp hexec
    refine ⟨hends.progress.orderly hsteps.nodup, fun _ => hends.result,
      fun hnil => ?_, hends.fuel, fun p d'' hp => ?_⟩
    · have hlast := hsteps.last
      rw [← hnil] at hlast
      cases hlast
    · exact wp_steps hwp (fun _ => .inl rfl) hp
  · by_cases hdone : succeeded d.2 = board.stepList
    · have hwp := @continue_nothing X ext _ (hprogress.done_iff.mpr hdone)
      obtain ⟨rfl, rfl⟩ := wp_exec hwp hexec
      refine ⟨hprogress.orderly hsteps.nodup, absurd hdone,
        fun _ => ⟨rfl, rfl⟩, ?_, fun p d'' hp => ?_⟩
      · intro h
        cases h
      · rw [wp_steps hwp rfl hp]
        exact fun _ => .inr hdone
    · have hwp := @continue_progress X ext _ hsteps _ hprogress hdone
      have hends := wp_exec hwp hexec
      refine ⟨hends.progress.orderly hsteps.nodup, fun _ => hends.result,
        fun h => absurd h hdone, hends.fuel, ?_⟩
      exact fun p d'' hp hnone => .inr (wp_steps hwp hprogress.done_iff.mp hp hnone)

end

/-! ## Runs on a board of three steps -/

def threeSteps (steps : List StepName) : Board where
  base := "base"
  corebootDir := "third_party/coreboot"
  cbConfigDir := none
  fitimageDir := none
  fitimageOutputsDir := none
  privateYamlDir := none
  stepList := steps
  repoUploadList := []
  corebootPushList := []
  depends := .empty

/-- Emerging fails the first time. -/
def emergeTwice : ∀ ⦃β : Type⦄, Call β → Bool → Option (β × Bool)
  | _, .emergeWithWorkon _, tried => some (some tried, true)
  | _, .isfile _, tried => some (some true, tried)
  | _, .remove, tried => some (some (), tried)
  | _, _, _ => none

/-- The state after a run with these answers. -/
def afterRun (flags : Flags) (d : World Bool × Log) : World Bool × Log :=
  (main flags).evalState (noted (opEval emergeTwice) noteStep) d

theorem exec_afterRun {flags : Flags} {d d' : World Bool × Log} {r : Except Exn Bool}
    (h : (main flags).eval (noted (opEval emergeTwice) noteStep) d = some (r, d')) :
    Exec ((opSem (semOf emergeTwice)).noting noteStep) (main flags) d r d' := by
  apply exec_of_eval _ h
  exact noting_of_noted (opSem_of_opEval fun _ _ _ _ _ h => h)

def emergeBoard : Board := threeSteps [.ecBuildall, .emerge, .cleanUp]

/-- The state after the first run, in which emerging failed. -/
def emergeFailed : World Bool × Log := afterRun (.newVariant emergeBoard "variant")
    (⟨none, false⟩, [])

theorem starts_emergeFailed :
    Starts (semOf emergeTwice) emergeBoard "variant" false .continueFlag emergeFailed :=
  .again .first (exec_afterRun (r := .ok false) rfl)

theorem runs_orderly_emerge :
    emergeFailed.2 = [(.ecBuildall, true), (.emerge, false)] ∧
    Orderly emergeBoard.stepList (afterRun .continueFlag emergeFailed) := by
  refine ⟨rfl, ?_⟩
  have hsteps : ProperList emergeBoard.stepList := by
    refine ⟨by decide, rfl, ?_⟩
    intro pre post h
    have hmem : StepName.abort ∈ emergeBoard.stepList := by
      rw [h]
      simp
    exact absurd hmem (by decide)
  exact (runs_orderly hsteps starts_emergeFailed (exec_afterRun (r := .ok true) rfl)).1

/-- What would hold of every list of distinct steps that ends in `clean_up`, if `abort` were a step
like the others and a run without a file were one with nothing left to do. -/
def ResumesAlways (steps : List StepName) : Prop :=
  ∀ (X : Type) (ext : Sem Call X) (board : Board) (variant : String) (x : X) (flags : Flags)
    (d d' : World X × Log)
    (r : Except Exn Bool), board.stepList = steps → Starts ext board variant x flags d →
    Exec ((opSem ext).noting noteStep) (main flags) d r d' →
    Orderly steps d' ∧ (r = .ok true ↔ succeeded d'.2 = steps)

/-- The step after `abort` is `clean_up`, always; and a run after the last step finds no file. -/
theorem not_resumesAlways :
    ¬ResumesAlways [.abort, .ecBuildall, .cleanUp] ∧
      ¬ResumesAlways [.ecBuildall, .emerge, .cleanUp] := by
  constructor
  · intro h
    have hexec :=
      @exec_afterRun (.newVariant (threeSteps [.abort, .ecBuildall, .cleanUp]) "variant")
      (⟨none, false⟩, []) _ (.ok true) rfl
    have hstarts := (h Bool _ _ _ _ _ _ _ _ rfl .first hexec).1.inOrder
    exact absurd hstarts (by decide)
  · intro h
    have hagain := @exec_afterRun .continueFlag emergeFailed _ (.ok true) rfl
    have hexec :=
      @exec_afterRun .continueFlag (afterRun .continueFlag emergeFailed) _ (.ok false) rfl
    have hiff := (h Bool _ _ _ _ _ _ _ _ rfl (.again starts_emergeFailed hagain) hexec).2
    have hfalse : (Except.ok false : Except Exn Bool) = .ok true := hiff.mpr rfl
    cases hfalse

end Variant
