import Mathlib.Data.List.Nodup
import DevUtil.Variant.StepSpecs

/-!
# The loop of `main`

Rules for runs of `main`, with a log of the steps that were attempted.

    what every turn of the loop keeps holds throughout a run      (wp_mainLoop, wp_main)
-/

namespace Variant

open Lib Prog

/-! ## The log -/

/-- The steps attempted, and whether they succeeded. -/
abbrev Log := List (StepName × Bool)

def Succeeds : Except Exn (Bool × Status) → Bool
  | .ok (true, _) => true
  | _ => false

def noteStep : ∀ ⦃β : Type⦄, Op β → β → Log
  | _, .performStep s, a => s.step.toList.map fun n => (n, Succeeds a)
  | _, _, _ => []

/-! ## The next step -/

theorem moveToNextStep_cases {s s' : Status} (h : moveToNextStep s = some s') :
    ∃ step, s' = { s with step := step } := by
  unfold moveToNextStep at h
  cases hstep : s.step with
  | none =>
    rw [hstep] at h
    cases h
  | some n =>
    by_cases habort : n = .abort
    · simp only [hstep, habort, if_true] at h
      exact ⟨_, (Option.some.inj h).symm⟩
    · by_cases hmem : n ∈ s.board.stepList
      · simp only [hstep, habort, if_false, hmem, not_true] at h
        split at h
        · exact ⟨_, (Option.some.inj h).symm⟩
        · exact ⟨_, (Option.some.inj h).symm⟩
      · simp only [hstep, habort, if_false, hmem, not_false_eq_true, if_true] at h
        cases h

/-- Where no step is twice in the list, the next one is the one after it. -/
theorem moveToNextStep_after {s : Status} {n : StepName} {i : Nat} (hstep : s.step = some n)
    (habort : n ≠ .abort) (hnodup : s.board.stepList.Nodup) (hn : s.board.stepList[i]? = some n) :
    moveToNextStep s = some { s with step := s.board.stepList[i + 1]? } := by
  obtain ⟨hi, hget⟩ := List.getElem?_eq_some_iff.mp hn
  have hmem : n ∈ s.board.stepList := hget ▸ List.getElem_mem hi
  have hidx : s.board.stepList.idxOf n = i := by
    rw [← hget]
    exact hnodup.idxOf_getElem i hi
  unfold moveToNextStep
  simp only [hstep, habort, if_false, hmem, not_true, hidx]
  by_cases hlast : i = s.board.stepList.length - 1
  · have hnone : s.board.stepList[i + 1]? = none := List.getElem?_eq_none (by omega)
    rw [if_pos hlast, hnone]
  · rw [if_neg hlast]

/-- Without a next step the loop exits. -/
def AfterMove (Q : Except Exn Bool → Prop) (next : Status → Prop) : Option Status → Prop
  | none => Q (.error .systemExit)
  | some s => next s

/-- What comes after a step with the outcome `a`: the end of the run, or `next`. -/
def AfterStep (Q : Except Exn Bool → Prop) (next : Status → Prop) :
    Except Exn (Bool × Status) → Prop
  | .error e => Q (.error e)
  | .ok (false, _) => Q (.ok false)
  | .ok (true, s) => AfterMove Q next (moveToNextStep s)

theorem AfterStep.of_move {Q : Except Exn Bool → Prop} {next : Status → Prop} {s s' : Status}
    (h : moveToNextStep s = some s') (hnext : next s') : AfterStep Q next (.ok (true, s)) := by
  show AfterMove Q next (moveToNextStep s)
  rw [h]
  exact hnext

theorem AfterStep.move {Q : Except Exn Bool → Prop} {next : Status → Prop} {s : Status}
    (h : AfterStep Q next (.ok (true, s))) : AfterMove Q next (moveToNextStep s) := h

theorem AfterStep.mono {Q : Except Exn Bool → Prop} {next next' : Status → Prop}
    (h : ∀ s, next s → next' s) {a : Except Exn (Bool × Status)} (ha : AfterStep Q next a) :
    AfterStep Q next' a := by
  match a with
  | .error _ => exact ha
  | .ok (false, _) => exact ha
  | .ok (true, s) =>
    have ha := ha.move
    show AfterMove Q next' (moveToNextStep s)
    cases hmove : moveToNextStep s with
    | none =>
      rw [hmove] at ha
      exact ha
    | some s' =>
      rw [hmove] at ha
      exact h s' ha

theorem AfterStep.of_status {P next : Status → Prop} {Q : Except Exn Bool → Prop} (hQ : ∀ r, Q r)
    (hnext : ∀ s step, P s → next { s with step := step }) {a : Except Exn (Bool × Status)}
    (ha : ∀ rc s, a = .ok (rc, s) → P s) : AfterStep Q next a := by
  match a with
  | .error _ => exact hQ _
  | .ok (false, _) => exact hQ _
  | .ok (true, s) =>
    show AfterMove Q next (moveToNextStep s)
    cases hmove : moveToNextStep s with
    | none => exact hQ _
    | some s' =>
      obtain ⟨step, rfl⟩ := moveToNextStep_cases hmove
      exact hnext s step (ha true s rfl)

/-! ## Turns -/

section

variable {X : Type} {ext : Sem Call X} {I : World X × Log → Prop}
  {Q : Except Exn Bool → World X × Log → Prop}

/-- The world with `s` in the file. -/
def Saved (s : Status) (d : World X × Log) : World X × Log :=
  ({ d.1 with file := some s.dumped }, d.2)

/-- One turn of the loop: the status is saved, the step performed, the next one found. -/
theorem wp_turn {s : Status} {n : StepName} (hn : s.step = some n) {d : World X × Log}
    {fuel : Nat} (hsaved : I (Saved s d))
    (hperform : ∀ a w, Exec (callSem ext) (performStep s) (Saved s d).1 a w →
      I (w, d.2 ++ [(n, Succeeds a)]) ∧ AfterStep (Q · (w, d.2 ++ [(n, Succeeds a)]))
        (fun s' => wp ((opSem ext).noting noteStep) I Q (mainLoop fuel s')
          (w, d.2 ++ [(n, Succeeds a)])) a) :
    wp ((opSem ext).noting noteStep) I Q (mainLoop (fuel + 1) s) d := by
  unfold mainLoop
  rw [hn]
  rintro _ ⟨w₁, log₁⟩ ⟨hsave, hlog₁⟩
  have hd₁ : (w₁, log₁) = Saved s d := Prod.ext hsave (hlog₁.trans (List.append_nil _))
  rw [hd₁]
  refine ⟨hsaved, ?_⟩
  rintro a ⟨w₂, log₂⟩ ⟨hexec, hlog₂⟩
  have hnote : noteStep (.performStep s) a = [(n, Succeeds a)] := by
    rw [noteStep, hn]
    rfl
  have hlog₂ : log₂ = d.2 ++ [(n, Succeeds a)] := hnote ▸ hlog₂
  subst hlog₂
  obtain ⟨hI, hnext⟩ := hperform a w₂ hexec
  refine ⟨hI, ?_⟩
  match a, hnext with
  | .error e, hnext => exact hnext
  | .ok (false, _), hnext => exact hnext
  | .ok (true, s'), hnext =>
    have hnext := hnext.move
    show wp _ _ _ (match moveToNextStep s' with
      | none => raise .systemExit
      | some s => mainLoop fuel s) _
    cases hmove : moveToNextStep s' with
    | none =>
      rw [hmove] at hnext
      exact hnext
    | some s'' =>
      rw [hmove] at hnext
      exact hnext

/-- What every turn of the loop has to establish, for the loop to have `Q` at its end:
`J` holds where a turn begins with so many more to go, `I` always. -/
def TurnKeeps (ext : Sem Call X) (I : World X × Log → Prop)
    (J : Nat → Status → World X × Log → Prop) (Q : Except Exn Bool → World X × Log → Prop) : Prop :=
  ∀ fuel s n d, J (fuel + 1) s d → s.step = some n → I (Saved s d) ∧
    ∀ a w, Exec (callSem ext) (performStep s) (Saved s d).1 a w → I (w, d.2 ++ [(n, Succeeds a)]) ∧
      AfterStep (Q · (w, d.2 ++ [(n, Succeeds a)])) (J fuel · (w, d.2 ++ [(n, Succeeds a)])) a

variable {J : Nat → Status → World X × Log → Prop}

theorem wp_mainLoop (hturn : TurnKeeps ext I J Q)
    (hend : ∀ fuel s d, J fuel s d → s.step = none → Q (.ok true) d)
    (hfuel : ∀ s d, J 0 s d → Q (.error .outOfFuel) d) :
    ∀ (fuel : Nat) (s : Status) (d : World X × Log), J fuel s d →
      wp ((opSem ext).noting noteStep) I Q (mainLoop fuel s) d := by
  intro fuel
  induction fuel with
  | zero => exact hfuel
  | succ fuel ih =>
    intro s d hJ
    cases hstep : s.step with
    | none =>
      unfold mainLoop
      rw [hstep]
      exact hend _ s d hJ hstep
    | some n =>
      obtain ⟨hsaved, hperform⟩ := hturn fuel s n d hJ hstep
      refine wp_turn hstep hsaved fun a w hexec => ?_
      obtain ⟨hI, hnext⟩ := hperform a w hexec
      exact ⟨hI, hnext.mono fun s' hs' => ih s' _ hs'⟩

/-! ## Runs -/

/-- The status that `get_status` makes. -/
def newStatus (board : Board) (variant : String) (step : StepName) : Status :=
  { board := board, variant := variant, step := some step, commits := .empty }

theorem wp_main_old {flags : Flags} (hflags : getStatus flags = perform .yamlFileExists)
    {d : World X × Log} (hI : I d) (hrefused : d.1.file = none → Q (.ok false) d)
    (hold : ∀ s, d.1.file = some s → wp ((opSem ext).noting noteStep) I Q
      (mainLoop (s.board.stepList.length + 2) (startAt flags s)) d) :
    wp ((opSem ext).noting noteStep) I Q (main flags) d := by
  unfold main
  rw [hflags]
  rintro a ⟨w₁, log₁⟩ ⟨⟨ha, hw₁⟩, hlog₁⟩
  have hd₁ : (w₁, log₁) = d := Prod.ext hw₁ (hlog₁.trans (List.append_nil _))
  rw [hd₁]
  refine ⟨hI, ?_⟩
  cases hfile : d.1.file with
  | none =>
    rw [hfile] at ha
    have ha : a = false := ha
    rw [ha]
    exact hrefused hfile
  | some s =>
    rw [hfile] at ha
    have ha : a = true := ha
    rw [ha]
    rintro _ ⟨w₂, log₂⟩ ⟨⟨rfl, hw₂⟩, hlog₂⟩
    have hd₂ : (w₂, log₂) = d := Prod.ext hw₂ (hlog₂.trans (List.append_nil _))
    rw [hd₂, hfile]
    exact ⟨hI, hold s hfile⟩

theorem wp_main_new {board : Board} {variant : String} {d : World X × Log} (hI : I d)
    (hrefused : d.1.file ≠ none → Q (.ok false) d)
    (hnosteps : board.stepList = [] → Q (.error .indexError) d)
    (hnew : ∀ step rest, board.stepList = step :: rest → d.1.file = none →
      I (Saved (newStatus board variant step) d) ∧
        wp ((opSem ext).noting noteStep) I Q
          (mainLoop (board.stepList.length + 2) (newStatus board variant step).dumped)
            (Saved (newStatus board variant step) d)) :
    wp ((opSem ext).noting noteStep) I Q (main (.newVariant board variant)) d := by
  rintro a ⟨w₁, log₁⟩ ⟨⟨ha, hw₁⟩, hlog₁⟩
  have hd₁ : (w₁, log₁) = d := Prod.ext hw₁ (hlog₁.trans (List.append_nil _))
  rw [hd₁]
  refine ⟨hI, ?_⟩
  cases hfile : d.1.file with
  | some s =>
    rw [hfile] at ha
    have ha : a = true := ha
    rw [ha]
    exact hrefused (hfile ▸ Option.some_ne_none s)
  | none =>
    rw [hfile] at ha
    have ha : a = false := ha
    rw [ha]
    match hlist : board.stepList with
    | [] => exact hnosteps hlist
    | step :: rest =>
      obtain ⟨hsaved, hloop⟩ := hnew step rest hlist hfile
      rintro _ ⟨w₂, log₂⟩ ⟨hsave, hlog₂⟩
      have hd₂ : (w₂, log₂) = Saved (newStatus board variant step) d :=
        Prod.ext hsave (hlog₂.trans (List.append_nil _))
      rw [hd₂]
      refine ⟨hsaved, ?_⟩
      rintro _ ⟨w₃, log₃⟩ ⟨⟨rfl, hw₃⟩, hlog₃⟩
      have hd₃ : (w₃, log₃) = Saved (newStatus board variant step) d :=
        Prod.ext hw₃ (hlog₃.trans (List.append_nil _))
      rw [hd₃]
      exact ⟨hsaved, hloop⟩

/-- Where a run starts, the loop takes over. -/
theorem wp_main (hturn : TurnKeeps ext I J Q)
    (hend : ∀ fuel s d, J fuel s d → s.step = none → Q (.ok true) d)
    (hfuel : ∀ s d, J 0 s d → Q (.error .outOfFuel) d) {flags : Flags} {d : World X × Log}
    (hI : I d) (hrefused : Q (.ok false) d)
    (hnosteps : ∀ board variant, flags = .newVariant board variant → board.stepList = [] →
      Q (.error .indexError) d)
    (hnew : ∀ board variant step rest, flags = .newVariant board variant →
      board.stepList = step :: rest → d.1.file = none →
        I (Saved (newStatus board variant step) d) ∧ J (board.stepList.length + 2)
          (newStatus board variant step).dumped (Saved (newStatus board variant step) d))
    (hold : ∀ s, d.1.file = some s → (flags = .continueFlag ∨ flags = .abortFlag) →
      J (s.board.stepList.length + 2) (startAt flags s) d) :
    wp ((opSem ext).noting noteStep) I Q (main flags) d := by
  have hloop := wp_mainLoop hturn hend hfuel
  match flags with
  | .newVariant board variant =>
    refine wp_main_new hI (fun _ => hrefused) (hnosteps board variant rfl)
      fun step rest hlist hfile => ?_
    obtain ⟨hsaved, hJ⟩ := hnew board variant step rest rfl hlist hfile
    exact ⟨hsaved, hloop _ _ _ hJ⟩
  | .continueFlag =>
    exact wp_main_old rfl hI (fun _ => hrefused) fun s hs => hloop _ _ _ (hold s hs (.inl rfl))
  | .abortFlag =>
    exact wp_main_old rfl hI (fun _ => hrefused) fun s hs => hloop _ _ _ (hold s hs (.inr rfl))

/-- Conditions that do not look at the log. -/
theorem wp_of_noted {I : World X → Prop} {Q : Except Exn Bool → World X → Prop}
    {p : Prog Op Exn Bool} {w : World X}
    (h : wp ((opSem ext).noting noteStep) (fun d => I d.1) (fun r d => Q r d.1) p (w, [])) :
    wp (opSem ext) I Q p w :=
  wp_noting_iff.mp h

end

end Variant
