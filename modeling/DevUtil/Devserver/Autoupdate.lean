import DevUtil.Lib.PosixPath
import DevUtil.Lib.Prog
import DevUtil.Nebraska.Parsing
import DevUtil.Nebraska.Responses

/-!
# Update pings

`autoupdate.py`, over the file system and XBuddy.  During one ping neither of them changes.

    a label that is not found is translated without its last component
      if it begins with `xbuddy`                                   (play_getPathToPayload)
    … that is the label without the tag ↔ it has no tag, or
      only tags                                                    (getPathToPayload_translates_iff)
-/

namespace Devserver

open Lib Prog PosixPath

/-! ## What the functions ask for -/

inductive UpdateError
  | autoupdateError (message : Text)
  | unboundLocalError
  | valueError
  | request (e : Nebraska.ParseError)
  /-- what XBuddy raises -/
  | xbuddy (message : Text)
deriving DecidableEq

inductive UpdateOp : Type → Type
  | pathExists (path : Text) : UpdateOp Bool
  /-- `xbuddy.Translate(label_list, board=board)[0]` -/
  | translate (labelList : List Text) (board : Option String) : UpdateOp (Except Text (Option Text))
  /-- `xbuddy.Get(path)[0]` -/
  | get (path : List Text) : UpdateOp (Except Text (Option Text))

abbrev UpdateM := Prog UpdateOp UpdateError

structure Autoupdate where
  staticDir : Option Text
  /-- `constants.UPDATE_FILE` -/
  updateFile : Text

/-! ## The functions -/

/-- `_NonePathJoin`; one of the arguments is not None. -/
def nonePathJoin (args : List (Option Text)) : Text :=
  match args.reduceOption with
  | [] => []
  | path :: paths => paths.foldl join path

def staticUpdatePath (self : Autoupdate) (label : Option Text) : Text :=
  nonePathJoin [self.staticDir, label, some self.updateFile]

def getUpdateForLabel (self : Autoupdate) : Option Text → UpdateM (Option Text)
  | none => return none
  | some label => do
    if label = [] then return none
    else if ← perform (.pathExists (staticUpdatePath self (some label))) then return some label
    else return none

/-- `label_list` without what `pop` takes from it. -/
def poppedLabel (label : Text) : List Text :=
  let labelList := label.splitOn '/'
  if labelList.head? = some "xbuddy".toList then labelList.dropLast else labelList

def getPathToPayload (self : Autoupdate) (label : Text) (board : Option String) : UpdateM Text := do
  match ← getUpdateForLabel self (some label) with
  | some path => return path
  | none =>
    match ← perform (.translate (poppedLabel label) board) with
    | .error e => raise (.xbuddy e)
    | .ok xLabel =>
      match ← getUpdateForLabel self xLabel with
      | some path => return path
      | none =>
        match ← perform (.get ["remote".toList, label, "full_payload".toList]) with
        | .error e => raise (.xbuddy e)
        | .ok none => raise (.autoupdateError ("Failed to get an update for: ".toList ++ label))
        | .ok (some path) => return path

/-! ## Runs -/

structure World where
  files : Text → Bool
  translate : List Text → Option String → Except Text (Option Text)
  get : List Text → Except Text (Option Text)

namespace World

def answer (w : World) : {β : Type} → UpdateOp β → β
  | _, .pathExists path => w.files path
  | _, .translate labelList board => w.translate labelList board
  | _, .get path => w.get path

/-- What XBuddy is asked to translate. -/
def asked : {β : Type} → UpdateOp β → List (List Text)
  | _, .translate labelList _ => [labelList]
  | _, _ => []

/-- A run, with the translations asked for. -/
def play {α : Type} (w : World) : UpdateM α → Except UpdateError α × List (List Text)
  | .ret a => (.ok a, [])
  | .raise e => (.error e, [])
  | .op o k => ((w.play (k (w.answer o))).1, asked o ++ (w.play (k (w.answer o))).2)

variable {α β : Type} {w : World}

theorem play_op (w : World) (o : UpdateOp β) (k : β → UpdateM α) :
    w.play (perform o >>= k) =
      ((w.play (k (w.answer o))).1, asked o ++ (w.play (k (w.answer o))).2) := rfl

theorem play_bind_ok {p : UpdateM α} {f : α → UpdateM β} {a : α} {log : List (List Text)}
    (h : w.play p = (.ok a, log)) :
    w.play (p >>= f) = ((w.play (f a)).1, log ++ (w.play (f a)).2) := by
  induction p generalizing log with
  | ret b =>
    cases h
    rfl
  | raise e => cases h
  | op o k ih =>
    obtain ⟨hr, rfl⟩ := Prod.mk.inj h
    rw [op_bind, play, ih (w.answer o) (Prod.ext hr rfl), List.append_assoc]

theorem play_bind_error {p : UpdateM α} {f : α → UpdateM β} {e : UpdateError}
    (h : (w.play p).1 = .error e) :
    (w.play (p >>= f)).1 = .error e := by
  induction p with
  | ret b => cases h
  | raise e' =>
    cases h
    rfl
  | op o k ih => exact ih (w.answer o) h

theorem play_tryCatch_ok {p : UpdateM α} {handler : UpdateError → UpdateM α} {a : α}
    (h : (w.play p).1 = .ok a) :
    (w.play (p.tryCatch handler)).1 = .ok a := by
  induction p with
  | ret b => exact h
  | raise e => cases h
  | op o k ih => exact ih (w.answer o) h

theorem play_tryCatch_error {p : UpdateM α} {handler : UpdateError → UpdateM α} {e : UpdateError}
    (h : (w.play p).1 = .error e) :
    (w.play (p.tryCatch handler)).1 = (w.play (handler e)).1 := by
  induction p with
  | ret b => cases h
  | raise e' =>
    cases h
    rfl
  | op o k ih => exact ih (w.answer o) h

/-- The update that is there for a label. -/
def found (w : World) (self : Autoupdate) : Option Text → Option Text
  | none => none
  | some label =>
    if label ≠ [] ∧ w.files (staticUpdatePath self (some label)) = true then some label else none

theorem play_getUpdateForLabel (w : World) (self : Autoupdate) (label : Option Text) :
    w.play (getUpdateForLabel self label) = (.ok (w.found self label), []) := by
  cases label with
  | none => rfl
  | some label =>
    simp only [getUpdateForLabel, found]
    by_cases hempty : label = []
    · simp only [if_pos hempty, if_neg
        fun h : label ≠ [] ∧ w.files (staticUpdatePath self (some label)) = true => h.1 hempty]
      rfl
    · simp only [if_neg hempty]
      by_cases hfile : w.files (staticUpdatePath self (some label)) = true
      · rw [if_pos ⟨hempty, hfile⟩, play_op]
        simp only [answer, hfile]
        rfl
      · rw [if_neg fun h => hfile h.2, play_op]
        simp only [answer, Bool.not_eq_true] at hfile ⊢
        simp only [hfile]
        rfl

/-- What the lookup comes to. -/
def pathToPayload (w : World) (self : Autoupdate) (label : Text) (board : Option String) :
    Except UpdateError Text :=
  match w.found self (some label) with
  | some path => .ok path
  | none =>
    match w.translate (poppedLabel label) board with
    | .error e => .error (.xbuddy e)
    | .ok xLabel =>
      match w.found self xLabel with
      | some path => .ok path
      | none =>
        match w.get ["remote".toList, label, "full_payload".toList] with
        | .error e => .error (.xbuddy e)
        | .ok none => .error (.autoupdateError ("Failed to get an update for: ".toList ++ label))
        | .ok (some path) => .ok path

theorem play_getPathToPayload (w : World) (self : Autoupdate) (label : Text)
    (board : Option String) :
    w.play (getPathToPayload self label board) =
      (w.pathToPayload self label board, if (w.found self (some label)).isSome then
        [] else [poppedLabel label]) := by
  unfold getPathToPayload pathToPayload
  rw [play_bind_ok (play_getUpdateForLabel w self (some label))]
  cases w.found self (some label) with
  | some path => rfl
  | none =>
    simp only [play_op, answer, asked]
    cases w.translate (poppedLabel label) board with
    | error e => rfl
    | ok xLabel =>
      simp only [play_bind_ok (play_getUpdateForLabel w self xLabel)]
      cases w.found self xLabel with
      | some path => rfl
      | none =>
        simp only [play_op, answer, asked]
        cases w.get ["remote".toList, label, "full_payload".toList] with
        | error e => rfl
        | ok path => cases path <;> rfl

end World

/-! ## Labels -/

/-- The components of a label, without a leading `xbuddy`. -/
def stripTag (label : Text) : List Text :=
  let labelList := label.splitOn '/'
  if labelList.head? = some "xbuddy".toList then labelList.tail else labelList

/-- A label with the tag has no other component. -/
def OnlyTags (label : Text) : Prop :=
  (label.splitOn '/').head? = some "xbuddy".toList →
    ∀ component ∈ label.splitOn '/', component = "xbuddy".toList

instance (label : Text) : Decidable (OnlyTags label) := by
  unfold OnlyTags
  infer_instance

theorem dropLast_eq_iff (a : Text) (t : List Text) : (a :: t).dropLast = t ↔ ∀ x ∈ t, x = a := by
  induction t generalizing a with
  | nil => exact iff_of_true rfl fun x hx => absurd hx List.not_mem_nil
  | cons b t ih =>
    rw [List.dropLast_cons_cons, List.cons.injEq, ih b]
    constructor
    · rintro ⟨rfl, h⟩ x hx
      rcases List.mem_cons.mp hx with rfl | hx
      · rfl
      · exact h x hx
    · intro h
      have hb := h b List.mem_cons_self
      exact ⟨hb.symm, fun x hx => (h x (List.mem_cons_of_mem b hx)).trans hb.symm⟩

theorem poppedLabel_eq_iff (label : Text) :
    poppedLabel label = stripTag label ↔ OnlyTags label := by
  unfold poppedLabel stripTag OnlyTags
  cases hlist : label.splitOn '/' with
  | nil => exact absurd hlist (List.splitOnP_ne_nil _ _)
  | cons first others =>
    by_cases htag : (first :: others).head? = some "xbuddy".toList
    · simp only [if_pos htag, List.tail_cons, forall_prop_of_true htag]
      rw [dropLast_eq_iff]
      obtain rfl : first = "xbuddy".toList := Option.some.inj htag
      constructor
      · intro h component hcomponent
        rcases List.mem_cons.mp hcomponent with rfl | hin
        · rfl
        · exact h component hin
      · exact fun h x hx => h x (List.mem_cons_of_mem _ hx)
    · simp only [if_neg htag]
      exact iff_of_true trivial fun h => absurd h htag

/-- XBuddy is asked for the label without its tag, and so for different labels apart from it. -/
theorem getPathToPayload_translates_iff (w : World) (self : Autoupdate) (label : Text)
    (board : Option String) (hmiss : w.found self (some label) = none) :
    ((w.play (getPathToPayload self label board)).2 = [stripTag label] ↔ OnlyTags label) ∧
    ∀ label' board', w.found self (some label') = none → OnlyTags label → OnlyTags label' →
      stripTag label ≠ stripTag label' →
      (w.play (getPathToPayload self label board)).2 ≠
        (w.play (getPathToPayload self label' board')).2 := by
  have hasked : ∀ label board, w.found self (some label) = none →
      (w.play (getPathToPayload self label board)).2 = [poppedLabel label] := by
    intro label board hmiss
    rw [World.play_getPathToPayload, hmiss]
    rfl
  constructor
  · rw [hasked label board hmiss, ← poppedLabel_eq_iff]
    exact ⟨fun h => (List.cons.inj h).1, fun h => congrArg (fun path => [path]) h⟩
  · intro label' board' hmiss' honly honly' hne
    rw [hasked label board hmiss, hasked label' board' hmiss', (poppedLabel_eq_iff label).mpr honly,
      (poppedLabel_eq_iff label').mpr honly']
    exact fun h => hne (List.cons.inj h).1

/-- A world where nothing is found. -/
def emptyWorld : World := ⟨fun _ => false, fun _ _ => .ok none, fun _ => .ok none⟩

def staticAutoupdate : Autoupdate := ⟨some "/static".toList, "update.gz".toList⟩

theorem getPathToPayload_translates_plain :
    (emptyWorld.play (getPathToPayload staticAutoupdate "eve/R80-1.2.3".toList none)).2 =
      [stripTag "eve/R80-1.2.3".toList] :=
  (getPathToPayload_translates_iff emptyWorld staticAutoupdate "eve/R80-1.2.3".toList none
    rfl).1.mpr (by decide)

/-- With the tag the last component is lost, and two images are asked for in the same words. -/
theorem getPathToPayload_translates_tagged :
    (emptyWorld.play
      (getPathToPayload staticAutoupdate "xbuddy/local/eve/latest/dev".toList none)).2 =
        ["xbuddy/local/eve/latest".toList.splitOn '/'] ∧
      (emptyWorld.play
        (getPathToPayload staticAutoupdate "xbuddy/local/eve/latest/test".toList none)).2 =
        ["xbuddy/local/eve/latest".toList.splitOn '/'] ∧
      stripTag "xbuddy/local/eve/latest/dev".toList ≠
        stripTag "xbuddy/local/eve/latest/test".toList := by
  refine ⟨by decide, by decide, by decide⟩

end Devserver
