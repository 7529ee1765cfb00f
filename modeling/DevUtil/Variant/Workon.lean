import Mathlib.Data.Finset.Basic
import Mathlib.Data.Finset.Lattice.Lemmas
import Mathlib.Data.Finset.SDiff

/-!
# `emerge_with_workon`

Packages that are started, an emerge, and the packages stopped again, with an exception
possible in each of these.

    packages that were worked on before stay so                                       (subset_after)
    after the call the same packages are worked on as before, exactly if
    nothing is started or nothing raises before all of it is stopped                  (after_eq_iff)
-/

namespace Variant.Workon

/-! ## What is outside -/

/-- How `subprocess.run` ends: with an exception of its own, or with an exit code and an output,
which is `none` if it is not UTF-8. -/
inductive Ran
  | raised
  | exited (code : Nat) (stdout : Option String)
deriving DecidableEq

/-- What the calls of one run do. -/
structure Outside (Atom : Type) where
  /-- The atoms of packages. -/
  atoms : List String → Finset Atom
  /-- Whether `ListAtoms` raises, before the start and after it. -/
  listRaises : Bool × Bool
  /-- `StartWorkingOnPackages` raises, having started these of the atoms. -/
  startRaises : Option (Atom → Bool)
  run : List String → Ran
  /-- `StopWorkingOnPackages` raises, having stopped these of the atoms. -/
  stopRaises : Option (Atom → Bool)

inductive Exn
  | raised
deriving DecidableEq

/-- The state is the set of atoms that are worked on. -/
abbrev M (Atom : Type) := ExceptT Exn (StateM (Finset Atom))

variable {Atom : Type} [DecidableEq Atom]

def listAtoms (raises : Bool) : M Atom (Finset Atom) := do
  if raises then throw .raised
  get

def startWorkingOnPackages (o : Outside Atom) (pkgs : List String) : M Atom Unit :=
  match o.startRaises with
  | none => modify fun workedOn => workedOn ∪ o.atoms pkgs
  | some started => do
    modify fun workedOn => workedOn ∪ (o.atoms pkgs).filter (started · = true)
    throw .raised

def stopWorkingOnPackages (o : Outside Atom) (pkgs : Finset Atom) : M Atom Unit :=
  match o.stopRaises with
  | none => modify fun workedOn => workedOn \ pkgs
  | some stopped => do
    modify fun workedOn => workedOn \ pkgs.filter (stopped · = true)
    throw .raised

/-! ## The functions -/

/-- `output.decode('utf-8').split('\n')` -/
def decodedLines (output : Option String) : Except Exn (List String) :=
  match output with
  | some text => .ok ((text.toList.splitOn '\n').map String.ofList)
  | none => .error .raised

/-- `run_process(args, capture_output=captureOutput)`; only a `CalledProcessError` is caught. -/
def runProcess (o : Outside Atom) (args : List String) (captureOutput : Bool) :
    M Atom (Option (List String)) :=
  match o.run args with
  | .raised => throw .raised
  | .exited 0 stdout => do
    let lines ← ExceptT.mk (pure (decodedLines (if captureOutput then stdout else some "True")))
    return some lines
  | .exited _ _ => return none

def startPackages (o : Outside Atom) (workonPkgs : List String) : M Atom Unit :=
  if workonPkgs = [] then pure () else startWorkingOnPackages o workonPkgs

def stopStarted (o : Outside Atom) (stopPackages : Finset Atom) : M Atom Unit :=
  if stopPackages = ∅ then pure () else stopWorkingOnPackages o stopPackages

/-- `emerge_with_workon(status, workon_pkgs, emerge_cmd, emerge_pkgs)` -/
def emergeWithWorkon (o : Outside Atom) (workonPkgs : List String) (emergeCmd : String)
    (emergePkgs : List String) :
    M Atom (Option (List String)) := do
  let beforeWorkon ← listAtoms o.listRaises.1
  startPackages o workonPkgs
  let afterWorkon ← listAtoms o.listRaises.2
  let stopPackages := afterWorkon \ beforeWorkon
  let emergeResult ← runProcess o ([emergeCmd] ++ emergePkgs) false
  stopStarted o stopPackages
  return emergeResult

/-- A call, from the atoms that are worked on. -/
def call {α : Type} (x : M Atom α) (workedOn : Finset Atom) : Except Exn α × Finset Atom :=
  x.run.run workedOn

/-- What is worked on after `emerge_with_workon`, however it ends. -/
def after (o : Outside Atom) (workonPkgs : List String) (emergeCmd : String)
    (emergePkgs : List String) (workedOn : Finset Atom) : Finset Atom :=
  (call (emergeWithWorkon o workonPkgs emergeCmd emergePkgs) workedOn).2

/-! ## What each call does -/

variable {o : Outside Atom} {workonPkgs : List String} {workedOn : Finset Atom}

omit [DecidableEq Atom] in
theorem call_bind_ok {α β : Type} {x : M Atom α} {f : α → M Atom β} {a : α} {s s' : Finset Atom}
    (h : call x s = (.ok a, s')) :
    call (x >>= f) s = call (f a) s' := by
  unfold call at *
  rw [ExceptT.run_bind, StateT.run_bind, h]
  rfl

omit [DecidableEq Atom] in
theorem call_bind_error {α β : Type} {x : M Atom α} {f : α → M Atom β} {e : Exn}
    {s s' : Finset Atom} (h : call x s = (.error e, s')) : call (x >>= f) s = (.error e, s') := by
  unfold call at *
  rw [ExceptT.run_bind, StateT.run_bind, h]
  rfl

omit [DecidableEq Atom] in
theorem call_listAtoms (raises : Bool) (s : Finset Atom) :
    call (listAtoms raises) s = (if raises then .error .raised else .ok s, s) := by
  cases raises <;> rfl

theorem call_start (o : Outside Atom) (pkgs : List String) (s : Finset Atom) :
    call (startWorkingOnPackages o pkgs) s = match o.startRaises with
      | none => (.ok (), s ∪ o.atoms pkgs)
      | some started => (.error .raised, s ∪ (o.atoms pkgs).filter (started · = true)) := by
  unfold startWorkingOnPackages
  cases o.startRaises <;> rfl

theorem call_stop (o : Outside Atom) (pkgs s : Finset Atom) :
    call (stopWorkingOnPackages o pkgs) s = match o.stopRaises with
      | none => (.ok (), s \ pkgs)
      | some stopped => (.error .raised, s \ pkgs.filter (stopped · = true)) := by
  unfold stopWorkingOnPackages
  cases o.stopRaises <;> rfl

omit [DecidableEq Atom] in
/-- A process changes nothing and raises only what is not an exit code. -/
theorem call_runProcess (o : Outside Atom) (args : List String) (s : Finset Atom) :
    (o.run args = .raised ∧ call (runProcess o args false) s = (.error .raised, s)) ∨
      (o.run args ≠ .raised ∧ ∃ lines, call (runProcess o args false) s = (.ok lines, s)) := by
  unfold runProcess
  cases o.run args with
  | raised => exact .inl ⟨rfl, rfl⟩
  | exited code stdout =>
    refine .inr ⟨by simp, ?_⟩
    cases code with
    | zero => exact ⟨_, rfl⟩
    | succ code => exact ⟨_, rfl⟩

/-! ## A whole call -/

/-- The atoms that the start adds. -/
def added (o : Outside Atom) (workonPkgs : List String) : Finset Atom :=
  if workonPkgs = [] then ∅
  else match o.startRaises with
    | none => o.atoms workonPkgs
    | some started => (o.atoms workonPkgs).filter (started · = true)

/-- What is started by a call and was not worked on before. -/
def startedHere (o : Outside Atom) (workonPkgs : List String) (workedOn : Finset Atom) :
    Finset Atom :=
  if o.listRaises.1 then ∅ else added o workonPkgs \ workedOn

theorem startedHere_subset (o : Outside Atom) (workonPkgs : List String) (workedOn : Finset Atom) :
    startedHere o workonPkgs workedOn ⊆ added o workonPkgs \ workedOn := by
  unfold startedHere
  split
  · exact Finset.empty_subset _
  · exact Finset.Subset.refl _

/-- No call raises from the start on, or the last one does and has stopped all these atoms. -/
structure StopsAll (o : Outside Atom) (args : List String) (atoms : Finset Atom) : Prop where
  start : o.startRaises = none
  list : o.listRaises.2 = false
  run : o.run args ≠ .raised
  stop : ∀ stopped, o.stopRaises = some stopped → ∀ a ∈ atoms, stopped a = true

theorem call_startPackages (o : Outside Atom) (workonPkgs : List String) (s : Finset Atom) :
    (call (startPackages o workonPkgs) s = (.ok (), s ∪ added o workonPkgs) ∧
      (workonPkgs = [] ∨ o.startRaises = none)) ∨
      (call (startPackages o workonPkgs) s = (.error .raised, s ∪ added o workonPkgs) ∧
        workonPkgs ≠ [] ∧ o.startRaises ≠ none) := by
  unfold startPackages added
  by_cases hpkgs : workonPkgs = []
  · simp only [if_pos hpkgs, Finset.union_empty]
    exact .inl ⟨rfl, .inl hpkgs⟩
  · simp only [if_neg hpkgs]
    rw [call_start]
    cases hraises : o.startRaises with
    | none => exact .inl ⟨rfl, .inr rfl⟩
    | some started => exact .inr ⟨rfl, hpkgs, Option.some_ne_none _⟩

/-- What the end of a call stops of the atoms started here. -/
theorem call_stopStarted (o : Outside Atom) (atoms s : Finset Atom) : ∃ stopped ⊆ atoms,
    (call (stopStarted o atoms) s).2 = s \ stopped ∧
      (stopped = atoms ↔ ∀ raised, o.stopRaises = some raised → ∀ a ∈ atoms, raised a = true) := by
  unfold stopStarted
  by_cases hatoms : atoms = ∅
  · subst hatoms
    exact ⟨∅, Finset.Subset.refl _, (Finset.sdiff_empty).symm, iff_of_true rfl (by simp)⟩
  · rw [if_neg hatoms, call_stop]
    cases o.stopRaises with
    | none => exact ⟨atoms, Finset.Subset.refl _, rfl, iff_of_true rfl (fun _ h => by cases h)⟩
    | some raised =>
      refine ⟨atoms.filter (raised · = true), Finset.filter_subset _ _, rfl, ?_⟩
      rw [Finset.filter_eq_self]
      simp

omit [DecidableEq Atom] in
theorem call_then_pure_snd {α β : Type} (x : M Atom α) (b : β) (s : Finset Atom) :
    (call (x >>= fun _ => pure b) s).2 = (call x s).2 := by
  cases hx : call x s with
  | mk r s' =>
    cases r with
    | ok a =>
      rw [call_bind_ok hx]
      rfl
    | error e => rw [call_bind_error hx]

/-- A call stops a part of what it has started, and all of it exactly under `StopsAll`. -/
theorem exists_stopped (o : Outside Atom) (workonPkgs : List String) (emergeCmd : String)
    (emergePkgs : List String) (workedOn : Finset Atom) :
    ∃ stopped ⊆ startedHere o workonPkgs workedOn,
    after o workonPkgs emergeCmd emergePkgs workedOn =
      (workedOn ∪ startedHere o workonPkgs workedOn) \ stopped ∧
      (stopped = startedHere o workonPkgs workedOn ↔ startedHere o workonPkgs workedOn = ∅ ∨
        StopsAll o ([emergeCmd] ++ emergePkgs) (startedHere o workonPkgs workedOn)) := by
  -- where the call ends before it stops anything
  have hnothing : ∀ new s : Finset Atom, s = workedOn ∪ new →
    ¬StopsAll o ([emergeCmd] ++ emergePkgs) new →
      ∃ stopped ⊆ new, s = (workedOn ∪ new) \ stopped ∧
        (stopped = new ↔ new = ∅ ∨ StopsAll o ([emergeCmd] ++ emergePkgs) new) := by
    intro new s hs hstops
    refine ⟨∅, Finset.empty_subset _, by rw [Finset.sdiff_empty, hs], ?_⟩
    rw [or_iff_left hstops]
    exact eq_comm
  unfold after emergeWithWorkon
  cases hlist : o.listRaises.1 with
  | true =>
    have hnew : startedHere o workonPkgs workedOn = ∅ := if_pos hlist
    rw [hnew, call_bind_error (by rw [call_listAtoms]; rfl)]
    exact ⟨∅, Finset.Subset.refl _, by simp, iff_of_true rfl (.inl rfl)⟩
  | false =>
    have hnew : startedHere o workonPkgs workedOn = added o workonPkgs \ workedOn :=
      if_neg (by simp [hlist])
    have hunion : workedOn ∪ added o workonPkgs = workedOn ∪ startedHere o workonPkgs workedOn := by
      rw [hnew, Finset.union_sdiff_self_eq_union]
    rw [call_bind_ok (call_listAtoms false workedOn)]
    rcases call_startPackages o workonPkgs workedOn with ⟨hcall, hstart⟩ | ⟨hcall, -, hstart⟩
    · have hstart' : startedHere o workonPkgs workedOn = ∅ ∨ o.startRaises = none := by
        refine hstart.imp_left fun hpkgs => ?_
        rw [hnew, added, if_pos hpkgs, Finset.empty_sdiff]
      have hdisjoint : Disjoint workedOn (startedHere o workonPkgs workedOn) := by
        rw [hnew]
        exact Finset.disjoint_sdiff
      rw [call_bind_ok hcall, hunion]
      generalize startedHere o workonPkgs workedOn = new at hstart' hdisjoint hnothing ⊢
      cases hlist₂ : o.listRaises.2 with
      | true =>
        rw [call_bind_error (by rw [call_listAtoms]; rfl)]
        exact hnothing new _ rfl fun h => by simpa [hlist₂] using h.list
      | false =>
        rw [call_bind_ok (call_listAtoms false _)]
        rcases call_runProcess o ([emergeCmd] ++ emergePkgs)
          (workedOn ∪ new) with ⟨hran, hrun⟩ | ⟨hran, lines, hrun⟩
        · rw [call_bind_error hrun]
          exact hnothing new _ rfl fun h => h.run hran
        · rw [call_bind_ok hrun, call_then_pure_snd, Finset.union_sdiff_cancel_left hdisjoint]
          obtain ⟨stopped, hsub, hstop, hall⟩ := call_stopStarted o new (workedOn ∪ new)
          refine ⟨stopped, hsub, hstop, hall.trans ⟨fun h => ?_, ?_⟩⟩
          · exact hstart'.imp_right fun hnone => ⟨hnone, hlist₂, hran, h⟩
          · rintro (hempty | h)
            · simp [hempty]
            · exact h.stop
    · rw [call_bind_error hcall]
      exact hnothing _ _ hunion fun h => hstart h.start

/-! ## What is worked on after a call -/

/-- Packages that were worked on before stay so. -/
theorem subset_after (o : Outside Atom) (workonPkgs : List String) (emergeCmd : String)
    (emergePkgs : List String) (workedOn : Finset Atom) :
    workedOn ⊆ after o workonPkgs emergeCmd emergePkgs workedOn := by
  obtain ⟨stopped, hsub, hafter, -⟩ := exists_stopped o workonPkgs emergeCmd emergePkgs workedOn
  intro a ha
  rw [hafter, Finset.mem_sdiff]
  refine ⟨Finset.mem_union_left _ ha, fun hs => ?_⟩
  exact (Finset.mem_sdiff.mp (startedHere_subset o workonPkgs workedOn (hsub hs))).2 ha

/-- The same packages are worked on after the call as before, exactly if none was started or no call
raised before all of them were stopped. -/
theorem after_eq_iff (o : Outside Atom) (workonPkgs : List String) (emergeCmd : String)
    (emergePkgs : List String) (workedOn : Finset Atom) :
    after o workonPkgs emergeCmd emergePkgs workedOn = workedOn ↔
      startedHere o workonPkgs workedOn = ∅ ∨
        StopsAll o ([emergeCmd] ++ emergePkgs) (startedHere o workonPkgs workedOn) := by
  obtain ⟨stopped, hsub, hafter, hall⟩ := exists_stopped o workonPkgs emergeCmd emergePkgs workedOn
  have hkept := subset_after o workonPkgs emergeCmd emergePkgs workedOn
  rw [hafter] at hkept
  rw [← hall, hafter]
  have hnew := startedHere_subset o workonPkgs workedOn
  generalize startedHere o workonPkgs workedOn = new at hsub hnew hkept ⊢
  constructor
  · intro heq
    refine Finset.Subset.antisymm hsub fun a ha => ?_
    by_contra hs
    have hin : a ∈ workedOn := by
      rw [← heq]
      exact Finset.mem_sdiff.mpr ⟨Finset.mem_union_right _ ha, hs⟩
    exact (Finset.mem_sdiff.mp (hnew ha)).2 hin
  · rintro rfl
    refine Finset.Subset.antisymm (fun a ha => ?_) hkept
    rw [Finset.mem_sdiff, Finset.mem_union] at ha
    exact ha.1.resolve_right ha.2

/-- The emerge command is not there: `subprocess.run` raises. -/
def noCommand : Outside String where
  atoms pkgs := pkgs.toFinset
  listRaises := (false, false)
  startRaises := none
  run _ := .raised
  stopRaises := none

/-- What was started stays worked on. -/
theorem coreboot_left : after noCommand ["sys-boot/coreboot"] "emerge-volteer"
    ["sys-boot/coreboot"] ∅ = {"sys-boot/coreboot"} ∧
    after noCommand ["sys-boot/coreboot"] "emerge-volteer" ["sys-boot/coreboot"] ∅ ≠ ∅ := by
  decide

end Variant.Workon
