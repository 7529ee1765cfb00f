import DevUtil.Roafteriniter.OneProcess

/-!
# Stage 1 in parallel compiler processes

Between the insertion of a type into `checked` and the one into `interesting`, a
process that asks about the type for another one is told "no", and it publishes
that answer for good.  Runs without such a question (`NestedNo`) leave what one
process leaves; one with such a question loses a type.
-/

namespace Roafteriniter

open Lib Interleave

/-- The processes over the same types, each with its globals. -/
def compilers (types : List (Name × List CType)) (globals : List (List CType)) :
    List TranslationUnit :=
  globals.map fun gs => ⟨types, gs⟩

theorem inv_run {blacklist : List Name} {fields : Name → List CType} {globals : List CType}
    {c₀ : Caches} (hready : Ready blacklist fields globals c₀) {s₀ s : System}
    (h₀ : Inv blacklist fields globals c₀ s₀)
    (hrun : Run (Moves blacklist) (NestedNo blacklist fields) s₀ s) :
    Inv blacklist fields globals c₀ s :=
  hrun.invariant (fun _ _ _ _ h hok hstep => inv_step hready h hok hstep) h₀

section

variable {blacklist : List Name} {types : List (Name × List CType)} {globals : List (List CType)}
  {mint mchk : Mapping}

/-- What processes leave that never ask, for another type, about an interesting one that is checked
and not yet published. -/
theorem interesting_of_run {s : System}
    (hrun : Run (Moves blacklist)
      (NestedNo blacklist (TranslationUnit.fields ⟨types, globals.flatten⟩))
        (System.start (.empty mint mchk) (compilers types globals)) s)
    (hfin : s.finished) (n : Name) :
    s.shared.interesting.Has n ↔
      Passed blacklist (TranslationUnit.fields ⟨types, globals.flatten⟩) globals.flatten n ∧
        Interesting blacklist (TranslationUnit.fields ⟨types, globals.flatten⟩) n := by
  have hready := @ready_empty blacklist (TranslationUnit.fields ⟨types, globals.flatten⟩)
    globals.flatten mint mchk
  have hstart : Inv blacklist (TranslationUnit.fields ⟨types, globals.flatten⟩) globals.flatten
      (.empty mint mchk) (System.start (.empty mint mchk) (compilers types globals)) := by
    apply inv_start hready
    · intro u hu
      obtain ⟨gs, -, rfl⟩ := List.mem_map.mp hu
      rfl
    · intro t
      simp [compilers, List.mem_flatten]
  rw [(inv_run hready hstart hrun).interesting_finished hfin]
  have hempty : ¬(Caches.empty mint mchk).interesting.Has n := List.not_mem_nil
  exact or_iff_right hempty

end

/-- Processes that never ask, for another type, about an interesting one that is checked and
not yet published leave the interesting types that one process leaves. -/
theorem parallel_agrees (blacklist : List Name) (types : List (Name × List CType))
    (globals : List (List CType)) (mint mchk : Mapping) {s : System}
    (hrun : Run (Moves blacklist)
      (NestedNo blacklist (TranslationUnit.fields ⟨types, globals.flatten⟩))
        (System.start (.empty mint mchk) (compilers types globals)) s)
    (hfin : s.finished) {k : Nat}
    (hone : (exec blacklist ⟨types, globals.flatten⟩ (.empty mint mchk) k).finished) (n : Name) :
    s.shared.interesting.Has n ↔
      (exec blacklist ⟨types, globals.flatten⟩ (.empty mint mchk) k).shared.interesting.Has n := by
  have hempty : ¬(Caches.empty mint mchk).interesting.Has n := List.not_mem_nil
  rw [interesting_of_run hrun hfin,
    (alone_exec (ready_empty mint mchk) k).interesting_finished hone]
  exact (or_iff_right hempty).symm

/-- What the processes come to, one of them comes to on its own. -/
theorem passed_compilers {blacklist : List Name} {types : List (Name × List CType)}
    {globals : List (List CType)} {n : Name} :
    Passed blacklist (TranslationUnit.fields ⟨types, globals.flatten⟩) globals.flatten n ↔
      ∃ u ∈ compilers types globals, Passed blacklist u.fields u.globals n := by
  constructor
  · intro h
    induction h with
    | @global t n ht hname =>
      obtain ⟨gs, hgs, ht⟩ := List.mem_flatten.mp ht
      exact ⟨⟨types, gs⟩, List.mem_map_of_mem hgs, .global ht hname⟩
    | member _ hscans ih =>
      obtain ⟨u, hu, hpassed⟩ := ih
      obtain ⟨gs, -, rfl⟩ := List.mem_map.mp hu
      exact ⟨⟨types, gs⟩, hu, .member hpassed hscans⟩
  · rintro ⟨u, hu, h⟩
    obtain ⟨gs, hgs, rfl⟩ := List.mem_map.mp hu
    exact h.globals fun t ht => List.mem_flatten.mpr ⟨gs, hgs, ht⟩

/-- The caches have room for all names, and every process asks about those of its unit. -/
structure Roomy (names : List Name) (s : System) : Prop where
  space : Spacious names s.shared
  inScope : ∀ (i : Nat) (p : Proc), s.procs[i]? = some p → p.state.Scoped p.unit
  names : ∀ (i : Nat) (p : Proc), s.procs[i]? = some p → ∀ n ∈ p.unit.mentioned, n ∈ names

theorem roomy_start {names : List Name} {units : List TranslationUnit} {c : Caches}
    (hnames : ∀ u ∈ units, ∀ n ∈ u.mentioned, n ∈ names) (hspace : Spacious names c) :
    Roomy names (System.start c units) := by
  have hproc : ∀ (i : Nat) p, (System.start c units).procs[i]? = some p →
      ∃ u ∈ units, Proc.start u = p :=
    fun i p hp => List.mem_map.mp (List.mem_of_getElem? hp)
  refine ⟨hspace, fun i p hp => ?_, fun i p hp => ?_⟩
  · obtain ⟨u, -, rfl⟩ := hproc i p hp
    exact nextGlobal_scoped fun _ ht => ht
  · obtain ⟨u, hu, rfl⟩ := hproc i p hp
    exact hnames u hu

theorem roomy_step {blacklist : List Name} {names : List Name} {s s' : System} {i : Nat}
    {op : CacheOp} (h : Roomy names s) (hstep : Step (Moves blacklist) s i op s') :
    Roomy names s' := by
  cases hstep with
  | @mk p p' _ c' hp hmoves =>
    have hscoped := h.inScope i p hp
    unfold Moves Proc.next at hmoves
    split at hmoves
    · next op' stack rest hstate =>
      obtain ⟨state', c'', hanswer⟩ : ∃ st c,
        interestingStructType blacklist p.unit.fields s.shared stack rest op' =
          (st, c) := ⟨_, _, rfl⟩
      rw [hanswer] at hmoves
      cases hmoves
      rw [hstate] at hscoped
      have hstays : state'.Scoped p.unit ∧ Spacious names c' := by
        rcases answer_of_step _ _ _ _ _ _ hanswer with ⟨rfl, rfl⟩ | hanswer
        · exact ⟨trivial, h.space⟩
        · exact ⟨hanswer.scoped hscoped, h.space.answer (h.names i p hp _ hscoped.1) hanswer⟩
      refine ⟨hstays.2, fun j q hq => ?_, fun j q hq => ?_⟩
      · rcases procs_set_cases hp hq with ⟨-, rfl⟩ | ⟨-, hq⟩
        · exact hstays.1
        · exact h.inScope j q hq
      · rcases procs_set_cases hp hq with ⟨-, rfl⟩ | ⟨-, hq⟩
        · exact h.names i p hp
        · exact h.names j q hq
    · cases hmoves
    · cases hmoves

/-- Room for all names is room until the end. -/
theorem spacious_run {blacklist : List Name} {ok : System → Nat → CacheOp → Prop}
    {names : List Name} {units : List TranslationUnit} {c : Caches}
    (hnames : ∀ u ∈ units, ∀ n ∈ u.mentioned, n ∈ names) (hspace : Spacious names c) {s : System}
    (hrun : Run (Moves blacklist) ok (System.start c units) s) :
    Spacious names s.shared :=
  (hrun.invariant (fun _ _ _ _ h _ hstep => roomy_step h hstep) (roomy_start hnames hspace)).space

/-! ## A run that agrees and one that does not -/

/-- `struct outer` has a member `struct inner`. -/
def outerTypes : List (Name × List CType) :=
  [(name "inner", [.other]), (name "outer", [struct "inner", .other])]

/-- One process for a global of each type, and one process for both. -/
def innerAndOuter : System :=
  System.start (.empty stage1Mapping stage1Mapping)
    (compilers outerTypes [[struct "inner"], [struct "outer"]])

/-- No nested lookup in `checked` finds its type. -/
def noNestedFound (s : System) (i : Nat) (op : CacheOp) : Bool :=
  match s.procs[i]?, op with
  | some ⟨_, .run _ (_ :: _) _⟩, .insertChecked n => !decide (s.shared.checked.Has n)
  | _, _ => true

theorem nestedNo_of_noNestedFound {blacklist : List Name} {fields : Name → List CType}
    {s : System} {i : Nat} {op : CacheOp} (h : noNestedFound s i op = true) :
    NestedNo blacklist fields s i op := by
  rintro ⟨u, state⟩ stack rest n hp hstate rfl hne hn
  obtain ⟨f, stack, rfl⟩ := List.exists_cons_of_ne_nil hne
  have hstate : state = .run (.insertChecked n) (f :: stack) rest := hstate
  subst hstate
  simp [noNestedFound, hp, hn] at h

theorem parallel_agrees_inner_first :
    ∃ (s : System) (k : Nat), s.finished ∧
      (exec blacklistedTypenames ⟨outerTypes, [struct "inner", struct "outer"]⟩
        (.empty stage1Mapping stage1Mapping) k).finished ∧
      s.shared.interesting.Has (name "outer") ∧
      ∀ n, s.shared.interesting.Has n ↔
        (exec blacklistedTypenames ⟨outerTypes, [struct "inner", struct "outer"]⟩
          (.empty stage1Mapping stage1Mapping) k).shared.interesting.Has n := by
  have hfin : System.finished
      (play (Proc.next blacklistedTypenames) [0, 0, 0, 1, 1, 1, 1] innerAndOuter) := by
    unfold System.finished
    decide
  have hone : System.finished
    (exec blacklistedTypenames ⟨outerTypes, [struct "inner", struct "outer"]⟩
      (.empty stage1Mapping stage1Mapping) 7) := by
    unfold System.finished
    decide
  have hrun : Run (Moves blacklistedTypenames)
      (NestedNo blacklistedTypenames
        (TranslationUnit.fields ⟨outerTypes, [struct "inner", struct "outer"]⟩))
      innerAndOuter (play (Proc.next blacklistedTypenames) [0, 0, 0, 1, 1, 1, 1] innerAndOuter) :=
    Run.play_of_meets (fun _ _ _ _ _ h => h) noNestedFound
      (fun _ _ _ h => nestedNo_of_noNestedFound h) .refl
      (by decide)
  exact ⟨play (Proc.next blacklistedTypenames) [0, 0, 0, 1, 1, 1, 1] innerAndOuter, 7, hfin,
    hone, by decide,
    parallel_agrees blacklistedTypenames outerTypes
      [[struct "inner"], [struct "outer"]] stage1Mapping stage1Mapping
      hrun hfin hone⟩

/-- The second process asks about `struct inner` while the first one decides it. -/
theorem parallel_loses_outer :
    ∃ (s : System) (k : Nat), Run (Moves blacklistedTypenames) (fun _ _ _ => True) innerAndOuter s ∧
      s.finished ∧
      (exec blacklistedTypenames ⟨outerTypes, [struct "inner", struct "outer"]⟩
        (.empty stage1Mapping stage1Mapping) k).finished ∧
      ¬s.shared.interesting.Has (name "outer") ∧
      (exec blacklistedTypenames ⟨outerTypes, [struct "inner", struct "outer"]⟩
        (.empty stage1Mapping stage1Mapping) k).shared.interesting.Has (name "outer") := by
  have hfin : System.finished
      (play (Proc.next blacklistedTypenames) [0, 0, 1, 1, 1, 1, 0] innerAndOuter) := by
    unfold System.finished
    decide
  have hone : System.finished
    (exec blacklistedTypenames ⟨outerTypes, [struct "inner", struct "outer"]⟩
      (.empty stage1Mapping stage1Mapping) 7) := by
    unfold System.finished
    decide
  exact ⟨play (Proc.next blacklistedTypenames) [0, 0, 1, 1, 1, 1, 0] innerAndOuter, 7,
    Run.play (fun _ _ _ _ _ h => h) (fun _ _ _ _ _ _ _ _ => trivial) .refl, hfin, hone, by
      decide, by decide⟩

end Roafteriniter
