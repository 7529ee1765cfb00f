import DevUtil.Roafteriniter.Stage1Invariant
import DevUtil.Roafteriniter.Termination

/-!
# Stage 1 in one process

A process alone asks about a type that it is still deciding only along a cycle of
members, and no interesting type is on one: the answer "no" is right.

    nested lookups that find their type checked are about no interesting one     (Alone.nestedNo)
    all types passed: interesting in the cache ↔ in the least fixpoint           (stage1_fixpoint)
-/

namespace Roafteriniter

open Lib Interleave

/-- A call of `rai_interesting_struct_type` about the struct type `n`. -/
def Calls (s : System) (n : Name) : Prop :=
  ∃ p ∈ s.procs, ∃ stack rest, p.state = .run (.containsInteresting n) stack rest

section

variable {blacklist : List Name} {fields : Name → List CType} {globals : List CType}

/-! ## No answer about a type comes too early -/

theorem StackOk.needs {c : Caches} {stack : List Frame} {asked : Name}
    (h : StackOk blacklist fields globals c asked stack) {f : Frame} (hf : f ∈ stack) :
    Relation.TransGen (Needs fields) f.typeName asked := by
  induction stack generalizing asked with
  | nil => cases hf
  | cons g stack ih =>
    obtain ⟨⟨t, hask, hscan⟩, hstack⟩ := h
    have hneeds : Needs fields g.typeName asked := by
      obtain ⟨-, -, -, pre, hfields, -⟩ := hscan
      exact needs_of_ask (by rw [hfields]; simp) hask
    rcases List.mem_cons.mp hf with rfl | hf
    · exact .single hneeds
    · exact (ih hstack hf).tail hneeds

/-- Only the answer "not known as interesting" leads to the lookup in `checked`. -/
theorem Answer.unknown_of_insertChecked {c c' : Caches} {op : CacheOp} {stack stack' : List Frame}
    {rest rest' : List CType} {n : Name}
    (h : Answer blacklist fields c stack rest op (.run (.insertChecked n) stack' rest') c') :
    ¬c'.interesting.Has n := by
  generalize hs : State.run (.insertChecked n) stack' rest' = state' at h
  -- every other answer goes back into the loops
  have hresumes : ¬state'.Resumes := by
    rw [← hs]
    exact id
  cases h with
  | unknown hn =>
    cases hs
    exact hn
  | known _ | published _ | publish _ _ => exact absurd (returnTrue_resumes _ _) hresumes
  | found _ | blacklisted _ _ _ => exact absurd (returnFalse_resumes _ _) hresumes
  | scan _ _ _ => exact absurd (checkInterestingSttype_resumes _ _ _ _ _) hresumes

/-- The invariant of one process: nothing is published behind its back. -/
structure Alone (blacklist : List Name) (fields : Name → List CType) (globals : List CType)
    (c₀ : Caches) (s : System) : Prop extends Inv blacklist fields globals c₀ s where
  one : ∃ p, s.procs = [p]
  unknown : ∀ p ∈ s.procs, ∀ n stack rest, p.state = .run (.insertChecked n) stack rest →
    ¬s.shared.interesting.Has n

theorem Alone.nestedNo {c₀ : Caches} {s : System} (h : Alone blacklist fields globals c₀ s)
    (i : Nat) (op : CacheOp) : NestedNo blacklist fields s i op := by
  rintro p stack rest n hp hstate rfl - hn hint
  obtain ⟨q, hq⟩ := h.one
  have hpmem : p ∈ s.procs := List.mem_of_getElem? hp
  obtain ⟨-, hok⟩ := h.procs p hpmem
  rw [hstate] at hok
  obtain ⟨hpassed, hstack, -⟩ := hok
  rcases h.decided n hpassed hn with hs | ⟨r, hr, hd⟩
  · exact h.unknown p hpmem n stack rest hstate (hs.1 hint)
  · -- the only process decides `n` itself
    have hrp : r = p := by
      rw [hq] at hr hpmem
      rw [List.mem_singleton.mp hr, List.mem_singleton.mp hpmem]
    rw [hrp, hstate] at hd
    obtain ⟨f, hf, rfl⟩ := State.decides_run hd fun _ => nofun
    exact interesting_acyclic hint (hstack.needs hf)

theorem alone_step {c₀ : Caches} (hready : Ready blacklist fields globals c₀) {s s' : System}
    {i : Nat} {op : CacheOp} (h : Alone blacklist fields globals c₀ s)
    (hstep : Step (Moves blacklist) s i op s') :
    Alone blacklist fields globals c₀ s' := by
  refine ⟨inv_step hready h.toInv (h.nestedNo i op) hstep, ?_, ?_⟩
  · obtain ⟨q, hq⟩ := h.one
    cases hstep with
    | @mk p p' _ c' hp hmoves =>
      rw [hq] at hp ⊢
      match i, hp with
      | 0, _ => exact ⟨p', rfl⟩
  · cases hstep with
    | @mk p p' _ c' hp hmoves =>
      obtain ⟨q, hq⟩ := h.one
      rw [hq] at hp ⊢
      match i, hp with
      | 0, hp =>
        cases hp
        intro r hr n stack rest hstate
        obtain rfl := List.mem_singleton.mp hr
        unfold Moves Proc.next at hmoves
        split at hmoves
        · next op' stack' rest' _ =>
          obtain ⟨state', c'', hanswer⟩ : ∃ st c,
            interestingStructType blacklist p.unit.fields s.shared stack'
              rest' op' = (st, c) := ⟨_, _, rfl⟩
          rw [hanswer] at hmoves
          cases hmoves
          rcases answer_of_step _ _ _ _ _ _ hanswer with ⟨rfl, rfl⟩ | ha
          · cases hstate
          · have hstate : state' = .run (.insertChecked n) stack rest := hstate
            rw [hstate] at ha
            exact ha.unknown_of_insertChecked
        · cases hmoves
        · cases hmoves

theorem alone_start {c₀ : Caches} {u : TranslationUnit}
    (hready : Ready blacklist u.fields u.globals c₀) :
    Alone blacklist u.fields u.globals c₀ (System.start c₀ [u]) := by
  refine ⟨inv_start hready (by simp) (by simp), ⟨_, rfl⟩, ?_⟩
  intro p hp n stack rest hstate
  obtain rfl := List.mem_singleton.mp hp
  have hresumes := nextGlobal_resumes u.globals
  have hstate : nextGlobal u.globals = .run (.insertChecked n) stack rest := hstate
  rw [hstate] at hresumes
  exact hresumes.elim

theorem alone_exec {c₀ : Caches} {u : TranslationUnit}
    (hready : Ready blacklist u.fields u.globals c₀) (k : Nat) :
    Alone blacklist u.fields u.globals c₀ (exec blacklist u c₀ k) := by
  have hrun : Run (Moves blacklist) (fun _ _ _ => True) (System.start c₀ [u])
      (exec blacklist u c₀ k) :=
    Run.play (fun _ _ _ _ _ h => h) (fun _ _ _ _ _ _ _ _ => trivial) .refl
  exact hrun.invariant (fun s i op s' h _ hstep => alone_step hready h hstep) (alone_start hready)

end

/-! ## The verdicts -/

/-- The caches do not fill up in the run of one process. -/
def NeverFull (blacklist : List Name) (u : TranslationUnit) (c : Caches) : Prop :=
  ∀ k, ∀ p ∈ (exec blacklist u c k).procs, p.state ≠ .died

section

variable {blacklist : List Name} {c₀ : Caches} {u : TranslationUnit}

theorem finished_exec {k : Nat} {state : State} {c : Caches}
    (hexec : exec blacklist u c₀ k = ⟨c, [⟨u, state⟩]⟩) (hstate : state = .finished) :
    (exec blacklist u c₀ k).finished := by
  rw [hexec]
  intro p hp
  rw [List.mem_singleton.mp hp]
  exact hstate

theorem exec_finishes (hnever : NeverFull blacklist u c₀) :
    ∃ k, (exec blacklist u c₀ k).finished := by
  obtain ⟨k, state, c, hexec, hstopped⟩ := exec_stops blacklist u c₀
  rcases hstopped with h | h
  · exact ⟨k, finished_exec hexec h⟩
  · exact absurd h (hnever k ⟨u, state⟩ (by rw [hexec]; exact List.mem_cons_self))

theorem neverFull_of_spacious (blacklist : List Name) {names : List Name}
    (hnames : ∀ n ∈ u.mentioned, n ∈ names) (hspace : Spacious names c₀) :
    NeverFull blacklist u c₀ := by
  intro k p hp
  obtain ⟨state, c, hexec, halive, -⟩ := @exec_alive blacklist u c₀ names hnames hspace k
  rw [hexec] at hp
  rw [List.mem_singleton.mp hp]
  exact halive

theorem passed_of_calls (hready : Ready blacklist u.fields u.globals c₀) {k : Nat} {n : Name}
    (h : Calls (exec blacklist u c₀ k) n) : Passed blacklist u.fields u.globals n := by
  obtain ⟨p, hp, stack, rest, hstate⟩ := h
  obtain ⟨-, hok⟩ := (alone_exec hready k).procs p hp
  rw [hstate] at hok
  exact hok.1

theorem Passed.globals {fields : Name → List CType} {globals globals' : List CType}
    (h : ∀ t ∈ globals, t ∈ globals') {n : Name} (hn : Passed blacklist fields globals n) :
    Passed blacklist fields globals' n := by
  induction hn with
  | global ht hname => exact .global (h _ ht) hname
  | member _ hscans ih => exact .member ih hscans

end

/-- One process over one complete definition per name: it terminates; every type that it is
called about ends as interesting exactly if it is in the least fixpoint; and the order of the
globals makes no difference. -/
theorem stage1_fixpoint (blacklist : List Name) (types : List (Name × List CType))
    (globals : List CType) (mint mchk : Mapping)
    (hnever : NeverFull blacklist ⟨types, globals⟩ (.empty mint mchk)) :
    (∃ k, (exec blacklist ⟨types, globals⟩ (.empty mint mchk) k).finished) ∧
    ∀ k, (exec blacklist ⟨types, globals⟩ (.empty mint mchk) k).finished →
      (∀ j n, Calls (exec blacklist ⟨types, globals⟩ (.empty mint mchk) j) n →
        ((exec blacklist ⟨types, globals⟩ (.empty mint mchk) k).shared.interesting.Has n ↔
          Interesting blacklist (TranslationUnit.fields ⟨types, globals⟩) n)) ∧
      ∀ globals', globals'.Perm globals → ∀ k',
        (exec blacklist ⟨types, globals'⟩ (.empty mint mchk) k').finished →
        ∀ n, (exec blacklist ⟨types, globals'⟩ (.empty mint mchk) k').shared.interesting.Has n ↔
          (exec blacklist ⟨types, globals⟩ (.empty mint mchk) k).shared.interesting.Has n := by
  have hfinal : ∀ gs k, (exec blacklist ⟨types, gs⟩ (.empty mint mchk) k).finished → ∀ n,
      (exec blacklist ⟨types, gs⟩ (.empty mint mchk) k).shared.interesting.Has n ↔
        Passed blacklist (TranslationUnit.fields ⟨types, gs⟩) gs n ∧
          Interesting blacklist (TranslationUnit.fields ⟨types, gs⟩) n := by
    intro gs k hfin n
    rw [(alone_exec (ready_empty mint mchk) k).interesting_finished hfin]
    have hempty : ¬(Caches.empty mint mchk).interesting.Has n := List.not_mem_nil
    exact or_iff_right hempty
  refine ⟨exec_finishes hnever, fun k hfin => ⟨?_, ?_⟩⟩
  · intro j n hcalls
    rw [hfinal globals k hfin n]
    exact and_iff_right (passed_of_calls (ready_empty mint mchk) hcalls)
  · intro globals' hperm k' hfin' n
    rw [hfinal globals k hfin n, hfinal globals' k' hfin' n]
    have hpassed : Passed blacklist (TranslationUnit.fields ⟨types, globals'⟩) globals' n ↔
        Passed blacklist (TranslationUnit.fields ⟨types, globals⟩) globals n :=
      ⟨Passed.globals fun t ht => hperm.mem_iff.mp ht,
        Passed.globals fun t ht => hperm.mem_iff.mpr ht⟩
    exact and_congr_left' hpassed

def STAGE1_PG_COUNT : Nat := 30

/-- What `rai_map_cache` maps for each cache of stage 1. -/
def stage1Mapping : Mapping where
  hdr := 0x10000
  size := STAGE1_PG_COUNT * 0x1000
  pos := by unfold STAGE1_PG_COUNT; omega
  pages := by unfold STAGE1_PG_COUNT; omega
  small := by unfold STAGE1_PG_COUNT PTRDIFF_MAX; omega
  inside := by unfold STAGE1_PG_COUNT; omega

/-- A list node that points to itself, and a device with a pointer to its operations. -/
def deviceUnit : TranslationUnit where
  types := [(name "node", [.pointer (struct "node"), .other]), (name "ops", [.pointer .other]),
    (name "device", [.pointer (struct "ops"), .pointer anonymous, .other])]
  globals := [struct "node", struct "device", .other]

theorem deviceUnit_room : used (deviceUnit.mentioned.dedup.map Name.str) < stage1Mapping.size := by
  decide

theorem stage1_fixpoint_device :
    ∃ k, (exec blacklistedTypenames deviceUnit (.empty stage1Mapping stage1Mapping) k).finished ∧
      ∀ j n, Calls (exec blacklistedTypenames deviceUnit (.empty stage1Mapping stage1Mapping) j) n →
        ((exec blacklistedTypenames deviceUnit
          (.empty stage1Mapping stage1Mapping) k).shared.interesting.Has n ↔
          Interesting blacklistedTypenames deviceUnit.fields n) := by
  have hnever : NeverFull blacklistedTypenames deviceUnit (.empty stage1Mapping stage1Mapping) :=
    neverFull_of_spacious _ (fun _ h => h) (spacious_empty deviceUnit_room deviceUnit_room)
  obtain ⟨⟨k, hk⟩, hall⟩ := stage1_fixpoint blacklistedTypenames deviceUnit.types deviceUnit.globals
    stage1Mapping stage1Mapping hnever
  exact ⟨k, hk, (hall k hk).1⟩

end Roafteriniter
