import DevUtil.Lib.Interleave
import DevUtil.Roafteriniter.Types

/-!
# Stage 1

`rai_stage1_execute` in any number of compiler processes that share the caches
`interesting` and `checked`.  A cache operation takes a lock, so it is one step of
a process; what a process does between two of them goes with the step before.

The recursion of `rai_interesting_struct_type` is a stack: a `Frame` for each
struct type in the middle of whose members `rai_check_interesting_sttype` is.
-/

namespace Roafteriniter

open Lib Interleave

/-- A call of `rai_check_interesting_sttype` that waits for the answer about a member. -/
structure Frame where
  typeName : Name
  /-- the members after that one -/
  rest : List CType
deriving DecidableEq

/-- The cache operation that a process does next. -/
inductive CacheOp
  | containsInteresting (n : Name)
  | insertChecked (n : Name)
  | insertInteresting (n : Name)
deriving DecidableEq

def CacheOp.name : CacheOp → Name
  | containsInteresting n | insertChecked n | insertInteresting n => n

inductive State
  | run (op : CacheOp) (stack : List Frame) (globals : List CType)
  | finished
  /-- `die`, or a read outside a mapping -/
  | died
deriving DecidableEq

structure Caches where
  interesting : Contents
  checked : Contents

/-! ## One process -/

/-- The loop of `rai_stage1_execute`. A type that is no named struct needs no cache. -/
def nextGlobal : List CType → State
  | [] => .finished
  | typeTree :: globals =>
    match raiStructtypeStr typeTree with
    | none => nextGlobal globals
    | some typeName => .run (.containsInteresting typeName) [] globals

/-- `rai_interesting_struct_type` returns false, and so does every caller of it. -/
def returnFalse : List Frame → List CType → State
  | [], globals => nextGlobal globals
  | _ :: stack, globals => returnFalse stack globals

/-- The loop of `rai_check_interesting_sttype`, and what its caller does with the result. -/
def checkInterestingSttype (typeName : Name) (hasFields : Bool) (stack : List Frame)
    (globals : List CType) :
    List CType → State
  | [] =>
    if hasFields then .run (.insertInteresting typeName) stack globals
    else returnFalse stack globals
  | member :: rest =>
    match checkMember typeName member with
    | .skip => checkInterestingSttype typeName true stack globals rest
    | .bad => returnFalse stack globals
    | .ask memberName => .run (.containsInteresting memberName) (⟨typeName, rest⟩ :: stack) globals

/-- `rai_interesting_struct_type` returns true. -/
def returnTrue : List Frame → List CType → State
  | [], globals => nextGlobal globals
  | frame :: stack, globals => checkInterestingSttype frame.typeName true stack globals frame.rest

/-- `rai_interesting_struct_type`, cut at its cache operations. -/
def interestingStructType (blacklist : List Name) (fields : Name → List CType) (c : Caches)
    (stack : List Frame) (globals : List CType) : CacheOp → State × Caches
  | .containsInteresting n =>
    match c.interesting.contains n.str with
    | none => (.died, c)
    | some .containsSuccess => (returnTrue stack globals, c)
    | some _ => (.run (.insertChecked n) stack globals, c)
  | .insertChecked n =>
    match c.checked.notcontainsInsert n.str with
    | none => (.died, c)
    | some (.containsSuccess, _) => (returnFalse stack globals, c)
    | some (.insertionFailed, _) => (.died, c)
    | some (_, checked) =>
      if raiHardcodedBlacklistTypename blacklist n then
        (returnFalse stack globals, { c with checked := checked })
      else (checkInterestingSttype n false stack globals (fields n), { c with checked := checked })
  | .insertInteresting n =>
    match c.interesting.notcontainsInsert n.str with
    | none => (.died, c)
    | some (.insertionFailed, _) => (.died, c)
    | some (_, interesting) => (returnTrue stack globals, { c with interesting := interesting })

/-! ## Processes -/

structure Proc where
  unit : TranslationUnit
  state : State

/-- A process that has to visit all its globals. -/
def Proc.start (u : TranslationUnit) : Proc := ⟨u, nextGlobal u.globals⟩

/-- The next step of a process, if it is still running. -/
def Proc.next (blacklist : List Name) (p : Proc) (c : Caches) : Option (CacheOp × Proc × Caches) :=
  match p.state with
  | .run op stack globals =>
    let (state, c') := interestingStructType blacklist p.unit.fields c stack globals op
    some (op, { p with state := state }, c')
  | .finished | .died => none

def Moves (blacklist : List Name) (p : Proc) (c : Caches) (op : CacheOp) (p' : Proc) (c' : Caches) :
    Prop :=
  p.next blacklist c = some (op, p', c')

abbrev System := Config Caches Proc

/-- All processes of a system at their start. -/
def System.start (c : Caches) (units : List TranslationUnit) : System := ⟨c, units.map Proc.start⟩

def System.finished (s : System) : Prop := ∀ p ∈ s.procs, p.state = .finished

/-- The caches just created. -/
def Caches.empty (mint mchk : Mapping) : Caches := ⟨.empty mint, .empty mchk⟩

/-- A name is in a cache. -/
def Contents.Has (k : Contents) (n : Name) : Prop := n.str ∈ k.items

instance Contents.decidableHas (k : Contents) (n : Name) : Decidable (k.Has n) :=
  inferInstanceAs (Decidable (_ ∈ _))

theorem Proc.next_run {blacklist : List Name} {p : Proc} {c : Caches} {op : CacheOp}
    {stack : List Frame} {rest : List CType} (h : p.state = .run op stack rest) {state' : State}
    {c' : Caches}
    (hanswer : interestingStructType blacklist p.unit.fields c stack rest op = (state', c')) :
    p.next blacklist c = some (op, { p with state := state' }, c') := by
  have hstate' : (interestingStructType blacklist p.unit.fields c stack rest op).1 = state' := by
    rw [hanswer]
  have hc' : (interestingStructType blacklist p.unit.fields c stack rest op).2 = c' := by
    rw [hanswer]
  unfold Proc.next
  rw [h, ← hstate', ← hc']

/-! ## What one cache operation answers -/

theorem Contents.contains_cases (k : Contents) (n : Name) :
    (k.contains n.str = none ∧ ¬k.Has n ∧ k.Full) ∨
      (k.contains n.str = some .containsSuccess ∧ k.Has n) ∨
      (k.contains n.str = some .containsFailed ∧ ¬k.Has n) := by
  unfold Contents.contains Contents.Has
  by_cases hmem : n.str ∈ k.items
  · simp [hmem]
  · by_cases hfull : k.Full <;> simp [hmem, hfull]

/-- `k'` is `k` with one more name. -/
def Contents.Adds (k : Contents) (n : Name) (k' : Contents) : Prop :=
  k'.size = k.size ∧ k'.items = k.items ++ [n.str]

theorem Contents.Adds.has {k k' : Contents} {n m : Name} (h : k.Adds n k') :
    k'.Has m ↔ k.Has m ∨ m = n := by
  unfold Contents.Has
  rw [h.2, List.mem_append, List.mem_singleton]
  exact or_congr_right ⟨Name.ext, congrArg _⟩

theorem Contents.notcontainsInsert_cases (k : Contents) (n : Name) :
    (k.notcontainsInsert n.str = none ∧ ¬k.Has n ∧ k.Full) ∨
      (k.notcontainsInsert n.str = some (.containsSuccess, k) ∧ k.Has n) ∨
      (k.notcontainsInsert n.str = some (.insertionFailed, k) ∧ ¬k.Has n ∧
        k.size < used k.items + (n.str.length + 1)) ∨
      ∃ k', k.notcontainsInsert n.str = some (.insertionSuccess, k') ∧ ¬k.Has n ∧ k.Adds n k' := by
  unfold Contents.notcontainsInsert
  rcases k.contains_cases n with ⟨h, hn⟩ | ⟨h, hn⟩ | ⟨h, hn⟩
  · simp [h, hn]
  · simp [h, hn]
  · simp only [h]
    by_cases hroom : used k.items + (n.str.length + 1) ≤ k.size
    · obtain ⟨hret, hitems, hsize⟩ := Contents.insert_room n.nonempty hroom
      refine .inr (.inr (.inr ⟨(k.insert n.str).2, ?_, hn, hsize, hitems⟩))
      rw [← hret]
    · have hins := @Contents.insert_refused k n.str fun e => hroom e.2
      rw [hins]
      exact .inr (.inr (.inl ⟨rfl, hn, Nat.lt_of_not_le hroom⟩))

/-! ## What one step of a process does -/

/-- A step of a running process that does not die: each cache operation with its answer. -/
inductive Answer (blacklist : List Name) (fields : Name → List CType) (c : Caches)
    (stack : List Frame) (globals : List CType) : CacheOp → State → Caches → Prop
  | known {n} : c.interesting.Has n →
      Answer blacklist fields c stack globals (.containsInteresting n) (returnTrue stack globals) c
  | unknown {n} : ¬c.interesting.Has n →
      Answer blacklist fields c stack globals (.containsInteresting n)
        (.run (.insertChecked n) stack globals) c
  | found {n} : c.checked.Has n →
      Answer blacklist fields c stack globals (.insertChecked n) (returnFalse stack globals) c
  | blacklisted {n k} : ¬c.checked.Has n → c.checked.Adds n k → n ∈ blacklist →
      Answer blacklist fields c stack globals (.insertChecked n) (returnFalse stack globals)
        { c with checked := k }
  | scan {n k} : ¬c.checked.Has n → c.checked.Adds n k → n ∉ blacklist →
      Answer blacklist fields c stack globals (.insertChecked n)
        (checkInterestingSttype n false stack globals (fields n)) { c with checked := k }
  | published {n} : c.interesting.Has n →
      Answer blacklist fields c stack globals (.insertInteresting n) (returnTrue stack globals) c
  | publish {n k} : ¬c.interesting.Has n → c.interesting.Adds n k →
      Answer blacklist fields c stack globals (.insertInteresting n) (returnTrue stack globals)
        { c with interesting := k }

theorem answer_of_step (blacklist : List Name) (fields : Name → List CType) (c : Caches)
    (stack : List Frame) (globals : List CType) (op : CacheOp) {state : State} {c' : Caches}
    (h : interestingStructType blacklist fields c stack globals op = (state, c')) :
    (state = .died ∧ c' = c) ∨ Answer blacklist fields c stack globals op state c' := by
  match op with
  | .containsInteresting n =>
    simp only [interestingStructType] at h
    rcases c.interesting.contains_cases n with ⟨hc, hn⟩ | ⟨hc, hn⟩ | ⟨hc, hn⟩
    · rw [hc] at h
      cases h
      exact .inl ⟨rfl, rfl⟩
    · rw [hc] at h
      cases h
      exact .inr (.known hn)
    · rw [hc] at h
      cases h
      exact .inr (.unknown hn)
  | .insertChecked n =>
    simp only [interestingStructType] at h
    rcases c.checked.notcontainsInsert_cases n with ⟨hc, hn⟩ | ⟨hc, hn⟩ | ⟨hc, hn⟩ | ⟨k,
      hc, hn, hadds⟩
    · rw [hc] at h
      cases h
      exact .inl ⟨rfl, rfl⟩
    · rw [hc] at h
      cases h
      exact .inr (.found hn)
    · rw [hc] at h
      cases h
      exact .inl ⟨rfl, rfl⟩
    · rw [hc] at h
      by_cases hblack : n ∈ blacklist
      · have hb : raiHardcodedBlacklistTypename blacklist n = true := by
          simp [raiHardcodedBlacklistTypename, hblack]
        simp only [hb, if_true] at h
        cases h
        exact .inr (.blacklisted hn hadds hblack)
      · have hb : ¬raiHardcodedBlacklistTypename blacklist n = true := by
          simp [raiHardcodedBlacklistTypename, hblack]
        simp only [hb] at h
        cases h
        exact .inr (.scan hn hadds hblack)
  | .insertInteresting n =>
    simp only [interestingStructType] at h
    rcases c.interesting.notcontainsInsert_cases
      n with ⟨hc, hn⟩ | ⟨hc, hn⟩ | ⟨hc, hn⟩ | ⟨k, hc, hn, hadds⟩
    · rw [hc] at h
      cases h
      exact .inl ⟨rfl, rfl⟩
    · rw [hc] at h
      cases h
      exact .inr (.published hn)
    · rw [hc] at h
      cases h
      exact .inl ⟨rfl, rfl⟩
    · rw [hc] at h
      cases h
      exact .inr (.publish hn hadds)

theorem returnFalse_eq (stack : List Frame) (globals : List CType) :
    returnFalse stack globals = nextGlobal globals := by
  induction stack with
  | nil => rfl
  | cons _ stack ih => exact ih

end Roafteriniter
