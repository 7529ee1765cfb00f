import Mathlib.Data.List.Dedup
import DevUtil.Roafteriniter.Stage1

/-!
# A process of stage 1 comes to an end

One process alone, from any caches.

    a step makes the names not yet checked fewer, or leaves less to do     (Answer.decreases)
    so after some number of steps it has finished or died                  (exec_stops)
    with room for all names in the caches it does not die                  (exec_alive)
-/

namespace Roafteriniter

open Lib Interleave

/-- `k` steps of one process. -/
def exec (blacklist : List Name) (u : TranslationUnit) (c : Caches) (k : Nat) : System :=
  play (Proc.next blacklist) (List.replicate k 0) (System.start c [u])

/-- `k + 1` steps are one step and `k` more. -/
theorem play_replicate_succ (blacklist : List Name) (k : Nat) (s : System) :
    play (Proc.next blacklist) (List.replicate (k + 1) 0) s =
      play (Proc.next blacklist) (List.replicate k 0) (play (Proc.next blacklist) [0] s) := by
  rw [List.replicate_succ, play, play]
  split
  · rw [play]
  · split <;> rw [play]

/-- One step, while the process runs. -/
theorem play_run (blacklist : List Name) (u : TranslationUnit) (c : Caches) (op : CacheOp)
    (stack : List Frame) (rest : List CType) {state' : State} {c' : Caches}
    (hanswer : interestingStructType blacklist u.fields c stack rest op = (state', c')) :
    play (Proc.next blacklist) [0] ⟨c, [⟨u, .run op stack rest⟩]⟩ = ⟨c', [⟨u, state'⟩]⟩ := by
  have hnext : Proc.next blacklist ⟨u, .run op stack rest⟩ c = some (op, ⟨u, state'⟩, c') :=
    Proc.next_run rfl hanswer
  rw [play]
  simp only [List.getElem?_cons_zero, hnext]
  rfl

theorem play_stopped (blacklist : List Name) (u : TranslationUnit) (c : Caches) {state : State}
    (h : state = .finished ∨ state = .died) :
    play (Proc.next blacklist) [0] ⟨c, [⟨u, state⟩]⟩ = ⟨c, [⟨u, state⟩]⟩ := by
  rcases h with rfl | rfl <;> rfl

/-- What holds at the start and is kept by every answer holds after any number of steps. -/
theorem exec_invariant {blacklist : List Name} {u : TranslationUnit} {c₀ : Caches}
    {J : State → Caches → Prop} (h₀ : J (nextGlobal u.globals) c₀)
    (hstep : ∀ op stack rest c state' c', J (.run op stack rest) c →
      interestingStructType blacklist u.fields c stack rest op = (state', c') → J state' c')
    (k : Nat) :
    ∃ state c, exec blacklist u c₀ k = ⟨c, [⟨u, state⟩]⟩ ∧ J state c := by
  have hrun : ∀ k state c, J state c → ∃ state' c',
      play (Proc.next blacklist) (List.replicate k 0) ⟨c, [⟨u, state⟩]⟩ = ⟨c', [⟨u, state'⟩]⟩ ∧
          J state' c' := by
    intro k
    induction k with
    | zero => exact fun state c h => ⟨state, c, rfl, h⟩
    | succ k ih =>
      intro state c h
      rw [play_replicate_succ]
      match state with
      | .finished =>
        rw [play_stopped blacklist u c (.inl rfl)]
        exact ih _ c h
      | .died =>
        rw [play_stopped blacklist u c (.inr rfl)]
        exact ih _ c h
      | .run op stack rest =>
        rw [play_run blacklist u c op stack rest rfl]
        exact ih _ _ (hstep op stack rest c _ _ h rfl)
  exact hrun k _ c₀ h₀

/-! ## Where a process goes on after an answer -/

/-- In the loops: not with the lookup in `checked`. -/
def State.Resumes : State → Prop
  | .finished => True
  | .died => False
  | .run (.insertChecked _) _ _ => False
  | .run _ _ _ => True

theorem nextGlobal_resumes (rest : List CType) : (nextGlobal rest).Resumes := by
  induction rest with
  | nil => trivial
  | cons t rest ih =>
    rw [nextGlobal]
    split
    · exact ih
    · trivial

theorem returnFalse_resumes (stack : List Frame) (rest : List CType) :
    (returnFalse stack rest).Resumes := by
  rw [returnFalse_eq]
  exact nextGlobal_resumes rest

theorem checkInterestingSttype_resumes (n : Name) (hasFields : Bool) (stack : List Frame)
    (rest members : List CType) :
    (checkInterestingSttype n hasFields stack rest members).Resumes := by
  induction members generalizing hasFields with
  | nil =>
    rw [checkInterestingSttype]
    split
    · trivial
    · exact returnFalse_resumes stack rest
  | cons t members ih =>
    rw [checkInterestingSttype]
    split
    · exact ih true
    · exact returnFalse_resumes stack rest
    · trivial

theorem returnTrue_resumes (stack : List Frame) (rest : List CType) :
    (returnTrue stack rest).Resumes := by
  match stack with
  | [] => exact nextGlobal_resumes rest
  | f :: stack => exact checkInterestingSttype_resumes _ _ _ _ _

/-! ## The names that can be asked about -/

/-- The name that a global or a member is asked about as. -/
def CType.asked : CType → Option Name
  | .pointer t => raiStructtypeStr t
  | t => raiStructtypeStr t

/-- All names that a compiler run can ask about. -/
def TranslationUnit.mentioned (u : TranslationUnit) : List Name :=
  (u.globals ++ u.types.flatMap Prod.snd).filterMap CType.asked

theorem asked_of_name {t : CType} {n : Name} (h : raiStructtypeStr t = some n) :
    t.asked = some n := by
  match t with
  | .record _ => exact h

theorem asked_of_ask {n m : Name} {t : CType} (h : checkMember n t = .ask m) :
    t.asked = some m := by
  rcases checkMember_ask h with hname | ⟨r, rfl, hname⟩
  · exact asked_of_name hname
  · exact hname

theorem mem_types_of_fields {u : TranslationUnit} {n : Name} {t : CType} (h : t ∈ u.fields n) :
    t ∈ u.types.flatMap Prod.snd := by
  unfold TranslationUnit.fields at h
  match hl : u.types.lookup n with
  | none =>
    rw [hl] at h
    exact (List.not_mem_nil h).elim
  | some ts =>
    rw [hl] at h
    obtain ⟨l₁, l₂, hu, -⟩ := List.lookup_eq_some_iff.mp hl
    exact List.mem_flatMap.mpr ⟨(n, ts), by rw [hu]; simp, h⟩

/-- A state speaks of what the unit mentions. -/
def State.Scoped (u : TranslationUnit) : State → Prop
  | .run op stack rest => op.name ∈ u.mentioned ∧
      (∀ f ∈ stack, f.typeName ∈ u.mentioned ∧ ∀ t ∈ f.rest, t ∈ u.types.flatMap Prod.snd) ∧
      ∀ t ∈ rest, t ∈ u.globals
  | .finished | .died => True

section

variable {u : TranslationUnit} {stack : List Frame} {rest : List CType}

theorem nextGlobal_scoped (hrest : ∀ t ∈ rest, t ∈ u.globals) : (nextGlobal rest).Scoped u := by
  induction rest with
  | nil => trivial
  | cons t rest ih =>
    have hrest' := fun s hs => hrest s (List.mem_cons_of_mem t hs)
    rw [nextGlobal]
    split
    · exact ih hrest'
    · next n hname =>
      have ht := List.mem_append_left (u.types.flatMap Prod.snd) (hrest t List.mem_cons_self)
      exact ⟨List.mem_filterMap.mpr ⟨t, ht, asked_of_name hname⟩,
        fun f hf => (List.not_mem_nil hf).elim, hrest'⟩

theorem returnFalse_scoped (hrest : ∀ t ∈ rest, t ∈ u.globals) :
    (returnFalse stack rest).Scoped u := by
  rw [returnFalse_eq]
  exact nextGlobal_scoped hrest

theorem checkInterestingSttype_scoped {n : Name} {hasFields : Bool} {members : List CType}
    (hn : n ∈ u.mentioned) (hmembers : ∀ t ∈ members, t ∈ u.types.flatMap Prod.snd)
    (hstack : ∀ f ∈ stack, f.typeName ∈ u.mentioned ∧ ∀ t ∈ f.rest, t ∈ u.types.flatMap Prod.snd)
    (hrest : ∀ t ∈ rest, t ∈ u.globals) :
    (checkInterestingSttype n hasFields stack rest members).Scoped u := by
  induction members generalizing hasFields with
  | nil =>
    rw [checkInterestingSttype]
    split
    · exact ⟨hn, hstack, hrest⟩
    · exact returnFalse_scoped hrest
  | cons t members ih =>
    have hmembers' := fun s hs => hmembers s (List.mem_cons_of_mem t hs)
    rw [checkInterestingSttype]
    split
    · exact ih hmembers'
    · exact returnFalse_scoped hrest
    · next m hask =>
      have ht := List.mem_append_right u.globals (hmembers t List.mem_cons_self)
      refine ⟨List.mem_filterMap.mpr ⟨t, ht, asked_of_ask hask⟩, ?_, hrest⟩
      intro f hf
      rcases List.mem_cons.mp hf with rfl | hf
      · exact ⟨hn, hmembers'⟩
      · exact hstack f hf

theorem returnTrue_scoped
    (hstack : ∀ f ∈ stack, f.typeName ∈ u.mentioned ∧ ∀ t ∈ f.rest, t ∈ u.types.flatMap Prod.snd)
    (hrest : ∀ t ∈ rest, t ∈ u.globals) : (returnTrue stack rest).Scoped u := by
  match stack with
  | [] => exact nextGlobal_scoped hrest
  | f :: stack =>
    obtain ⟨hn, hmembers⟩ := hstack f List.mem_cons_self
    exact checkInterestingSttype_scoped hn hmembers
      (fun g hg => hstack g (List.mem_cons_of_mem f hg)) hrest

theorem Answer.scoped {blacklist : List Name} {c c' : Caches} {op : CacheOp} {state' : State}
    (h : (State.run op stack rest).Scoped u)
    (ha : Answer blacklist u.fields c stack rest op state' c') :
    state'.Scoped u := by
  obtain ⟨hop, hstack, hrest⟩ := h
  cases ha with
  | known _ | published _ | publish _ _ => exact returnTrue_scoped hstack hrest
  | unknown _ => exact ⟨hop, hstack, hrest⟩
  | found _ | blacklisted _ _ _ => exact returnFalse_scoped hrest
  | scan _ _ _ =>
    exact checkInterestingSttype_scoped hop (fun t ht => mem_types_of_fields ht) hstack hrest

end

/-! ## Termination -/

def CacheOp.work : CacheOp → Nat
  | .containsInteresting _ => 3
  | .insertChecked _ => 2
  | .insertInteresting _ => 1

/-- What a process has still to do for the types that it has begun, at most. -/
def stackWork (stack : List Frame) : Nat := (stack.map fun f => 4 * f.rest.length + 2).sum

def State.work : State → Nat
  | .run op stack rest => op.work + stackWork stack + 4 * rest.length + 1
  | .finished | .died => 0

/-- The number of names not yet checked. -/
def missing (names : List Name) (c : Caches) : Nat :=
  names.countP fun n => !decide (c.checked.Has n)

theorem nextGlobal_work (rest : List CType) : (nextGlobal rest).work ≤ 4 * rest.length := by
  induction rest with
  | nil => exact Nat.le_refl 0
  | cons t rest ih =>
    rw [nextGlobal, List.length_cons]
    split
    · omega
    · show 3 + stackWork [] + 4 * rest.length + 1 ≤ _
      simp [stackWork]
      omega

theorem returnFalse_work (stack : List Frame) (rest : List CType) :
    (returnFalse stack rest).work ≤ 4 * rest.length := by
  rw [returnFalse_eq]
  exact nextGlobal_work rest

theorem checkInterestingSttype_work (n : Name) (hasFields : Bool) (stack : List Frame)
    (rest members : List CType) :
    (checkInterestingSttype n hasFields stack rest members).work ≤
      4 * members.length + 2 + stackWork stack + 4 * rest.length := by
  have hfalse := returnFalse_work stack rest
  induction members generalizing hasFields with
  | nil =>
    rw [checkInterestingSttype]
    split
    · show 1 + stackWork stack + 4 * rest.length + 1 ≤ _
      omega
    · omega
  | cons t members ih =>
    rw [checkInterestingSttype, List.length_cons]
    split
    · have := ih true
      omega
    · omega
    · next m _ =>
      show 3 + stackWork (⟨n, members⟩ :: stack) + 4 * rest.length + 1 ≤ _
      simp only [stackWork, List.map_cons, List.sum_cons]
      omega

theorem returnTrue_work (stack : List Frame) (rest : List CType) :
    (returnTrue stack rest).work ≤ stackWork stack + 4 * rest.length := by
  match stack with
  | [] =>
    have := nextGlobal_work rest
    simpa [returnTrue, stackWork] using this
  | f :: stack =>
    have := checkInterestingSttype_work f.typeName true stack rest f.rest
    simp only [returnTrue, stackWork, List.map_cons, List.sum_cons] at this ⊢
    omega

theorem missing_lt {names : List Name} {c c' : Caches} {n : Name} (hn : n ∈ names)
    (hnot : ¬c.checked.Has n) (hadds : c.checked.Adds n c'.checked) :
    missing names c' < missing names c := by
  unfold missing
  have hle : ∀ l : List Name, l.countP (fun m => !decide (c'.checked.Has m)) ≤
      l.countP fun m => !decide (c.checked.Has m) := by
    intro l
    apply List.countP_mono_left
    intro m _ hm
    simp only [Bool.not_eq_eq_eq_not, Bool.not_true, decide_eq_false_iff_not] at hm ⊢
    exact fun h => hm (hadds.has.mpr (.inl h))
  obtain ⟨l₁, l₂, rfl⟩ := List.append_of_mem hn
  have h₁ := hle l₁
  have h₂ := hle l₂
  have hnew : c'.checked.Has n := hadds.has.mpr (.inr rfl)
  simp only [List.countP_append, List.countP_cons, hnew, hnot]
  simp
  omega

/-- One answer makes the names not yet checked fewer, or leaves less to do. -/
theorem Answer.decreases {blacklist : List Name} {fields : Name → List CType} {names : List Name}
    {c c' : Caches} {op : CacheOp} {stack : List Frame} {rest : List CType} {state' : State}
    (hname : op.name ∈ names) (h : Answer blacklist fields c stack rest op state' c') :
    missing names c' < missing names c ∨
      (missing names c' = missing names c ∧ state'.work < (State.run op stack rest).work) := by
  have htrue := returnTrue_work stack rest
  have hfalse := returnFalse_work stack rest
  cases h with
  | known _ =>
    refine .inr ⟨rfl, ?_⟩
    show _ < 3 + stackWork stack + 4 * rest.length + 1
    omega
  | unknown _ =>
    refine .inr ⟨rfl, ?_⟩
    show 2 + stackWork stack + 4 * rest.length + 1 < 3 + stackWork stack + 4 * rest.length + 1
    omega
  | found _ =>
    refine .inr ⟨rfl, ?_⟩
    show _ < 2 + stackWork stack + 4 * rest.length + 1
    omega
  | published _ | publish _ _ =>
    refine .inr ⟨rfl, ?_⟩
    show _ < 1 + stackWork stack + 4 * rest.length + 1
    omega
  | blacklisted hn hadds _ => exact .inl (missing_lt hname hn hadds)
  | scan hn hadds _ => exact .inl (missing_lt hname hn hadds)

def State.Stopped (state : State) : Prop := state = .finished ∨ state = .died

theorem stops (blacklist : List Name) (u : TranslationUnit) (state : State) (c : Caches)
    (h : state.Scoped u) :
    ∃ k state' c', play (Proc.next blacklist) (List.replicate k 0) ⟨c, [⟨u, state⟩]⟩ =
      ⟨c', [⟨u, state'⟩]⟩ ∧
      state'.Stopped := by
  obtain ⟨m, hm⟩ : ∃ m, missing u.mentioned c = m := ⟨_, rfl⟩
  obtain ⟨w, hw⟩ : ∃ w, state.work = w := ⟨_, rfl⟩
  induction m using Nat.strongRecOn generalizing state c w with
  | ind m ihm =>
    induction w using Nat.strongRecOn generalizing state c with
    | ind w ihw =>
      match state with
      | .finished => exact ⟨0, _, c, rfl, .inl rfl⟩
      | .died => exact ⟨0, _, c, rfl, .inr rfl⟩
      | .run op stack rest =>
        obtain ⟨state', c', hanswer⟩ : ∃ st c',
          interestingStructType blacklist u.fields c stack rest op =
            (st, c') := ⟨_, _, rfl⟩
        obtain ⟨hscoped, hdecreases⟩ : state'.Scoped u ∧ (missing u.mentioned c' < m ∨
            (missing u.mentioned c' = m ∧ state'.work < w)) := by
          rw [← hm, ← hw]
          rcases answer_of_step _ _ _ _ _ _ hanswer with ⟨rfl, rfl⟩ | ha
          · exact ⟨trivial, .inr ⟨rfl, Nat.succ_pos _⟩⟩
          · exact ⟨ha.scoped h, ha.decreases h.1⟩
        obtain ⟨k, state'', c'', hplay, hstopped⟩ : ∃ k state'' c'',
            play (Proc.next blacklist) (List.replicate k 0) ⟨c', [⟨u, state'⟩]⟩ =
              ⟨c'', [⟨u, state''⟩]⟩ ∧
              state''.Stopped := by
          rcases hdecreases with hlt | ⟨heq, hlt⟩
          · exact ihm _ hlt state' c' hscoped rfl _ rfl
          · exact ihw _ hlt state' c' hscoped heq rfl
        refine ⟨k + 1, state'', c'', ?_, hstopped⟩
        rw [play_replicate_succ, play_run blacklist u c op stack rest hanswer]
        exact hplay

/-- A process alone comes to an end. -/
theorem exec_stops (blacklist : List Name) (u : TranslationUnit) (c : Caches) :
    ∃ k state c', exec blacklist u c k = ⟨c', [⟨u, state⟩]⟩ ∧ state.Stopped :=
  stops blacklist u _ c (nextGlobal_scoped fun _ ht => ht)

/-! ## Caches with room -/

/-- The cache has room for all of `names`, and a byte to spare. -/
def Room (names : List Name) (k : Contents) : Prop := used (names.dedup.map Name.str) < k.size

/-- The cache holds names of `names`, each once. -/
structure Within (names : List Name) (k : Contents) : Prop where
  nodup : k.items.Nodup
  mem : ∀ s ∈ k.items, ∃ n ∈ names, n.str = s

theorem used_le {names : List Name} {items : List CStr} (hnd : items.Nodup)
    (hmem : ∀ s ∈ items, ∃ n ∈ names, n.str = s) :
    used items ≤ used (names.dedup.map Name.str) := by
  have hsub : items ⊆ names.dedup.map Name.str := by
    intro s hs
    obtain ⟨n, hn, rfl⟩ := hmem s hs
    exact List.mem_map_of_mem (List.mem_dedup.mpr hn)
  exact used_le_of_subset hnd hsub

theorem Within.concat {names : List Name} {k : Contents} (h : Within names k) {n : Name}
    (hn : n ∈ names) (hnot : ¬k.Has n) :
    (k.items ++ [n.str]).Nodup ∧ ∀ s ∈ k.items ++ [n.str], ∃ m ∈ names, m.str = s := by
  constructor
  · rw [List.nodup_append]
    refine ⟨h.nodup, by simp, ?_⟩
    intro s hs t ht
    obtain rfl := List.mem_singleton.mp ht
    rintro rfl
    exact hnot hs
  · intro s hs
    rcases List.mem_append.mp hs with hs | hs
    · exact h.mem s hs
    · exact ⟨n, hn, (List.mem_singleton.mp hs).symm⟩

theorem Within.adds {names : List Name} {k k' : Contents} (h : Within names k) {n : Name}
    (hn : n ∈ names) (hnot : ¬k.Has n) (hadds : k.Adds n k') : Within names k' := by
  obtain ⟨hnodup, hmem⟩ := h.concat hn hnot
  rw [← hadds.2] at hnodup hmem
  exact ⟨hnodup, hmem⟩

theorem Within.not_full {names : List Name} {k : Contents} (h : Within names k)
    (hroom : Room names k) :
    ¬k.Full := by
  have := used_le h.nodup h.mem
  unfold Room at hroom
  unfold Contents.Full
  omega

theorem Within.fits {names : List Name} {k : Contents} (h : Within names k) (hroom : Room names k)
    {n : Name} (hn : n ∈ names) (hnot : ¬k.Has n) : used k.items + (n.str.length + 1) ≤ k.size := by
  obtain ⟨hnodup, hmem⟩ := h.concat hn hnot
  have := used_le hnodup hmem
  rw [Contents.used_concat] at this
  unfold Room at hroom
  omega

/-- With room, an insertion finds the name or adds it. -/
theorem Within.notcontainsInsert {names : List Name} {k : Contents} (h : Within names k)
    (hroom : Room names k) {n : Name} (hn : n ∈ names) :
    k.notcontainsInsert n.str = some (.containsSuccess, k) ∨
      ∃ k', k.notcontainsInsert n.str = some (.insertionSuccess, k') := by
  rcases k.notcontainsInsert_cases n with ⟨-, -, hfull⟩ | ⟨hc, -⟩ | ⟨-, hnot, hlong⟩ | ⟨k', hc, -⟩
  · exact absurd hfull (h.not_full hroom)
  · exact .inl hc
  · have := h.fits hroom hn hnot
    omega
  · exact .inr ⟨k', hc⟩

structure Spacious (names : List Name) (c : Caches) : Prop where
  interesting : Within names c.interesting
  checked : Within names c.checked
  roomInteresting : Room names c.interesting
  roomChecked : Room names c.checked

theorem spacious_empty {names : List Name} {mint mchk : Mapping}
    (hint : used (names.dedup.map Name.str) < mint.size)
    (hchk : used (names.dedup.map Name.str) < mchk.size) :
    Spacious names (.empty mint mchk) :=
  ⟨⟨List.nodup_nil, fun _ h => absurd h List.not_mem_nil⟩,
    ⟨List.nodup_nil, fun _ h => absurd h List.not_mem_nil⟩, hint, hchk⟩

theorem State.Resumes.alive {state : State} (h : state.Resumes) : state ≠ .died := by
  rintro rfl
  exact h

theorem Spacious.alive {names : List Name} {c : Caches} (h : Spacious names c)
    (blacklist : List Name) (fields : Name → List CType) (stack : List Frame) (rest : List CType)
    {op : CacheOp} (hop : op.name ∈ names) :
    (interestingStructType blacklist fields c stack rest op).1 ≠ .died := by
  have htrue := (returnTrue_resumes stack rest).alive
  match op, hop with
  | .containsInteresting n, hop =>
    have hop : n ∈ names := hop
    simp only [interestingStructType]
    rcases c.interesting.contains_cases n with ⟨-, -, hfull⟩ | ⟨hc, -⟩ | ⟨hc, -⟩
    · exact absurd hfull (h.interesting.not_full h.roomInteresting)
    · rw [hc]
      exact htrue
    · rw [hc]
      exact State.noConfusion
  | .insertChecked n, hop =>
    have hop : n ∈ names := hop
    simp only [interestingStructType]
    rcases h.checked.notcontainsInsert h.roomChecked hop with hc | ⟨k, hc⟩
    · rw [hc]
      exact (returnFalse_resumes stack rest).alive
    · rw [hc]
      dsimp only
      split
      · exact (returnFalse_resumes stack rest).alive
      · exact (checkInterestingSttype_resumes _ _ _ _ _).alive
  | .insertInteresting n, hop =>
    have hop : n ∈ names := hop
    simp only [interestingStructType]
    rcases h.interesting.notcontainsInsert h.roomInteresting hop with hc | ⟨k, hc⟩
    · rw [hc]
      exact htrue
    · rw [hc]
      exact htrue

theorem Spacious.answer {names : List Name} {c c' : Caches} (h : Spacious names c)
    {blacklist : List Name} {fields : Name → List CType} {stack : List Frame} {rest : List CType}
    {op : CacheOp} {state' : State} (hop : op.name ∈ names)
    (ha : Answer blacklist fields c stack rest op state' c') : Spacious names c' := by
  have hroom : ∀ {k k' : Contents} {n : Name}, Room names k → k.Adds n k' → Room names k' := by
    intro k k' n hk hadds
    unfold Room at hk ⊢
    rw [hadds.1]
    exact hk
  cases ha with
  | known _ | unknown _ | found _ | published _ => exact h
  | blacklisted hn hadds _ | scan hn hadds _ =>
    exact ⟨h.interesting, h.checked.adds hop hn hadds, h.roomInteresting, hroom h.roomChecked hadds⟩
  | publish hn hadds =>
    exact ⟨h.interesting.adds hop hn hadds, h.checked, hroom h.roomInteresting hadds, h.roomChecked⟩

/-- With room for the names that are asked about, a process does not die. -/
theorem exec_alive {blacklist : List Name} {u : TranslationUnit} {c₀ : Caches} {names : List Name}
    (hnames : ∀ n ∈ u.mentioned, n ∈ names) (hspace : Spacious names c₀) (k : Nat) :
    ∃ state c, exec blacklist u c₀ k = ⟨c, [⟨u, state⟩]⟩ ∧ state ≠ .died ∧ Spacious names c := by
  obtain ⟨state, c, hexec, -, halive, hspace⟩ := @exec_invariant blacklist u c₀
    (fun state c => state.Scoped u ∧ state ≠ .died ∧ Spacious names c)
    ⟨nextGlobal_scoped fun _ ht => ht, (nextGlobal_resumes u.globals).alive, hspace⟩ (by
      rintro op stack rest c state' c' ⟨hscoped, -, hspace⟩ hanswer
      have halive := hspace.alive blacklist u.fields stack rest (hnames _ hscoped.1)
      rw [hanswer] at halive
      rcases answer_of_step _ _ _ _ _ _ hanswer with ⟨hdied, -⟩ | ha
      · exact absurd hdied halive
      · exact ⟨ha.scoped hscoped, halive, hspace.answer (hnames _ hscoped.1) ha⟩) k
  exact ⟨state, c, hexec, halive, hspace⟩

end Roafteriniter
