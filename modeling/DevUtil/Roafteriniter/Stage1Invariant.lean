import DevUtil.Roafteriniter.Stage1

/-!
# What the caches of stage 1 hold

Processes that see the same struct definitions start from caches that are
`Ready`.  A name in `checked` is in progress at some process or settled; so when
all have finished, with the names `Passed` from the globals:

    checked     = checked at the start ∪ passed                         (Inv.checked_finished)
    interesting = interesting at the start ∪ (passed ∩ Interesting)     (Inv.interesting_finished)

The invariant needs each nested consultation that ends with "already checked" to
be about a type that is not in the fixpoint (`inv_step`).
-/

namespace Roafteriniter

open Lib Interleave

section

variable (blacklist : List Name) (fields : Name → List CType) (globals : List CType)

/-- The verdict on `n` is final: published if it is "interesting", and its members are checked. -/
def Settled (c : Caches) (n : Name) : Prop :=
  (Interesting blacklist fields n → c.interesting.Has n) ∧ ∀ m, Scans blacklist fields n m →
    c.checked.Has m

/-- What earlier runs left agrees with the fixpoint of the types that are seen now. -/
structure Ready (c : Caches) : Prop where
  checked : ∀ n, c.interesting.Has n → c.checked.Has n
  sound : ∀ n, Passed blacklist fields globals n → c.interesting.Has n →
    Interesting blacklist fields n
  settled : ∀ n, Passed blacklist fields globals n → c.checked.Has n → Settled blacklist fields c n

/-- The members of `n` before `rest` are fine and checked. -/
def ScannedTo (c : Caches) (n : Name) (rest : List CType) : Prop :=
  n ∉ blacklist ∧ Passed blacklist fields globals n ∧ c.checked.Has n ∧
    ∃ pre, fields n = pre ++ rest ∧
      ∀ t ∈ pre, Fine blacklist fields n t ∧ ∀ m, checkMember n t = .ask m → c.checked.Has m

/-- Each frame waits for the answer about the type name above it. -/
def StackOk (c : Caches) : Name → List Frame → Prop
  | _, [] => True
  | asked, f :: stack =>
    (∃ t, checkMember f.typeName t = .ask asked ∧
      ScannedTo blacklist fields globals c f.typeName (t :: f.rest)) ∧ StackOk c f.typeName stack

def OpOk (c : Caches) : CacheOp → Prop
  | .containsInteresting n | .insertChecked n => Passed blacklist fields globals n
  | .insertInteresting n =>
    Passed blacklist fields globals n ∧ Interesting blacklist fields n ∧ c.checked.Has n ∧
      ∀ m, Scans blacklist fields n m → c.checked.Has m

def StateOk (c : Caches) : State → Prop
  | .run op stack rest => OpOk blacklist fields globals c op ∧
      StackOk blacklist fields globals c op.name stack ∧ ∀ t ∈ rest, t ∈ globals
  | .finished | .died => True

end

/-- A process is about to give the verdict on `n`. One that died never does. -/
def State.Decides (n : Name) : State → Prop
  | .run op stack _ => op = .insertInteresting n ∨ ∃ f ∈ stack, f.typeName = n
  | .finished => False
  | .died => True

/-- A process has still to check the global type `n`. -/
def State.Awaits (n : Name) : State → Prop
  | .run op stack rest => (stack = [] ∧ (op = .containsInteresting n ∨ op = .insertChecked n)) ∨
      ∃ t ∈ rest, raiStructtypeStr t = some n
  | .finished => False
  | .died => True

/-- A cache has at least the names of another. -/
structure Caches.Le (c c' : Caches) : Prop where
  interesting : ∀ n, c.interesting.Has n → c'.interesting.Has n
  checked : ∀ n, c.checked.Has n → c'.checked.Has n

theorem Caches.Le.refl (c : Caches) : c.Le c := ⟨fun _ h => h, fun _ h => h⟩

section

variable {blacklist : List Name} {fields : Name → List CType} {globals : List CType}

theorem Settled.mono {c c' : Caches} (hle : c.Le c') {n : Name} (h : Settled blacklist fields c n) :
    Settled blacklist fields c' n :=
  ⟨fun hi => hle.interesting n (h.1 hi), fun m hm => hle.checked m (h.2 m hm)⟩

theorem ScannedTo.mono {c c' : Caches} (hle : c.Le c') {n : Name} {rest : List CType}
    (h : ScannedTo blacklist fields globals c n rest) :
    ScannedTo blacklist fields globals c' n rest := by
  obtain ⟨hblack, hpassed, hchecked, pre, hfields, hpre⟩ := h
  exact ⟨hblack, hpassed, hle.checked n hchecked, pre, hfields,
    fun t ht => ⟨(hpre t ht).1, fun m hm => hle.checked m ((hpre t ht).2 m hm)⟩⟩

theorem StackOk.mono {c c' : Caches} (hle : c.Le c') {stack : List Frame} {asked : Name}
    (h : StackOk blacklist fields globals c asked stack) :
    StackOk blacklist fields globals c' asked stack := by
  induction stack generalizing asked with
  | nil => trivial
  | cons f stack ih =>
    obtain ⟨⟨t, hask, hscan⟩, hstack⟩ := h
    exact ⟨⟨t, hask, hscan.mono hle⟩, ih hstack⟩

theorem StateOk.mono {c c' : Caches} (hle : c.Le c') {state : State}
    (h : StateOk blacklist fields globals c state) : StateOk blacklist fields globals c' state := by
  match state with
  | .finished | .died => trivial
  | .run op stack rest =>
    obtain ⟨hop, hstack, hrest⟩ := h
    refine ⟨?_, hstack.mono hle, hrest⟩
    match op with
    | .containsInteresting n | .insertChecked n => exact hop
    | .insertInteresting n =>
      obtain ⟨hpassed, hint, hchecked, hscans⟩ := hop
      exact ⟨hpassed, hint, hle.checked n hchecked, fun m hm => hle.checked m (hscans m hm)⟩

/-! ## The loop over the members -/

theorem ScannedTo.passed {c : Caches} {n m : Name} {t : CType} {rest : List CType}
    (h : ScannedTo blacklist fields globals c n (t :: rest)) (hask : checkMember n t = .ask m) :
    Passed blacklist fields globals m := by
  obtain ⟨hblack, hpassed, -, pre, hfields, hpre⟩ := h
  exact .member hpassed ⟨hblack, pre, t, rest, hfields, fun s hs => (hpre s hs).1, hask⟩

/-- A type is not interesting once the loop has come to a member that is not fine, and all
that it scans are the names asked about until then. -/
theorem ScannedTo.settled {c : Caches} {n : Name} {t : CType} {rest : List CType}
    (h : ScannedTo blacklist fields globals c n (t :: rest)) (ht : ¬Fine blacklist fields n t)
    (hchecked : ∀ m, checkMember n t = .ask m → c.checked.Has m) :
    ¬Interesting blacklist fields n ∧ Settled blacklist fields c n := by
  obtain ⟨hblack, hpassed, hn, pre, hfields, hpre⟩ := h
  have hnot : ¬Interesting blacklist fields n := fun hi => ht (hi.fine (by rw [hfields]; simp))
  refine ⟨hnot, fun hi => absurd hi hnot, ?_⟩
  rintro m ⟨-, pre', t', post', hfields', hpre', hask⟩
  -- the member that is asked about is `t` or stands before it
  have hmem : t' ∈ pre ++ [t] := by
    by_contra hout
    rw [hfields] at hfields'
    rcases List.append_eq_append_iff.mp hfields' with ⟨mid, hmid, hrest⟩ | ⟨mid, hmid, hrest⟩
    · match mid, hrest with
      | [], hrest =>
        obtain ⟨rfl, -⟩ := List.cons.inj hrest
        exact hout (by simp)
      | s :: mid, hrest =>
        obtain ⟨rfl, -⟩ := List.cons.inj hrest
        exact ht (hpre' t (by rw [hmid]; simp))
    · match mid, hrest with
      | [], hrest =>
        obtain ⟨rfl, -⟩ := List.cons.inj hrest
        exact hout (by simp)
      | s :: mid, hrest =>
        obtain ⟨rfl, -⟩ := List.cons.inj hrest
        exact hout (by rw [hmid]; simp)
  rcases List.mem_append.mp hmem with hmem | hmem
  · exact (hpre t' hmem).2 m hask
  · obtain rfl := List.mem_singleton.mp hmem
    exact hchecked m hask

/-- The answer "no" settles every type on the stack. -/
theorem StackOk.settled {c : Caches} {stack : List Frame} {asked : Name}
    (h : StackOk blacklist fields globals c asked stack)
    (hnot : ¬Interesting blacklist fields asked) (hchecked : c.checked.Has asked) {f : Frame}
    (hf : f ∈ stack) : Settled blacklist fields c f.typeName := by
  induction stack generalizing asked with
  | nil => cases hf
  | cons g stack ih =>
    obtain ⟨⟨t, hask, hscan⟩, hstack⟩ := h
    have hfine : ¬Fine blacklist fields g.typeName t := by
      rintro (hskip | ⟨m, hm, hi⟩)
      · rw [hask] at hskip
        cases hskip
      · rw [hask] at hm
        cases hm
        exact hnot hi
    obtain ⟨hg, hsettled⟩ := hscan.settled hfine fun m hm => by
      rw [hask] at hm
      cases hm
      exact hchecked
    rcases List.mem_cons.mp hf with rfl | hf
    · exact hsettled
    · exact ih hstack hg hscan.2.2.1 hf

/-- A state that a process goes on with: what was in progress still is, or is settled. -/
structure GoesOn (blacklist : List Name) (fields : Name → List CType) (globals : List CType)
    (c : Caches) (names : Name → Prop) (rest : List CType) (state : State) : Prop where
  ok : StateOk blacklist fields globals c state
  decides : ∀ n, names n → state.Decides n ∨ Settled blacklist fields c n
  awaits : ∀ n, (∃ t ∈ rest, raiStructtypeStr t = some n) → state.Awaits n

theorem nextGlobal_goesOn {c : Caches} {names : Name → Prop} {rest : List CType}
    (hrest : ∀ t ∈ rest, t ∈ globals) (hnames : ∀ n, names n → Settled blacklist fields c n) :
    GoesOn blacklist fields globals c names rest (nextGlobal rest) := by
  have hdecides : ∀ n, names n → (nextGlobal rest).Decides n ∨ Settled blacklist fields c n :=
    fun n hn => .inr (hnames n hn)
  induction rest with
  | nil => exact ⟨trivial, hdecides, fun n ⟨t, ht, _⟩ => nomatch ht⟩
  | cons t rest ih =>
    rw [nextGlobal] at hdecides ⊢
    have ht := hrest t List.mem_cons_self
    have hrest := fun s hs => hrest s (List.mem_cons_of_mem t hs)
    split at hdecides
    · next hname =>
      obtain ⟨hok, -, hawaits⟩ := ih hrest (fun n hn => .inr (hnames n hn))
      refine ⟨hok, hdecides, ?_⟩
      rintro n ⟨s, hs, hn⟩
      rcases List.mem_cons.mp hs with rfl | hs
      · rw [hname] at hn
        cases hn
      · exact hawaits n ⟨s, hs, hn⟩
    · next m hname =>
      refine ⟨⟨.global ht hname, trivial, hrest⟩, hdecides, ?_⟩
      rintro n ⟨s, hs, hn⟩
      rcases List.mem_cons.mp hs with rfl | hs
      · rw [hname] at hn
        cases hn
        exact .inl ⟨rfl, .inl rfl⟩
      · exact .inr ⟨s, hs, hn⟩

/-- The loop over the rest of the members of `n`. -/
theorem checkInterestingSttype_goesOn (hasFields : Bool) {c : Caches} {n : Name}
    {stack : List Frame} {rest members : List CType}
    (hscan : ScannedTo blacklist fields globals c n members)
    (hhas : hasFields = true → fields n ≠ []) (hno : hasFields = false → members = fields n)
    (hstack : StackOk blacklist fields globals c n stack) (hrest : ∀ t ∈ rest, t ∈ globals) :
    GoesOn blacklist fields globals c (fun m => m = n ∨ ∃ f ∈ stack, f.typeName = m) rest
      (checkInterestingSttype n hasFields stack rest members) := by
  -- the answer "no" for `n`
  have hfalse : ¬Interesting blacklist fields n → Settled blacklist fields c n →
      GoesOn blacklist fields globals c (fun m => m = n ∨ ∃ f ∈ stack, f.typeName = m) rest
        (returnFalse stack rest) := by
    intro hnot hsettled
    rw [returnFalse_eq]
    apply nextGlobal_goesOn hrest
    rintro m (rfl | ⟨f, hf, rfl⟩)
    · exact hsettled
    · exact hstack.settled hnot hscan.2.2.1 hf
  induction members generalizing hasFields with
  | nil =>
    obtain ⟨hblack, hpassed, hn, pre, hfields, hpre⟩ := hscan
    rw [List.append_nil] at hfields
    have hscans : ∀ m, Scans blacklist fields n m → c.checked.Has m := by
      rintro m ⟨-, pre', t, post, hf, -, hask⟩
      exact (hpre t (by rw [← hfields, hf]; simp)).2 m hask
    rw [checkInterestingSttype]
    by_cases hh : hasFields = true
    · rw [if_pos hh]
      have hint : Interesting blacklist fields n :=
        interesting_iff.mpr ⟨hblack, hhas hh, fun t ht => (hpre t (hfields ▸ ht)).1⟩
      refine ⟨⟨⟨hpassed, hint, hn, hscans⟩, hstack, hrest⟩, ?_, fun m hm => .inr hm⟩
      rintro m (rfl | hm)
      · exact .inl (.inl rfl)
      · exact .inl (.inr hm)
    · rw [if_neg hh]
      have hnil : fields n = [] := (hno (by simpa using hh)).symm
      have hnot : ¬Interesting blacklist fields n := fun hi => hi.hasFields hnil
      exact hfalse hnot ⟨fun hi => absurd hi hnot, hscans⟩
  | cons t members ih =>
    have hne : fields n ≠ [] := by
      obtain ⟨-, -, -, pre, hfields, -⟩ := hscan
      rw [hfields]
      simp
    rw [checkInterestingSttype]
    split
    · next hskip =>
      refine ih true ?_ (fun _ => hne) (fun h => nomatch h)
      obtain ⟨hblack, hpassed, hn, pre, hfields, hpre⟩ := hscan
      refine ⟨hblack, hpassed, hn, pre ++ [t], by simp [hfields], ?_⟩
      intro s hs
      rcases List.mem_append.mp hs with hs | hs
      · exact hpre s hs
      · obtain rfl := List.mem_singleton.mp hs
        refine ⟨.inl hskip, fun m hm => ?_⟩
        rw [hskip] at hm
        cases hm
    · next hbad =>
      have hfine : ¬Fine blacklist fields n t := by
        rintro (h | ⟨m, h, -⟩) <;> · rw [hbad] at h; cases h
      obtain ⟨hnot, hsettled⟩ := hscan.settled hfine fun m hm => by
        rw [hbad] at hm
        cases hm
      exact hfalse hnot hsettled
    · next m hask =>
      refine ⟨⟨hscan.passed hask, ⟨⟨t, hask, hscan⟩, hstack⟩, hrest⟩, ?_, fun k hk => .inr hk⟩
      rintro k (rfl | ⟨f, hf, hk⟩)
      · exact .inl (.inr ⟨_, List.mem_cons_self, rfl⟩)
      · exact .inl (.inr ⟨f, List.mem_cons_of_mem _ hf, hk⟩)

/-- The answer "yes" about `asked`. -/
theorem returnTrue_goesOn {c : Caches} {asked : Name} {stack : List Frame} {rest : List CType}
    (hint : Interesting blacklist fields asked) (hchecked : c.checked.Has asked)
    (hstack : StackOk blacklist fields globals c asked stack) (hrest : ∀ t ∈ rest, t ∈ globals) :
    GoesOn blacklist fields globals c (fun m => ∃ f ∈ stack, f.typeName = m) rest
      (returnTrue stack rest) := by
  match stack with
  | [] => exact nextGlobal_goesOn hrest fun n ⟨f, hf, _⟩ => nomatch hf
  | f :: stack =>
    obtain ⟨⟨t, hask, hblack, hpassed, hn, pre, hfields, hpre⟩, hstack⟩ := hstack
    have hscan : ScannedTo blacklist fields globals c f.typeName f.rest := by
      refine ⟨hblack, hpassed, hn, pre ++ [t], by simp [hfields], ?_⟩
      intro s hs
      rcases List.mem_append.mp hs with hs | hs
      · exact hpre s hs
      · obtain rfl := List.mem_singleton.mp hs
        refine ⟨.inr ⟨asked, hask, hint⟩, fun m hm => ?_⟩
        rw [hask] at hm
        cases hm
        exact hchecked
    obtain ⟨hok, hdecides, hawaits⟩ := checkInterestingSttype_goesOn true hscan
      (fun _ => by rw [hfields]; simp) (fun h => nomatch h) hstack hrest
    refine ⟨hok, ?_, hawaits⟩
    rintro n ⟨g, hg, rfl⟩
    rcases List.mem_cons.mp hg with rfl | hg
    · exact hdecides _ (.inl rfl)
    · exact hdecides _ (.inr ⟨g, hg, rfl⟩)

/-- The answer "no" about `asked`. -/
theorem returnFalse_goesOn {c : Caches} {asked : Name} {stack : List Frame} {rest : List CType}
    (hnot : stack ≠ [] → ¬Interesting blacklist fields asked) (hchecked : c.checked.Has asked)
    (hstack : StackOk blacklist fields globals c asked stack) (hrest : ∀ t ∈ rest, t ∈ globals) :
    GoesOn blacklist fields globals c (fun m => ∃ f ∈ stack, f.typeName = m) rest
      (returnFalse stack rest) := by
  rw [returnFalse_eq]
  apply nextGlobal_goesOn hrest
  rintro n ⟨f, hf, rfl⟩
  exact hstack.settled (hnot (List.ne_nil_of_mem hf)) hchecked hf

/-! ## The invariant -/

structure Inv (blacklist : List Name) (fields : Name → List CType) (globals : List CType)
    (c₀ : Caches) (s : System) : Prop where
  le : c₀.Le s.shared
  checked : ∀ n, s.shared.checked.Has n → c₀.checked.Has n ∨ Passed blacklist fields globals n
  interesting : ∀ n, s.shared.interesting.Has n →
    c₀.interesting.Has n ∨ (Passed blacklist fields globals n ∧ Interesting blacklist fields n)
  published : ∀ n, s.shared.interesting.Has n → s.shared.checked.Has n
  procs : ∀ p ∈ s.procs, p.unit.fields = fields ∧ StateOk blacklist fields globals s.shared p.state
  decided : ∀ n, Passed blacklist fields globals n → s.shared.checked.Has n →
    Settled blacklist fields s.shared n ∨ ∃ p ∈ s.procs, p.state.Decides n
  awaited : ∀ t ∈ globals, ∀ n, raiStructtypeStr t = some n →
    s.shared.checked.Has n ∨ ∃ p ∈ s.procs, p.state.Awaits n

/-- What a step of one process does for the invariant. -/
structure Progress (blacklist : List Name) (fields : Name → List CType) (globals : List CType)
    (c c' : Caches) (state state' : State) : Prop where
  le : c.Le c'
  checked : ∀ n, c'.checked.Has n → c.checked.Has n ∨
    (Passed blacklist fields globals n ∧ (Settled blacklist fields c' n ∨ state'.Decides n))
  interesting : ∀ n, c'.interesting.Has n → c.interesting.Has n ∨
    (Passed blacklist fields globals n ∧ Interesting blacklist fields n ∧ c'.checked.Has n)
  ok : StateOk blacklist fields globals c' state'
  decides : ∀ n, state.Decides n → state'.Decides n ∨ Settled blacklist fields c' n
  awaits : ∀ n, state.Awaits n → c'.checked.Has n ∨ state'.Awaits n

theorem Inv.set {c₀ : Caches} {s : System} (h : Inv blacklist fields globals c₀ s) {i : Nat}
    {p : Proc} (hp : s.procs[i]? = some p) {c' : Caches} {state' : State}
    (hprog : Progress blacklist fields globals s.shared c' p.state state') :
    Inv blacklist fields globals c₀ ⟨c', s.procs.set i { p with state := state' }⟩ := by
  have hlt : i < s.procs.length := (List.getElem?_eq_some_iff.mp hp).1
  have hpmem : p ∈ s.procs := List.mem_of_getElem? hp
  have hnew : { p with state := state' } ∈ s.procs.set i { p with state := state' } :=
    List.mem_set hlt _
  -- what another process does, it still does
  have hstays : ∀ q ∈ s.procs, q = p ∨ q ∈ s.procs.set i { p with state := state' } := by
    intro q hq
    obtain ⟨j, hj⟩ := List.getElem?_of_mem hq
    by_cases hij : i = j
    · subst hij
      rw [hp] at hj
      exact .inl (Option.some.inj hj).symm
    · refine .inr (List.mem_of_getElem? (i := j) ?_)
      rw [List.getElem?_set_ne hij]
      exact hj
  constructor
  · exact ⟨fun n hn => hprog.le.interesting n (h.le.interesting n hn),
      fun n hn => hprog.le.checked n (h.le.checked n hn)⟩
  · intro n hn
    rcases hprog.checked n hn with hn | hn
    · exact h.checked n hn
    · exact .inr hn.1
  · intro n hn
    rcases hprog.interesting n hn with hn | hn
    · exact h.interesting n hn
    · exact .inr ⟨hn.1, hn.2.1⟩
  · intro n hn
    rcases hprog.interesting n hn with hn | hn
    · exact hprog.le.checked n (h.published n hn)
    · exact hn.2.2
  · intro q hq
    rcases List.mem_or_eq_of_mem_set hq with hq | rfl
    · exact ⟨(h.procs q hq).1, (h.procs q hq).2.mono hprog.le⟩
    · exact ⟨(h.procs p hpmem).1, hprog.ok⟩
  · intro n hpassed hn
    rcases hprog.checked n hn with hn | ⟨-, hn⟩
    · rcases h.decided n hpassed hn with hs | ⟨q, hq, hd⟩
      · exact .inl (hs.mono hprog.le)
      · rcases hstays q hq with rfl | hq
        · rcases hprog.decides n hd with hd | hs
          · exact .inr ⟨_, hnew, hd⟩
          · exact .inl hs
        · exact .inr ⟨q, hq, hd⟩
    · rcases hn with hs | hd
      · exact .inl hs
      · exact .inr ⟨_, hnew, hd⟩
  · intro t ht n hname
    rcases h.awaited t ht n hname with hn | ⟨q, hq, ha⟩
    · exact .inl (hprog.le.checked n hn)
    · rcases hstays q hq with rfl | hq
      · rcases hprog.awaits n ha with hn | ha
        · exact .inl hn
        · exact .inr ⟨_, hnew, ha⟩
      · exact .inr ⟨q, hq, ha⟩

/-- The names on a stack are the ones that a process decides, unless it is about to publish one. -/
theorem State.decides_run {op : CacheOp} {stack : List Frame} {rest : List CType} {n : Name}
    (h : (State.run op stack rest).Decides n) (hop : ∀ m, op ≠ .insertInteresting m) :
    ∃ f ∈ stack, f.typeName = n := by
  rcases h with h | h
  · exact absurd h (hop n)
  · exact h

theorem progress_of_answer {c c' : Caches} {op : CacheOp} {stack : List Frame} {rest : List CType}
    {state' : State} (hok : StateOk blacklist fields globals c (.run op stack rest))
    (hpub : ∀ n, c.interesting.Has n → c.checked.Has n)
    (hsound : ∀ n, Passed blacklist fields globals n → c.interesting.Has n →
      Interesting blacklist fields n)
    (hnested : ∀ n, op = .insertChecked n → stack ≠ [] → c.checked.Has n →
      ¬Interesting blacklist fields n)
    (ha : Answer blacklist fields c stack rest op state' c') :
    Progress blacklist fields globals c c' (.run op stack rest) state' := by
  obtain ⟨hop, hstack, hrest⟩ := hok
  cases ha with
  | @known n hn =>
    obtain ⟨hok, hdecides, hawaits⟩ := returnTrue_goesOn (hsound n hop hn) (hpub n hn) hstack hrest
    refine ⟨.refl c, fun m hm => .inl hm, fun m hm => .inl hm, hok, ?_, ?_⟩
    · exact fun m hm => hdecides m (State.decides_run hm fun _ => nofun)
    · rintro m (⟨rfl, h | h⟩ | h)
      · cases h
        exact .inl (hpub n hn)
      · cases h
      · exact .inr (hawaits m h)
  | @unknown n hn =>
    refine ⟨.refl c, fun m hm => .inl hm, fun m hm => .inl hm, ⟨hop, hstack, hrest⟩, ?_, ?_⟩
    · exact fun m hm => .inl (.inr (State.decides_run hm fun _ => nofun))
    · rintro m (⟨rfl, h | h⟩ | h)
      · cases h
        exact .inr (.inl ⟨rfl, .inr rfl⟩)
      · cases h
      · exact .inr (.inr h)
  | @found n hn =>
    obtain ⟨hok, hdecides, hawaits⟩ :=
      returnFalse_goesOn (fun hne => hnested n rfl hne hn) hn hstack hrest
    refine ⟨.refl c, fun m hm => .inl hm, fun m hm => .inl hm, hok, ?_, ?_⟩
    · exact fun m hm => hdecides m (State.decides_run hm fun _ => nofun)
    · rintro m (⟨rfl, h | h⟩ | h)
      · cases h
      · cases h
        exact .inl hn
      · exact .inr (hawaits m h)
  | @blacklisted n k hn hadds hblack =>
    have hle : c.Le { c with checked := k } := ⟨fun _ h => h, fun m hm => hadds.has.mpr (.inl hm)⟩
    have hn' : Contents.Has k n := hadds.has.mpr (.inr rfl)
    have hnot : ¬Interesting blacklist fields n := fun hi => hi.notBlacklisted hblack
    have hsettled : Settled blacklist fields { c with checked := k } n :=
      ⟨fun hi => absurd hi hnot, fun m hm => absurd hblack hm.1⟩
    obtain ⟨hok, hdecides, hawaits⟩ :=
      returnFalse_goesOn (fun _ => hnot) hn' (hstack.mono hle) hrest
    refine ⟨hle, ?_, fun m hm => .inl hm, hok, ?_, ?_⟩
    · intro m hm
      rcases hadds.has.mp hm with hm | rfl
      · exact .inl hm
      · exact .inr ⟨hop, .inl hsettled⟩
    · exact fun m hm => hdecides m (State.decides_run hm fun _ => nofun)
    · rintro m (⟨rfl, h | h⟩ | h)
      · cases h
      · cases h
        exact .inl hn'
      · exact .inr (hawaits m h)
  | @scan n k hn hadds hblack =>
    have hle : c.Le { c with checked := k } := ⟨fun _ h => h, fun m hm => hadds.has.mpr (.inl hm)⟩
    have hn' : Contents.Has k n := hadds.has.mpr (.inr rfl)
    have hscan : ScannedTo blacklist fields globals { c with checked := k } n (fields n) :=
      ⟨hblack, hop, hn', [], rfl, fun t ht => nomatch ht⟩
    obtain ⟨hok, hdecides, hawaits⟩ := checkInterestingSttype_goesOn false hscan
      (fun h => nomatch h) (fun _ => rfl) (hstack.mono hle) hrest
    refine ⟨hle, ?_, fun m hm => .inl hm, hok, ?_, ?_⟩
    · intro m hm
      rcases hadds.has.mp hm with hm | rfl
      · exact .inl hm
      · exact .inr ⟨hop, (hdecides m (.inl rfl)).symm⟩
    · exact fun m hm => hdecides m (.inr (State.decides_run hm fun _ => nofun))
    · rintro m (⟨rfl, h | h⟩ | h)
      · cases h
      · cases h
        exact .inl hn'
      · exact .inr (hawaits m h)
  | @published n hn =>
    obtain ⟨hpassed, hint, hchecked, hscans⟩ := hop
    obtain ⟨hok, hdecides, hawaits⟩ := returnTrue_goesOn hint hchecked hstack hrest
    refine ⟨.refl c, fun m hm => .inl hm, fun m hm => .inl hm, hok, ?_, ?_⟩
    · rintro m (h | h)
      · cases h
        exact .inr ⟨fun _ => hn, hscans⟩
      · exact hdecides m h
    · rintro m (⟨rfl, h | h⟩ | h)
      · cases h
      · cases h
      · exact .inr (hawaits m h)
  | @publish n k hn hadds =>
    obtain ⟨hpassed, hint, hchecked, hscans⟩ := hop
    have hle : c.Le { c with interesting := k } :=
      ⟨fun m hm => hadds.has.mpr (.inl hm), fun _ h => h⟩
    obtain ⟨hok, hdecides, hawaits⟩ :=
      returnTrue_goesOn (c := { c with interesting := k }) hint hchecked
      (hstack.mono hle) hrest
    refine ⟨hle, fun m hm => .inl hm, ?_, hok, ?_, ?_⟩
    · intro m hm
      rcases hadds.has.mp hm with hm | rfl
      · exact .inl hm
      · exact .inr ⟨hpassed, hint, hchecked⟩
    · rintro m (h | h)
      · cases h
        exact .inr ⟨fun _ => hadds.has.mpr (.inr rfl), hscans⟩
      · exact hdecides m h
    · rintro m (⟨rfl, h | h⟩ | h)
      · cases h
      · cases h
      · exact .inr (hawaits m h)

/-- A nested consultation that ends with "already checked" is about a type that is not
interesting. -/
def NestedNo (blacklist : List Name) (fields : Name → List CType) (s : System) (i : Nat)
    (op : CacheOp) : Prop :=
  ∀ p stack rest n, s.procs[i]? = some p → p.state = .run op stack rest → op = .insertChecked n →
    stack ≠ [] → s.shared.checked.Has n → ¬Interesting blacklist fields n

/-- Interesting types among those passed. -/
theorem Inv.sound {c₀ : Caches} (hready : Ready blacklist fields globals c₀) {s : System}
    (h : Inv blacklist fields globals c₀ s) {n : Name} (hpassed : Passed blacklist fields globals n)
    (hn : s.shared.interesting.Has n) : Interesting blacklist fields n := by
  rcases h.interesting n hn with h | h
  · exact hready.sound n hpassed h
  · exact h.2

theorem inv_step {c₀ : Caches} (hready : Ready blacklist fields globals c₀) {s s' : System}
    {i : Nat} {op : CacheOp} (h : Inv blacklist fields globals c₀ s)
    (hnested : NestedNo blacklist fields s i op) (hstep : Step (Moves blacklist) s i op s') :
    Inv blacklist fields globals c₀ s' := by
  cases hstep with
  | @mk p p' _ c' hp hmoves =>
    have hpmem : p ∈ s.procs := List.mem_of_getElem? hp
    obtain ⟨hfields, hok⟩ := h.procs p hpmem
    unfold Moves Proc.next at hmoves
    split at hmoves
    · next op' stack rest hstate =>
      obtain ⟨state', c'', hanswer⟩ : ∃ st c,
        interestingStructType blacklist p.unit.fields s.shared stack rest op' =
          (st, c) := ⟨_, _, rfl⟩
      rw [hanswer] at hmoves
      cases hmoves
      rw [hstate] at hok
      apply h.set hp
      rw [hstate]
      rcases answer_of_step _ _ _ _ _ _ hanswer with ⟨rfl, rfl⟩ | hanswer
      · exact ⟨.refl _, fun n hn => .inl hn, fun n hn => .inl hn, trivial, fun _ _ => .inl trivial,
          fun _ _ => .inr trivial⟩
      · rw [hfields] at hanswer
        exact progress_of_answer hok h.published (fun n hp hn => h.sound hready hp hn)
          (fun n hop hne hn => hnested p stack rest n hp hstate hop hne hn) hanswer
    · cases hmoves
    · cases hmoves

/-! ## When all processes have finished -/

theorem Inv.checked_of_passed {c₀ : Caches} {s : System} (h : Inv blacklist fields globals c₀ s)
    (hfin : System.finished s) {n : Name} (hn : Passed blacklist fields globals n) :
    s.shared.checked.Has n ∧ Settled blacklist fields s.shared n := by
  have hsettled : ∀ m, Passed blacklist fields globals m → s.shared.checked.Has m →
      Settled blacklist fields s.shared m := by
    intro m hm hc
    rcases h.decided m hm hc with hs | ⟨p, hp, hd⟩
    · exact hs
    · rw [hfin p hp] at hd
      exact hd.elim
  induction hn with
  | @global t n ht hname =>
    have hn : s.shared.checked.Has n := by
      rcases h.awaited t ht n hname with hn | ⟨p, hp, ha⟩
      · exact hn
      · rw [hfin p hp] at ha
        exact ha.elim
    exact ⟨hn, hsettled n (.global ht hname) hn⟩
  | @member n m hpassed hscans ih =>
    have hm := ih.2.2 m hscans
    exact ⟨hm, hsettled m (.member hpassed hscans) hm⟩

theorem Inv.checked_finished {c₀ : Caches} {s : System} (h : Inv blacklist fields globals c₀ s)
    (hfin : System.finished s) (n : Name) :
    s.shared.checked.Has n ↔ c₀.checked.Has n ∨ Passed blacklist fields globals n := by
  constructor
  · exact h.checked n
  · rintro (hn | hn)
    · exact h.le.checked n hn
    · exact (h.checked_of_passed hfin hn).1

theorem Inv.interesting_finished {c₀ : Caches} {s : System} (h : Inv blacklist fields globals c₀ s)
    (hfin : System.finished s) (n : Name) :
    s.shared.interesting.Has n ↔
      c₀.interesting.Has n ∨
        (Passed blacklist fields globals n ∧ Interesting blacklist fields n) := by
  constructor
  · exact h.interesting n
  · rintro (hn | ⟨hn, hi⟩)
    · exact h.le.interesting n hn
    · exact (h.checked_of_passed hfin hn).2.1 hi

/-! ## The start -/

theorem inv_start {c₀ : Caches} (hready : Ready blacklist fields globals c₀)
    {units : List TranslationUnit} (hfields : ∀ u ∈ units, u.fields = fields)
    (hglobals : ∀ t, t ∈ globals ↔ ∃ u ∈ units, t ∈ u.globals) :
    Inv blacklist fields globals c₀ (.start c₀ units) := by
  have hgoes : ∀ u ∈ units,
      GoesOn blacklist fields globals c₀ (fun _ => False) u.globals (nextGlobal u.globals) :=
    fun u hu => nextGlobal_goesOn (fun t ht => (hglobals t).mpr ⟨u, hu, ht⟩) (fun _ h => h.elim)
  constructor
  · exact .refl c₀
  · exact fun n hn => .inl hn
  · exact fun n hn => .inl hn
  · exact hready.checked
  · intro p hp
    obtain ⟨u, hu, rfl⟩ := List.mem_map.mp hp
    exact ⟨hfields u hu, (hgoes u hu).ok⟩
  · exact fun n hpassed hn => .inl (hready.settled n hpassed hn)
  · intro t ht n hname
    obtain ⟨u, hu, htu⟩ := (hglobals t).mp ht
    exact .inr ⟨_, List.mem_map_of_mem hu, (hgoes u hu).awaits n ⟨t, htu, hname⟩⟩

theorem ready_empty (mint mchk : Mapping) : Ready blacklist fields globals (.empty mint mchk) :=
  ⟨fun _ h => absurd h List.not_mem_nil, fun _ _ h => absurd h List.not_mem_nil,
    fun _ _ h => absurd h List.not_mem_nil⟩

end

end Roafteriniter
