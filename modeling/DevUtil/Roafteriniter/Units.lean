import DevUtil.Roafteriniter.OneProcess

/-!
# Stage 1 over several translation units

Units compiled one after the other with the same cache files.  What a unit decides
about a name is decided for all later ones, with the fields that this unit shows.

    units agree on what they pass → every order leaves the same
      types                                                           (orderIndependent_of_agree)
    every order leaves the same types → units agree on the
      verdicts                                                        (verdicts_of_orderIndependent)
-/

namespace Roafteriniter

open Lib Interleave

/-- The units compiled in order, each to its end, from the caches `c` to the caches `c'`. -/
inductive Compiled (blacklist : List Name) : List TranslationUnit → Caches → Caches → Prop
  | nil {c} : Compiled blacklist [] c c
  | cons {u us c k c'} : (exec blacklist u c k).finished →
      Compiled blacklist us (exec blacklist u c k).shared c' →
      Compiled blacklist (u :: us) c c'

/-- The interesting types are the same for every order of the units. -/
def OrderIndependent (blacklist : List Name) (units : List TranslationUnit) (c : Caches) : Prop :=
  ∀ us us' : List TranslationUnit, us.Perm units → us'.Perm units →
    ∀ c₁ c₂, Compiled blacklist us c c₁ →
    Compiled blacklist us' c c₂ → ∀ n, c₁.interesting.Has n ↔ c₂.interesting.Has n

/-- A unit on its own comes to ask about `n`. -/
abbrev TranslationUnit.Passes (blacklist : List Name) (u : TranslationUnit) (n : Name) : Prop :=
  Passed blacklist u.fields u.globals n

/-- Two units that both pass a name see the same verdict on it and ask about the same members. -/
def Agree (blacklist : List Name) (units : List TranslationUnit) : Prop :=
  ∀ u ∈ units, ∀ v ∈ units, ∀ n, u.Passes blacklist n → v.Passes blacklist n →
    (Interesting blacklist u.fields n ↔ Interesting blacklist v.fields n) ∧
      ∀ m, Scans blacklist u.fields n m ↔ Scans blacklist v.fields n m

section

variable {blacklist : List Name}

/-! ## Units that agree -/

/-- The caches after the units `done`. -/
structure After (blacklist : List Name) (done : List TranslationUnit) (c : Caches) : Prop where
  checked : ∀ n, c.checked.Has n ↔ ∃ u ∈ done, u.Passes blacklist n
  interesting : ∀ n, c.interesting.Has n ↔
    ∃ u ∈ done, u.Passes blacklist n ∧ Interesting blacklist u.fields n

theorem After.ready {done : List TranslationUnit} {c : Caches} (h : After blacklist done c)
    {u : TranslationUnit}
    (hagree : ∀ v ∈ done, ∀ n, v.Passes blacklist n → u.Passes blacklist n →
      (Interesting blacklist v.fields n ↔ Interesting blacklist u.fields n) ∧
        ∀ m, Scans blacklist v.fields n m ↔ Scans blacklist u.fields n m) :
    Ready blacklist u.fields u.globals c := by
  constructor
  · intro n hn
    obtain ⟨v, hv, hpassed, -⟩ := (h.interesting n).mp hn
    exact (h.checked n).mpr ⟨v, hv, hpassed⟩
  · intro n hpassed hn
    obtain ⟨v, hv, hv', hint⟩ := (h.interesting n).mp hn
    exact (hagree v hv n hv' hpassed).1.mp hint
  · intro n hpassed hn
    obtain ⟨v, hv, hv'⟩ := (h.checked n).mp hn
    obtain ⟨hverdict, hscans⟩ := hagree v hv n hv' hpassed
    refine ⟨fun hint => ?_, fun m hm => ?_⟩
    · exact (h.interesting n).mpr ⟨v, hv, hv', hverdict.mpr hint⟩
    · exact (h.checked m).mpr ⟨v, hv, .member hv' ((hscans m).mpr hm)⟩

theorem After.compile {done : List TranslationUnit} {c : Caches} (h : After blacklist done c)
    {u : TranslationUnit} (hready : Ready blacklist u.fields u.globals c) {k : Nat}
    (hfin : (exec blacklist u c k).finished) :
    After blacklist (done ++ [u]) (exec blacklist u c k).shared := by
  have halone := alone_exec hready k
  constructor
  · intro n
    rw [halone.checked_finished hfin, h.checked]
    simp [or_and_right, exists_or]
  · intro n
    rw [halone.interesting_finished hfin, h.interesting]
    simp [or_and_right, exists_or]

theorem Compiled.after {done us : List TranslationUnit} {c c' : Caches}
    (hagree : Agree blacklist (done ++ us)) (h : After blacklist done c)
    (hc : Compiled blacklist us c c') : After blacklist (done ++ us) c' := by
  induction hc generalizing done with
  | nil =>
    rw [List.append_nil]
    exact h
  | @cons u us c k c' hfin _ ih =>
    have hready : Ready blacklist u.fields u.globals c := h.ready fun v hv n hv' hpassed =>
      hagree v (List.mem_append_left _ hv) u (List.mem_append_right _ List.mem_cons_self)
        n hv' hpassed
    have hshift : done ++ u :: us = done ++ [u] ++ us := by simp
    rw [hshift] at hagree ⊢
    exact ih hagree (h.compile hready hfin)

theorem orderIndependent_of_agree {units : List TranslationUnit} {mint mchk : Mapping}
    (h : Agree blacklist units) : OrderIndependent blacklist units (.empty mint mchk) := by
  have hempty : After blacklist [] (.empty mint mchk) :=
    ⟨fun n => ⟨fun hn => absurd hn List.not_mem_nil, fun ⟨_, hu, _⟩ => absurd hu List.not_mem_nil⟩,
      fun n => ⟨fun hn => absurd hn List.not_mem_nil, fun ⟨_, hu, _⟩ => absurd hu List.not_mem_nil⟩⟩
  have hperm : ∀ {us}, us.Perm units → Agree blacklist ([] ++ us) :=
    fun hp u hu v hv => h u (hp.mem_iff.mp hu) v (hp.mem_iff.mp hv)
  intro us us' hus hus' c₁ c₂ hc hc' n
  rw [(hc.after (hperm hus) hempty).interesting, (hc'.after (hperm hus') hempty).interesting]
  simp only [List.nil_append, hus.mem_iff, hus'.mem_iff]

/-! ## Verdicts are for good -/

/-- The process neither scans `n` nor is about to publish it. -/
def State.Clear (n : Name) : State → Prop
  | .run op stack _ => op ≠ .insertInteresting n ∧ ∀ f ∈ stack, f.typeName ≠ n
  | .finished | .died => True

theorem nextGlobal_clear (n : Name) (rest : List CType) : (nextGlobal rest).Clear n := by
  induction rest with
  | nil => trivial
  | cons t rest ih =>
    rw [nextGlobal]
    split
    · exact ih
    · exact ⟨CacheOp.noConfusion, fun f hf => (List.not_mem_nil hf).elim⟩

theorem checkInterestingSttype_clear {n m : Name} (hm : m ≠ n) {stack : List Frame}
    (hstack : ∀ f ∈ stack, f.typeName ≠ n) (hasFields : Bool) (rest members : List CType) :
    (checkInterestingSttype m hasFields stack rest members).Clear n := by
  induction members generalizing hasFields with
  | nil =>
    rw [checkInterestingSttype]
    split
    · refine ⟨?_, hstack⟩
      rintro h
      cases h
      exact hm rfl
    · rw [returnFalse_eq]
      exact nextGlobal_clear n rest
  | cons t members ih =>
    rw [checkInterestingSttype]
    split
    · exact ih true
    · rw [returnFalse_eq]
      exact nextGlobal_clear n rest
    · refine ⟨CacheOp.noConfusion, fun f hf => ?_⟩
      rcases List.mem_cons.mp hf with rfl | hf
      · exact hm
      · exact hstack f hf

theorem returnTrue_clear {n : Name} {stack : List Frame} (hstack : ∀ f ∈ stack, f.typeName ≠ n)
    (rest : List CType) : (returnTrue stack rest).Clear n := by
  match stack with
  | [] => exact nextGlobal_clear n rest
  | f :: stack =>
    exact checkInterestingSttype_clear (hstack f List.mem_cons_self)
      (fun g hg => hstack g (List.mem_cons_of_mem f hg)) _ _ _

/-- A name that is checked stays so, and a name that is checked keeps its verdict. -/
theorem Answer.keeps {fields : Name → List CType} {c c' : Caches} {op : CacheOp}
    {stack : List Frame} {rest : List CType} {state' : State} {n : Name} (hn : c.checked.Has n)
    (hclear : (State.run op stack rest).Clear n)
    (ha : Answer blacklist fields c stack rest op state' c') :
    c'.checked.Has n ∧ (c'.interesting.Has n ↔ c.interesting.Has n) ∧ state'.Clear n := by
  obtain ⟨hop, hstack⟩ := hclear
  cases ha with
  | known _ | published _ => exact ⟨hn, .rfl, returnTrue_clear hstack rest⟩
  | unknown _ => exact ⟨hn, .rfl, CacheOp.noConfusion, hstack⟩
  | found _ =>
    rw [returnFalse_eq]
    exact ⟨hn, .rfl, nextGlobal_clear n rest⟩
  | blacklisted _ hadds _ =>
    rw [returnFalse_eq]
    exact ⟨hadds.has.mpr (.inl hn), .rfl, nextGlobal_clear n rest⟩
  | @scan m k hm hadds _ =>
    have hne : m ≠ n := by
      rintro rfl
      exact hm hn
    exact ⟨hadds.has.mpr (.inl hn), .rfl, checkInterestingSttype_clear hne hstack _ _ _⟩
  | @publish m k _ hadds =>
    have hne : n ≠ m := by
      rintro rfl
      exact hop rfl
    refine ⟨hn, ?_, returnTrue_clear hstack rest⟩
    rw [hadds.has]
    exact or_iff_left hne

theorem exec_keeps {u : TranslationUnit} {c : Caches} {n : Name} (hn : c.checked.Has n) (k : Nat) :
    (exec blacklist u c k).shared.checked.Has n ∧
      ((exec blacklist u c k).shared.interesting.Has n ↔ c.interesting.Has n) := by
  obtain ⟨state, c', hexec, hchecked, hverdict, -⟩ := @exec_invariant blacklist u c
    (fun state c' => c'.checked.Has n ∧ (c'.interesting.Has n ↔ c.interesting.Has n) ∧
      state.Clear n)
    ⟨hn, .rfl, nextGlobal_clear n u.globals⟩ (by
      rintro op stack rest c₁ state' c₂ ⟨hchecked, hverdict, hclear⟩ hanswer
      rcases answer_of_step _ _ _ _ _ _ hanswer with ⟨rfl, rfl⟩ | ha
      · exact ⟨hchecked, hverdict, trivial⟩
      · obtain ⟨h₁, h₂, h₃⟩ := ha.keeps hchecked hclear
        exact ⟨h₁, h₂.trans hverdict, h₃⟩) k
  rw [hexec]
  exact ⟨hchecked, hverdict⟩

theorem Compiled.keeps {us : List TranslationUnit} {c c' : Caches}
    (hc : Compiled blacklist us c c') {n : Name} (hn : c.checked.Has n) :
    c'.interesting.Has n ↔ c.interesting.Has n := by
  induction hc with
  | nil => exact .rfl
  | cons _ _ ih =>
    obtain ⟨hchecked, hverdict⟩ := exec_keeps hn _
    exact (ih hchecked).trans hverdict

/-- With room for all names, units can be compiled in every order. -/
theorem compiled_exists (blacklist : List Name) {names : List Name} {us : List TranslationUnit}
    (hnames : ∀ u ∈ us, ∀ n ∈ u.mentioned, n ∈ names) {c : Caches} (hspace : Spacious names c) :
    ∃ c', Compiled blacklist us c c' := by
  induction us generalizing c with
  | nil => exact ⟨c, .nil⟩
  | cons u us ih =>
    have hu := hnames u List.mem_cons_self
    obtain ⟨k, hfin⟩ := exec_finishes (neverFull_of_spacious blacklist hu hspace)
    obtain ⟨state, c₁, hexec, -, hspace₁⟩ := @exec_alive blacklist u c names hu hspace k
    obtain ⟨c', hc'⟩ := ih (fun v hv => hnames v (List.mem_cons_of_mem u hv)) hspace₁
    refine ⟨c', .cons hfin ?_⟩
    rw [hexec]
    exact hc'

/-- The verdict of the first unit that passes a name is the final one. -/
theorem first_verdict {u : TranslationUnit} {us : List TranslationUnit} {mint mchk : Mapping}
    {c' : Caches} (hc : Compiled blacklist (u :: us) (.empty mint mchk) c') {n : Name}
    (hn : u.Passes blacklist n) :
    c'.interesting.Has n ↔ Interesting blacklist u.fields n := by
  cases hc with
  | @cons _ _ _ k _ hfin hrest =>
    have hready : Ready blacklist u.fields u.globals (.empty mint mchk) := ready_empty mint mchk
    have halone := alone_exec hready k
    have hchecked := (halone.checked_finished hfin n).mpr (.inr hn)
    rw [hrest.keeps hchecked, halone.interesting_finished hfin]
    have hempty : ¬(Caches.empty mint mchk).interesting.Has n := List.not_mem_nil
    rw [or_iff_right hempty]
    exact and_iff_right hn

theorem verdicts_of_orderIndependent {units : List TranslationUnit} {mint mchk : Mapping}
    (hroom : Spacious (units.flatMap TranslationUnit.mentioned) (.empty mint mchk))
    (h : OrderIndependent blacklist units (.empty mint mchk)) {u v : TranslationUnit}
    (hu : u ∈ units) (hv : v ∈ units) {n : Name} (hun : u.Passes blacklist n)
    (hvn : v.Passes blacklist n) :
    Interesting blacklist u.fields n ↔ Interesting blacklist v.fields n := by
  obtain ⟨l₁, l₂, hl⟩ := List.append_of_mem hu
  obtain ⟨r₁, r₂, hr⟩ := List.append_of_mem hv
  have hup : (u :: (l₁ ++ l₂)).Perm units := hl ▸ List.perm_middle.symm
  have hvp : (v :: (r₁ ++ r₂)).Perm units := hr ▸ List.perm_middle.symm
  have hnames : ∀ {us : List TranslationUnit}, us.Perm units → ∀ w ∈ us, ∀ m ∈ w.mentioned,
      m ∈ units.flatMap TranslationUnit.mentioned :=
    fun hp w hw m hm => List.mem_flatMap.mpr ⟨w, hp.mem_iff.mp hw, hm⟩
  obtain ⟨c₁, hc₁⟩ := compiled_exists blacklist (hnames hup) hroom
  obtain ⟨c₂, hc₂⟩ := compiled_exists blacklist (hnames hvp) hroom
  rw [← first_verdict hc₁ hun, ← first_verdict hc₂ hvn]
  exact h _ _ hup hvp c₁ c₂ hc₁ hc₂ n

end

/-- Units that agree leave the same interesting types in every order; and where the caches have
room, units that do so agree at least on the verdicts. -/
theorem unit_order (blacklist : List Name) (units : List TranslationUnit) (mint mchk : Mapping) :
    (Agree blacklist units → OrderIndependent blacklist units (.empty mint mchk)) ∧
    (Spacious (units.flatMap TranslationUnit.mentioned) (.empty mint mchk) →
      OrderIndependent blacklist units (.empty mint mchk) →
      ∀ u ∈ units, ∀ v ∈ units, ∀ n, u.Passes blacklist n → v.Passes blacklist n →
        (Interesting blacklist u.fields n ↔ Interesting blacklist v.fields n)) :=
  ⟨orderIndependent_of_agree, fun hroom h _ hu _ hv _ hun hvn =>
    verdicts_of_orderIndependent hroom h hu hv hun hvn⟩

/-! ## Units that agree, and units that do not -/

/-- `struct device` points to `struct ops`, defined here. -/
def driverUnit : TranslationUnit where
  types := [(name "device", [.pointer (struct "ops"), .other]), (name "ops", [.other])]
  globals := [struct "device"]

/-- `struct ops` is only declared here. -/
def clientUnit : TranslationUnit where
  types := [(name "device", [.pointer (struct "ops"), .other])]
  globals := [struct "device"]

/-- Both types are only declared here, for a global pointer. -/
def handleUnit : TranslationUnit where
  types := []
  globals := [.pointer (struct "device")]

theorem handleUnit_passes {n : Name} : ¬handleUnit.Passes blacklistedTypenames n := by
  intro h
  induction h with
  | @global t n ht hname =>
    obtain rfl := List.mem_singleton.mp ht
    cases hname
  | member _ _ ih => exact ih

theorem agree_handle : Agree blacklistedTypenames [driverUnit, handleUnit] := by
  intro u hu v hv n hun hvn
  simp only [List.mem_cons, List.not_mem_nil, or_false] at hu hv
  rcases hu with rfl | rfl
  · rcases hv with rfl | rfl
    · exact ⟨.rfl, fun _ => .rfl⟩
    · exact absurd hvn handleUnit_passes
  · exact absurd hun handleUnit_passes

theorem unit_order_handle :
    OrderIndependent blacklistedTypenames [driverUnit, handleUnit]
      (.empty stage1Mapping stage1Mapping) :=
  (unit_order blacklistedTypenames [driverUnit, handleUnit] stage1Mapping stage1Mapping).1
    agree_handle

/-- Compiled after the client, the driver finds its types checked. -/
theorem unit_order_client :
    ¬OrderIndependent blacklistedTypenames [clientUnit, driverUnit]
      (.empty stage1Mapping stage1Mapping) := by
  intro h
  have hclient : Compiled blacklistedTypenames [clientUnit, driverUnit]
      (.empty stage1Mapping stage1Mapping)
      (exec blacklistedTypenames driverUnit
        (exec blacklistedTypenames clientUnit (.empty stage1Mapping stage1Mapping) 4).shared
        2).shared :=
    .cons (by unfold System.finished; decide) (.cons (by unfold System.finished; decide) .nil)
  have hdriver : Compiled blacklistedTypenames [driverUnit, clientUnit]
      (.empty stage1Mapping stage1Mapping)
      (exec blacklistedTypenames clientUnit
        (exec blacklistedTypenames driverUnit (.empty stage1Mapping stage1Mapping) 6).shared
        1).shared :=
    .cons (by unfold System.finished; decide) (.cons (by unfold System.finished; decide) .nil)
  have hiff := h _ _ (.refl _) (.swap _ _ _) _ _ hclient hdriver (name "device")
  revert hiff
  decide

end Roafteriniter
