import DevUtil.Syzbot.AutoTriager

/-!
# Known mismatches

`known_mismatch` has one url for a bug: when a second url of the bug is added, the first one is
forgotten. The file keeps both lines, and of these the last one counts at the next start.

    every step adds to a bug that has no other url, and every start
      finds two words on each line → no mismatch is ever forgotten   (remembers_of_meets)
    if no url is empty, only then                                    (meets_of_remembers)
-/

namespace SyzbotAutotriager

open Lib Lib.Fields

/-! ## Runs -/

inductive Op where
  | addMismatch (bugid syzurl : Text)
  | restart (mst : Bool)

/-- At a restart all but the files is lost. -/
def step (a : AutoTriager) : Op → Option AutoTriager
  | .addMismatch bugid syzurl => some (a.addMismatch bugid syzurl)
  | .restart mst => AutoTriager.start mst a.files

/-- The first start, when there is no `known_mismatch`, and what comes after it. -/
def run (mst : Bool) (triagedBugs blacklistfns : Option Text) (ops : List Op) :
    Option AutoTriager := do
  let a ← AutoTriager.start mst { triagedBugs := triagedBugs, blacklistfns := blacklistfns,
                                  knownMismatch := none }
  ops.foldlM step a

def Op.added : Op → List (Text × Text)
  | .addMismatch bugid syzurl => [(bugid, syzurl)]
  | .restart _ => []

def added (ops : List Op) : List (Text × Text) := ops.flatMap Op.added

section

variable (mst : Bool) (triagedBugs blacklistfns : Option Text)

/-- At each moment, every mismatch that was added is one. -/
def Remembers (ops : List Op) : Prop :=
  ∀ before, before <+: ops → ∃ a, run mst triagedBugs blacklistfns before = some a ∧
    ∀ p ∈ added before, a.isMismatch p.1 p.2 = true

def Word (s : Text) : Prop := NoSpace s ∧ s ≠ []

/-- The bug has no other url; the lines of the file are two words each. -/
def Meets (known : List (Text × Text)) (a : AutoTriager) : Op → Prop
  | .addMismatch bugid syzurl => ∀ url, a.knownMismatch.get? bugid = some url → url = syzurl
  | .restart _ => ∀ p ∈ known, Word p.1 ∧ Word p.2

/-- Each step, in the state before it. -/
def MeetsAll (ops : List Op) : Prop :=
  ∀ before op after, ops = before ++ op :: after →
    ∀ a, run mst triagedBugs blacklistfns before = some a →
    Meets (added before) a op

end

/-! ## The file -/

theorem newline_not_mem_mismatchLine {bugid syzurl : Text} (hbug : NoSpace bugid)
    (hurl : NoSpace syzurl) :
    '\n' ∉ mismatchLine bugid syzurl := by
  intro h
  rcases List.mem_append.mp h with h | h
  · exact absurd (hbug _ h) (by decide)
  · rcases List.mem_cons.mp h with h | h
    · exact absurd h (by decide)
    · exact absurd (hurl _ h) (by decide)

theorem mismatchOf_line {bugid syzurl : Text} (hbug : Word bugid) (hurl : Word syzurl) :
    mismatchOf (mismatchLine bugid syzurl ++ ['\n']) = some (bugid, syzurl) := by
  have hwords : words (strip (mismatchLine bugid syzurl ++ ['\n'])) = [bugid, syzurl] := by
    rw [words_strip, words_concat_space (by decide), mismatchLine, words_append hbug.1 hbug.2,
      words_single hurl.1 hurl.2]
  rw [mismatchOf, hwords]

theorem word_of_mismatchOf {line : Text} {p : Text × Text} (h : mismatchOf line = some p) :
    Word p.1 ∧ Word p.2 := by
  unfold mismatchOf at h
  split at h
  · next hwords =>
    cases h
    exact ⟨mem_words (hwords ▸ List.mem_cons_self),
      mem_words (hwords ▸ List.mem_cons_of_mem _ List.mem_cons_self)⟩
  · cases h

/-- What is in the file after these were added. -/
def fileOf (known : List (Text × Text)) : Text :=
  (known.map fun p => mismatchLine p.1 p.2).flatMap fun line => line ++ ['\n']

theorem mapM_mismatchOf {known : List (Text × Text)} (h : ∀ p ∈ known, Word p.1 ∧ Word p.2) :
    (readlines (fileOf known)).mapM mismatchOf = some known := by
  have hlines : ∀ line ∈ known.map fun p => mismatchLine p.1 p.2, '\n' ∉ line := by
    intro line hline
    obtain ⟨p, hp, rfl⟩ := List.mem_map.mp hline
    exact newline_not_mem_mismatchLine (h p hp).1.1 (h p hp).2.1
  rw [fileOf, readlines_lines hlines, List.map_map]
  clear hlines
  induction known with
  | nil => rfl
  | cons p known ih =>
    have hp := h p List.mem_cons_self
    rw [List.map_cons, List.mapM_cons, ih fun q hq => h q (List.mem_cons_of_mem p hq),
      Function.comp_apply,
      mismatchOf_line hp.1 hp.2]
    rfl

/-! ## One step -/

/-- The dictionary and the file have what was added. -/
structure Remembered (known : List (Text × Text)) (a : AutoTriager) : Prop where
  get? : ∀ bugid url, a.knownMismatch.get? bugid = some url ↔ (bugid, url) ∈ known
  file : a.files.knownMismatch.getD [] = fileOf known

section

variable {known : List (Text × Text)} {a a' : AutoTriager}

theorem Remembered.isMismatch (h : Remembered known a) {p : Text × Text} (hp : p ∈ known) :
    a.isMismatch p.1 p.2 = true := by
  rw [AutoTriager.isMismatch, (h.get? p.1 p.2).mpr hp]
  exact beq_self_eq_true p.2

theorem Remembered.addMismatch (h : Remembered known a) {bugid syzurl : Text}
    (hmeets : ∀ url, a.knownMismatch.get? bugid = some url → url = syzurl) :
    Remembered (known ++ [(bugid, syzurl)]) (a.addMismatch bugid syzurl) where
  get? b u := by
    rw [AutoTriager.addMismatch, List.mem_append, List.mem_singleton]
    by_cases hb : b = bugid
    · subst hb
      rw [Dict.get?_set]
      constructor
      · rintro h
        exact .inr (by rw [Option.some.inj h])
      · rintro (hmem | heq)
        · rw [hmeets u ((h.get? b u).mpr hmem)]
        · rw [(Prod.mk.inj heq).2]
    · rw [Dict.get?_set_of_ne _ hb, h.get?]
      constructor
      · exact .inl
      · rintro (hmem | heq)
        · exact hmem
        · exact absurd (Prod.mk.inj heq).1 hb
  file := by
    have happended : (a.addMismatch bugid syzurl).files.knownMismatch.getD [] =
        a.files.knownMismatch.getD [] ++ (mismatchLine bugid syzurl ++ ['\n']) := rfl
    rw [happended, h.file]
    simp [fileOf]

theorem start_some {mst : Bool} {files : Files} (h : AutoTriager.start mst files = some a) :
    ∃ contents, (linesOf files.knownMismatch).mapM mismatchOf = some contents ∧
      a.knownMismatch = Dict.empty.setAll contents ∧ a.files = files := by
  unfold AutoTriager.start AutoTriager.init at h
  cases hcontents : (linesOf files.knownMismatch).mapM mismatchOf with
  | none => simp [hcontents] at h
  | some contents =>
    refine ⟨contents, rfl, ?_⟩
    rw [hcontents] at h
    cases mst <;> cases h <;> exact ⟨rfl, rfl⟩

theorem exists_start {files : Files} {contents : List (Text × Text)}
    (h : (linesOf files.knownMismatch).mapM mismatchOf = some contents) (mst : Bool) :
    ∃ a, AutoTriager.start mst files = some a := by
  unfold AutoTriager.start AutoTriager.init
  rw [h]
  exact ⟨_, rfl⟩

/-- A start finds the mismatches that were added. -/
theorem Remembered.restart (h : Remembered known a) (hwords : ∀ p ∈ known, Word p.1 ∧ Word p.2)
    (mst : Bool) :
    ∃ a', AutoTriager.start mst a.files = some a' ∧ Remembered known a' := by
  have hcontents : (linesOf a.files.knownMismatch).mapM mismatchOf = some known := by
    rw [linesOf, h.file, mapM_mismatchOf hwords]
  obtain ⟨a', ha'⟩ := exists_start hcontents mst
  obtain ⟨contents, hcontents', hknown, hfiles⟩ := start_some ha'
  rw [hcontents] at hcontents'
  obtain rfl := Option.some.inj hcontents'
  refine ⟨a', ha', ?_, by rw [hfiles, h.file]⟩
  intro bugid url
  rw [hknown]
  constructor
  · intro hget
    rcases Dict.get?_setAll hget with hmem | hempty
    · exact hmem
    · cases hempty
  · intro hmem
    apply Dict.get?_setAll_of_mem hmem
    intro url' hmem'
    have hget := (h.get? bugid url).mpr hmem
    rw [(h.get? bugid url').mpr hmem'] at hget
    exact Option.some.inj hget

theorem Remembered.step (h : Remembered known a) {op : Op} (hmeets : Meets known a op) :
    ∃ a', step a op = some a' ∧ Remembered (known ++ op.added) a' := by
  cases op with
  | addMismatch bugid syzurl => exact ⟨_, rfl, h.addMismatch hmeets⟩
  | restart mst =>
    rw [Op.added, List.append_nil]
    exact h.restart hmeets mst

/-- A step that forgets nothing is one that meets the condition. -/
theorem Remembered.meets (h : Remembered known a) (hurls : ∀ p ∈ known, p.2 ≠ []) {op : Op}
    (hstep : SyzbotAutotriager.step a op = some a')
    (hremembers : ∀ p ∈ known ++ op.added, a'.isMismatch p.1 p.2 = true) : Meets known a op := by
  have hget : ∀ p ∈ known, a'.knownMismatch.get? p.1 = some p.2 := by
    intro p hp
    have hmismatch := beq_iff_eq.mp (hremembers p (List.mem_append_left _ hp))
    cases hfound : a'.knownMismatch.get? p.1 with
    | none =>
      rw [hfound] at hmismatch
      exact absurd hmismatch.symm (hurls p hp)
    | some url =>
      rw [hfound] at hmismatch
      exact congrArg some hmismatch
  cases op with
  | addMismatch bugid syzurl =>
    intro url hurl
    cases hstep
    have hnew := hget (bugid, url) ((h.get? bugid url).mp hurl)
    rw [AutoTriager.addMismatch, Dict.get?_set] at hnew
    exact (Option.some.inj hnew).symm
  | restart mst =>
    intro p hp
    obtain ⟨contents, hcontents, hknown, -⟩ := start_some hstep
    have hfound := hget p hp
    rw [hknown] at hfound
    rcases Dict.get?_setAll hfound with hmem | hempty
    · obtain ⟨line, -, hline⟩ := exists_of_mem_mapM hcontents hmem
      exact word_of_mismatchOf hline
    · cases hempty

end

/-! ## Every run -/

section

variable {mst : Bool} {triagedBugs blacklistfns : Option Text}

theorem run_concat (ops : List Op) (op : Op) :
    run mst triagedBugs blacklistfns (ops ++ [op]) =
      (run mst triagedBugs blacklistfns ops).bind fun a => step a op := by
  unfold run
  cases AutoTriager.start mst { triagedBugs := triagedBugs, blacklistfns := blacklistfns,
                                knownMismatch := none } with
  | none => rfl
  | some a =>
    show (ops ++ [op]).foldlM step a = (ops.foldlM step a).bind fun a => step a op
    rw [List.foldlM_append]
    cases ops.foldlM step a with
    | none => rfl
    | some a' => exact Option.bind_fun_some _

theorem added_concat (ops : List Op) (op : Op) : added (ops ++ [op]) = added ops ++ op.added := by
  simp [added]

theorem remembered_start : ∃ a, run mst triagedBugs blacklistfns [] = some a ∧ Remembered [] a := by
  cases mst <;> exact ⟨_, rfl,
    fun _ _ => by simp [Dict.setAll, Dict.get?, Dict.find, Dict.empty], rfl⟩

theorem remembered_run {ops : List Op}
    (h : ∀ before op after, ops = before ++ op :: after →
      ∀ a, run mst triagedBugs blacklistfns before = some a → Remembered (added before) a →
        Meets (added before) a op) :
    ∃ a, run mst triagedBugs blacklistfns ops = some a ∧ Remembered (added ops) a := by
  induction ops using List.reverseRecOn with
  | nil => exact remembered_start
  | append_singleton ops op ih =>
    obtain ⟨a, hrun, ha⟩ :=
      ih fun before op' after hops => h before op' (after ++ [op]) (by simp [hops])
    obtain ⟨a', hstep, ha'⟩ := ha.step (h ops op [] rfl a hrun ha)
    refine ⟨a', ?_, by rwa [added_concat]⟩
    rw [run_concat, hrun]
    exact hstep

end

theorem remembers_of_meets (mst : Bool) (triagedBugs blacklistfns : Option Text) (ops : List Op)
    (h : MeetsAll mst triagedBugs blacklistfns ops) :
    Remembers mst triagedBugs blacklistfns ops := by
  rintro before ⟨rest, hrest⟩
  have hbefore : ∃ a, run mst triagedBugs blacklistfns before = some a ∧
      Remembered (added before) a := by
    apply remembered_run
    intro first op after hfirst a ha _
    exact h first op (after ++ rest) (by simp [← hrest, hfirst]) a ha
  obtain ⟨a, hrun, ha⟩ := hbefore
  exact ⟨a, hrun, fun p hp => ha.isMismatch hp⟩

/-- A bug that is added again after a start. -/
def addedAgain : List Op :=
  [.addMismatch "1".toList "/bug?id=2".toList, .restart true,
    .addMismatch "1".toList "/bug?id=2".toList]

theorem remembers_of_meets_again : Remembers false none none addedAgain := by
  apply remembers_of_meets false none none addedAgain
  intro before op after hops a ha
  rcases before with _ | ⟨first, _ | ⟨second, _ | ⟨third, before⟩⟩⟩
  · cases hops
    cases ha
    intro url hurl
    cases hurl
  · cases hops
    intro p hp
    obtain rfl := List.mem_singleton.mp hp
    exact ⟨⟨by decide, by decide⟩, ⟨by decide, by decide⟩⟩
  · cases hops
    cases ha
    intro url hurl
    cases hurl
    rfl
  · simp [addedAgain] at hops

/-- The second url of a bug takes the place of the first one. -/
theorem not_remembers : ¬∀ mst triagedBugs blacklistfns ops,
    Remembers mst triagedBugs blacklistfns ops := by
  intro h
  have hrun := h false none none
    [.addMismatch "1".toList "/bug?id=2".toList, .addMismatch "1".toList "/bug?id=3".toList]
  obtain ⟨a, hrun, ha⟩ := hrun _ (List.prefix_refl _)
  cases hrun
  exact absurd (ha ("1".toList, "/bug?id=2".toList) (by decide)) (by decide)

/-- Without empty urls, no other run remembers every mismatch. -/
theorem meets_of_remembers {mst : Bool} {triagedBugs blacklistfns : Option Text} {ops : List Op}
    (hurls : ∀ p ∈ added ops, p.2 ≠ []) (h : Remembers mst triagedBugs blacklistfns ops) :
    MeetsAll mst triagedBugs blacklistfns ops := by
  have hmeets : ∀ before op after, ops = before ++ op :: after →
    ∀ a, run mst triagedBugs blacklistfns before = some a →
      Remembered (added before) a → Meets (added before) a op := by
    intro before op after hops a hrun ha
    have hprefix : before ++ [op] <+: ops := ⟨after, by simp [hops]⟩
    obtain ⟨a', hrun', ha'⟩ := h (before ++ [op]) hprefix
    rw [run_concat, hrun] at hrun'
    rw [added_concat] at ha'
    refine ha.meets ?_ hrun' ha'
    intro p hp
    apply hurls
    rw [hops, added, List.flatMap_append]
    exact List.mem_append_left _ hp
  intro before op after hops a hrun
  have hbefore : ∃ a, run mst triagedBugs blacklistfns before = some a ∧
      Remembered (added before) a := by
    apply remembered_run
    intro first op' rest hfirst
    exact hmeets first op' (rest ++ op :: after) (by simp [hops, hfirst])
  obtain ⟨a', hrun', ha'⟩ := hbefore
  rw [hrun] at hrun'
  obtain rfl := Option.some.inj hrun'
  exact hmeets before op after hops a hrun ha'

end SyzbotAutotriager
