import DevUtil.Roafteriniter.Logging
import DevUtil.Roafteriniter.Parallel
import DevUtil.Roafteriniter.Postprocess
import DevUtil.Roafteriniter.Units

/-!
# From the sources of a kernel to the candidates

`make kern`: the units are compiled twice, once for each stage, `cachereader` prints what
stage 2 has left, and the script reads it.  `Finding` says of the sources alone what the
script should print.

    stage 1 comes to its verdicts, names are identifiers, lines are
      short and fit what the reader maps → printed = found               (plugin_reports)

Stage 1 comes to its verdicts with units that agree, one after the other, and with processes
over the same types that run at the same time, unless one is told "no" in between.
-/

namespace Roafteriniter

open Lib Interleave CString

/-! ## The reader -/

/-- What `cachereader.c` maps of the cache file. -/
def cachereaderSize : Nat := 50 * 0x1000

/-- `cache_debug_traverse` of a cache that is mapped with `size` bytes; `none` is a read outside the
mapping. -/
def cacheDebugTraverse (c : Cache) (size : Nat) : Option (List Char) :=
  (strings NUL (c.data.take (size - headerSize))).map fun items =>
    items.flatMap fun s => s ++ ['\n']

/-- All strings, if the NUL after the last one is in the mapping. -/
def cachereader (results : Contents) : Option (List Char) :=
  if used results.items < cachereaderSize ∧ ¬results.Full then some (printed results) else none

theorem Holds.cachereader {c : Cache} {k : Contents} (h : Holds c k) :
    cacheDebugTraverse c cachereaderSize = Roafteriniter.cachereader k := by
  have hitems : ∀ t ∈ k.items.map CStr.chars, NUL ∉ t ∧ t ≠ [] := by
    intro t ht
    obtain ⟨u, hu, rfl⟩ := List.mem_map.mp ht
    exact ⟨u.noNul, fun e => k.nonempty u hu (congrArg List.length e)⟩
  have hlength := length_packed_chars k.items
  have hfits := k.fits
  have hiff : (packed NUL (k.items.map CStr.chars)).length < cachereaderSize - headerSize ∧
      k.size - used k.items ≠ 0 ↔ used k.items < cachereaderSize ∧ ¬k.Full := by
    unfold Contents.Full
    omega
  unfold cacheDebugTraverse Roafteriniter.cachereader
  rw [h.data, strings_take hitems]
  by_cases hroom : used k.items < cachereaderSize ∧ ¬k.Full
  · rw [if_pos (hiff.mpr hroom), if_pos hroom, Option.map_some, List.flatMap_map]
    rfl
  · rw [if_neg fun h => hroom (hiff.mp h), if_neg hroom]
    rfl

/-- Stage 2 from an empty cache, the reader, and the script on what it prints. -/
def kern (interesting : Contents) (m : Mapping) (assigns : List Assign) :
    Option (List (List Char × List Char)) :=
  match runAssigns interesting assigns (.empty m) with
  | none => none
  | some results =>
    match cachereader results with
    | none => none
    | some file => main file

variable {blacklist : List Name} {units : List TranslationUnit}

/-! ## What is to be found -/

/-- Interesting in a unit that comes to it. -/
def KernelType (blacklist : List Name) (units : List TranslationUnit) (type : Name) : Prop :=
  ∃ u ∈ units, u.Passes blacklist type ∧ Interesting blacklist u.fields type

/-- The assignment is to a member of a variable `var` of the type. -/
def WritesTo (a : Assign) (var type : Name) : Prop :=
  ∃ decl, WritesGlobal a decl ∧ decl.declName = var ∧ raiStructtypeStr decl.type = some type

/-- A variable of an interesting type, written to, and only from functions marked `__init`. -/
structure Finding (blacklist : List Name) (units : List TranslationUnit) (assigns : List Assign)
    (var type : Name) : Prop where
  interesting : KernelType blacklist units type
  written : ∃ a ∈ assigns, WritesTo a var type
  init : ∀ a ∈ assigns, WritesTo a var type → isFnAnnotated a.fn = true

/-! ## Stage 1 -/

/-- How stage 1 compiles the units, from new caches. -/
inductive Stage1 (blacklist : List Name) (mint mchk : Mapping) :
    List TranslationUnit → Caches → Prop
  /-- one after the other -/
  | serial {units c} : Agree blacklist units → Compiled blacklist units (.empty mint mchk) c →
      Stage1 blacklist mint mchk units c
  /-- at the same time -/
  | parallel {types globals s} : Run (Moves blacklist)
        (NestedNo blacklist (TranslationUnit.fields ⟨types, globals.flatten⟩))
        (System.start (.empty mint mchk) (compilers types globals)) s →
      System.finished s → Stage1 blacklist mint mchk (compilers types globals) s.shared

theorem Compiled.spacious {names : List Name} {c c' : Caches} (h : Compiled blacklist units c c')
    (hnames : ∀ u ∈ units, ∀ n ∈ u.mentioned, n ∈ names) (hspace : Spacious names c) :
    Spacious names c' := by
  induction h with
  | nil => exact hspace
  | @cons u us c k c' _ _ ih =>
    obtain ⟨state, c₁, hexec, -, hspace₁⟩ :=
      @exec_alive blacklist u c names (hnames u List.mem_cons_self) hspace k
    rw [hexec] at ih
    exact ih (fun v hv => hnames v (List.mem_cons_of_mem u hv)) hspace₁

section

variable {mint mchk : Mapping} {c : Caches}

theorem Stage1.spacious {names : List Name} (h : Stage1 blacklist mint mchk units c)
    (hnames : ∀ u ∈ units, ∀ n ∈ u.mentioned, n ∈ names)
    (hspace : Spacious names (.empty mint mchk)) :
    Spacious names c := by
  cases h with
  | serial _ hcompiled => exact hcompiled.spacious hnames hspace
  | parallel hrun _ => exact spacious_run hnames hspace hrun

theorem Stage1.kernelType (h : Stage1 blacklist mint mchk units c) (n : Name) :
    c.interesting.Has n ↔ KernelType blacklist units n := by
  cases h with
  | serial hagree hcompiled =>
    have hempty : After blacklist [] (.empty mint mchk) :=
      ⟨fun n =>
        ⟨fun hn => absurd hn List.not_mem_nil, fun ⟨_, hu, _⟩ => absurd hu List.not_mem_nil⟩,
        fun n =>
          ⟨fun hn => absurd hn List.not_mem_nil, fun ⟨_, hu, _⟩ => absurd hu List.not_mem_nil⟩⟩
    exact (hcompiled.after (by rwa [List.nil_append]) hempty).interesting n
  | @parallel types globals s hrun hfin =>
    rw [interesting_of_run hrun hfin, passed_compilers]
    constructor
    · rintro ⟨⟨u, hu, hpassed⟩, hint⟩
      obtain ⟨gs, -, rfl⟩ := List.mem_map.mp hu
      exact ⟨_, hu, hpassed, hint⟩
    · rintro ⟨u, hu, hpassed, hint⟩
      obtain ⟨gs, -, rfl⟩ := List.mem_map.mp hu
      exact ⟨⟨_, hu, hpassed⟩, hint⟩

end

/-! ## Statements that leave nothing -/

section

variable {interesting : Contents}

/-- The cache answers for every type. -/
theorem typeAnswer_ne_none (hfull : ¬interesting.Full) (var : VarDecl) :
    typeAnswer interesting var ≠ none := by
  unfold typeAnswer
  cases raiStructtypeStr var.type with
  | none => simp
  | some type =>
    show interesting.contains type.str ≠ none
    unfold Contents.contains
    by_cases hmem : type.str ∈ interesting.items
    · simp [hmem]
    · simp [hmem, hfull]

theorem lineOf_ne_none (hfull : ¬interesting.Full) (a : Assign) : lineOf interesting a ≠ none := by
  obtain ⟨varpool, fn, lhs⟩ := a
  cases lhs with
  | other => simp [lineOf]
  | varDecl decl => simp [lineOf]
  | componentRef operand =>
    cases operand with
    | other => simp [lineOf]
    | componentRef operand => simp [lineOf]
    | varDecl var =>
      have hanswer := typeAnswer_ne_none hfull var
      unfold typeAnswer at hanswer
      simp only [lineOf]
      split
      · simp
      split
      · simp
      split
      · next hnone => exact absurd hnone hanswer
      · simp
      · simp

/-- The statements that leave a line. -/
def leaving (interesting : Contents) (assigns : List Assign) : List Assign :=
  assigns.filter fun a => (lineOf interesting a).join.isSome

theorem runAssigns_leaving (hfull : ¬interesting.Full) (assigns : List Assign)
    (results : Contents) :
    runAssigns interesting assigns results = runAssigns interesting
      (leaving interesting assigns) results := by
  unfold runAssigns leaving
  induction assigns generalizing results with
  | nil => rfl
  | cons a assigns ih =>
    rw [List.foldlM_cons, raiCheckAssignStmt_eq]
    cases hline : lineOf interesting a with
    | none => exact absurd hline (lineOf_ne_none hfull a)
    | some line =>
      cases line with
      | none =>
        rw [List.filter_cons_of_neg (by simp [hline])]
        exact ih results
      | some line =>
        rw [List.filter_cons_of_pos (by simp [hline]), List.foldlM_cons,
          raiCheckAssignStmt_eq, hline]
        congr 1
        funext results'
        exact ih results'

theorem mem_leaving {assigns : List Assign} {a : Assign} :
    a ∈ leaving interesting assigns ↔
      a ∈ assigns ∧ (Required interesting a ∨ WritesNameless a) := by
  unfold leaving
  rw [List.mem_filter, ← exists_line_iff]
  cases lineOf interesting a with
  | none => simp
  | some line => cases line <;> simp

/-! ## The writes of the sources -/

theorem writesTo_of_records {a : Assign} {w : Write} (h : Records interesting a w) :
    WritesTo a w.var w.type := by
  obtain ⟨decl, hlhs, hglobal, hannotated, hvar, htype⟩ := h.written
  exact ⟨decl, ⟨hlhs, hglobal, hannotated⟩, hvar, htype⟩

theorem records_of_writesTo {a : Assign} {var type : Name} (h : WritesTo a var type)
    (htype : interesting.Has type) :
    Records interesting a ⟨var, type, a.fn.declName, isFnAnnotated a.fn⟩ := by
  obtain ⟨decl, ⟨hlhs, hglobal, hannotated⟩, hvar, hname⟩ := h
  exact ⟨⟨decl, hlhs, hglobal, hannotated, hvar, hname⟩, htype, rfl, rfl⟩

/-- An assignment is one write at most. -/
theorem Records.unique {a : Assign} {w w' : Write} (h : Records interesting a w)
    (h' : Records interesting a w') : w = w' := by
  obtain ⟨decl, hlhs, -, -, hvar, htype⟩ := h.written
  obtain ⟨decl', hlhs', -, -, hvar', htype'⟩ := h'.written
  rw [hlhs] at hlhs'
  obtain rfl : decl = decl' := by
    cases hlhs'
    rfl
  have htypes : w.type = w'.type := Option.some.inj (htype.symm.trans htype')
  have hvars : w.var = w'.var := hvar.symm.trans hvar'
  have hfns : w.fn = w'.fn := h.fn.symm.trans h'.fn
  have hinits : w.init = w'.init := h.init.symm.trans h'.init
  cases w
  cases w'
  simp_all

/-- The writes of statements that are all required. -/
theorem exists_writes {assigns : List Assign} (h : ∀ a ∈ assigns, Required interesting a) :
    ∃ writes, List.Forall₂ (Records interesting) assigns writes := by
  induction assigns with
  | nil => exact ⟨[], .nil⟩
  | cons a assigns ih =>
    obtain ⟨writes, hwrites⟩ := ih fun b hb => h b (List.mem_cons_of_mem a hb)
    obtain ⟨decl, type, hwrites', hname, htype⟩ := h a List.mem_cons_self
    exact ⟨_, .cons (records_of_writesTo ⟨decl, hwrites', rfl, hname⟩ htype) hwrites⟩

theorem mem_writes {assigns : List Assign} {writes : List Write}
    (h : List.Forall₂ (Records interesting) assigns writes) {w : Write} :
    w ∈ writes ↔ ∃ a ∈ assigns, Records interesting a w := by
  induction h with
  | nil => simp
  | @cons a w' assigns writes hrecords _ ih =>
    simp only [List.mem_cons, exists_eq_or_imp, ih]
    constructor
    · rintro (rfl | hrest)
      · exact .inl hrecords
      · exact .inr hrest
    · rintro (hhere | hrest)
      · exact .inl (hhere.unique hrecords)
      · exact .inr hrest

end

/-! ## End to end -/

/-- What stands in the sources about writes: the names are identifiers, every struct that is written
to has one, and the lines of all writes fit the cache, the part of it that the reader maps, and the
buffer. -/
structure Legible (blacklist : List Name) (units : List TranslationUnit) (assigns : List Assign)
    (m : Mapping) (writes : List Write) : Prop where
  named : ∀ w ∈ writes, w.Named
  nameless : ∀ a ∈ assigns, ¬WritesNameless a
  all : ∀ a ∈ assigns, ∀ var type, WritesTo a var type → KernelType blacklist units type →
    ⟨var, type, a.fn.declName, isFnAnnotated a.fn⟩ ∈ writes
  room : used (writes.map Write.logLine).dedup < m.size
  mapped : used (writes.map Write.logLine).dedup < cachereaderSize
  short : ∀ w ∈ writes, w.lineLength ≤ 98

/-- The reader gets to the end of lines that fit. -/
theorem kern_eq_report {interesting : Contents} {m : Mapping} {assigns : List Assign}
    {found writes : List Write} (hfound : List.Forall₂ (Records interesting) assigns found)
    (hsub : ∀ w ∈ found, w ∈ writes) (hroom : used (writes.map Write.logLine).dedup < m.size)
    (hmapped : used (writes.map Write.logLine).dedup < cachereaderSize) :
    kern interesting m assigns = report interesting m assigns := by
  obtain ⟨results, hrun, hsize, hlogged⟩ :=
    @runAssigns_records interesting assigns found writes [] (.empty m) hfound hsub hroom
      (logged_empty m)
  have hused : used results.items ≤ used (writes.map Write.logLine).dedup := by
    refine used_le_of_subset hlogged.nodup fun s hs => ?_
    obtain ⟨w, hw, rfl⟩ := (hlogged.mem s).mp hs
    exact List.mem_dedup.mpr (List.mem_map_of_mem (hsub w hw))
  have hfull : ¬results.Full := by
    have hsize : results.size = m.size := hsize
    unfold Contents.Full
    omega
  have hreader : cachereader results = some (printed results) := if_pos ⟨by omega, hfull⟩
  unfold kern report
  rw [hrun]
  dsimp only
  rw [hreader]

/-- **The script prints just the findings, in whatever order the units and the assignments
come.** -/
theorem plugin_reports {mint mchk m : Mapping} {c : Caches} {assigns : List Assign}
    {writes : List Write}
    (hspace : Spacious (units.flatMap TranslationUnit.mentioned) (.empty mint mchk))
    (hstage1 : Stage1 blacklist mint mchk units c)
    (hlegible : Legible blacklist units assigns m writes) :
    ∃ pairs, kern c.interesting m assigns = some pairs ∧ ∀ pair, pair ∈ pairs ↔
      ∃ var type, Finding blacklist units assigns var type ∧
        pair = (var.str.chars, type.str.chars) := by
  have htypes := hstage1.kernelType
  have hspace' := hstage1.spacious (fun u hu n hn => List.mem_flatMap.mpr ⟨u, hu, hn⟩) hspace
  have hfull : ¬c.interesting.Full := hspace'.interesting.not_full hspace'.roomInteresting
  have hrequired : ∀ a ∈ leaving c.interesting assigns, Required c.interesting a := by
    intro a ha
    obtain ⟨hmem, hreq⟩ := mem_leaving.mp ha
    exact hreq.resolve_right (hlegible.nameless a hmem)
  obtain ⟨found, hfound⟩ := exists_writes hrequired
  have hmem : ∀ w, w ∈ found ↔ ∃ a ∈ assigns, Records c.interesting a w := by
    intro w
    rw [mem_writes hfound]
    constructor
    · rintro ⟨a, ha, hrecords⟩
      exact ⟨a, (mem_leaving.mp ha).1, hrecords⟩
    · rintro ⟨a, ha, hrecords⟩
      obtain ⟨decl, hwrites, -, hname⟩ := writesTo_of_records hrecords
      exact ⟨a, mem_leaving.mpr ⟨ha, .inl ⟨decl, w.type, hwrites, hname, hrecords.interesting⟩⟩,
        hrecords⟩
  have hsub : ∀ w ∈ found, w ∈ writes := by
    intro w hw
    obtain ⟨a, ha, hrecords⟩ := (hmem w).mp hw
    have hto := writesTo_of_records hrecords
    have hmem' := hlegible.all a ha w.var w.type hto ((htypes w.type).mp hrecords.interesting)
    rwa [(records_of_writesTo hto hrecords.interesting).unique hrecords] at hmem'
  have hroom : used (found.map Write.logLine).dedup < m.size := by
    refine Nat.lt_of_le_of_lt (used_le_of_subset (List.nodup_dedup _) fun s hs => ?_) hlegible.room
    obtain ⟨w, hw, rfl⟩ := List.mem_map.mp (List.mem_dedup.mp hs)
    exact List.mem_dedup.mpr (List.mem_map_of_mem (hsub w hw))
  have hshort : ShortLines found :=
    ⟨fun w hw => Nat.le_trans (hlegible.short w (hsub w hw)) (by decide),
      fun w hw _ => hlegible.short w (hsub w hw)⟩
  obtain ⟨pairs, hpairs, hprints⟩ :=
    prints_of_shortLines hfound (fun w hw => hlegible.named w (hsub w hw)) hroom hshort
  refine ⟨pairs, ?_, fun pair => ?_⟩
  · have hkern : kern c.interesting m assigns = kern c.interesting m
        (leaving c.interesting assigns) := by
      unfold kern
      rw [runAssigns_leaving hfull]
    rw [hkern, kern_eq_report hfound hsub hlegible.room hlegible.mapped, hpairs]
  · rw [hprints]
    have hiff : ∀ var type, Candidate found var type ↔
        Finding blacklist units assigns var type := by
      intro var type
      constructor
      · rintro ⟨⟨w, hw, rfl, rfl⟩, hinit⟩
        obtain ⟨a, ha, hrecords⟩ := (hmem w).mp hw
        refine ⟨(htypes _).mp hrecords.interesting, ⟨a, ha, writesTo_of_records hrecords⟩,
          fun b hb hto => ?_⟩
        exact hinit _ ((hmem _).mpr ⟨b, hb, records_of_writesTo hto hrecords.interesting⟩) rfl rfl
      · rintro ⟨htype, ⟨a, ha, hto⟩, hinit⟩
        have hhas := (htypes type).mpr htype
        refine ⟨⟨_, (hmem _).mpr ⟨a, ha, records_of_writesTo hto hhas⟩, rfl, rfl⟩, ?_⟩
        rintro w hw rfl rfl
        obtain ⟨b, hb, hrecords⟩ := (hmem w).mp hw
        rw [← hrecords.init]
        exact hinit b hb (writesTo_of_records hrecords)
    simp only [hiff]

/-- Two devices, one of which a resume function writes to. -/
def deviceWrites : List Write :=
  [⟨name "dev", name "device", name "probe", true⟩,
    ⟨name "dev2", name "device", name "probe", true⟩,
    ⟨name "dev2", name "device", name "resume", false⟩]

theorem Write.isFnAnnotated_assign (w : Write) : isFnAnnotated w.assign.fn = w.init := by
  show isAnnotated (if w.init then [Roafteriniter.init] else []) Roafteriniter.init = w.init
  cases w.init <;> decide

theorem legible_deviceWrites :
    Legible blacklistedTypenames [driverUnit, handleUnit]
      (deviceWrites.map Write.assign) testMapping deviceWrites where
  named := by decide
  nameless := by
    rintro a ha ⟨decl, ⟨hlhs, -⟩, -, hnone⟩
    obtain ⟨w, -, rfl⟩ := List.mem_map.mp ha
    cases hlhs
    cases hnone
  all := by
    rintro a ha var type ⟨decl, ⟨hlhs, -⟩, rfl, hname⟩ -
    obtain ⟨w, hw, rfl⟩ := List.mem_map.mp ha
    cases hlhs
    cases hname
    rw [w.isFnAnnotated_assign]
    exact hw
  room := by decide
  mapped := by decide
  short := by decide

theorem plugin_reports_deviceWrites :
    ∃ c pairs, kern c testMapping (deviceWrites.map Write.assign) = some pairs ∧
    ∀ pair, pair ∈ pairs ↔ ∃ var type,
      Finding blacklistedTypenames [driverUnit, handleUnit]
        (deviceWrites.map Write.assign) var type ∧
        pair = (var.str.chars, type.str.chars) := by
  have hspace : Spacious ([driverUnit, handleUnit].flatMap TranslationUnit.mentioned)
      (.empty stage1Mapping stage1Mapping) :=
    spacious_empty (by decide) (by decide)
  have hcompiled : Compiled blacklistedTypenames [driverUnit, handleUnit]
      (.empty stage1Mapping stage1Mapping)
      (exec blacklistedTypenames handleUnit
        (exec blacklistedTypenames driverUnit (.empty stage1Mapping stage1Mapping) 6).shared
        1).shared :=
    .cons (by unfold System.finished; decide) (.cons (by unfold System.finished; decide) .nil)
  exact ⟨_, plugin_reports hspace (.serial agree_handle hcompiled) legible_deviceWrites⟩

end Roafteriniter
