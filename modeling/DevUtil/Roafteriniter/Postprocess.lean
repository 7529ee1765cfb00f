import DevUtil.Lib.Fields
import DevUtil.Roafteriniter.Stage2

/-!
# The candidates

`postprocess.py` reads the strings of `results`, one per line, and prints the variables
that only `__init` functions write to.

`Candidate` is what it should print.  A line of at most 98 characters arrives as it is.
At 99 and 100 the status arrives cut, which counts as a write after init; a longer line
arrives with too few fields, which the parser does not survive.

    prints exactly the candidates ↔
      no line has more than 100 characters, and no line of a candidate more than
        98                                                                          (candidates_iff)
-/

namespace Roafteriniter

open Lib Fields

/-! ## The script -/

/-- `x.split(':')[1]` -/
def fieldValue (x : List Char) : Option (List Char) := (x.splitOn ':')[1]?

structure LogEntry where
  varname : List Char
  typename : List Char
  fnname : List Char
  writeFromInit : List Char
deriving DecidableEq

/-- `field_value(parts[i])`; `none` is an `IndexError`. -/
def fieldAt (parts : List (List Char)) (i : Nat) : Option (List Char) := parts[i]?.bind fieldValue

def logEntry (parts : List (List Char)) : Option LogEntry :=
  match fieldAt parts 0, fieldAt parts 1, fieldAt parts 2, fieldAt parts 3 with
  | some varname, some typename, some fnname, some writeFromInit =>
    some ⟨varname, typename, fnname, writeFromInit⟩
  | _, _, _, _ => none

def parseLine (line : List Char) : Option LogEntry := logEntry (words (strip line))

def LogEntry.key (e : LogEntry) : List Char × List Char := (e.varname, e.typename)

/-- The pairs that `main` prints, from what is in the file. -/
def main (file : List Char) : Option (List (List Char × List Char)) :=
  -- the file goes through a set, so the order it is sorted into makes no difference
  let contents := ((readlines file).map strip).dedup
  match contents.mapM parseLine with
  | none => none
  | some entries =>
    let allEntries := entries.dedup
    let okVars := (allEntries.filter fun e => e.writeFromInit = ['O', 'K']).map LogEntry.key
    let nkVars := (allEntries.filter fun e => e.writeFromInit ≠ ['O', 'K']).map LogEntry.key
    some (okVars.dedup.filter fun pair => pair ∉ nkVars)

/-- The strings of a cache, one per line. -/
def printed (results : Contents) : List Char := results.items.flatMap fun s => s.chars ++ ['\n']

/-- Stage 2 from an empty cache, and the script on what it leaves. -/
def report (interesting : Contents) (m : Mapping) (assigns : List Assign) :
    Option (List (List Char × List Char)) :=
  match runAssigns interesting assigns (.empty m) with
  | none => none
  | some results => main (printed results)

/-! ## What it should print -/

/-- The name is a C identifier. -/
structure IsIdentifier (n : Name) : Prop where
  chars : (n.str.chars.all fun c => c.isAlphanum || c == '_') = true
  head : n.str.chars.head?.any Char.isDigit = false

instance decidableIsIdentifier (n : Name) : Decidable (IsIdentifier n) :=
  decidable_of_iff ((n.str.chars.all fun c => c.isAlphanum || c == '_') = true ∧
    n.str.chars.head?.any Char.isDigit = false) ⟨fun h => ⟨h.1, h.2⟩, fun h => ⟨h.chars, h.head⟩⟩

structure Write.Named (w : Write) : Prop where
  var : IsIdentifier w.var
  type : IsIdentifier w.type
  fn : IsIdentifier w.fn

instance Write.decidableNamed (w : Write) : Decidable w.Named :=
  decidable_of_iff (IsIdentifier w.var ∧ IsIdentifier w.type ∧ IsIdentifier w.fn)
    ⟨fun h => ⟨h.1, h.2.1, h.2.2⟩, fun h => ⟨h.var, h.type, h.fn⟩⟩

/-- Written to, and only from functions marked `__init`. -/
def Candidate (writes : List Write) (var type : Name) : Prop :=
  (∃ w ∈ writes, w.var = var ∧ w.type = type) ∧ ∀ w ∈ writes, w.var = var → w.type = type →
    w.init = true

/-- What is printed are exactly the candidates. -/
def PrintsCandidates (writes : List Write) (result : Option (List (List Char × List Char))) :
    Prop :=
  ∃ pairs, result = some pairs ∧
    ∀ pair, pair ∈ pairs ↔ ∃ var type, Candidate writes var type ∧
      pair = (var.str.chars, type.str.chars)

/-- The length of the line of a write, before it is cut. -/
def Write.lineLength (w : Write) : Nat :=
  w.var.str.length + w.type.str.length + w.fn.str.length + 19

/-! ## Identifiers in a line -/

theorem IsIdentifier.noSpace {n : Name} (h : IsIdentifier n) :
    ∀ c ∈ n.str.chars, Fields.isSpace c = false := by
  intro c hc
  have hident := List.all_eq_true.mp h.chars c hc
  by_contra hspace
  rw [Bool.not_eq_false, Fields.isSpace, List.contains_iff_mem] at hspace
  simp only [List.mem_cons, List.not_mem_nil, or_false] at hspace
  rcases hspace with rfl | rfl | rfl | rfl | rfl | rfl <;> revert hident <;> decide

theorem IsIdentifier.noColon {n : Name} (h : IsIdentifier n) : ':' ∉ n.str.chars := by
  intro hc
  have hident := List.all_eq_true.mp h.chars ':' hc
  revert hident
  decide

/-- A field: its key, a colon and an identifier. -/
theorem fieldValue_append {key value : List Char} (hkey : ':' ∉ key) (hvalue : ':' ∉ value) :
    fieldValue (key ++ ':' :: value) = some value := by
  rw [fieldValue, List.splitOn_append_cons_self_of_not_mem hkey, List.splitOn_eq_singleton hvalue]
  rfl

theorem colon_of_fieldValue {x value : List Char} (h : fieldValue x = some value) :
    1 ≤ x.count ':' := by
  rw [List.one_le_count_iff]
  by_contra hx
  rw [fieldValue, List.splitOn_eq_singleton hx] at h
  cases h

/-- An entry takes four words, each with a colon of its own. -/
theorem colons_of_parseLine {line : List Char} {e : LogEntry} (h : parseLine line = some e) :
    4 ≤ (strip line).count ':' := by
  have hcount := count_words ':' (strip line)
  unfold parseLine logEntry at h
  split at h
  · next _ _ _ _ h0 h1 h2 h3 =>
    match hw : words (strip line) with
    | [] | [_] | [_, _] | [_, _, _] => simp [fieldAt, hw] at h3
    | a :: b :: c :: d :: rest =>
      rw [hw] at h0 h1 h2 h3 hcount
      have ha : 1 ≤ a.count ':' := colon_of_fieldValue h0
      have hb : 1 ≤ b.count ':' := colon_of_fieldValue h1
      have hc : 1 ≤ c.count ':' := colon_of_fieldValue h2
      have hd : 1 ≤ d.count ':' := colon_of_fieldValue h3
      simp only [List.map_cons, List.sum_cons] at hcount
      omega
  · cases h

/-! ## What arrives of a line -/

/-- The status that is left of a line of the log. -/
def Write.status (w : Write) : List Char := (Roafteriniter.status w.init).take (100 - w.lineLength)

theorem Write.status_ok {w : Write} :
    w.status = ['O', 'K'] ↔ w.init = true ∧ w.lineLength ≤ 98 := by
  unfold Write.status
  by_cases hlong : w.lineLength ≤ 98
  · obtain ⟨n, hn⟩ : ∃ n, 100 - w.lineLength = n + 2 := ⟨98 - w.lineLength, by omega⟩
    cases hinit : w.init <;> simp [Roafteriniter.status, hn, hlong]
  · have hlen : ((Roafteriniter.status w.init).take (100 - w.lineLength)).length ≤ 1 := by
      rw [List.length_take]
      omega
    constructor
    · intro h
      rw [h] at hlen
      simp at hlen
    · intro h
      exact absurd h.2 hlong

theorem length_lineHead_write (w : Write) :
    (lineHead w.var.str w.type.str w.fn.str).length + 2 = w.lineLength := by
  rw [length_lineHead, Write.lineLength]

theorem logLine_chars_short {w : Write} (h : w.lineLength ≤ 100) :
    w.logLine.chars = lineHead w.var.str w.type.str w.fn.str ++ w.status := by
  have hhead := length_lineHead_write w
  show (lineHead w.var.str w.type.str w.fn.str ++ Roafteriniter.status w.init).take 98 = _
  rw [List.take_append, List.take_of_length_le (by omega), Write.status]
  congr 2
  omega

/-- A line of more than 100 characters is cut before its last colon. -/
theorem logLine_colons {w : Write} (hnamed : w.Named) (h : 100 < w.lineLength) :
    w.logLine.chars.count ':' ≤ 3 := by
  have hhead := length_lineHead_write w
  have hvar := List.count_eq_zero_of_not_mem hnamed.var.noColon
  have htype := List.count_eq_zero_of_not_mem hnamed.type.noColon
  have hfn := List.count_eq_zero_of_not_mem hnamed.fn.noColon
  have hlast : lineHead w.var.str w.type.str w.fn.str =
      ((['v', ':'] ++ w.var.str.chars) ++ ' ' :: ((['t', ':'] ++ w.type.str.chars) ++
        ' ' :: ((['f', 'n', ':'] ++ w.fn.str.chars) ++ ' ' :: ['s', 't', 'a', 't', 'u', 's']))) ++
            [':'] := by
    simp [lineHead]
  have hchars : w.logLine.chars = (lineHead w.var.str w.type.str w.fn.str).take 98 := by
    show (lineHead w.var.str w.type.str w.fn.str ++ Roafteriniter.status w.init).take 98 = _
    exact List.take_append_of_le_length (by omega)
  rw [hlast, List.length_append, List.length_singleton] at hhead
  rw [hchars, hlast, List.take_append_of_le_length (by omega)]
  refine Nat.le_trans ((List.take_sublist _ _).count_le ':') (Nat.le_of_eq ?_)
  simp [List.count_append, hvar, htype, hfn]

theorem words_lineHead {w : Write} (hnamed : w.Named) {st : List Char} (hst : NoSpace st) :
    words (lineHead w.var.str w.type.str w.fn.str ++ st) =
      [['v', ':'] ++ w.var.str.chars, ['t', ':'] ++ w.type.str.chars,
        ['f', 'n', ':'] ++ w.fn.str.chars,
        ['s', 't', 'a', 't', 'u', 's', ':'] ++ st] := by
  have hline : lineHead w.var.str w.type.str w.fn.str ++ st =
      (['v', ':'] ++ w.var.str.chars) ++ ' ' :: ((['t', ':'] ++ w.type.str.chars) ++
        ' ' :: ((['f', 'n', ':'] ++ w.fn.str.chars) ++
            ' ' :: (['s', 't', 'a', 't', 'u', 's', ':'] ++ st))) := by
    simp [lineHead]
  have hvar : NoSpace (['v', ':'] ++ w.var.str.chars) := .append (by decide) hnamed.var.noSpace
  have htype : NoSpace (['t', ':'] ++ w.type.str.chars) := .append (by decide) hnamed.type.noSpace
  have hfn : NoSpace (['f', 'n', ':'] ++ w.fn.str.chars) := .append (by decide) hnamed.fn.noSpace
  have hstatus : NoSpace (['s', 't', 'a', 't', 'u', 's', ':'] ++ st) := .append (by decide) hst
  rw [hline, words_append hvar (by simp), words_append htype (by simp), words_append hfn (by simp),
    words_single hstatus (by simp)]

/-- The line as the script reads it. -/
def Write.arrived (w : Write) : List Char := strip (w.logLine.chars ++ ['\n'])

def Write.entry (w : Write) : LogEntry :=
  ⟨w.var.str.chars, w.type.str.chars, w.fn.str.chars, w.status⟩

/-- Every line begins with its `v`, so nothing is stripped there. -/
theorem logLine_cons (w : Write) : ∃ s, w.logLine.chars = 'v' :: s := ⟨_, rfl⟩

theorem arrived_eq (w : Write) :
    w.arrived = w.logLine.chars.rdropWhile Fields.isSpace ∧ strip w.arrived = w.arrived := by
  obtain ⟨s, hs⟩ := logLine_cons w
  have hv : Fields.isSpace 'v' = false := by decide
  have harrived : w.arrived = w.logLine.chars.rdropWhile Fields.isSpace := by
    rw [Write.arrived, hs]
    exact strip_line hv s
  refine ⟨harrived, ?_⟩
  rw [harrived, hs]
  exact strip_rdropWhile hv s

theorem noSpace_status (w : Write) : NoSpace w.status := by
  have hstatus : NoSpace (Roafteriniter.status w.init) := by cases w.init <;> decide
  exact fun c hc => hstatus c (List.mem_of_mem_take hc)

theorem noColon_status (w : Write) : ':' ∉ w.status := by
  intro hc
  have hc := List.mem_of_mem_take hc
  revert hc
  cases w.init <;> decide

theorem parse_long {w : Write} (hnamed : w.Named) (h : 100 < w.lineLength) :
    parseLine w.arrived = none := by
  match hparse : parseLine w.arrived with
  | none => rfl
  | some e =>
    obtain ⟨harrived, hstrip⟩ := arrived_eq w
    have hfour := colons_of_parseLine hparse
    have hthree := logLine_colons hnamed h
    have hle := (List.rdropWhile_prefix Fields.isSpace (l := w.logLine.chars)).sublist.count_le ':'
    rw [hstrip, harrived] at hfour
    omega

theorem parse_short {w : Write} (hnamed : w.Named) (h : w.lineLength ≤ 100) :
    parseLine w.arrived = some w.entry := by
  obtain ⟨harrived, hstrip⟩ := arrived_eq w
  have hchars := logLine_chars_short h
  have hlast : w.logLine.chars.rdropWhile Fields.isSpace = w.logLine.chars := by
    rw [List.rdropWhile_eq_self_iff]
    intro hne hspace
    have hend : w.logLine.chars.getLast hne ∈ ':' :: w.status := by
      have hsplit : ∃ pre, w.logLine.chars = pre ++ ':' :: w.status :=
        ⟨(['v', ':'] ++ w.var.str.chars) ++ ' ' :: ((['t', ':'] ++ w.type.str.chars) ++
          ' ' :: ((['f', 'n', ':'] ++ w.fn.str.chars) ++ ' ' :: ['s', 't', 'a', 't', 'u', 's'])), by
          rw [hchars]; simp [lineHead]⟩
      obtain ⟨pre, hpre⟩ := hsplit
      simp only [hpre, List.getLast_append_of_ne_nil _ (List.cons_ne_nil ':' w.status)]
      exact List.getLast_mem _
    have hno : NoSpace (':' :: w.status) :=
      NoSpace.append (s := [':']) (by decide) (noSpace_status w)
    rw [hno _ hend] at hspace
    cases hspace
  have hvar : fieldValue (['v', ':'] ++ w.var.str.chars) = some w.var.str.chars :=
    @fieldValue_append ['v'] _ (by decide) hnamed.var.noColon
  have htype : fieldValue (['t', ':'] ++ w.type.str.chars) = some w.type.str.chars :=
    @fieldValue_append ['t'] _ (by decide) hnamed.type.noColon
  have hfn : fieldValue (['f', 'n', ':'] ++ w.fn.str.chars) = some w.fn.str.chars :=
    @fieldValue_append ['f', 'n'] _ (by decide) hnamed.fn.noColon
  have hstatus : fieldValue (['s', 't', 'a', 't', 'u', 's', ':'] ++ w.status) = some w.status :=
    @fieldValue_append ['s', 't', 'a', 't', 'u', 's'] _ (by decide) (noColon_status w)
  rw [parseLine, hstrip, harrived, hlast, hchars, words_lineHead hnamed (noSpace_status w)]
  simp only [logEntry, fieldAt, List.getElem?_cons_zero, List.getElem?_cons_succ, Option.bind_some,
    hvar, htype, hfn,
    hstatus]
  rfl

/-! ## What the script prints -/

theorem newline_notMem_logLine {w : Write} (hnamed : w.Named) : '\n' ∉ w.logLine.chars := by
  have hvar : '\n' ∉ w.var.str.chars := fun h => absurd (hnamed.var.noSpace _ h) (by decide)
  have htype : '\n' ∉ w.type.str.chars := fun h => absurd (hnamed.type.noSpace _ h) (by decide)
  have hfn : '\n' ∉ w.fn.str.chars := fun h => absurd (hnamed.fn.noSpace _ h) (by decide)
  have hstatus : '\n' ∉ Roafteriniter.status w.init := by cases w.init <;> decide
  intro h
  have h : '\n' ∈ line w.var.str w.type.str w.fn.str w.init := List.mem_of_mem_take h
  simp [line, lineHead, hvar, htype, hfn, hstatus] at h

/-- The script gets the lines of the writes. -/
theorem mem_contents {writes : List Write} {results : Contents} (hlogged : Logged writes results)
    (hnamed : ∀ w ∈ writes, w.Named) (x : List Char) :
    x ∈ ((readlines (printed results)).map strip).dedup ↔ ∃ w ∈ writes, w.arrived = x := by
  have hlines : readlines (printed results) = results.items.map fun s => s.chars ++ ['\n'] := by
    have hnewline : ∀ chars ∈ results.items.map CStr.chars, '\n' ∉ chars := by
      intro chars hchars
      obtain ⟨s, hs, rfl⟩ := List.mem_map.mp hchars
      obtain ⟨w, hw, rfl⟩ := (hlogged.mem s).mp hs
      exact newline_notMem_logLine (hnamed w hw)
    have h := readlines_lines hnewline
    rw [List.flatMap_map, List.map_map] at h
    exact h
  rw [List.mem_dedup, hlines, List.map_map, List.mem_map]
  constructor
  · rintro ⟨s, hs, rfl⟩
    obtain ⟨w, hw, rfl⟩ := (hlogged.mem s).mp hs
    exact ⟨w, hw, rfl⟩
  · rintro ⟨w, hw, rfl⟩
    exact ⟨w.logLine, (hlogged.mem _).mpr ⟨w, hw, rfl⟩, rfl⟩

theorem main_long {writes : List Write} {results : Contents} (hlogged : Logged writes results)
    (hnamed : ∀ w ∈ writes, w.Named) {w : Write} (hw : w ∈ writes) (h : 100 < w.lineLength) :
    main (printed results) = none := by
  have hnone : (((readlines (printed results)).map strip).dedup).mapM parseLine = none :=
    mapM_eq_none ⟨w.arrived, (mem_contents hlogged hnamed _).mpr ⟨w, hw, rfl⟩,
      parse_long (hnamed w hw) h⟩
  simp only [main, hnone]

theorem main_short {writes : List Write} {results : Contents} (hlogged : Logged writes results)
    (hnamed : ∀ w ∈ writes, w.Named) (h : ∀ w ∈ writes, w.lineLength ≤ 100) :
    ∃ pairs, main (printed results) = some pairs ∧ ∀ pair, pair ∈ pairs ↔
      (∃ w ∈ writes, w.entry.key = pair ∧ w.status = ['O', 'K']) ∧
        ∀ w ∈ writes, w.entry.key = pair → w.status = ['O', 'K'] := by
  have hparse : ∀ x ∈ ((readlines (printed results)).map strip).dedup,
      parseLine x = some ((parseLine x).getD ⟨[], [], [], []⟩) := by
    intro x hx
    obtain ⟨w, hw, rfl⟩ := (mem_contents hlogged hnamed x).mp hx
    rw [parse_short (hnamed w hw) (h w hw)]
    rfl
  have hmapM := mapM_eq_map hparse
  generalize hentries : ((readlines (printed results)).map strip).dedup.map
    (fun x => (parseLine x).getD ⟨[], [], [], []⟩) = entries at hmapM
  have hmem : ∀ e, e ∈ entries ↔ ∃ w ∈ writes, w.entry = e := by
    intro e
    rw [← hentries, List.mem_map]
    constructor
    · rintro ⟨x, hx, rfl⟩
      obtain ⟨w, hw, rfl⟩ := (mem_contents hlogged hnamed x).mp hx
      exact ⟨w, hw, by rw [parse_short (hnamed w hw) (h w hw)]; rfl⟩
    · rintro ⟨w, hw, rfl⟩
      exact ⟨w.arrived, (mem_contents hlogged hnamed _).mpr ⟨w, hw, rfl⟩, by
        rw [parse_short (hnamed w hw) (h w hw)]; rfl⟩
  simp only [main, hmapM]
  refine ⟨_, rfl, ?_⟩
  intro pair
  simp only [List.mem_filter, List.mem_dedup, List.mem_map, decide_eq_true_eq, hmem]
  constructor
  · rintro ⟨⟨e, ⟨⟨w, hw, rfl⟩, hok⟩, rfl⟩, hnk⟩
    refine ⟨⟨w, hw, rfl, hok⟩, ?_⟩
    intro v hv hkey
    by_contra hstatus
    exact hnk ⟨v.entry, ⟨⟨v, hv, rfl⟩, hstatus⟩, hkey⟩
  · rintro ⟨⟨w, hw, rfl, hok⟩, hall⟩
    refine ⟨⟨w.entry, ⟨⟨w, hw, rfl⟩, hok⟩, rfl⟩, ?_⟩
    rintro ⟨e, ⟨⟨v, hv, rfl⟩, hnk⟩, hkey⟩
    exact hnk (hall v hv hkey)

/-! ## End to end -/

/-- The lines fit, so the script gets them. -/
theorem report_eq {interesting : Contents} {m : Mapping} {assigns : List Assign}
    {writes : List Write} (hrecords : List.Forall₂ (Records interesting) assigns writes)
    (hroom : used (writes.map Write.logLine).dedup < m.size) :
    ∃ results, Logged writes results ∧ report interesting m assigns = main (printed results) := by
  obtain ⟨results, hrun, -, hlogged⟩ :=
    @runAssigns_records interesting assigns writes writes [] (.empty m) hrecords
      (fun _ h => h) hroom (logged_empty m)
  refine ⟨results, hlogged, ?_⟩
  rw [report, hrun]

theorem key_eq {w : Write} {var type : Name} :
    w.entry.key = (var.str.chars, type.str.chars) ↔ w.var = var ∧ w.type = type := by
  constructor
  · intro h
    obtain ⟨hvar, htype⟩ := Prod.mk.inj h
    exact ⟨Name.ext (CStr.ext hvar), Name.ext (CStr.ext htype)⟩
  · rintro ⟨rfl, rfl⟩
    rfl

/-- The condition on the lengths, for writes whose lines fit. -/
def ShortLines (writes : List Write) : Prop :=
  (∀ w ∈ writes, w.lineLength ≤ 100) ∧ ∀ w ∈ writes, Candidate writes w.var w.type →
    w.lineLength ≤ 98

section

variable {interesting : Contents} {m : Mapping} {assigns : List Assign} {writes : List Write}

theorem shortLines_of_prints (hrecords : List.Forall₂ (Records interesting) assigns writes)
    (hnamed : ∀ w ∈ writes, w.Named) (hroom : used (writes.map Write.logLine).dedup < m.size)
    (h : PrintsCandidates writes (report interesting m assigns)) : ShortLines writes := by
  obtain ⟨results, hlogged, hreport⟩ := @report_eq _ m _ _ hrecords hroom
  obtain ⟨pairs, hpairs, hprints⟩ := h
  rw [hreport] at hpairs
  have hshort : ∀ w ∈ writes, w.lineLength ≤ 100 := by
    intro w hw
    by_contra hlong
    rw [main_long hlogged hnamed hw (by omega)] at hpairs
    cases hpairs
  refine ⟨hshort, ?_⟩
  intro w hw hcandidate
  obtain ⟨pairs', hpairs', hmem⟩ := main_short hlogged hnamed hshort
  have hpair : pairs' = pairs := Option.some.inj (hpairs'.symm.trans hpairs)
  have hin : (w.var.str.chars, w.type.str.chars) ∈ pairs' := by
    rw [hpair, hprints]
    exact ⟨w.var, w.type, hcandidate, rfl⟩
  have hok := ((hmem _).mp hin).2 w hw rfl
  exact (Write.status_ok.mp hok).2

theorem prints_of_shortLines (hrecords : List.Forall₂ (Records interesting) assigns writes)
    (hnamed : ∀ w ∈ writes, w.Named) (hroom : used (writes.map Write.logLine).dedup < m.size)
    (h : ShortLines writes) : PrintsCandidates writes (report interesting m assigns) := by
  obtain ⟨results, hlogged, hreport⟩ := @report_eq _ m _ _ hrecords hroom
  obtain ⟨pairs, hpairs, hmem⟩ := main_short hlogged hnamed h.1
  refine ⟨pairs, hreport.trans hpairs, ?_⟩
  intro pair
  rw [hmem]
  constructor
  · rintro ⟨⟨w, hw, rfl, -⟩, hall⟩
    refine ⟨w.var, w.type, ⟨⟨w, hw, rfl, rfl⟩, ?_⟩, rfl⟩
    intro v hv hvar htype
    exact (Write.status_ok.mp (hall v hv (key_eq.mpr ⟨hvar, htype⟩))).1
  · rintro ⟨var, type, hcandidate, rfl⟩
    have hall : ∀ v ∈ writes, v.entry.key = (var.str.chars, type.str.chars) →
        v.status = ['O', 'K'] := by
      intro v hv hkey
      obtain ⟨rfl, rfl⟩ := key_eq.mp hkey
      exact Write.status_ok.mpr ⟨hcandidate.2 v hv rfl rfl, h.2 v hv hcandidate⟩
    obtain ⟨⟨w, hw, hvar, htype⟩, -⟩ := hcandidate
    have hkey := key_eq.mpr ⟨hvar, htype⟩
    exact ⟨⟨w, hw, hkey, hall w hw hkey⟩, hall⟩

/-- Stage 2 and the script print the candidates exactly if the lines are short enough. -/
theorem candidates_iff (hrecords : List.Forall₂ (Records interesting) assigns writes)
    (hnamed : ∀ w ∈ writes, w.Named) (hroom : used (writes.map Write.logLine).dedup < m.size) :
    PrintsCandidates writes (report interesting m assigns) ↔
      (∀ w ∈ writes, w.lineLength ≤ 100) ∧ ∀ w ∈ writes, Candidate writes w.var w.type →
        w.lineLength ≤ 98 :=
  ⟨shortLines_of_prints hrecords hnamed hroom, prints_of_shortLines hrecords hnamed hroom⟩

end

/-- An assignment that is the write `w`. -/
def Write.assign (w : Write) : Assign where
  varpool := [0]
  fn := ⟨w.fn, if w.init then [Roafteriniter.init] else []⟩
  lhs := .componentRef (.varDecl ⟨0, w.var, [], .record (.identifierNode w.type)⟩)

theorem Write.records_assign {interesting : Contents} {w : Write}
    (h : w.type.str ∈ interesting.items) :
    Records interesting w.assign w where
  written := ⟨_, rfl, rfl, rfl, rfl, rfl⟩
  interesting := h
  fn := rfl
  init := by
    show isAnnotated (if w.init then [Roafteriniter.init] else []) Roafteriniter.init = w.init
    cases w.init <;> decide

theorem records_assigns {interesting : Contents} {writes : List Write}
    (h : ∀ w ∈ writes, w.type.str ∈ interesting.items) :
    List.Forall₂ (Records interesting) (writes.map Write.assign) writes :=
  List.forall₂_map_left_iff.mpr (List.forall₂_same.mpr fun w hw => Write.records_assign (h w hw))

/-- What stage 1 leaves when `struct sometype` is all that is interesting. -/
def sometypeCache : Contents := ((Contents.empty testMapping).insert (lit "sometype")).2

theorem items_sometypeCache : sometypeCache.items = [lit "sometype"] :=
  (Contents.insert_room (by decide) (by decide)).2.1

/-- The writes of the comment on `rai_check_assign_stmt`, and one to another variable. -/
def someWrites : List Write :=
  [⟨name "st", name "sometype", name "func1", false⟩,
    ⟨name "st", name "sometype", name "func2", true⟩,
    ⟨name "st2", name "sometype", name "func2", true⟩]

theorem candidates_iff_someWrites :
    PrintsCandidates someWrites
      (report sometypeCache testMapping (someWrites.map Write.assign)) := by
  have hrecords : List.Forall₂ (Records sometypeCache)
      (someWrites.map Write.assign) someWrites := by
    apply records_assigns
    rw [items_sometypeCache]
    decide
  have hroom : used (someWrites.map Write.logLine).dedup < testMapping.size := by decide
  have hshort : ∀ w ∈ someWrites, w.lineLength ≤ 98 := by decide
  exact (candidates_iff hrecords (by decide) hroom).mpr
    ⟨fun w hw => Nat.le_trans (hshort w hw) (by decide), fun w hw _ => hshort w hw⟩

/-- A line of 100 characters: its status is cut off. -/
def longWrite : Write :=
  ⟨name "platform_watchdog_configuration", name "sometype",
    name "platform_watchdog_configuration_early_init", true⟩

theorem long_line_lost : ¬PrintsCandidates [longWrite]
    (report sometypeCache testMapping [longWrite.assign]) := by
  intro h
  have hrecords : List.Forall₂ (Records sometypeCache) ([longWrite].map Write.assign)
      [longWrite] := by
    apply records_assigns
    rw [items_sometypeCache]
    decide
  have hroom : used ([longWrite].map Write.logLine).dedup < testMapping.size := by decide
  have hcandidate : Candidate [longWrite] longWrite.var longWrite.type := by
    refine ⟨⟨longWrite, List.mem_singleton.mpr rfl, rfl, rfl⟩, ?_⟩
    intro w hw _ _
    rw [List.mem_singleton.mp hw]
    rfl
  have hshort := (shortLines_of_prints hrecords (by decide) hroom h).2 longWrite
    (List.mem_singleton.mpr rfl) hcandidate
  revert hshort
  decide

end Roafteriniter
