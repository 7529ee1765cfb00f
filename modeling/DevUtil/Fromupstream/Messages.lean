import DevUtil.Fromupstream.Locations

/-!
# The commit message that `fromupstream.py` writes

A picked commit is amended twice: the first time with its source line and the
lines for Gerrit, the second time with its tag and its Change-Id.

    git keeps what stands in a line                   (Env.Lawful.inLine_record)
    the tag is the beginning of the message           (prefix_record)
    each line of the source line is in the message    (source_record)
    the second message can be written ↔ the
      templates are valid                             (finishMessage_ok, templates_of_finishMessage)
-/

namespace Fromupstream

open Lib Regex

/-! ## Messages -/

/-- The lines that go into every message. -/
structure Trailers where
  bugLines : List String
  testLines : List String
  cqDepends : List String

/-- `_get_conflicts` -/
def getConflicts (status : List (String × String)) : String :=
  let conflicts :=
    (status.filter fun entry => ["DD", "AU", "UD", "UA", "DU", "AA", "UU"].contains entry.1).map
    fun entry => "   " ++ entry.2
  if conflicts = [] then "" else "\nConflicts:\n" ++ "\n".intercalate conflicts ++ "\n"

/-- The message before the first amending; `commitMessage` is what was picked. -/
def noteSource (commitMessage : List Char) (sourceLine conflicts : String) (t : Trailers) :
    List Char :=
  sub (all [lit "Change-Id:", .star dot, .alt (lit "\n") .empty]) (fun _ => []) commitMessage ++
    '\n' :: (sourceLine.toList ++ '\n' :: (conflicts.toList ++ '\n' ::
      (("\n".intercalate (t.bugLines.map ("BUG=" ++ ·))).toList ++ '\n' ::
        ("\n".intercalate (t.testLines.map ("TEST=" ++ ·))).toList)))

def signoff (env : Env) (args : Args) (commitMessage : List Char) : Bool :=
  let line := "Signed-off-by: " ++ env.userName ++ " <" ++ env.userEmail ++ ">"
  args.signoff && !(splitlines (String.ofList commitMessage)).contains line

def changeIdLit : List Char := "Change-Id: ".toList

/-- `Change-Id: \w+` -/
def changeIdWord (env : Env) : Regex := .seq (lit "Change-Id: ") (plus (.char env.isWord))

/-- `r'\1%s' % changeid` -/
def changeIdTemplate (changeid : List Char) : Option (List Piece) :=
  parseTemplate 2 ('\\' :: '1' :: changeid)

/-- `r'%s\n\1' % '\n'.join('Cq-Depend: %s' % c for c in cq_depends)` -/
def cqDependTemplate (cqDepends : List String) : Option (List Piece) :=
  parseTemplate 1 (("\n".intercalate (cqDepends.map ("Cq-Depend: " ++ ·))).toList ++
    "\\n\\1".toList)

/-- The text of a Change-Id is a part of the template. -/
def replaceChangeId (env : Env) (commitMessage changeid : List Char) : Except Stop (List Char) :=
  match changeIdTemplate changeid with
  | none => .error .raised
  | some t =>
    .ok (sub (changeIdWord env) (fun m => expand [m, m.take 11, m.drop 11] t) commitMessage)

def addCqDepends (env : Env) (cqDepends : List String) (commitMessage : List Char) :
    Except Stop (List Char) :=
  if cqDepends = [] then .ok commitMessage
  else
    match cqDependTemplate cqDepends with
    | none => .error .raised
    | some t => .ok (sub (changeIdWord env) (fun m => expand [m, m] t) commitMessage)

/-- The Change-Id that the message is to have, if it is known. -/
def newChangeId (args : Args) (commitMessage : List Char) : Option (List Char) :=
  (args.changeid.map String.toList).or (linkChangeId commitMessage)

def fixChangeId (env : Env) (args : Args) (commitMessage : List Char) : Except Stop (List Char) :=
  match newChangeId args commitMessage with
  | some changeid => replaceChangeId env commitMessage changeid
  | none => .ok commitMessage

/-- The message before the second amending. -/
def finishMessage (env : Env) (args : Args) (t : Trailers) (commitMessage : List Char) :
    Except Stop (List Char) := do
  let message ← fixChangeId env args commitMessage
  let message ← addCqDepends env t.cqDepends message
  match args.tag with
  | some tag => pure (tag.toList ++ message)
  | none => .error .raised

/-! ## What git makes of a message -/

/-- White space to `git stripspace`. -/
def gitSpace (c : Char) : Bool := [9, 10, 13, 32].contains c.toNat

/-- The lines that are not blank, without the spaces at their ends. -/
def solid (text : List Char) : List (List Char) :=
  ((lines text).map (·.rdropWhile gitSpace)).filter (· ≠ [])

/-- A message begins with its first line that is not blank; no other one of them is lost. -/
structure Env.Lawful (env : Env) : Prop where
  record_lines : ∀ signoff text first others, solid text = first :: others →
    ∃ rest, lines (env.record signoff text) = first :: rest ∧ ∀ l ∈ others, l ∈ rest
  isWord_newline : env.isWord '\n' = false

theorem isSpace_of_gitSpace {c : Char} (h : gitSpace c = true) : isSpace c = true := by
  simp only [gitSpace, List.contains_iff_mem, List.mem_cons, List.not_mem_nil, or_false] at h
  rw [isSpace, Bool.or_eq_true]
  left
  rcases h with h | h | h | h <;> rw [h] <;> decide

variable {env : Env} {w x text : List Char}

theorem Env.Lawful.line_record (law : env.Lawful) (hx : Bare isSpace x) {k : List Char}
    (hk : k ∈ lines text) (hxk : x <:+: k) (signoff : Bool) :
    k.rdropWhile gitSpace ∈ lines (env.record signoff text) ∧ x <:+: k.rdropWhile gitSpace := by
  have hin := (hx.mono fun _ => isSpace_of_gitSpace).infix_rdropWhile hxk
  have hne : k.rdropWhile gitSpace ≠ [] := by
    intro hnil
    rw [hnil] at hin
    exact hx.ne_nil (List.infix_nil.mp hin)
  have hsolid : k.rdropWhile gitSpace ∈ solid text :=
    List.mem_filter.mpr ⟨List.mem_map_of_mem hk, by simpa using hne⟩
  refine ⟨?_, hin⟩
  cases hs : solid text with
  | nil =>
    rw [hs] at hsolid
    cases hsolid
  | cons first others =>
    obtain ⟨rest, hlines, hrest⟩ := law.record_lines signoff text first others hs
    rw [hlines]
    rw [hs] at hsolid
    rcases List.mem_cons.mp hsolid with h | h
    · exact h ▸ List.mem_cons_self
    · exact List.mem_cons_of_mem _ (hrest _ h)

theorem Env.Lawful.inLine_record (law : env.Lawful) (hx : Bare isSpace x) (h : InLine w x text)
    (signoff : Bool) :
    InLine w x (env.record signoff text) := by
  obtain ⟨k, hk, hw, hxk⟩ := h
  obtain ⟨hmem, hin⟩ := law.line_record hx hk hxk signoff
  exact ⟨_, hmem, fun h => hw (h.trans (List.rdropWhile_prefix _ _).isInfix), hin⟩

/-- A tag in front of a text that does not begin with a space. -/
theorem Env.Lawful.prefix_record (law : env.Lawful) {tag : List Char} (htag : '\n' ∉ tag)
    {c : Char} (hc : isSpace c = false) (cs : List Char) (signoff : Bool) :
    tag <+: env.record signoff (tag ++ c :: cs) := by
  have hnl : c ≠ '\n' := by
    rintro rfl
    exact absurd hc (by decide)
  have hgit : gitSpace c = false := Bool.eq_false_iff.mpr fun h => by
    simp [isSpace_of_gitSpace h] at hc
  obtain ⟨first, others, hlines⟩ := exists_lines cs
  have hhead : (tag ++ c :: first).rdropWhile gitSpace = tag ++ c :: first.rdropWhile gitSpace :=
    rdropWhile_append_cons hgit tag first
  have htext : lines (tag ++ c :: cs) = (tag ++ c :: first) :: others := by
    rw [lines_append htag, lines_cons hnl, hlines]
    rfl
  have hsolid : solid (tag ++ c :: cs) =
      (tag ++ c :: first.rdropWhile gitSpace) ::
          ((others.map (·.rdropWhile gitSpace)).filter (· ≠ [])) := by
    rw [solid, htext, List.map_cons, hhead, List.filter_cons_of_pos (by simp)]
  obtain ⟨rest, hrecord, -⟩ := law.record_lines signoff _ _ _ hsolid
  exact (List.prefix_append tag _).trans (prefix_of_lines hrecord)

/-! ## The source line -/

theorem trim_within (p : Char → Bool) (l : List Char) : Separators.trim p l <:+: l :=
  (List.rdropWhile_prefix p _).isInfix.trans (List.dropWhile_suffix p).isInfix

theorem bare_trim {p : Char → Bool} {l : List Char} (hne : Separators.trim p l ≠ []) :
    Bare p (Separators.trim p l) := by
  have hex : ∃ c ∈ l, p c = false := by
    by_contra hall
    have hdrop : l.dropWhile p = [] := List.dropWhile_eq_nil_iff.mpr fun c hc => by
      by_contra hp
      exact hall ⟨c, hc, by simpa using hp⟩
    exact hne (by rw [Separators.trim, hdrop]; rfl)
  obtain ⟨lead, trail, -, -, -, -, hhead, hlast⟩ := Separators.exists_trim hex
  exact ⟨hne, hhead, hlast⟩

theorem inLine_trim (hx : Bare isSpace x) (h : InLine w x text) :
    InLine w x (Separators.trim isSpace text) :=
  (h.dropWhile hx).rdropWhile hx

/-- Every line of the source line stands in the message. -/
theorem inLine_noteSource {message : List Char} {sourceLine conflicts : String} {t : Trailers}
    {l : List Char} (hl : l ∈ lines sourceLine.toList) (hw : ¬w <:+: l) (hx : x <:+: l) :
    InLine w x (noteSource message sourceLine conflicts t) := by
  refine ⟨l, ?_, hw, hx⟩
  rw [noteSource, lines_append_newline, lines_append_newline]
  exact List.mem_append_right _ (List.mem_append_left _ hl)

theorem solid_trim {c : Char} (hmem : c ∈ text) (hc : isSpace c = false) :
    ∃ d ds, Separators.trim isSpace text = d :: ds ∧ isSpace d = false := by
  obtain ⟨-, -, -, -, -, hne, hhead, -⟩ := Separators.exists_trim ⟨c, hmem, hc⟩
  cases htrim : Separators.trim isSpace text with
  | nil => exact absurd htrim hne
  | cons d ds =>
    rw [htrim] at hhead
    exact ⟨d, ds, rfl, hhead d rfl⟩

/-- What git has recorded is not blank: a bug line is in it. -/
theorem Env.Lawful.bug_record (law : env.Lawful) (message : List Char)
    (sourceLine conflicts : String) {t : Trailers} (hbug : t.bugLines ≠ []) (signoff : Bool) :
    'B' ∈ env.record signoff (noteSource message sourceLine conflicts t) := by
  have hbare : Bare isSpace "BUG=".toList := bare_of_all (by decide) (by decide) (by decide)
  obtain ⟨bugs, hbugs⟩ : ∃ bugs, ("\n".intercalate (t.bugLines.map ("BUG=" ++ ·))).toList =
      "BUG=".toList ++ bugs := by
    cases hlines : t.bugLines with
    | nil => exact absurd hlines hbug
    | cons first others =>
      exact ⟨_, by rw [List.map_cons, String.intercalate_cons_append, String.toList_append]⟩
  obtain ⟨first, others, hfirst⟩ := exists_lines bugs
  have hline : "BUG=".toList ++ first ∈ lines (noteSource message sourceLine conflicts t) := by
    rw [noteSource, lines_append_newline, lines_append_newline, lines_append_newline,
      lines_append_newline, hbugs,
      lines_append (by decide), hfirst]
    simp
  obtain ⟨hmem, hin⟩ := law.line_record hbare hline (List.prefix_append _ first).isInfix signoff
  exact (hin.trans (infix_of_mem_lines hmem)).subset (by decide)

/-! ## The Change-Id -/

theorem inline_changeIdWord (law : env.Lawful) : (changeIdWord env).Inline changeIdLit := by
  refine ⟨by decide, fun s s' h => ?_⟩
  rw [changeIdWord, go, List.mem_flatMap] at h
  obtain ⟨t, ht, hs'⟩ := h
  obtain ⟨u, hu, hword, -⟩ := go_plus_char hs'
  have hrest : s.rest = changeIdLit ++ t.rest := go_lit ht
  refine ⟨changeIdLit ++ u, by rw [hrest, hu, List.append_assoc], ?_, List.prefix_append _ _⟩
  intro h
  rcases List.mem_append.mp h with h | h
  · exact absurd h (by decide)
  · have hnl := hword _ h
    rw [law.isWord_newline] at hnl
    cases hnl

/-- Both rewritings of the message can be made. -/
structure TemplatesValid (args : Args) (t : Trailers) : Prop where
  changeid : ∀ id ∈ args.changeid, (changeIdTemplate id.toList).isSome = true
  cqDepends : t.cqDepends ≠ [] → (cqDependTemplate t.cqDepends).isSome = true

instance decidableTemplatesValid (args : Args) (t : Trailers) : Decidable (TemplatesValid args t) :=
  decidable_of_iff ((∀ id ∈ args.changeid, (changeIdTemplate id.toList).isSome = true) ∧
      (t.cqDepends ≠ [] → (cqDependTemplate t.cqDepends).isSome = true))
    ⟨fun h => ⟨h.1, h.2⟩, fun h => ⟨h.1, h.2⟩⟩

theorem changeIdTemplate_of_isChangeId {id : List Char} (h : isChangeId id = true) :
    (changeIdTemplate id).isSome = true := by
  obtain ⟨hex, rfl, hhex⟩ : ∃ hex, id = 'I' :: hex ∧ '\\' ∉ hex := by
    unfold isChangeId at h
    split at h
    next hex =>
      refine ⟨hex, rfl, fun hmem => ?_⟩
      simp only [Bool.and_eq_true, List.all_eq_true] at h
      exact absurd (h.2 _ hmem) (by decide)
    next => cases h
  have hplain : '\\' ∉ 'I' :: hex := by simpa using hhex
  have hone : Nat.ofDigitChars 10 ['1'] 0 = 1 := by decide
  have hescape : parseEscape ('1' :: 'I' :: hex) = some ([.group 1], 'I' :: hex) := by
    cases hex <;> simp [parseEscape, isOctDigit, hone]
  have hpieces : parsePieces (('1' :: 'I' :: hex).length) ('I' :: hex) =
      some (('I' :: hex).map .char) :=
    parsePieces_plain hplain (Nat.le_succ _)
  have hfits : (Piece.group 1 :: ('I' :: hex).map Piece.char).all (Piece.fits 2) = true := by
    simp [Piece.fits]
  rw [changeIdTemplate, parseTemplate, List.length_cons, parsePieces, hescape]
  simp only [hpieces]
  show (if (Piece.group 1 :: ('I' :: hex).map Piece.char).all (Piece.fits 2) then
    some (Piece.group 1 :: ('I' :: hex).map Piece.char) else none).isSome = true
  rw [if_pos hfits]
  rfl

/-! ## The second message -/

/-- Begins with what is no space. -/
def Solid (text : List Char) : Prop := ∃ c cs, text = c :: cs ∧ isSpace c = false

theorem solid_sub {w : List Char} {r : Regex} {repl : List Char → List Char} (hr : r.Inline w)
    (hrepl : ∀ u, w <+: u → Solid (repl u)) (h : Solid text) : Solid (r.sub repl text) := by
  obtain ⟨c, cs, rfl, hc⟩ := h
  obtain ⟨u, t, hu, hsub⟩ | ⟨t, hsub⟩ := sub_cons repl hr c cs
  · obtain ⟨d, ds, hd, hspace⟩ := hrepl u hu
    exact ⟨d, ds ++ t, by rw [hsub, hd]; rfl, hspace⟩
  · exact ⟨c, t, hsub, hc⟩

/-- Three octal digits, the first of them a 1, are no space. -/
theorem isSpace_octal {d e : Char} (hd : isOctDigit d = true) (he : isOctDigit e = true) :
    isSpace (Char.ofNat (octal ['1', d, e])) = false := by
  have hascii : ∀ n, n < 128 → 64 ≤ n → isSpace (Char.ofNat n) = false := by decide
  have hdigit : ∀ c, isOctDigit c = true → c.toNat - 48 < 8 := by
    intro c hc
    simp only [isOctDigit, Bool.and_eq_true, decide_eq_true_eq] at hc
    have hle : c.toNat ≤ '7'.toNat := hc.2
    have h7 : '7'.toNat = 55 := by decide
    omega
  have hoctal : octal ['1', d, e] = 64 + 8 * (d.toNat - 48) + (e.toNat - 48) := by
    have h1 : '1'.toNat = 49 := by decide
    simp only [octal, List.foldl_cons, List.foldl_nil, h1]
    omega
  have hd := hdigit d hd
  have he := hdigit e he
  exact hascii _ (by omega) (by omega)

theorem parseEscape_one {id rest : List Char} {ps : List Piece}
    (h : parseEscape ('1' :: id) = some (ps, rest)) :
    (∃ d e, isOctDigit d = true ∧ isOctDigit e = true ∧
      ps = [.char (Char.ofNat (octal ['1', d, e]))]) ∨
      ps = [.group 1] ∨ ∃ n, 10 ≤ n ∧ ps = [.group n] := by
  have hone : ('1').isDigit = true := by decide
  have hvalue : Nat.ofDigitChars 10 ['1'] 0 = 1 := by decide
  rw [parseEscape, if_pos hone] at h
  · split at h
    next hthree =>
      split at h
      next =>
        left
        obtain ⟨d, e, htake⟩ : ∃ d e, id.take 2 = [d, e] := by
          cases id with
          | nil => simp at hthree
          | cons d id =>
            cases id with
            | nil => simp at hthree
            | cons e id => exact ⟨d, e, rfl⟩
        simp only [htake, List.all_cons, Bool.and_eq_true] at hthree
        rw [htake] at h
        exact ⟨d, e, hthree.2.2.1, hthree.2.2.2.1, (congrArg Prod.fst (Option.some.inj h)).symm⟩
      next => cases h
    next =>
      right
      have hps := (congrArg Prod.fst (Option.some.inj h)).symm
      cases id with
      | nil =>
        left
        simpa [hvalue] using hps
      | cons d id =>
        by_cases hd : d.isDigit = true
        · right
          refine ⟨Nat.ofDigitChars 10 ['1', d] 0, ?_, by simpa [hd] using hps⟩
          rw [show ['1', d] = ['1'] ++ [d] from rfl, Nat.ofDigitChars_append, hvalue,
            Nat.ofDigitChars_cons,
            Nat.ofDigitChars_nil]
          omega
        · left
          simpa [hd, hvalue] using hps
  · exact fun cs hg => by cases hg
  · exact fun h0 => absurd h0 (by decide)

/-- A Change-Id is put behind what stands there, or an octal number before it. -/
theorem solid_expand_changeId {id : List Char} {ps : List Piece}
    (h : changeIdTemplate id = some ps) {u : List Char} (hu : changeIdLit <+: u) :
    Solid (expand [u, u.take 11, u.drop 11] ps) := by
  obtain ⟨first, rest, hescape⟩ : ∃ first rest, parseEscape ('1' :: id) = some (first, rest) := by
    cases hescape : parseEscape ('1' :: id) with
    | none => simp [changeIdTemplate, parseTemplate, parsePieces, hescape] at h
    | some r => exact ⟨r.1, r.2, rfl⟩
  obtain ⟨others, hps, hfits⟩ : ∃ others, ps = first ++ others ∧ ps.all (Piece.fits 2) = true := by
    rw [changeIdTemplate, parseTemplate, List.length_cons, parsePieces, hescape] at h
    cases hrest : parsePieces ('1' :: id).length rest with
    | none =>
      simp only [hrest, Option.map_none] at h
      cases h
    | some others =>
      simp only [hrest, Option.map_some] at h
      split at h
      next hfits => exact ⟨others, (Option.some.inj h).symm, Option.some.inj h ▸ hfits⟩
      next => cases h
  obtain ⟨d, e, hd, he, rfl⟩ | rfl | ⟨n, hn, rfl⟩ := parseEscape_one hescape
  · exact ⟨_, _, by rw [hps]; rfl, isSpace_octal hd he⟩
  · have htake : u.take 11 = changeIdLit := by
      have hlen : changeIdLit.length = 11 := by decide
      rw [← hlen]
      exact List.prefix_iff_eq_take.mp hu ▸ rfl
    have hlit : changeIdLit = 'C' :: changeIdLit.tail := by decide
    refine ⟨'C', changeIdLit.tail ++ expand [u, u.take 11, u.drop 11] others, ?_, by decide⟩
    rw [hps]
    show u.take 11 ++ _ = _
    rw [htake]
    conv => lhs; rw [hlit]
    rfl
  · rw [hps, List.cons_append, List.all_cons, Piece.fits, Bool.and_eq_true] at hfits
    have hle := of_decide_eq_true hfits.1
    omega

theorem solid_expand_cqDepend {cqDepends : List String} (hne : cqDepends ≠ []) {ps : List Piece}
    (h : cqDependTemplate cqDepends = some ps) (groups : List (List Char)) :
    Solid (expand groups ps) := by
  obtain ⟨cs, hcs⟩ : ∃ cs, ("\n".intercalate (cqDepends.map ("Cq-Depend: " ++ ·))).toList ++
      "\\n\\1".toList = 'C' :: cs := by
    have hlit : "Cq-Depend: ".toList = 'C' :: "q-Depend: ".toList := by decide
    cases cqDepends with
    | nil => exact absurd rfl hne
    | cons first others =>
      rw [List.map_cons, String.intercalate_cons_append, String.toList_append, hlit]
      exact ⟨_, rfl⟩
  rw [cqDependTemplate, hcs, parseTemplate, List.length_cons, parsePieces] at h
  · cases hrest : parsePieces cs.length cs with
    | none => simp [hrest] at h
    | some others =>
      simp only [hrest, Option.map_some] at h
      split at h
      next => exact ⟨'C', expand groups others, by rw [← Option.some.inj h]; rfl, by decide⟩
      next => cases h
  · exact fun hc => absurd hc (by decide)

/-- Rewritten, a message still does not begin with a space, and what stood in a line without a
Change-Id still does. -/
structure Rewritten (before after : List Char) : Prop where
  solid : Solid before → Solid after
  inLine : ∀ x, InLine changeIdLit x before → InLine changeIdLit x after

theorem Rewritten.refl (message : List Char) : Rewritten message message := ⟨id, fun _ => id⟩

theorem Rewritten.trans {a b c : List Char} (h : Rewritten a b) (h' : Rewritten b c) :
    Rewritten a c :=
  ⟨fun hs => h'.solid (h.solid hs), fun x hx => h'.inLine x (h.inLine x hx)⟩

theorem rewritten_sub (law : env.Lawful) {repl : List Char → List Char}
    (hrepl : ∀ u, changeIdLit <+: u → Solid (repl u)) (message : List Char) :
    Rewritten message ((changeIdWord env).sub repl message) :=
  ⟨solid_sub (inline_changeIdWord law) hrepl, fun _ => inLine_sub (inline_changeIdWord law)⟩

theorem replaceChangeId_ok (law : env.Lawful) {id : List Char}
    (hid : (changeIdTemplate id).isSome = true) (message : List Char) :
    ∃ after, replaceChangeId env message id = .ok after ∧ Rewritten message after := by
  obtain ⟨t, ht⟩ := Option.isSome_iff_exists.mp hid
  refine ⟨_, by rw [replaceChangeId, ht], ?_⟩
  exact rewritten_sub law (fun u hu => solid_expand_changeId ht hu) message

theorem addCqDepends_ok (law : env.Lawful) {cqDepends : List String}
    (hcq : cqDepends ≠ [] → (cqDependTemplate cqDepends).isSome = true) (message : List Char) :
    ∃ after, addCqDepends env cqDepends message = .ok after ∧ Rewritten message after := by
  by_cases hnil : cqDepends = []
  · exact ⟨message, by rw [addCqDepends, if_pos hnil], Rewritten.refl message⟩
  · obtain ⟨t, ht⟩ := Option.isSome_iff_exists.mp (hcq hnil)
    refine ⟨_, by rw [addCqDepends, if_neg hnil, ht], ?_⟩
    exact rewritten_sub law (fun u _ => solid_expand_cqDepend hnil ht _) message

theorem finishMessage_ok (law : env.Lawful) {args : Args} {t : Trailers}
    (valid : TemplatesValid args t) {tag : String} (htag : args.tag = some tag)
    (message : List Char) :
    ∃ after, finishMessage env args t message = .ok (tag.toList ++ after) ∧
      Rewritten message after := by
  have hid : ∀ id, newChangeId args message = some id → (changeIdTemplate id).isSome = true := by
    intro id h
    rw [newChangeId, Option.or_eq_some_iff] at h
    rcases h with h | ⟨-, h⟩
    · obtain ⟨id', hid', rfl⟩ := Option.map_eq_some_iff.mp h
      exact valid.changeid id' hid'
    · exact changeIdTemplate_of_isChangeId (isChangeId_of_link h)
  obtain ⟨first, hfirst, hrewritten⟩ : ∃ first, fixChangeId env args message = .ok first ∧
      Rewritten message first := by
    unfold fixChangeId
    cases hnew : newChangeId args message with
    | none => exact ⟨message, rfl, Rewritten.refl message⟩
    | some id => exact replaceChangeId_ok law (hid id hnew) message
  obtain ⟨after, hafter, hrewritten'⟩ := addCqDepends_ok law valid.cqDepends first
  refine ⟨after, ?_, hrewritten.trans hrewritten'⟩
  simp only [finishMessage, hfirst, hafter, htag, bind, Except.bind]
  rfl

theorem templates_of_finishMessage {args : Args} {t : Trailers} {message after : List Char}
    (h : finishMessage env args t message = .ok after) : TemplatesValid args t := by
  cases hfirst : fixChangeId env args message with
  | error stop => simp [finishMessage, hfirst, bind, Except.bind] at h
  | ok first =>
    cases hcq : addCqDepends env t.cqDepends first with
    | error stop => simp [finishMessage, hfirst, hcq, bind, Except.bind] at h
    | ok second =>
      constructor
      · intro id hid
        have hnew : newChangeId args message = some id.toList := by
          rw [newChangeId, Option.mem_def.mp hid]
          rfl
        rw [fixChangeId, hnew] at hfirst
        unfold replaceChangeId at hfirst
        cases htemplate : changeIdTemplate id.toList with
        | none => simp [htemplate] at hfirst
        | some ps => rfl
      · intro hne
        rw [addCqDepends, if_neg hne] at hcq
        cases htemplate : cqDependTemplate t.cqDepends with
        | none => simp [htemplate] at hcq
        | some ps => rfl

end Fromupstream
