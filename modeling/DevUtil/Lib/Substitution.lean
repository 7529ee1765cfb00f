import DevUtil.Lib.Regex
import DevUtil.Lib.Lines

/-!
# `re.sub`

A pattern's matches replaced from left to right, and the templates that say by what.

    a line without a match stays a line of the text          (mem_lines_sub, inLine_sub)
    the first character stays, or a replacement is in front  (sub_cons)
    a text without a backslash is a template for itself      (parsePieces_plain)
-/

namespace Lib

namespace Regex

/-! ## What a match reads -/

theorem go_lit {l : List Char} {s s' : Cursor}
    (h : s' ∈ (l.foldr (fun c r => Regex.seq (.char (· == c)) r) .empty).go s) :
    s.rest = l ++ s'.rest := by
  induction l generalizing s with
  | nil =>
    rw [List.foldr_nil, go, List.mem_singleton] at h
    rw [h]
    rfl
  | cons c l ih =>
    rw [List.foldr_cons, go, List.mem_flatMap] at h
    obtain ⟨t, ht, hs'⟩ := h
    have hrest := ih hs'
    rw [go] at ht
    cases hs : s.rest with
    | nil =>
      rw [hs] at ht
      cases ht
    | cons d ds =>
      rw [hs] at ht
      by_cases hd : d = c
      · have hds : t.rest = ds := by
          simp only [hd, beq_self_eq_true, if_true, List.mem_singleton] at ht
          rw [ht]
        rw [← hds, hrest, hd]
        rfl
      · simp [hd] at ht

theorem repeatGreedy_char {p : Char → Bool} {fuel : Nat} {s s' : Cursor}
    (h : s' ∈ repeatGreedy (Regex.char p).go fuel s) :
    ∃ u, s.rest = u ++ s'.rest ∧ ∀ c ∈ u, p c = true := by
  induction fuel generalizing s with
  | zero =>
    rw [repeatGreedy, List.mem_singleton] at h
    exact ⟨[], by rw [h]; rfl, by simp⟩
  | succ fuel ih =>
    rw [repeatGreedy, List.mem_append, List.mem_flatMap, List.mem_singleton] at h
    rcases h with ⟨t, ht, hs'⟩ | h
    · obtain ⟨u, hu, hp⟩ := ih hs'
      have ht := (List.mem_filter.mp ht).1
      rw [go] at ht
      cases hs : s.rest with
      | nil =>
        rw [hs] at ht
        cases ht
      | cons c cs =>
        rw [hs] at ht
        by_cases hc : p c = true
        · simp only [hc, if_true, List.mem_singleton] at ht
          rw [ht] at hu
          exact ⟨c :: u, by rw [List.cons_append, ← hu], by simpa [hc] using hp⟩
        · simp [hc] at ht
    · exact ⟨[], by rw [h]; rfl, by simp⟩

theorem go_plus_char {p : Char → Bool} {s s' : Cursor} (h : s' ∈ (plus (.char p)).go s) :
    ∃ u, s.rest = u ++ s'.rest ∧ (∀ c ∈ u, p c = true) ∧ u ≠ [] := by
  rw [plus, go, List.mem_flatMap] at h
  obtain ⟨t, ht, hs'⟩ := h
  rw [go] at hs'
  obtain ⟨u, hu, hp⟩ := repeatGreedy_char hs'
  rw [go] at ht
  cases hs : s.rest with
  | nil =>
    rw [hs] at ht
    cases ht
  | cons c cs =>
    rw [hs] at ht
    by_cases hc : p c = true
    · simp only [hc, if_true, List.mem_singleton] at ht
      rw [ht] at hu
      exact ⟨c :: u, by rw [List.cons_append, ← hu], by simpa [hc] using hp, List.cons_ne_nil c u⟩
    · simp [hc] at ht

/-! ## Replacing -/

/-- `fuel` bounds the places tried; `repl` gets the text of the match. -/
def subFrom (r : Regex) (repl : List Char → List Char) : Nat → Option Char → List Char → List Char
  | 0, _, cs => cs
  | fuel + 1, prev, cs =>
    match (r.go ⟨prev, cs, none⟩).head?, cs with
    | some s, c :: rest =>
      if s.rest.length < cs.length then
        repl (cs.take (cs.length - s.rest.length)) ++ subFrom r repl fuel s.prev s.rest
      else repl [] ++ c :: subFrom r repl fuel (some c) rest
    | some _, [] => repl []
    | none, c :: rest => c :: subFrom r repl fuel (some c) rest
    | none, [] => []

/-- `re.sub(r, repl, s)` -/
def sub (r : Regex) (repl : List Char → List Char) (cs : List Char) : List Char :=
  r.subFrom repl (cs.length + 1) none cs

/-- Every match is a part of one line and contains `w`. -/
def Inline (r : Regex) (w : List Char) : Prop :=
  w ≠ [] ∧ ∀ s s', s' ∈ r.go s → ∃ u, s.rest = u ++ s'.rest ∧ '\n' ∉ u ∧ w <+: u

variable {r : Regex} {w : List Char} {repl : List Char → List Char}

theorem subFrom_cases (repl : List Char → List Char) (hr : r.Inline w) (fuel : Nat)
    (prev : Option Char) (cs : List Char) :
    (∃ u rest prev', cs = u ++ rest ∧ '\n' ∉ u ∧ w <+: u ∧
      r.subFrom repl (fuel + 1) prev cs = repl u ++ r.subFrom repl fuel prev' rest) ∨
    (∃ c rest, cs = c :: rest ∧ r.subFrom repl (fuel + 1) prev cs =
      c :: r.subFrom repl fuel (some c) rest) ∨
    cs = [] ∧ r.subFrom repl (fuel + 1) prev cs = [] := by
  cases hgo : (r.go ⟨prev, cs, none⟩).head? with
  | some s =>
    obtain ⟨u, hu, hline, hw⟩ := hr.2 _ s (List.mem_of_mem_head? hgo)
    have hpos : 0 < u.length := by
      have hle := hw.length_le
      have hlen := List.length_pos_of_ne_nil hr.1
      omega
    have hcs : cs = u ++ s.rest := hu
    have hlen : cs.length = u.length + s.rest.length := by rw [hcs, List.length_append]
    refine Or.inl ⟨u, s.rest, s.prev, hcs, hline, hw, ?_⟩
    have htake : cs.take (cs.length - s.rest.length) = u := by
      rw [hlen, Nat.add_sub_cancel, hcs, List.take_left]
    cases cs with
    | nil =>
      rw [List.length_nil] at hlen
      omega
    | cons c rest =>
      have hlt : s.rest.length < (c :: rest).length := by omega
      simp only [subFrom, hgo, if_pos hlt, htake]
  | none =>
    cases cs with
    | nil => exact Or.inr (Or.inr ⟨rfl, by simp only [subFrom, hgo]⟩)
    | cons c rest => exact Or.inr (Or.inl ⟨c, rest, rfl, by simp only [subFrom, hgo]⟩)

/-- A line that does not contain `w` stays; so does the first one. -/
theorem lines_subFrom (repl : List Char → List Char) (hr : r.Inline w) (fuel : Nat)
    (prev : Option Char) (cs : List Char) :
    (∀ first ∈ (lines cs).head?, ¬w <:+: first →
      (lines (r.subFrom repl fuel prev cs)).head? = some first) ∧
      ∀ l ∈ (lines cs).tail, ¬w <:+: l → l ∈ (lines (r.subFrom repl fuel prev cs)).tail := by
  induction fuel generalizing prev cs with
  | zero => exact ⟨fun _ h _ => h, fun _ h _ => h⟩
  | succ fuel ih =>
    obtain ⟨u, rest, prev', rfl, hline, hw, hsub⟩ | ⟨c, rest, rfl, hsub⟩ | ⟨rfl, hsub⟩ :=
      subFrom_cases repl hr fuel prev cs
    · have ih := ih prev' rest
      obtain ⟨first, others, hlines⟩ := exists_lines rest
      rw [hsub, lines_append hline, hlines]
      rw [hlines] at ih
      constructor
      · intro l hl hnot
        obtain rfl : u ++ first = l := by simpa using hl
        exact absurd (hw.isInfix.trans (List.prefix_append u first).isInfix) hnot
      · exact fun l hl hnot => mem_tail_lines_append _ (ih.2 l hl hnot)
    · have ih := ih (some c) rest
      rw [hsub]
      by_cases hc : c = '\n'
      · rw [hc, lines_newline, lines_newline]
        refine ⟨fun _ h _ => h, fun l hl hnot => ?_⟩
        obtain ⟨first, others, hlines⟩ := exists_lines rest
        rw [List.tail_cons] at hl ⊢
        rw [hlines] at hl ih
        rcases List.mem_cons.mp hl with rfl | hl
        · exact List.mem_of_mem_head? (hc ▸ ih.1 l rfl hnot)
        · exact List.mem_of_mem_tail (hc ▸ ih.2 l hl hnot)
      · obtain ⟨first, others, hlines⟩ := exists_lines rest
        obtain ⟨first', others', hlines'⟩ := exists_lines (r.subFrom repl fuel (some c) rest)
        rw [lines_cons hc, lines_cons hc, hlines, hlines']
        rw [hlines, hlines'] at ih
        constructor
        · intro l hl hnot
          obtain rfl : c :: first = l := by simpa using hl
          have hfirst := ih.1 first rfl fun h => hnot (h.trans (List.suffix_cons c first).isInfix)
          have heq : first' = first := by simpa using hfirst
          rw [heq]
          rfl
        · exact fun l hl hnot => ih.2 l hl hnot
    · rw [hsub]
      exact ⟨fun _ h _ => h, fun _ h _ => h⟩

theorem mem_lines_sub (hr : r.Inline w) {cs l : List Char} (hl : l ∈ lines cs) (hnot : ¬w <:+: l) :
    l ∈ lines (r.sub repl cs) := by
  have hkeep := lines_subFrom repl hr (cs.length + 1) none cs
  obtain ⟨first, others, hlines⟩ := exists_lines cs
  rw [hlines] at hl hkeep
  rcases List.mem_cons.mp hl with rfl | hl
  · exact List.mem_of_mem_head? (hkeep.1 l rfl hnot)
  · exact List.mem_of_mem_tail (hkeep.2 l hl hnot)

theorem inLine_sub (hr : r.Inline w) {x cs : List Char} (h : InLine w x cs) :
    InLine w x (r.sub repl cs) := by
  obtain ⟨k, hk, hw, hx⟩ := h
  exact ⟨k, mem_lines_sub hr hk hw, hw, hx⟩

theorem sub_cons (repl : List Char → List Char) (hr : r.Inline w) (c : Char) (cs : List Char) :
    (∃ u t, w <+: u ∧ r.sub repl (c :: cs) = repl u ++ t) ∨ ∃ t, r.sub repl (c :: cs) = c :: t := by
  obtain ⟨u, rest, prev', -, -, hw, hsub⟩ | ⟨d, rest, hd, hsub⟩ | ⟨hnil, -⟩ :=
    subFrom_cases repl hr (c :: cs).length none (c :: cs)
  · exact Or.inl ⟨u, _, hw, hsub⟩
  · obtain ⟨rfl, -⟩ := List.cons.inj hd
    exact Or.inr ⟨_, hsub⟩
  · cases hnil

/-! ## Templates -/

inductive Piece
  | char (c : Char)
  | group (n : Nat)
  deriving DecidableEq

/-- The letters that a backslash makes one character of. -/
def escapes : List (Char × Nat) :=
  [('a', 7), ('b', 8), ('f', 12), ('n', 10), ('r', 13), ('t', 9), ('v', 11), ('\\', 92)]

def isOctDigit (c : Char) : Bool := '0' ≤ c && c ≤ '7'

def octal (ds : List Char) : Nat := ds.foldl (fun n d => 8 * n + (d.toNat - 48)) 0

/-- What a backslash begins, and what follows it; `none` where `re.error` is raised. -/
def parseEscape : List Char → Option (List Piece × List Char)
  | [] => none
  | 'g' :: '<' :: cs =>
    let name := cs.takeWhile (· != '>')
    if name ≠ [] ∧ name.all Char.isDigit ∧ name.length < cs.length then
      some ([.group (Nat.ofDigitChars 10 name 0)], cs.drop (name.length + 1))
    else none
  | '0' :: cs =>
    let ds := (cs.take 2).takeWhile isOctDigit
    some ([.char (Char.ofNat (octal ds))], cs.drop ds.length)
  | c :: cs =>
    if c.isDigit then
      if (c :: cs.take 2).length = 3 ∧ (c :: cs.take 2).all isOctDigit then
        if octal (c :: cs.take 2) ≤ 255 then
          some ([.char (Char.ofNat (octal (c :: cs.take 2)))], cs.drop 2) else none
      else
        let ds := (cs.take 1).takeWhile Char.isDigit
        some ([.group (Nat.ofDigitChars 10 (c :: ds) 0)], cs.drop ds.length)
    else
      match escapes.lookup c with
      | some n => some ([.char (Char.ofNat n)], cs)
      | none => if c.isAlpha then none else some ([.char '\\', .char c], cs)

/-- `fuel` bounds the pieces. -/
def parsePieces : Nat → List Char → Option (List Piece)
  | 0, _ => some []
  | _ + 1, [] => some []
  | fuel + 1, '\\' :: cs =>
    match parseEscape cs with
    | some (ps, rest) => (parsePieces fuel rest).map (ps ++ ·)
    | none => none
  | fuel + 1, c :: cs => (parsePieces fuel cs).map (.char c :: ·)

/-- The group is one of the pattern's. -/
def Piece.fits (groups : Nat) : Piece → Bool
  | .group n => n ≤ groups
  | .char _ => true

/-- A template for a pattern with `groups` groups; `none` where `re.error` is raised. -/
def parseTemplate (groups : Nat) (t : List Char) : Option (List Piece) :=
  match parsePieces t.length t with
  | some ps => if ps.all (Piece.fits groups) then some ps else none
  | none => none

/-- The replacement for a match; `groups` begins with the whole match. -/
def expand (groups : List (List Char)) : List Piece → List Char
  | [] => []
  | .char c :: ps => c :: expand groups ps
  | .group n :: ps => groups.getD n [] ++ expand groups ps

theorem parsePieces_plain {t : List Char} (h : '\\' ∉ t) {fuel : Nat} (hfuel : t.length ≤ fuel) :
    parsePieces fuel t = some (t.map .char) := by
  induction t generalizing fuel with
  | nil => cases fuel <;> rfl
  | cons c t ih =>
    have hc : c ≠ '\\' := fun e => h (e ▸ List.mem_cons_self)
    obtain ⟨fuel, rfl⟩ := Nat.exists_eq_add_of_le' (Nat.lt_of_lt_of_le (Nat.succ_pos _) hfuel)
    have ih := ih (fun e => h (List.mem_cons_of_mem c e)) (Nat.le_of_succ_le_succ hfuel)
    rw [parsePieces, ih]
    · rfl
    · exact fun e => hc e

end Regex

end Lib
