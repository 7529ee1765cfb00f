import Mathlib.Data.List.Basic

/-!
# Backtracking regular expressions

Patterns of Python's `re` module as far as programs write them: classes,
sequences, alternatives, greedy repetition, one capturing group and `^`.
`go` lists the ways to match from a position, the preferred one first, so its
head is what a backtracking matcher finds.  Computable: a pattern is tested by
running it.

* `search`: the first match, leftmost first.
* `findall`: all matches that do not overlap, with the text of the group.
-/

namespace Lib

/-- A place in a text. -/
structure Cursor where
  /-- the character before, if any -/
  prev : Option Char
  rest : List Char
  /-- what the group has matched last -/
  group : Option (List Char)

inductive Regex
  | empty
  | char (p : Char → Bool)
  | seq (r s : Regex)
  | alt (r s : Regex)
  | star (r : Regex)
  | group (r : Regex)
  /-- `^`; with `multiline` also after a line break -/
  | bol (multiline : Bool)

namespace Regex

/-! ## Patterns -/

def lit (s : String) : Regex := s.toList.foldr (fun c r => .seq (.char (· == c)) r) .empty

def plus (r : Regex) : Regex := .seq r (.star r)

/-- `r₁ r₂ ...` -/
def all (rs : List Regex) : Regex := rs.foldr .seq .empty

/-- `.` -/
def dot : Regex := .char (· != '\n')

/-- `[0-9a-f]` -/
def hexDigit : Regex := .char fun c => c.isDigit || ('a' ≤ c && c ≤ 'f')

/-- `\s`: what `str.isspace` accepts. -/
def space : Regex := .char fun c =>
  [9, 10, 11, 12, 13, 28, 29, 30, 31, 32, 133, 160, 5760, 8232, 8233, 8239, 8287, 12288].contains
      c.toNat ||
    (8192 ≤ c.toNat && c.toNat ≤ 8202)

/-! ## Matching -/

/-- Greedy repetition: once more if that makes progress, else stop. -/
def repeatGreedy (f : Cursor → List Cursor) : Nat → Cursor → List Cursor
  | 0, s => [s]
  | n + 1, s =>
    ((f s).filter fun s' => s'.rest.length < s.rest.length).flatMap (repeatGreedy f n) ++ [s]

/-- The ways to match from `s`, the preferred one first. -/
def go : Regex → Cursor → List Cursor
  | .empty, s => [s]
  | .char p, s =>
    match s.rest with
    | c :: cs => if p c then [⟨some c, cs, s.group⟩] else []
    | [] => []
  | .seq r t, s => (r.go s).flatMap t.go
  | .alt r t, s => r.go s ++ t.go s
  | .star r, s => repeatGreedy r.go s.rest.length s
  | .group r, s => (r.go s).map fun s' =>
      { s' with group := some (s.rest.take (s.rest.length - s'.rest.length)) }
  | .bol multiline, s => if s.prev = none ∨ (multiline ∧ s.prev = some '\n') then [s] else []

/-- The matches that do not overlap, from left to right; `fuel` bounds the places tried. -/
def findFrom (r : Regex) : Nat → Option Char → List Char → List (List Char)
  | 0, _, _ => []
  | fuel + 1, prev, cs =>
    match (r.go ⟨prev, cs, none⟩).head? with
    | some s =>
      (s.group.getD (cs.take (cs.length - s.rest.length))) ::
        (if s.rest.length < cs.length then findFrom r fuel s.prev s.rest
        else match cs with
          | c :: cs => findFrom r fuel (some c) cs
          | [] => [])
    | none =>
      match cs with
      | c :: cs => findFrom r fuel (some c) cs
      | [] => []

/-- `re.findall` for a pattern with at most one group. -/
def findall (r : Regex) (s : String) : List String :=
  (r.findFrom (s.toList.length + 1) none s.toList).map String.ofList

/-- `re.search(...).group(1)` for a pattern with one group. -/
def search (r : Regex) (s : String) : Option String := (r.findall s).head?

/-- `re.match` finds a match. -/
def isMatch (r : Regex) (s : String) : Bool := !(r.go ⟨none, s.toList, none⟩).isEmpty

end Regex

end Lib
