import Mathlib.Algebra.Order.Ring.Nat
import Mathlib.Data.List.DropRight

/-!
# Lines and fields of a text

What Python's `readlines`, `strip`, `split` and `int` do to the characters of a byte string.

    readlines of lines, each ended by '\n' = the lines            (readlines_lines)
    words of fields, with one space between = the fields          (words_append, words_single)
    a separator is in at most as many words as it is in the text  (count_words)
    int of the digits of a number = the number                    (int_toDigits)
-/

namespace Lib.Fields

/-- `str.isspace`, for bytes. -/
def isSpace (c : Char) : Bool := [' ', '\t', '\n', '\r', Char.ofNat 11, Char.ofNat 12].contains c

/-- `file.readlines()`: each line with the `\n` that ends it. -/
def readlines : List Char → List (List Char)
  | [] => []
  | c :: cs =>
    if c = '\n' then ['\n'] :: readlines cs
    else
      match readlines cs with
      | [] => [[c]]
      | line :: lines => (c :: line) :: lines

/-- `s.strip()` -/
def strip (s : List Char) : List Char := (s.dropWhile isSpace).rdropWhile isSpace

/-- `s.split()` -/
def words (s : List Char) : List (List Char) := (s.splitOnP isSpace).filter (· ≠ [])

/-! ## Lines -/

theorem readlines_line {line : List Char} (h : '\n' ∉ line) (rest : List Char) :
    readlines (line ++ '\n' :: rest) = (line ++ ['\n']) :: readlines rest := by
  induction line with
  | nil => simp [readlines]
  | cons c line ih =>
    have hc : c ≠ '\n' := fun e => h (e ▸ List.mem_cons_self)
    have ih := ih fun e => h (List.mem_cons_of_mem c e)
    rw [List.cons_append, readlines, if_neg hc, ih]
    rfl

theorem readlines_lines {lines : List (List Char)} (h : ∀ line ∈ lines, '\n' ∉ line) :
    readlines (lines.flatMap fun line => line ++ ['\n']) =
      lines.map fun line => line ++ ['\n'] := by
  induction lines with
  | nil => rfl
  | cons line lines ih =>
    have ih := ih fun l hl => h l (List.mem_cons_of_mem line hl)
    rw [List.flatMap_cons, List.append_assoc, List.singleton_append,
      readlines_line (h line List.mem_cons_self), ih]
    rfl

/-! ## Stripping -/

/-- The `\n` that ends a line goes. -/
theorem strip_line {c : Char} (hc : isSpace c = false) (s : List Char) :
    strip (c :: s ++ ['\n']) = (c :: s).rdropWhile isSpace := by
  have hdrop : (c :: s ++ ['\n']).dropWhile isSpace = c :: s ++ ['\n'] :=
    List.dropWhile_cons_of_neg (by simp [hc])
  rw [strip, hdrop, List.rdropWhile_concat_pos _ _ _ (by decide)]

theorem strip_rdropWhile {c : Char} (hc : isSpace c = false) (s : List Char) :
    strip ((c :: s).rdropWhile isSpace) = (c :: s).rdropWhile isSpace := by
  obtain ⟨t, ht⟩ : ∃ t, (c :: s).rdropWhile isSpace = c :: t := by
    match hr : (c :: s).rdropWhile isSpace with
    | [] =>
      have hall := List.rdropWhile_eq_nil_iff.mp hr c List.mem_cons_self
      rw [hc] at hall
      cases hall
    | d :: t =>
      have hpre := List.rdropWhile_prefix isSpace (l := c :: s)
      rw [hr, List.cons_prefix_cons] at hpre
      exact ⟨t, by rw [hpre.1]⟩
  have hdrop : ((c :: s).rdropWhile isSpace).dropWhile isSpace = (c :: s).rdropWhile isSpace := by
    rw [ht]
    exact List.dropWhile_cons_of_neg (by simp [hc])
  rw [strip, hdrop, List.rdropWhile_idempotent]

/-- Spaces before a text go. -/
theorem strip_space_append {r : List Char} (hr : ∀ c ∈ r, isSpace c = true) (s : List Char) :
    strip (r ++ s) = strip s := by
  rw [strip, List.dropWhile_append_of_pos hr]
  rfl

/-- Spaces after a text go. -/
theorem strip_append_space (s : List Char) {r : List Char} (hr : ∀ c ∈ r, isSpace c = true) :
    strip (s ++ r) = strip s := by
  induction r using List.reverseRecOn with
  | nil => rw [List.append_nil]
  | append_singleton r c ih =>
    have hc : isSpace c = true := hr c (List.mem_append_right _ List.mem_cons_self)
    have ih := ih fun d hd => hr d (List.mem_append_left _ hd)
    rw [← List.append_assoc]
    by_cases hall : ∀ d ∈ s ++ r, isSpace d = true
    · have hnil : (s ++ r).dropWhile isSpace = [] := List.dropWhile_eq_nil_iff.mpr hall
      have hnil' : (s ++ r ++ [c]).dropWhile isSpace = [] := by
        rw [List.dropWhile_append_of_pos hall]
        exact List.dropWhile_cons_of_pos hc
      rw [← ih, strip, strip, hnil, hnil']
    · have hne : (s ++ r).dropWhile isSpace ≠ [] :=
        fun hnil => hall (List.dropWhile_eq_nil_iff.mp hnil)
      have hdrop : (s ++ r ++ [c]).dropWhile isSpace = (s ++ r).dropWhile isSpace ++ [c] := by
        rw [List.dropWhile_append, if_neg (by simpa using hne)]
      rw [← ih, strip, strip, hdrop, List.rdropWhile_concat_pos _ _ _ hc]

/-- A text is what is left of it, with spaces around it. -/
theorem exists_strip (s : List Char) : ∃ before after, (∀ c ∈ before, isSpace c = true) ∧
    (∀ c ∈ after, isSpace c = true) ∧ s = before ++ (strip s ++ after) := by
  refine ⟨s.takeWhile isSpace, (s.dropWhile isSpace).rtakeWhile isSpace,
    fun c => List.mem_takeWhile_imp,
    fun c => List.mem_rtakeWhile_imp, ?_⟩
  rw [strip, List.rdropWhile_append_rtakeWhile, List.takeWhile_append_dropWhile]

/-- What is left of a text is part of it. -/
theorem strip_within (s : List Char) : strip s <:+: s :=
  (List.rdropWhile_prefix isSpace _).isInfix.trans (List.dropWhile_suffix isSpace).isInfix

/-- A check of every character of a text. -/
theorem forall_eq_false_of_all {p : Char → Bool} {s : List Char}
    (h : (s.all fun c => !p c) = true) :
    ∀ c ∈ s, p c = false := by
  intro c hc
  simpa using List.all_eq_true.mp h c hc

/-! ## Words -/

def NoSpace (s : List Char) : Prop := ∀ c ∈ s, isSpace c = false

instance decidableNoSpace (s : List Char) : Decidable (NoSpace s) :=
  List.decidableBAll (fun c => isSpace c = false) s

theorem NoSpace.append {s t : List Char} (hs : NoSpace s) (ht : NoSpace t) : NoSpace (s ++ t) := by
  intro c hc
  rcases List.mem_append.mp hc with hc | hc
  · exact hs c hc
  · exact ht c hc

theorem words_single {s : List Char} (h : NoSpace s) (hne : s ≠ []) : words s = [s] := by
  rw [words, List.splitOnP_eq_singleton h]
  simp [hne]

theorem words_append {s : List Char} (h : NoSpace s) (hne : s ≠ []) (rest : List Char) :
    words (s ++ ' ' :: rest) = s :: words rest := by
  rw [words, List.splitOnP_append_cons_of_forall_mem h ' ' (by decide),
    List.filter_cons_of_pos (by simp [hne])]
  rfl

theorem words_cons_space {c : Char} (hc : isSpace c = true) (s : List Char) :
    words (c :: s) = words s := by
  rw [words, List.splitOnP_cons_eq_if_modifyHead, if_pos hc, List.filter_cons_of_neg (by simp)]
  rfl

theorem words_concat_space {c : Char} (hc : isSpace c = true) (s : List Char) :
    words (s ++ [c]) = words s := by
  rw [words, List.splitOnP_append_cons s [] hc, List.filter_append]
  simp [words]

theorem words_strip (s : List Char) : words (strip s) = words s := by
  have hright : ∀ t : List Char, words (t.rdropWhile isSpace) = words t := by
    intro t
    induction t using List.reverseRecOn with
    | nil => rfl
    | append_singleton t c ih =>
      by_cases hc : isSpace c = true
      · rw [List.rdropWhile_concat_pos _ _ _ hc, ih, words_concat_space hc]
      · rw [List.rdropWhile_concat_neg _ _ _ hc]
  rw [strip, hright]
  induction s with
  | nil => rfl
  | cons c s ih =>
    by_cases hc : isSpace c = true
    · rw [List.dropWhile_cons_of_pos hc, ih, words_cons_space hc]
    · rw [List.dropWhile_cons_of_neg hc]

theorem noSpace_of_mem_splitOnP {w s : List Char} (h : w ∈ s.splitOnP isSpace) : NoSpace w := by
  induction s generalizing w with
  | nil =>
    rw [List.splitOnP_nil, List.mem_singleton] at h
    subst h
    intro d hd
    cases hd
  | cons c s ih =>
    rw [List.splitOnP_cons_eq_if_modifyHead] at h
    by_cases hc : isSpace c = true
    · rw [if_pos hc] at h
      rcases List.mem_cons.mp h with rfl | h
      · intro d hd
        cases hd
      · exact ih h
    · rw [if_neg hc] at h
      match hs : s.splitOnP isSpace, List.splitOnP_ne_nil isSpace s with
      | v :: vs, _ =>
        rw [hs] at h ih
        rcases List.mem_cons.mp h with rfl | h
        · intro d hd
          rcases List.mem_cons.mp hd with rfl | hd
          · simpa using hc
          · exact ih List.mem_cons_self d hd
        · exact ih (List.mem_cons_of_mem v h)

theorem mem_words {w s : List Char} (h : w ∈ words s) : NoSpace w ∧ w ≠ [] := by
  rw [words, List.mem_filter] at h
  exact ⟨noSpace_of_mem_splitOnP h.1, by simpa using h.2⟩

theorem flatten_words_sublist (s : List Char) : (words s).flatten.Sublist s := by
  have hsplit : (s.splitOnP isSpace).flatten.Sublist s := by
    induction s with
    | nil => simp
    | cons c s ih =>
      rw [List.splitOnP_cons_eq_if_modifyHead]
      by_cases hc : isSpace c
      · rw [if_pos hc, List.flatten_cons, List.nil_append]
        exact ih.cons c
      · rw [if_neg hc]
        match hs : s.splitOnP isSpace, List.splitOnP_ne_nil isSpace s with
        | w :: ws, _ =>
          rw [hs] at ih
          exact ih.cons_cons c
  rw [words, List.flatten_filter_ne_nil]
  exact hsplit

theorem count_words (c : Char) (s : List Char) :
    ((words s).map (List.count c)).sum ≤ s.count c := by
  rw [← List.count_flatten]
  exact (flatten_words_sublist s).count_le c

/-! ## Numbers -/

def digitsValue (s : List Char) : Option Nat :=
  if s ≠ [] ∧ s.all Char.isDigit then some (Nat.ofDigitChars 10 s 0) else none

/-- `int(s)`: spaces around the number and a sign are allowed. -/
def int (s : List Char) : Option Int :=
  match strip s with
  | '-' :: digits => (digitsValue digits).map fun n => -(n : Int)
  | '+' :: digits => (digitsValue digits).map fun n => (n : Int)
  | digits => (digitsValue digits).map fun n => (n : Int)

theorem isSpace_digit {c : Char} (hc : c.isDigit = true) : isSpace c = false := by
  by_contra h
  have htrue : isSpace c = true := by simpa using h
  have hmem : c ∈ [' ', '\t', '\n', '\r', Char.ofNat 11, Char.ofNat 12] :=
    List.contains_iff_mem.mp htrue
  have hnot : ∀ d ∈ [' ', '\t', '\n', '\r', Char.ofNat 11, Char.ofNat 12], d.isDigit = false :=
    forall_eq_false_of_all (by decide)
  rw [hnot c hmem] at hc
  cases hc

theorem strip_noSpace {s : List Char} (h : NoSpace s) : strip s = s := by
  cases hs : s with
  | nil => rfl
  | cons c t =>
    rw [hs] at h
    have hdrop : (c :: t).dropWhile isSpace = c :: t :=
      List.dropWhile_cons_of_neg (by simp [h c List.mem_cons_self])
    rw [strip, hdrop, List.rdropWhile_eq_self_iff]
    intro hne
    simp [h _ (List.getLast_mem hne)]

theorem digits_toDigits (n : Nat) : ∀ c ∈ Nat.toDigits 10 n, c.isDigit = true :=
  fun _ hc => Nat.isDigit_of_mem_toDigits (by decide) (by decide) hc

theorem int_toDigits (n : Nat) : int (Nat.toDigits 10 n) = some (n : Int) := by
  have hstrip : strip (Nat.toDigits 10 n) = Nat.toDigits 10 n :=
    strip_noSpace fun c hc => isSpace_digit (digits_toDigits n c hc)
  have hvalue : digitsValue (Nat.toDigits 10 n) = some n := by
    rw [digitsValue, if_pos ⟨Nat.toDigits_ne_nil, List.all_eq_true.mpr (digits_toDigits n)⟩,
      Nat.ofDigitChars_ten_toDigits]
  have hdigits := digits_toDigits n
  unfold int
  rw [hstrip]
  split
  · next digits heq =>
    have hminus := hdigits '-' (by rw [heq]; exact List.mem_cons_self)
    cases hminus
  · next digits heq =>
    have hplus := hdigits '+' (by rw [heq]; exact List.mem_cons_self)
    cases hplus
  · rw [hvalue]
    rfl

/-! ## Parsing every line -/

section

variable {α β : Type} {f : α → Option β} {l : List α}

theorem mapM_eq_none (h : ∃ x ∈ l, f x = none) : l.mapM f = none := by
  induction l with
  | nil =>
    obtain ⟨x, hx, -⟩ := h
    cases hx
  | cons a l ih =>
    rw [List.mapM_cons]
    obtain ⟨x, hx, hnone⟩ := h
    rcases List.mem_cons.mp hx with rfl | hx
    · rw [hnone]
      rfl
    · rw [ih ⟨x, hx, hnone⟩]
      cases f a <;> rfl

theorem exists_of_mem_mapM {ys : List β} {y : β} (h : l.mapM f = some ys) (hy : y ∈ ys) :
    ∃ x ∈ l, f x = some y := by
  induction l generalizing ys with
  | nil =>
    cases h
    cases hy
  | cons a l ih =>
    rw [List.mapM_cons] at h
    cases hfa : f a with
    | none => simp [hfa] at h
    | some b =>
      cases hl : l.mapM f with
      | none => simp [hfa, hl] at h
      | some bs =>
        rw [hfa, hl] at h
        cases h
        rcases List.mem_cons.mp hy with rfl | hy
        · exact ⟨a, List.mem_cons_self, hfa⟩
        · obtain ⟨x, hx, hfx⟩ := ih hl hy
          exact ⟨x, List.mem_cons_of_mem a hx, hfx⟩

theorem mapM_eq_map {g : α → β} (h : ∀ x ∈ l, f x = some (g x)) : l.mapM f = some (l.map g) := by
  induction l with
  | nil => rfl
  | cons a l ih =>
    rw [List.mapM_cons, h a List.mem_cons_self, ih fun x hx => h x (List.mem_cons_of_mem a hx)]
    rfl

end

end Lib.Fields
