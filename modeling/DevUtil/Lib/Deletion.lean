import Mathlib.Algebra.Ring.Nat
import Mathlib.Data.List.DropRight
import DevUtil.Lib.FirstMatch

/-!
# Deleting from a word to the end of the line

`re.sub(r'word.*\n?', '', text)`.  Where the word stands at the beginning of a line the line
goes; where it stands in the middle the rest of the line goes, and the line end with it.

    the substitution on the lines of the text                  (sub_toLineEnd)
    the word only at the beginning of lines → these lines go   (exists_cut_eq)
    … and not only there → more than these lines goes          (countP_cut_lt)
-/

namespace Lib

/-! ## Lines and texts -/

/-- The text with these lines. -/
def unlines : List (List Char) → List Char
  | [] => []
  | [l] => l
  | l :: l' :: ls => l ++ '\n' :: unlines (l' :: ls)

theorem unlines_cons {l : List Char} {ls : List (List Char)} (h : ls ≠ []) :
    unlines (l :: ls) = l ++ '\n' :: unlines ls := by
  cases ls with
  | nil => exact absurd rfl h
  | cons l' ls => rfl

theorem unlines_concat {ls : List (List Char)} (h : ls ≠ []) (l : List Char) :
    unlines (ls ++ [l]) = unlines ls ++ '\n' :: l := by
  induction ls with
  | nil => exact absurd rfl h
  | cons l' ls ih =>
    by_cases hls : ls = []
    · subst hls
      rfl
    · have hne : ls ++ [l] ≠ [] := List.append_ne_nil_of_left_ne_nil hls _
      rw [List.cons_append, unlines_cons hne, ih hls, unlines_cons hls, List.append_assoc]
      rfl

theorem lines_of_not_mem {l : List Char} (h : '\n' ∉ l) : lines l = [l] := by
  have happ := lines_append h []
  rw [List.append_nil, lines_nil] at happ
  rw [happ, List.modifyHead_cons, List.append_nil]

theorem lines_unlines {ls : List (List Char)} (hne : ls ≠ []) (h : ∀ l ∈ ls, '\n' ∉ l) :
    lines (unlines ls) = ls := by
  induction ls with
  | nil => exact absurd rfl hne
  | cons l ls ih =>
    have hl := lines_of_not_mem (h l List.mem_cons_self)
    by_cases hls : ls = []
    · subst hls
      exact hl
    · rw [unlines_cons hls, lines_append_newline, hl,
        ih hls fun l' hl' => h l' (List.mem_cons_of_mem l hl')]
      rfl

/-- A text is its first line, or goes on after it. -/
theorem lines_cases (cs : List Char) : ∃ l, '\n' ∉ l ∧
    (cs = l ∧ lines cs = [l] ∨ ∃ rest, cs = l ++ '\n' :: rest ∧ lines cs = l :: lines rest) := by
  induction cs with
  | nil => exact ⟨[], List.not_mem_nil, .inl ⟨rfl, rfl⟩⟩
  | cons c cs ih =>
    by_cases hc : c = '\n'
    · exact ⟨[], List.not_mem_nil, .inr ⟨cs, by rw [hc]; rfl, by rw [hc, lines_newline]⟩⟩
    · obtain ⟨l, hl, hcase⟩ := ih
      have hcl : '\n' ∉ c :: l := fun hin => (List.mem_cons.mp hin).elim (fun he => hc he.symm) hl
      refine ⟨c :: l, hcl, ?_⟩
      rcases hcase with ⟨hcs, hlines⟩ | ⟨rest, hcs, hlines⟩
      · exact .inl ⟨by rw [hcs], by rw [lines_cons hc, hlines]; rfl⟩
      · exact .inr ⟨rest, by rw [hcs]; rfl, by rw [lines_cons hc, hlines]; rfl⟩

theorem unlines_lines (cs : List Char) : unlines (lines cs) = cs := by
  induction hlen : cs.length using Nat.strongRecOn generalizing cs with
  | ind n ih =>
    obtain ⟨l, hl, ⟨hcs, hlines⟩ | ⟨rest, hcs, hlines⟩⟩ := lines_cases cs
    · rw [hlines, hcs]
      rfl
    · have hlt : rest.length < n := by
        rw [← hlen, hcs, List.length_append, List.length_cons]
        omega
      obtain ⟨first, others, hrest⟩ := exists_lines rest
      rw [hlines, unlines_cons (by rw [hrest]; exact List.cons_ne_nil _ _), ih _ hlt rest rfl, hcs]

/-- A line of the beginning of a text is the beginning of a line. -/
theorem exists_line_prefix {l cs : List Char} (x : List Char) (h : l ∈ lines cs) :
    ∃ k ∈ lines (cs ++ x), l <+: k := by
  induction hlen : cs.length using Nat.strongRecOn generalizing cs with
  | ind n ih =>
    obtain ⟨first, hfirst, ⟨hcs, hlines⟩ | ⟨rest, hcs, hlines⟩⟩ := lines_cases cs
    · rw [hlines] at h
      obtain rfl := List.mem_singleton.mp h
      obtain ⟨first, others, hx⟩ := exists_lines x
      rw [hcs, lines_append hfirst, hx]
      exact ⟨l ++ first, List.mem_cons_self, List.prefix_append l first⟩
    · have hlt : rest.length < n := by
        rw [← hlen, hcs, List.length_append, List.length_cons]
        omega
      have htext : cs ++ x = first ++ '\n' :: (rest ++ x) := by rw [hcs, List.append_assoc]; rfl
      rw [htext, lines_append_newline, lines_of_not_mem hfirst]
      rw [hlines] at h
      rcases List.mem_cons.mp h with rfl | h
      · exact ⟨l, List.mem_append_left _ (List.mem_singleton.mpr rfl), List.prefix_refl l⟩
      · obtain ⟨k, hk, hprefix⟩ := ih _ hlt h rfl
        exact ⟨k, List.mem_append_right _ hk, hprefix⟩

/-! ## What is cut off -/

/-- What stands before the word. -/
def beforeWord (w : List Char) : List Char → List Char
  | [] => []
  | c :: cs => if w <+: c :: cs then [] else c :: beforeWord w cs

/-- From the word on the line is cut off, and its end. -/
def cut (w : List Char) : List (List Char) → List Char
  | [] => []
  | [l] => beforeWord w l
  | l :: l' :: ls =>
    if w <:+: l then beforeWord w l ++ cut w (l' :: ls) else l ++ '\n' :: cut w (l' :: ls)

theorem cut_cons {w l : List Char} {ls : List (List Char)} (h : ls ≠ []) :
    cut w (l :: ls) = if w <:+: l then beforeWord w l ++ cut w ls else l ++ '\n' :: cut w ls := by
  cases ls with
  | nil => exact absurd rfl h
  | cons l' ls => rfl

variable {w : List Char}

theorem beforeWord_of_not_infix {l : List Char} (h : ¬w <:+: l) : beforeWord w l = l := by
  induction l with
  | nil => rfl
  | cons c l ih =>
    rw [beforeWord, if_neg fun hp => h hp.isInfix,
      ih fun hin => h (hin.trans (List.suffix_cons c l).isInfix)]

theorem beforeWord_of_prefix {l : List Char} (hw : w ≠ []) (h : w <+: l) : beforeWord w l = [] := by
  cases l with
  | nil => exact absurd (List.prefix_nil.mp h) hw
  | cons c l => rw [beforeWord, if_pos h]

theorem exists_beforeWord {l : List Char} (h : w <:+: l) (hw : w ≠ []) :
    ∃ t, l = beforeWord w l ++ (w ++ t) := by
  induction l with
  | nil => exact absurd (List.infix_nil.mp h) hw
  | cons c l ih =>
    by_cases hp : w <+: c :: l
    · obtain ⟨t, ht⟩ := hp
      exact ⟨t, by rw [ beforeWord_of_prefix hw ⟨t, ht⟩, ← ht]; rfl⟩
    · obtain ⟨t, ht⟩ := ih ((List.infix_cons_iff.mp h).resolve_left hp)
      refine ⟨t, ?_⟩
      rw [beforeWord, if_neg hp, List.cons_append, ← ht]

theorem countP_beforeWord_lt {q : Char → Bool} (hw : ∃ c ∈ w, q c = true) {l : List Char}
    (h : w <:+: l) :
    (beforeWord w l).countP q < l.countP q := by
  have hne : w ≠ [] := by
    obtain ⟨c, hc, -⟩ := hw
    exact List.ne_nil_of_mem hc
  obtain ⟨t, ht⟩ := exists_beforeWord h hne
  have hpos : 0 < w.countP q := List.countP_pos_iff.mpr hw
  have hsum : l.countP q = (beforeWord w l).countP q + (w.countP q + t.countP q) := by
    rw [← List.countP_append, ← List.countP_append, ← ht]
  omega

theorem countP_beforeWord_le {q : Char → Bool} (hw : w ≠ []) (l : List Char) :
    (beforeWord w l).countP q ≤ l.countP q := by
  by_cases hin : w <:+: l
  · obtain ⟨t, ht⟩ := exists_beforeWord hin hw
    have hsum : l.countP q = (beforeWord w l).countP q + (w ++ t).countP q := by
      rw [← List.countP_append, ← ht]
    omega
  · rw [ beforeWord_of_not_infix hin]

/-- The lines that do not begin with the word. -/
def keptLines (w : List Char) (ls : List (List Char)) : List (List Char) :=
  ls.filter fun l => !decide (w <+: l)

theorem keptLines_cons (w l : List Char) (ls : List (List Char)) :
    keptLines w (l :: ls) = if w <+: l then keptLines w ls else l :: keptLines w ls := by
  unfold keptLines
  by_cases hp : w <+: l <;> simp [hp]

theorem mem_keptLines {l : List Char} {ls : List (List Char)} (h : l ∈ keptLines w ls) :
    l ∈ ls ∧ ¬w <+: l := by
  obtain ⟨hin, hp⟩ := List.mem_filter.mp h
  exact ⟨hin, by simpa using hp⟩

/-- The word stands only at the beginning of lines. -/
def OnlyBegins (w : List Char) (ls : List (List Char)) : Prop := ∀ l ∈ ls, w <:+: l → w <+: l

instance (w : List Char) (ls : List (List Char)) : Decidable (OnlyBegins w ls) := by
  unfold OnlyBegins
  infer_instance

/-- Whole lines go, and line ends at the end stay. -/
theorem exists_cut_eq (hw : w ≠ []) {ls : List (List Char)} (h : OnlyBegins w ls) :
    ∃ n, cut w ls = unlines (keptLines w ls) ++ List.replicate n '\n' := by
  induction ls with
  | nil => exact ⟨0, rfl⟩
  | cons l ls ih =>
    obtain ⟨n, hn⟩ := ih fun l' hl' => h l' (List.mem_cons_of_mem l hl')
    rw [keptLines_cons]
    by_cases hls : ls = []
    · subst hls
      refine ⟨0, ?_⟩
      rw [List.replicate_zero, List.append_nil, cut]
      by_cases hp : w <+: l
      · rw [if_pos hp, beforeWord_of_prefix hw hp]
        rfl
      · rw [if_neg hp, beforeWord_of_not_infix fun hin => hp (h l List.mem_cons_self hin)]
        rfl
    · rw [cut_cons hls, hn]
      by_cases hp : w <+: l
      · exact ⟨n, by rw [if_pos hp, if_pos hp.isInfix, beforeWord_of_prefix hw hp, List.nil_append]⟩
      · rw [if_neg hp, if_neg fun hin => hp (h l List.mem_cons_self hin)]
        by_cases hkept : keptLines w ls = []
        · refine ⟨n + 1, ?_⟩
          rw [hkept, List.replicate_succ]
          rfl
        · exact ⟨n, by rw [unlines_cons hkept, List.append_assoc, List.cons_append]⟩

section

variable {q : Char → Bool} (hq : q '\n' = false)

include hq

theorem countP_unlines (ls : List (List Char)) :
    (unlines ls).countP q = (ls.map (List.countP q)).sum := by
  induction ls with
  | nil => rfl
  | cons l ls ih =>
    by_cases hls : ls = []
    · subst hls
      rfl
    · rw [unlines_cons hls, List.countP_append, List.countP_cons, ih, hq, List.map_cons,
        List.sum_cons]
      rfl

theorem countP_cut (ls : List (List Char)) :
    (cut w ls).countP q = (ls.map fun l => (beforeWord w l).countP q).sum := by
  induction ls with
  | nil => rfl
  | cons l ls ih =>
    by_cases hls : ls = []
    · subst hls
      rfl
    · rw [cut_cons hls, List.map_cons, List.sum_cons]
      by_cases hin : w <:+: l
      · rw [if_pos hin, List.countP_append, ih]
      · rw [if_neg hin, List.countP_append, List.countP_cons, ih, hq, beforeWord_of_not_infix hin]
        rfl

theorem countP_cut_le (hw : w ≠ []) (ls : List (List Char)) :
    (cut w ls).countP q ≤ (unlines (keptLines w ls)).countP q := by
  rw [countP_cut hq, countP_unlines hq]
  induction ls with
  | nil => exact Nat.le_refl 0
  | cons l ls ih =>
    rw [keptLines_cons, List.map_cons, List.sum_cons]
    by_cases hp : w <+: l
    · rw [if_pos hp, beforeWord_of_prefix hw hp, List.countP_nil]
      omega
    · rw [if_neg hp, List.map_cons, List.sum_cons]
      have hle := countP_beforeWord_le (q := q) hw l
      omega

/-- Where the word stands in the middle of a line, more than whole lines goes. -/
theorem countP_cut_lt (hw : ∃ c ∈ w, q c = true) {ls : List (List Char)} (h : ¬OnlyBegins w ls) :
    (cut w ls).countP q < (unlines (keptLines w ls)).countP q := by
  have hne : w ≠ [] := by
    obtain ⟨c, hc, -⟩ := hw
    exact List.ne_nil_of_mem hc
  induction ls with
  | nil => exact absurd (fun l hl => absurd hl List.not_mem_nil) h
  | cons l ls ih =>
    have hle := countP_cut_le hq hne (w := w) ls
    rw [countP_cut hq, countP_unlines hq] at ih hle ⊢
    rw [keptLines_cons, List.map_cons, List.sum_cons]
    by_cases hp : w <+: l
    · have hrest : ¬OnlyBegins w ls := by
        intro hls
        apply h
        intro l' hl' hin
        rcases List.mem_cons.mp hl' with rfl | hl'
        · exact hp
        · exact hls l' hl' hin
      have hlt := ih hrest
      rw [if_pos hp, beforeWord_of_prefix hne hp, List.countP_nil]
      omega
    · rw [if_neg hp, List.map_cons, List.sum_cons]
      by_cases hin : w <:+: l
      · have hlt := countP_beforeWord_lt (q := q) hw hin
        omega
      · have hrest : ¬OnlyBegins w ls := by
          intro hls
          apply h
          intro l' hl' hin'
          rcases List.mem_cons.mp hl' with rfl | hl'
          · exact absurd hin' hin
          · exact hls l' hl' hin'
        have hlt := ih hrest
        rw [ beforeWord_of_not_infix hin]
        omega

end

/-! ## The substitution -/

namespace Regex

/-- `word.*\n?` -/
def toLineEnd (word : String) : Regex := all [lit word, .star dot, .alt (.char (· == '\n')) .empty]

variable {word : String}

theorem first_alt {r t : Regex} {cs cs' : List Char} {g g' : Option (List Char)}
    (h : First r cs g cs' g') :
    First (.alt r t) cs g cs' g' := by
  intro prev
  obtain ⟨prev', hr⟩ := h prev
  exact ⟨prev', by rw [go, List.head?_append, hr]; rfl⟩

/-- The match takes the line end. -/
theorem first_toLineEnd {t : List Char} (ht : '\n' ∉ t) (rest : List Char) :
    First (toLineEnd word) (word.toList ++ (t ++ '\n' :: rest)) none rest none := by
  have hdot : ∀ c ∈ t, (c != '\n') = true := fun c hc => bne_iff_ne.mpr fun he => ht (he ▸ hc)
  have hstar : First (.star dot) (t ++ '\n' :: rest) none ('\n' :: rest) none := by
    refine first_star_char hdot fun c hc => ?_
    obtain rfl := Option.some.inj hc
    rfl
  exact (first_literal word.toList).seq (hstar.seq ((first_alt (first_char rfl)).seq first_empty))

/-- There is none at the end of the text. -/
theorem first_toLineEnd_last {t : List Char} (ht : '\n' ∉ t) :
    First (toLineEnd word) (word.toList ++ t) none [] none := by
  have hdot : ∀ c ∈ t, (c != '\n') = true := fun c hc => bne_iff_ne.mpr fun he => ht (he ▸ hc)
  have hstar : First (.star dot) (t ++ []) none [] none :=
    first_star_char hdot fun c hc => by cases hc
  rw [List.append_nil] at hstar
  have hnone : First (.alt (.char (· == '\n')) .empty) [] none [] none := fun prev => ⟨prev, rfl⟩
  exact (first_literal word.toList).seq (hstar.seq (hnone.seq first_empty))

theorem go_toLineEnd {cs : List Char} (h : ¬word.toList <+: cs) (prev : Option Char) :
    (toLineEnd word).go ⟨prev, cs, none⟩ = [] := by
  apply List.eq_nil_iff_forall_not_mem.mpr
  intro s' hs'
  obtain ⟨s₁, hs₁, -⟩ := List.mem_flatMap.mp hs'
  exact h ⟨s₁.rest, (go_lit hs₁).symm⟩

theorem subFrom_of_first {r : Regex} {repl : List Char → List Char} {u rest : List Char}
    (hu : u ≠ []) (h : First r (u ++ rest) none rest none) (fuel : Nat) (prev : Option Char) :
    ∃ prev', r.subFrom repl (fuel + 1) prev (u ++ rest) = repl u ++
      r.subFrom repl fuel prev' rest := by
  obtain ⟨prev', hgo⟩ := h prev
  refine ⟨prev', ?_⟩
  cases u with
  | nil => exact absurd rfl hu
  | cons c u =>
    have hlt : rest.length < (c :: u ++ rest).length := by
      rw [List.length_append, List.length_cons]
      omega
    have htake : (c :: (u ++ rest)).take ((c :: (u ++ rest)).length - rest.length) = c :: u := by
      have hlen : (c :: (u ++ rest)).length - rest.length = (c :: u).length := by
        rw [List.length_cons, List.length_append, List.length_cons]
        omega
      rw [hlen]
      exact List.take_left
    rw [List.cons_append] at hgo hlt ⊢
    simp only [subFrom, hgo, if_pos hlt, htake]

theorem subFrom_of_nil {r : Regex} {repl : List Char → List Char} {c : Char} {cs : List Char}
    {prev : Option Char} (h : r.go ⟨prev, c :: cs, none⟩ = []) (fuel : Nat) :
    r.subFrom repl (fuel + 1) prev (c :: cs) = c :: r.subFrom repl fuel (some c) cs := by
  simp only [subFrom, h, List.head?_nil]

theorem subFrom_deleting_nil (r : Regex) (fuel : Nat) (prev : Option Char) :
    r.subFrom (fun _ => []) fuel prev [] = [] := by
  cases fuel with
  | zero => rfl
  | succ fuel =>
    simp only [subFrom]
    cases (r.go ⟨prev, [], none⟩).head? with
    | none => rfl
    | some s => rfl

/-- A word without a line end that begins the text begins its first line. -/
theorem prefix_line {w l rest : List Char} (hnl : '\n' ∉ w) (h : w <+: l ++ '\n' :: rest) :
    w <+: l := by
  have htext : l ++ ['\n'] <+: l ++ '\n' :: rest := ⟨rest, by rw [List.append_assoc]; rfl⟩
  rcases List.prefix_or_prefix_of_prefix h (List.prefix_append l ('\n' :: rest)) with hp | ⟨t, ht⟩
  · exact hp
  · cases t with
    | nil =>
      rw [List.append_nil] at ht
      exact ht ▸ List.prefix_refl l
    | cons c t =>
      have hc : c :: t <+: '\n' :: rest := by
        rw [← ht] at h
        exact (List.prefix_append_right_inj l).mp h
      exact absurd (ht ▸ List.mem_append_right l
        ((List.cons_prefix_cons.mp hc).1 ▸ List.mem_cons_self)) hnl

section

variable {rest cutRest : List Char} (hw : word.toList ≠ []) (hnl : '\n' ∉ word.toList)

include hw

/-- The last line. -/
theorem subFrom_last : ∀ (l : List Char), '\n' ∉ l → ∀ fuel prev, l.length < fuel →
    (toLineEnd word).subFrom (fun _ => []) fuel prev l = beforeWord word.toList l := by
  intro l
  induction l with
  | nil =>
    intro _ fuel prev _
    exact subFrom_deleting_nil _ fuel prev
  | cons c l ih =>
    intro hl fuel prev hfuel
    obtain ⟨fuel, rfl⟩ : ∃ n, fuel = n + 1 := ⟨fuel - 1, by omega⟩
    have hlen : l.length < fuel := by
      rw [List.length_cons] at hfuel
      omega
    by_cases hp : word.toList <+: c :: l
    · obtain ⟨t, ht⟩ := hp
      have hfirst := @first_toLineEnd_last word t fun hin => hl (ht ▸ List.mem_append_right _ hin)
      have htext : word.toList ++ t = (c :: l) ++ [] := by rw [ht, List.append_nil]
      rw [htext] at hfirst
      obtain ⟨prev', hsub⟩ :=
        @subFrom_of_first (toLineEnd word) (fun _ => []) _ _ (List.cons_ne_nil c l) hfirst fuel prev
      rw [List.append_nil] at hsub
      rw [hsub, beforeWord_of_prefix hw ⟨t, ht⟩, subFrom_deleting_nil]
      rfl
    · rw [subFrom_of_nil (go_toLineEnd hp prev),
        ih (fun hin => hl (List.mem_cons_of_mem c hin)) fuel _ hlen, beforeWord,
        if_neg hp]

include hnl

/-- One line of the text, with what comes after it. -/
theorem subFrom_line
    (hrest : ∀ fuel prev, rest.length < fuel →
      (toLineEnd word).subFrom (fun _ => []) fuel prev rest = cutRest) :
    ∀ (l : List Char), '\n' ∉ l → ∀ fuel prev, (l ++ '\n' :: rest).length < fuel →
      (toLineEnd word).subFrom (fun _ => []) fuel prev (l ++ '\n' :: rest) =
        if word.toList <:+: l then beforeWord word.toList l ++ cutRest
        else l ++ '\n' :: cutRest := by
  intro l
  induction l with
  | nil =>
    intro _ fuel prev hfuel
    obtain ⟨fuel, rfl⟩ : ∃ n, fuel = n + 1 := ⟨fuel - 1, by omega⟩
    have hno : ¬word.toList <+: '\n' :: rest :=
      fun hp => hw (List.prefix_nil.mp (prefix_line hnl hp))
    have hlt : rest.length < fuel := by
      rw [List.nil_append, List.length_cons] at hfuel
      omega
    rw [List.nil_append, subFrom_of_nil (go_toLineEnd hno prev), hrest fuel _ hlt,
      if_neg fun h => hw (List.infix_nil.mp h)]
    rfl
  | cons c l ih =>
    intro hl fuel prev hfuel
    obtain ⟨fuel, rfl⟩ : ∃ n, fuel = n + 1 := ⟨fuel - 1, by omega⟩
    have hlen : (l ++ '\n' :: rest).length < fuel := by
      rw [List.cons_append, List.length_cons] at hfuel
      omega
    by_cases hp : word.toList <+: c :: l
    · -- the word is here, and the line goes from here on
      obtain ⟨t, ht⟩ := hp
      have hfirst := @first_toLineEnd word t (fun hin => hl (ht ▸ List.mem_append_right _ hin)) rest
      have htext : word.toList ++ (t ++ '\n' :: rest) = c :: (l ++ ['\n']) ++ rest := by
        rw [← List.append_assoc, ht, ← List.cons_append, List.append_assoc]
        rfl
      rw [htext] at hfirst
      obtain ⟨prev', hsub⟩ := @subFrom_of_first (toLineEnd word)
        (fun _ => []) _ _ (List.cons_ne_nil c (l ++ ['\n'])) hfirst fuel prev
      have hlt : rest.length < fuel := by
        rw [List.length_append, List.length_cons] at hlen
        omega
      have hgoal : c :: l ++ '\n' :: rest = c :: (l ++ ['\n']) ++ rest := by
        rw [← List.cons_append, List.append_assoc]
        rfl
      rw [hgoal, hsub, hrest fuel prev' hlt, if_pos ⟨[], t, by rw [List.nil_append, ht]⟩,
        beforeWord_of_prefix hw ⟨t, ht⟩]
    · have hno : ¬word.toList <+: c :: (l ++ '\n' :: rest) := fun hpre => hp (prefix_line hnl hpre)
      rw [List.cons_append, subFrom_of_nil (go_toLineEnd hno prev),
        ih (fun hin => hl (List.mem_cons_of_mem c hin)) fuel _ hlen,
        beforeWord, if_neg hp]
      by_cases hin : word.toList <:+: l
      · rw [if_pos hin, if_pos (hin.trans (List.suffix_cons c l).isInfix)]
        rfl
      · rw [if_neg hin, if_neg fun h => (List.infix_cons_iff.mp h).elim hp hin]
        rfl

/-- What is left of a text. -/
theorem sub_toLineEnd (cs : List Char) :
    (toLineEnd word).sub (fun _ => []) cs = cut word.toList (lines cs) := by
  have hfrom : ∀ n (cs : List Char), cs.length = n → ∀ fuel prev, cs.length < fuel →
      (toLineEnd word).subFrom (fun _ => []) fuel prev cs = cut word.toList (lines cs) := by
    intro n
    induction n using Nat.strongRecOn with
    | ind n ih =>
      intro cs hlen fuel prev hfuel
      obtain ⟨l, hl, ⟨hcs, hlines⟩ | ⟨rest, hcs, hlines⟩⟩ := lines_cases cs
      · rw [hlines, hcs]
        exact subFrom_last hw l hl fuel prev (hcs ▸ hfuel)
      · have hlt : rest.length < n := by
          rw [← hlen, hcs, List.length_append, List.length_cons]
          omega
        have hne : lines rest ≠ [] := by
          obtain ⟨first, others, hrest⟩ := exists_lines rest
          rw [hrest]
          exact List.cons_ne_nil _ _
        rw [hlines, cut_cons hne]
        subst hcs
        exact subFrom_line hw hnl (ih _ hlt rest rfl) l hl fuel prev hfuel
  exact hfrom cs.length cs rfl _ _ (Nat.lt_succ_self _)

end

end Regex

end Lib
