import Mathlib.Data.List.DropRight
import Mathlib.Data.List.Infix

/-!
# The lines of a text

    a text in front changes the first line only              (mem_tail_lines_append)
    what stands in a line stands in one after trimming       (InLine.trim)
    … and with another text in front                         (exists_line_append)
-/

namespace Lib

/-- What `\n` divides a text into. -/
def lines (cs : List Char) : List (List Char) := cs.splitOn '\n'

@[simp] theorem lines_nil : lines [] = [[]] := rfl

theorem lines_newline (cs : List Char) : lines ('\n' :: cs) = [] :: lines cs := by
  simp [lines, List.splitOn, List.splitOnP_cons_eq_if_modifyHead]

theorem lines_cons {c : Char} (hc : c ≠ '\n') (cs : List Char) :
    lines (c :: cs) = (lines cs).modifyHead (c :: ·) := by
  simp [lines, List.splitOn, List.splitOnP_cons_eq_if_modifyHead, hc]

theorem exists_lines (cs : List Char) : ∃ first others, lines cs = first :: others := by
  cases h : lines cs with
  | nil => exact absurd h (List.splitOnP_ne_nil _ cs)
  | cons first others => exact ⟨first, others, rfl⟩

theorem lines_append {u : List Char} (hu : '\n' ∉ u) (cs : List Char) :
    lines (u ++ cs) = (lines cs).modifyHead (u ++ ·) := by
  induction u with
  | nil =>
    obtain ⟨first, others, h⟩ := exists_lines cs
    simp [h]
  | cons c u ih =>
    have hc : c ≠ '\n' := fun h => hu (h ▸ List.mem_cons_self)
    obtain ⟨first, others, h⟩ := exists_lines cs
    rw [List.cons_append, lines_cons hc, ih fun h => hu (List.mem_cons_of_mem c h), h]
    rfl

/-- A text in front changes the first line only. -/
theorem mem_tail_lines_append {l cs : List Char} (x : List Char) (h : l ∈ (lines cs).tail) :
    l ∈ (lines (x ++ cs)).tail := by
  induction x with
  | nil => exact h
  | cons c x ih =>
    by_cases hc : c = '\n'
    · rw [hc, List.cons_append, lines_newline]
      exact List.mem_of_mem_tail ih
    · obtain ⟨first, others, hlines⟩ := exists_lines (x ++ cs)
      rw [List.cons_append, lines_cons hc, hlines]
      rw [hlines] at ih
      exact ih

theorem lines_append_newline (u v : List Char) : lines (u ++ '\n' :: v) = lines u ++ lines v :=
  List.splitOn_append_cons_self u v

theorem exists_line_append {l cs : List Char} (x : List Char) (h : l ∈ lines cs) :
    ∃ k ∈ lines (x ++ cs), l <:+ k := by
  induction x with
  | nil => exact ⟨l, h, List.suffix_rfl⟩
  | cons c x ih =>
    obtain ⟨k, hk, hl⟩ := ih
    by_cases hc : c = '\n'
    · rw [hc, List.cons_append, lines_newline]
      exact ⟨k, List.mem_cons_of_mem _ hk, hl⟩
    · obtain ⟨first, others, hlines⟩ := exists_lines (x ++ cs)
      rw [List.cons_append, lines_cons hc, hlines]
      rw [hlines] at hk
      rcases List.mem_cons.mp hk with rfl | hk
      · exact ⟨c :: k, List.mem_cons_self, hl.trans (List.suffix_cons c k)⟩
      · exact ⟨k, List.mem_cons_of_mem _ hk, hl⟩

theorem lines_concat {c : Char} (hc : c ≠ '\n') (cs : List Char) :
    ∃ others last, lines cs = others ++ [last] ∧ lines (cs ++ [c]) = others ++ [last ++ [c]] := by
  induction cs with
  | nil => exact ⟨[], [], rfl, by rw [List.nil_append, lines_cons hc]; rfl⟩
  | cons d cs ih =>
    obtain ⟨others, last, hcs, hconcat⟩ := ih
    by_cases hd : d = '\n'
    · refine ⟨[] :: others, last, ?_, ?_⟩
      · rw [hd, lines_newline, hcs, List.cons_append]
      · rw [hd, List.cons_append, lines_newline, hconcat, List.cons_append]
    · cases others with
      | nil =>
        exact ⟨[], d :: last, by
            rw [lines_cons hd, hcs]; rfl, by rw [List.cons_append, lines_cons hd, hconcat]; rfl⟩
      | cons first others =>
        exact ⟨(d :: first) :: others, last, by rw [lines_cons hd, hcs]; rfl,
          by rw [List.cons_append, lines_cons hd, hconcat]; rfl⟩

theorem prefix_of_lines {first cs : List Char} {others : List (List Char)}
    (h : lines cs = first :: others) :
    first <+: cs := by
  induction cs generalizing first others with
  | nil =>
    obtain ⟨rfl, -⟩ := List.cons.inj h
    exact List.nil_prefix
  | cons c cs ih =>
    by_cases hc : c = '\n'
    · rw [hc, lines_newline] at h
      rw [← (List.cons.inj h).1]
      exact List.nil_prefix
    · obtain ⟨first', others', hlines⟩ := exists_lines cs
      rw [lines_cons hc, hlines] at h
      rw [← (List.cons.inj h).1]
      exact List.cons_prefix_cons.mpr ⟨rfl, ih hlines⟩

theorem infix_of_mem_lines {l cs : List Char} (h : l ∈ lines cs) : l <:+: cs := by
  induction cs with
  | nil =>
    rw [List.mem_singleton.mp h]
    exact List.nil_infix
  | cons c cs ih =>
    obtain ⟨first, others, hlines⟩ := exists_lines (c :: cs)
    rw [hlines] at h
    rcases List.mem_cons.mp h with rfl | htail
    · exact (prefix_of_lines hlines).isInfix
    · have hmem : l ∈ lines cs := by
        by_cases hc : c = '\n'
        · rw [hc, lines_newline] at hlines
          exact (List.cons.inj hlines).2 ▸ htail
        · obtain ⟨first', others', hlines'⟩ := exists_lines cs
          rw [lines_cons hc, hlines'] at hlines
          rw [hlines', (List.cons.inj hlines).2]
          exact List.mem_cons_of_mem _ htail
      exact (ih hmem).trans (List.suffix_cons c cs).isInfix

theorem not_mem_of_mem_lines {l cs : List Char} (h : l ∈ lines cs) : '\n' ∉ l := by
  induction cs generalizing l with
  | nil =>
    rw [List.mem_singleton.mp h]
    exact List.not_mem_nil
  | cons c cs ih =>
    by_cases hc : c = '\n'
    · rw [hc, lines_newline] at h
      rcases List.mem_cons.mp h with rfl | h
      · exact List.not_mem_nil
      · exact ih h
    · obtain ⟨first, others, hlines⟩ := exists_lines cs
      rw [lines_cons hc, hlines] at h
      rw [hlines] at ih
      rcases List.mem_cons.mp h with rfl | h
      · exact fun hmem => (List.mem_cons.mp hmem).elim (fun e => hc e.symm) (ih List.mem_cons_self)
      · exact ih (List.mem_cons_of_mem _ h)

theorem rdropWhile_append_cons {p : Char → Bool} {c : Char} (hc : p c = false) (u v : List Char) :
    (u ++ c :: v).rdropWhile p = u ++ c :: v.rdropWhile p := by
  induction v using List.reverseRecOn with
  | nil => exact List.rdropWhile_concat_neg _ _ _ (by simp [hc])
  | append_singleton v d ih =>
    have hassoc : u ++ c :: (v ++ [d]) = (u ++ c :: v) ++ [d] := by simp
    by_cases hd : p d = true
    · rw [hassoc, List.rdropWhile_concat_pos _ _ _ hd, List.rdropWhile_concat_pos _ _ _ hd, ih]
    · rw [hassoc, List.rdropWhile_concat_neg _ _ _ hd, List.rdropWhile_concat_neg _ _ _ hd, hassoc]

/-! ## What stands in a line -/

/-- `x` stands in a line without `w`. -/
def InLine (w x cs : List Char) : Prop := ∃ k ∈ lines cs, ¬w <:+: k ∧ x <:+: k

/-- A text that neither begins nor ends with what `p` accepts. -/
structure Bare (p : Char → Bool) (x : List Char) : Prop where
  ne_nil : x ≠ []
  head : ∀ c ∈ x.head?, p c = false
  last : ∀ c ∈ x.getLast?, p c = false

variable {p : Char → Bool} {w x cs : List Char}

theorem bare_of_all (hne : x ≠ []) (hhead : (x.head?.all fun c => !p c) = true)
    (hlast : (x.getLast?.all fun c => !p c) = true) : Bare p x where
  ne_nil := hne
  head := fun c hc => by
    rw [Option.mem_def.mp hc] at hhead
    simpa using hhead
  last := fun c hc => by
    rw [Option.mem_def.mp hc] at hlast
    simpa using hlast

theorem Bare.mono {q : Char → Bool} (hx : Bare p x) (h : ∀ c, q c = true → p c = true) :
    Bare q x where
  ne_nil := hx.ne_nil
  head := fun c hc => Bool.eq_false_iff.mpr fun hq => absurd (h c hq) (by simp [hx.head c hc])
  last := fun c hc => Bool.eq_false_iff.mpr fun hq => absurd (h c hq) (by simp [hx.last c hc])

theorem Bare.infix_of_cons (hx : Bare p x) {c : Char} (hc : p c = true) {l : List Char}
    (h : x <:+: c :: l) :
    x <:+: l := by
  rcases List.infix_cons_iff.mp h with h | h
  · cases x with
    | nil => exact absurd rfl hx.ne_nil
    | cons d x =>
      have hd := hx.head d rfl
      rw [(List.cons_prefix_cons.mp h).1, hc] at hd
      cases hd
  · exact h

theorem Bare.infix_of_concat (hx : Bare p x) {c : Char} (hc : p c = true) {l : List Char}
    (h : x <:+: l ++ [c]) :
    x <:+: l := by
  rcases List.infix_concat_iff.mp h with h | h
  · obtain ⟨y, hy⟩ := h
    have hlast : x.getLast? = some c := by
      have hget := congrArg List.getLast? hy
      rw [List.getLast?_append, List.getLast?_append] at hget
      cases hnil : x.getLast? with
      | none => exact absurd (List.getLast?_eq_none_iff.mp hnil) hx.ne_nil
      | some d =>
        rw [hnil] at hget
        simpa using hget
    have hd := hx.last c hlast
    rw [hc] at hd
    cases hd
  · exact h

theorem Bare.infix_rdropWhile (hx : Bare p x) {l : List Char} (h : x <:+: l) :
    x <:+: l.rdropWhile p := by
  induction l using List.reverseRecOn with
  | nil => exact h
  | append_singleton l c ih =>
    by_cases hc : p c = true
    · rw [List.rdropWhile_concat_pos _ _ _ hc]
      exact ih (hx.infix_of_concat hc h)
    · rw [List.rdropWhile_concat_neg _ _ _ hc]
      exact h

theorem InLine.dropWhile (hx : Bare p x) (h : InLine w x cs) : InLine w x (cs.dropWhile p) := by
  induction cs with
  | nil => exact h
  | cons c cs ih =>
    by_cases hc : p c = true
    · rw [List.dropWhile_cons_of_pos hc]
      obtain ⟨k, hk, hw, hxk⟩ := h
      apply ih
      by_cases hnl : c = '\n'
      · rw [hnl, lines_newline] at hk
        rcases List.mem_cons.mp hk with rfl | hk
        · exact absurd (List.infix_nil.mp hxk) hx.ne_nil
        · exact ⟨k, hk, hw, hxk⟩
      · obtain ⟨first, others, hlines⟩ := exists_lines cs
        rw [lines_cons hnl, hlines] at hk
        rw [InLine, hlines]
        rcases List.mem_cons.mp hk with rfl | hk
        · exact ⟨first, List.mem_cons_self,
            fun h => hw (h.trans (List.suffix_cons c first).isInfix),
            hx.infix_of_cons hc hxk⟩
        · exact ⟨k, List.mem_cons_of_mem _ hk, hw, hxk⟩
    · rw [List.dropWhile_cons_of_neg hc]
      exact h

theorem InLine.rdropWhile (hx : Bare p x) (h : InLine w x cs) : InLine w x (cs.rdropWhile p) := by
  induction cs using List.reverseRecOn with
  | nil => exact h
  | append_singleton cs c ih =>
    by_cases hc : p c = true
    · rw [List.rdropWhile_concat_pos _ _ _ hc]
      obtain ⟨k, hk, hw, hxk⟩ := h
      apply ih
      by_cases hnl : c = '\n'
      · rw [hnl, lines_append_newline, lines_nil] at hk
        rcases List.mem_append.mp hk with hk | hk
        · exact ⟨k, hk, hw, hxk⟩
        · rw [List.mem_singleton.mp hk] at hxk
          exact absurd (List.infix_nil.mp hxk) hx.ne_nil
      · obtain ⟨others, last, hcs, hconcat⟩ := lines_concat hnl cs
        rw [hconcat] at hk
        rw [InLine, hcs]
        rcases List.mem_append.mp hk with hk | hk
        · exact ⟨k, List.mem_append_left _ hk, hw, hxk⟩
        · rw [List.mem_singleton.mp hk] at hw hxk
          exact ⟨last, List.mem_append_right _ List.mem_cons_self,
            fun h => hw (h.trans (List.prefix_append last [c]).isInfix), hx.infix_of_concat hc hxk⟩
    · rw [List.rdropWhile_concat_neg _ _ _ hc]
      exact h

end Lib
