import Mathlib.Data.List.Infix

/-!
# `str.replace`

The occurrences of a pattern are replaced as a search from the left meets them; what has been
replaced is stepped over.

    a text as the search goes through it                       (searchInduction)
    without the pattern it stays as it is                      (replaceFrom_of_not_infix)
    what no occurrence reaches into is kept                    (replaceFrom_append_right)
    a pattern that does not overlap itself is always found     (replaceFrom_append_old)
    a piece between two matches has no such character          (not_mem_of_not_matchesAt)
    (s.replace c r).toList = s.toList with r for each c        (toList_replace)

The last two are about Lean's own `String.replace`, for a pattern of one character.
-/

namespace Lib

open String.Slice String.Slice.Pattern String.Slice.Pattern.Model

/-! ## Lists -/

section

variable {α : Type} [DecidableEq α] {old new : List α}

/-- `s.replace(old, new)` for a pattern that is not empty, after `skip` more elements. -/
def replaceFrom (old new : List α) : Nat → List α → List α
  | _, [] => []
  | skip + 1, _ :: s => replaceFrom old new skip s
  | 0, c :: s =>
    if old.isPrefixOf (c :: s) then new ++ replaceFrom old new (old.length - 1) s
    else c :: replaceFrom old new 0 s

theorem replaceFrom_skip (u s : List α) :
    replaceFrom old new u.length (u ++ s) = replaceFrom old new 0 s := by
  induction u with
  | nil => rfl
  | cons c u ih => exact ih

theorem replaceFrom_old (hold : old ≠ []) (s : List α) :
    replaceFrom old new 0 (old ++ s) = new ++ replaceFrom old new 0 s := by
  cases old with
  | nil => exact absurd rfl hold
  | cons c u =>
    have hprefix : (c :: u).isPrefixOf (c :: (u ++ s)) = true :=
      List.isPrefixOf_iff_prefix.mpr (List.prefix_append (c :: u) s)
    rw [List.cons_append, replaceFrom, if_pos hprefix]
    exact congrArg (new ++ ·) (replaceFrom_skip u s)

theorem replaceFrom_cons {c : α} {s : List α} (h : ¬old <+: c :: s) :
    replaceFrom old new 0 (c :: s) = c :: replaceFrom old new 0 s := by
  rw [replaceFrom, if_neg (mt List.isPrefixOf_iff_prefix.mp h)]

/-- What the pattern cannot begin in is kept. -/
theorem replaceFrom_append {a : α} (hhead : old.head? = some a) {u : List α} (hu : a ∉ u)
    (s : List α) :
    replaceFrom old new 0 (u ++ s) = u ++ replaceFrom old new 0 s := by
  induction u with
  | nil => rfl
  | cons c u ih =>
    have hprefix : ¬old <+: c :: (u ++ s) := by
      rintro ⟨t, ht⟩
      cases old with
      | nil => cases hhead
      | cons b old =>
        have hb : b = a := Option.some.inj hhead
        have hbc : b = c := (List.cons.inj ht).1
        exact hu (by rw [← hb, hbc]; exact List.mem_cons_self)
    rw [List.cons_append, replaceFrom_cons hprefix, ih fun h => hu (List.mem_cons_of_mem c h)]
    rfl

/-- A text as the search for the pattern goes through it. -/
theorem searchInduction {motive : List α → Prop} (hold : old ≠ []) (nil : motive [])
    (found : ∀ s, motive s → motive (old ++ s))
    (other : ∀ c s, ¬old <+: c :: s → motive s → motive (c :: s)) :
    ∀ s, motive s := by
  intro s
  induction hn : s.length using Nat.strongRecOn generalizing s with
  | ind n ih =>
    subst hn
    by_cases hprefix : old <+: s
    · obtain ⟨t, rfl⟩ := hprefix
      have hpos := List.length_pos_of_ne_nil hold
      exact found t (ih t.length (by rw [List.length_append]; omega) t rfl)
    · cases s with
      | nil => exact nil
      | cons c s => exact other c s hprefix (ih s.length (by rw [List.length_cons]; omega) s rfl)

theorem replaceFrom_of_not_infix {s : List α} (h : ¬old <:+: s) : replaceFrom old new 0 s = s := by
  induction s with
  | nil => rfl
  | cons c s ih =>
    rw [replaceFrom_cons fun hprefix => h hprefix.isInfix,
      ih fun hinfix => h (List.infix_cons hinfix)]

/-- What no occurrence reaches into is kept. -/
theorem replaceFrom_append_right (hold : old ≠ []) {s t : List α} (ht : ¬old <:+: t)
    (hno : ∀ u v, u ++ v = old → v ≠ [] → u <:+ s → ¬v <+: t) :
    replaceFrom old new 0 (s ++ t) = replaceFrom old new 0 s ++ t := by
  induction s using searchInduction hold with
  | nil => exact replaceFrom_of_not_infix ht
  | found s ih =>
    rw [List.append_assoc, replaceFrom_old hold, replaceFrom_old hold, List.append_assoc,
      ih fun u v huv hv hu => hno u v huv hv (hu.trans (List.suffix_append old s))]
  | other c s hbefore ih =>
    have hlater : ¬old <+: c :: (s ++ t) := by
      intro h
      rcases List.prefix_or_prefix_of_prefix h (List.prefix_append (c :: s) t) with h' | ⟨v, hv⟩
      · exact hbefore h'
      · have hne : v ≠ [] := by
          rintro rfl
          exact hbefore ⟨[], by rw [List.append_nil, ← hv, List.append_nil]⟩
        rw [← hv] at h
        exact hno (c :: s) v hv hne List.suffix_rfl ((List.prefix_append_right_inj (c :: s)).mp h)
    rw [List.cons_append, replaceFrom_cons hlater, replaceFrom_cons hbefore,
      ih fun u v huv hv hu => hno u v huv hv (hu.trans (List.suffix_cons c s)), List.cons_append]

/-- A text is kept if the last character of the pattern is not in it. -/
theorem replaceFrom_append_last {z : α} (hlast : old.getLast? = some z) {t : List α} (ht : z ∉ t)
    (s : List α) : replaceFrom old new 0 (s ++ t) = replaceFrom old new 0 s ++ t := by
  have hold : old ≠ [] := by
    rintro rfl
    cases hlast
  refine replaceFrom_append_right hold (fun h => ht (h.mem (List.mem_of_getLast? hlast))) ?_
  rintro u v rfl hv - hvt
  rw [List.getLast?_append_of_ne_nil _ hv] at hlast
  exact ht (hvt.mem (List.mem_of_getLast? hlast))

/-- An occurrence is found where the pattern does not overlap itself. -/
theorem replaceFrom_append_old {x : α} {xs : List α} (hx : x ∉ xs) (s t : List α) :
    replaceFrom (x :: xs) new 0 (s ++ (x :: xs ++ t)) =
      replaceFrom (x :: xs) new 0 s ++ (new ++ replaceFrom (x :: xs) new 0 t) := by
  have hold : x :: xs ≠ [] := List.cons_ne_nil x xs
  induction s using searchInduction hold with
  | nil => exact replaceFrom_old hold t
  | found s ih =>
    rw [List.append_assoc, replaceFrom_old hold, replaceFrom_old hold, ih, List.append_assoc]
  | other c s hbefore ih =>
    have hlater : ¬x :: xs <+: c :: (s ++ (x :: xs ++ t)) := by
      intro h
      rcases List.prefix_or_prefix_of_prefix h
        (List.prefix_append (c :: s) (x :: xs ++ t)) with h' | ⟨v, hv⟩
      · exact hbefore h'
      · cases v with
        | nil => exact hbefore ⟨[], by rw [List.append_nil, ← hv, List.append_nil]⟩
        | cons y v =>
          -- the rest of such an occurrence begins like the pattern
          have hrest : y :: v <+: x :: xs ++ t := by
            apply (List.prefix_append_right_inj (c :: s)).mp
            rw [hv]
            exact h
          have hxs : s ++ y :: v = xs := (List.cons.inj hv).2
          rw [List.cons_append, List.cons_prefix_cons] at hrest
          exact hx (by rw [← hxs, hrest.1]; exact List.mem_append_right s List.mem_cons_self)
    rw [List.cons_append, replaceFrom_cons hlater, replaceFrom_cons hbefore, ih, List.cons_append]

/-- A text gets shorter where it has the pattern. -/
theorem length_replaceFrom (hlt : new.length < old.length) (s : List α) :
    (replaceFrom old new 0 s).length ≤ s.length ∧
      (old <:+: s → (replaceFrom old new 0 s).length < s.length) := by
  have hold : old ≠ [] := by
    rintro rfl
    exact Nat.not_lt_zero _ hlt
  induction s using searchInduction hold with
  | nil => exact ⟨Nat.le_refl 0, fun h => absurd (List.infix_nil.mp h) hold⟩
  | found s ih =>
    rw [replaceFrom_old hold, List.length_append, List.length_append]
    have hle := ih.1
    exact ⟨by omega, fun _ => by omega⟩
  | other c s hprefix ih =>
    rw [replaceFrom_cons hprefix, List.length_cons, List.length_cons]
    have hle := ih.1
    refine ⟨by omega, fun hinfix => ?_⟩
    rcases List.infix_cons_iff.mp hinfix with hinfix | hinfix
    · exact absurd hinfix hprefix
    · have hlt := ih.2 hinfix
      omega

end

/-! ## One character -/

/-- `r` for each `c`. -/
def replaceChar (c : Char) (r cs : List Char) : List Char := replaceFrom [c] r 0 cs

theorem replaceChar_cons (c x : Char) (r cs : List Char) :
    replaceChar c r (x :: cs) = (if x = c then r else [x]) ++ replaceChar c r cs := by
  by_cases hx : x = c
  · subst hx
    rw [if_pos rfl]
    exact replaceFrom_old (List.cons_ne_nil x []) cs
  · have hprefix : ¬[c] <+: x :: cs := by
      rw [List.cons_prefix_cons]
      exact fun h => hx h.1.symm
    rw [if_neg hx]
    exact replaceFrom_cons hprefix

theorem replaceChar_append (c : Char) (r cs ds : List Char) :
    replaceChar c r (cs ++ ds) = replaceChar c r cs ++ replaceChar c r ds := by
  induction cs with
  | nil => rfl
  | cons x cs ih => rw [List.cons_append, replaceChar_cons, replaceChar_cons, ih, List.append_assoc]

theorem replaceChar_of_not_mem {c : Char} (r : List Char) {cs : List Char} (h : c ∉ cs) :
    replaceChar c r cs = cs :=
  replaceFrom_of_not_infix fun hin => h (hin.subset List.mem_cons_self)

theorem mem_replaceChar {c x : Char} {r cs : List Char} (h : x ∈ replaceChar c r cs) :
    x ∈ r ∨ x ∈ cs := by
  induction cs with
  | nil => exact Or.inr h
  | cons y cs ih =>
    rw [replaceChar_cons, List.mem_append] at h
    rcases h with h | h
    · by_cases hy : y = c
      · rw [if_pos hy] at h
        exact Or.inl h
      · rw [if_neg hy, List.mem_singleton] at h
        exact Or.inr (h ▸ List.mem_cons_self)
    · exact (ih h).imp_right (List.mem_cons_of_mem y)

/-- A text that grows where the character is stays the same only without it. -/
theorem replaceChar_eq_self {c : Char} {r cs : List Char} (hr : 1 < r.length) :
    replaceChar c r cs = cs ↔ c ∉ cs := by
  constructor
  · intro h
    have hgrows : ∀ cs : List Char, cs.length ≤ (replaceChar c r cs).length ∧
        (c ∈ cs → cs.length < (replaceChar c r cs).length) := by
      intro cs
      induction cs with
      | nil => simp [replaceChar, replaceFrom]
      | cons x cs ih =>
        by_cases hx : x = c
        · rw [replaceChar_cons, if_pos hx, List.length_append, List.length_cons]
          omega
        · rw [replaceChar_cons, if_neg hx, List.length_append, List.length_singleton,
            List.length_cons]
          refine ⟨by omega, fun hin => ?_⟩
          rcases List.mem_cons.mp hin with rfl | hin
          · exact absurd rfl hx
          · have hlt := ih.2 hin
            omega
    intro hin
    have hlt := (hgrows cs).2 hin
    rw [h] at hlt
    exact Nat.lt_irrefl _ hlt
  · exact replaceChar_of_not_mem r

/-! ## `String.replace` -/

/-- What is done with one step of the search. -/
def replaceStep {s : String.Slice} (r sofar : String) : SearchStep s → String
  | .matched .. => sofar ++ r.toSlice
  | .rejected start stop => sofar ++ s.slice! start stop

/-- Between two places the slice has no character at which the pattern matches. -/
theorem not_mem_of_not_matchesAt {pat : String} {c : Char} (hpat : pat.toList = [c])
    {s : String.Slice} {start stop : s.Pos} {before u after : String}
    (hstart : start.Splits before (u ++ after)) (hstop : stop.Splits (before ++ u) after)
    (hno : ∀ pos, start ≤ pos → pos < stop → ¬MatchesAt pat pos) : c ∉ u.toList := by
  intro hc
  obtain ⟨u₁, u₂, hu⟩ := List.append_of_mem hc
  have hu : u = String.ofList u₁ ++ (pat ++ String.ofList u₂) := by
    apply String.toList_inj.mp
    simp [hu, hpat]
  have heq : s.copy = (before ++ String.ofList u₁) ++ (pat ++ (String.ofList u₂ ++ after)) := by
    rw [hstart.eq_append, hu]
    simp only [String.append_assoc]
  have hat := Pos.splits_ofEqAppend heq
  refine hno _ ?_ ?_ (ForwardStringSearcher.matchesAt_iff_splits.mpr ⟨_, _, hat⟩)
  · apply (hstart.le_iff_exists_eq_append hat).mpr
    exact ⟨String.ofList u₁, rfl, by rw [hu]; simp only [String.append_assoc]⟩
  · have hne : pat ++ String.ofList u₂ ≠ "" := by
      intro he
      have hnil := congrArg String.toList he
      simp [hpat] at hnil
    apply (hat.lt_iff_exists_eq_append hstop).mpr
    exact ⟨pat ++ String.ofList u₂,
      hne, by rw [hu]; simp only [String.append_assoc], by simp only [String.append_assoc]⟩

theorem toList_foldl_replaceStep {pat r : String} {c : Char} (hpat : pat.toList = [c])
    {s : String.Slice} {pos : s.Pos} {steps : List (SearchStep s)}
    (h : IsValidSearchFrom pat pos steps) :
    ∀ {before after : String}, pos.Splits before after → ∀ sofar : String,
      (steps.foldl (replaceStep r) sofar).toList = sofar.toList ++
        replaceChar c r.toList after.toList := by
  induction h with
  | endPos =>
    intro before after hsplit sofar
    have hafter : after = "" := hsplit.eq_right (String.Slice.splits_endPos s)
    subst hafter
    simp [replaceChar, replaceFrom]
  | matched hmatch _ ih =>
    intro before after hsplit sofar
    obtain ⟨t₁, t₂, hfrom, hto⟩ := ForwardStringSearcher.isLongestMatchAt_iff_splits.mp hmatch
    rw [hsplit.eq_right hfrom, List.foldl_cons, ih hto]
    simp [replaceStep, hpat, replaceChar_cons]
  | @mismatched steps startPos endPos hlt hno _ ih =>
    intro before after hsplit sofar
    have hend := endPos.splits
    generalize (s.sliceTo endPos).copy = t₁ at hend
    generalize (s.sliceFrom endPos).copy = t₂ at hend
    obtain ⟨u, -, rfl, rfl⟩ := (hsplit.lt_iff_exists_eq_append hend).mp hlt
    obtain ⟨hle, hslice⟩ := String.Slice.copy_slice_eq_iff_splits.mpr ⟨before, t₂, hsplit, hend⟩
    rw [String.Slice.slice_eq_slice!] at hslice
    have hu : c ∉ u.toList := not_mem_of_not_matchesAt hpat hsplit hend hno
    rw [List.foldl_cons, ih hend, String.toList_append, replaceChar_append,
      replaceChar_of_not_mem _ hu]
    simp [replaceStep, hslice]

theorem toList_replace {pat : String} {c : Char} (hpat : pat.toList = [c]) (s r : String) :
    (s.replace pat r).toList = replaceChar c r.toList s.toList := by
  have hne : pat ≠ "" := by
    rintro rfl
    cases hpat
  have hvalid :=
    (ForwardStringSearcher.lawfulToForwardSearcherModel hne).isValidSearchFrom_toList s.toSlice
  have hfold := toList_foldl_replaceStep (r := r) hpat hvalid
    (String.Slice.splits_startPos s.toSlice) ""
  rw [String.copy_toSlice, String.toList_empty, List.nil_append] at hfold
  unfold String.replace String.Slice.replace
  rw [← Std.Iter.foldl_toList, ← hfold]
  congr 2
  funext sofar step
  cases step <;> rfl

end Lib
