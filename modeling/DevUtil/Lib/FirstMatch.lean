import Mathlib.Data.List.TakeWhile
import DevUtil.Lib.Substitution

/-!
# The match that is preferred

What a backtracking matcher finds first, put together from what it finds first for the parts,
and what it can find at all.

    first for r, then first for t → first for both       (First.seq)
    a class is repeated as long as it can be             (first_star_char)
    a way to match is enough for `search` to find one    (Way.seq, exists_search)
-/

namespace Lib.Regex

/-! ## The first way -/

/-- From `cs` on, the pattern first matches up to `cs'`, the group then being `g'`. -/
def First (r : Regex) (cs : List Char) (g : Option (List Char)) (cs' : List Char)
    (g' : Option (List Char)) : Prop :=
  ∀ prev, ∃ prev', (r.go ⟨prev, cs, g⟩).head? = some ⟨prev', cs', g'⟩

variable {r t : Regex} {p : Char → Bool} {cs cs' cs'' u v : List Char}
  {g g' g'' : Option (List Char)}

theorem head?_flatMap {α β : Type} {f : α → List β} {as : List α} {a : α} {b : β}
    (ha : as.head? = some a) (hb : (f a).head? = some b) : (as.flatMap f).head? = some b := by
  cases as with
  | nil => cases ha
  | cons a' as =>
    obtain rfl : a' = a := Option.some.inj ha
    rw [List.flatMap_cons, List.head?_append, hb]
    rfl

theorem First.seq (h : First r cs g cs' g') (h' : First t cs' g' cs'' g'') :
    First (.seq r t) cs g cs'' g'' := by
  intro prev
  obtain ⟨prev', hr⟩ := h prev
  obtain ⟨prev'', ht⟩ := h' prev'
  exact ⟨prev'', head?_flatMap hr ht⟩

theorem first_empty : First .empty cs g cs g := fun prev => ⟨prev, rfl⟩

theorem go_char {c : Char} (hc : p c = true) (prev : Option Char) :
    (Regex.char p).go ⟨prev, c :: cs, g⟩ = [⟨some c, cs, g⟩] := by
  simp [go, hc]

theorem first_char {c : Char} (hc : p c = true) : First (.char p) (c :: cs) g cs g := by
  intro prev
  exact ⟨some c, by rw [go_char hc]; rfl⟩

theorem first_literal (l : List Char) :
    First (l.foldr (fun c r => .seq (.char (· == c)) r) .empty) (l ++ cs) g cs g := by
  induction l with
  | nil => exact first_empty
  | cons c l ih => exact (first_char (beq_self_eq_true c)).seq ih

theorem repeatGreedy_char_cons {c : Char} (hc : p c = true) (fuel : Nat) (prev : Option Char) :
    repeatGreedy (Regex.char p).go (fuel + 1) ⟨prev, c :: cs, g⟩ =
      repeatGreedy (Regex.char p).go fuel ⟨some c, cs, g⟩ ++ [⟨prev, c :: cs, g⟩] := by
  rw [repeatGreedy, go_char hc]
  simp

/-- As long as there are characters of the class; then something else comes. -/
theorem first_star_char (hu : ∀ c ∈ u, p c = true) (hv : ∀ c, v.head? = some c → p c = false) :
    First (.star (.char p)) (u ++ v) g v g := by
  have hrepeat : ∀ (fuel : Nat) (u : List Char), (∀ c ∈ u, p c = true) → u.length ≤ fuel →
    ∀ prev, ∃ prev',
      (repeatGreedy (Regex.char p).go fuel ⟨prev, u ++ v, g⟩).head? = some ⟨prev', v, g⟩ := by
    intro fuel
    induction fuel with
    | zero =>
      intro u _ hlen prev
      obtain rfl := List.length_eq_zero_iff.mp (Nat.le_zero.mp hlen)
      exact ⟨prev, rfl⟩
    | succ fuel ih =>
      intro u hu hlen prev
      cases u with
      | nil =>
        refine ⟨prev, ?_⟩
        cases v with
        | nil => simp [repeatGreedy, go]
        | cons c v => simp [repeatGreedy, go, hv c rfl]
      | cons c u =>
        have hc := hu c List.mem_cons_self
        obtain ⟨prev', hhead⟩ :=
          ih u (fun d hd => hu d (List.mem_cons_of_mem c hd)) (Nat.le_of_succ_le_succ hlen) (some c)
        refine ⟨prev', ?_⟩
        rw [List.cons_append, repeatGreedy_char_cons hc, List.head?_append, hhead]
        rfl
  intro prev
  rw [go]
  exact hrepeat _ u hu (by simp) prev

theorem first_star_dropWhile : First (.star (.char p)) cs g (cs.dropWhile p) g := by
  have hstop : ∀ c, (cs.dropWhile p).head? = some c → p c = false := by
    intro c hc
    have hnot := List.head?_dropWhile_not p cs
    rw [hc] at hnot
    exact hnot
  have hfirst := first_star_char (g := g) (u := cs.takeWhile p) (v := cs.dropWhile p)
    (fun c hc => List.mem_takeWhile_imp hc) hstop
  rw [List.takeWhile_append_dropWhile] at hfirst
  exact hfirst

/-- What cannot be matched once is not repeated. -/
theorem first_star_skip (h : ∀ prev, r.go ⟨prev, cs, g⟩ = []) : First (.star r) cs g cs g := by
  intro prev
  refine ⟨prev, ?_⟩
  rw [go]
  show (repeatGreedy r.go cs.length ⟨prev, cs, g⟩).head? = _
  cases cs with
  | nil => rfl
  | cons c cs => simp [repeatGreedy, h]

theorem first_plus_char (hne : u ≠ []) (hu : ∀ c ∈ u, p c = true)
    (hv : ∀ c, v.head? = some c → p c = false) :
    First (plus (.char p)) (u ++ v) g v g := by
  cases u with
  | nil => exact absurd rfl hne
  | cons c u =>
    exact (first_char (hu c List.mem_cons_self)).seq
      (first_star_char (fun d hd => hu d (List.mem_cons_of_mem c hd)) hv)

theorem First.group (h : First r (u ++ v) g v g') : First (.group r) (u ++ v) g v (some u) := by
  intro prev
  obtain ⟨prev', hr⟩ := h prev
  refine ⟨prev', ?_⟩
  rw [go, List.head?_map, hr]
  simp

/-- `^` at the start of the text. -/
theorem go_bol (multiline : Bool) :
    (Regex.seq (.bol multiline) r).go ⟨none, cs, g⟩ = r.go ⟨none, cs, g⟩ := by
  simp [go]

/-- A pattern that matches at the start. -/
theorem search_of_head {s : String} {prev : Option Char}
    (hr : (r.go ⟨none, s.toList, none⟩).head? = some ⟨prev, v, some u⟩) :
    r.search s = some (String.ofList u) := by
  unfold search findall findFrom
  rw [hr]
  rfl

/-! ## Some way -/

/-- There is a way to match from `cs` up to `cs'`. -/
def Way (r : Regex) (cs cs' : List Char) : Prop :=
  ∀ prev g, ∃ prev' g', (⟨prev', cs', g'⟩ : Cursor) ∈ r.go ⟨prev, cs, g⟩

theorem First.way (h : ∀ g, ∃ g', First r cs g cs' g') : Way r cs cs' := by
  intro prev g
  obtain ⟨g', h⟩ := h g
  obtain ⟨prev', hr⟩ := h prev
  exact ⟨prev', g', List.mem_of_head? hr⟩

theorem Way.seq (h : Way r cs cs') (h' : Way t cs' cs'') : Way (.seq r t) cs cs'' := by
  intro prev g
  obtain ⟨prev', g', hr⟩ := h prev g
  obtain ⟨prev'', g'', ht⟩ := h' prev' g'
  exact ⟨prev'', g'', List.mem_flatMap.mpr ⟨_, hr, ht⟩⟩

/-- A class may be repeated less often than it could be. -/
theorem way_star_char (hu : ∀ c ∈ u, p c = true) : Way (.star (.char p)) (u ++ v) v := by
  have hrepeat : ∀ (fuel : Nat) (u : List Char), (∀ c ∈ u, p c = true) → u.length ≤ fuel →
    ∀ prev g, ∃ prev',
      (⟨prev', v, g⟩ : Cursor) ∈ repeatGreedy (Regex.char p).go fuel ⟨prev, u ++ v, g⟩ := by
    intro fuel
    induction fuel with
    | zero =>
      intro u _ hlen prev g
      obtain rfl := List.length_eq_zero_iff.mp (Nat.le_zero.mp hlen)
      exact ⟨prev, List.mem_singleton.mpr rfl⟩
    | succ fuel ih =>
      intro u hu hlen prev g
      cases u with
      | nil => exact ⟨prev, List.mem_append_right _ (List.mem_singleton.mpr rfl)⟩
      | cons c u =>
        have hc := hu c List.mem_cons_self
        obtain ⟨prev', hin⟩ := ih u (fun d hd => hu d (List.mem_cons_of_mem c hd))
          (Nat.le_of_succ_le_succ hlen) (some c) g
        refine ⟨prev', ?_⟩
        rw [List.cons_append, repeatGreedy_char_cons hc]
        exact List.mem_append_left _ hin
  intro prev g
  have hlen : u.length ≤ (u ++ v).length := by
    rw [List.length_append]
    omega
  obtain ⟨prev', hin⟩ := hrepeat _ u hu hlen prev g
  exact ⟨prev', g, hin⟩

/-- With a way to match at the start something is found. -/
theorem exists_search {s : String} (h : Way r s.toList v) : ∃ x, r.search s = some x := by
  obtain ⟨prev', g', hin⟩ := h none none
  cases hgo : r.go ⟨none, s.toList, none⟩ with
  | nil =>
    rw [hgo] at hin
    cases hin
  | cons s' others =>
    unfold search findall findFrom
    rw [hgo]
    exact ⟨_, rfl⟩

/-! ## What every way reads -/

/-- What `search` finds is a way to match from some place on. -/
theorem exists_go_of_search {s x : String} (h : r.search s = some x) :
    ∃ pre cs prev, s.toList = pre ++ cs ∧
    ∃ s' ∈ r.go ⟨prev, cs, none⟩, s'.group.getD (cs.take (cs.length - s'.rest.length)) =
      x.toList := by
  have hfind : ∀ (fuel : Nat) (prev : Option Char) (cs : List Char) (y : List Char),
      (r.findFrom fuel prev cs).head? = some y → ∃ pre ds prev', cs = pre ++ ds ∧
        ∃ s' ∈ r.go ⟨prev', ds, none⟩, s'.group.getD
            (ds.take (ds.length - s'.rest.length)) = y := by
    intro fuel
    induction fuel with
    | zero =>
      intro prev cs y hy
      cases hy
    | succ fuel ih =>
      intro prev cs y hy
      unfold findFrom at hy
      cases hgo : (r.go ⟨prev, cs, none⟩).head? with
      | some s' =>
        rw [hgo] at hy
        obtain rfl := Option.some.inj hy
        exact ⟨[], cs, prev, rfl, s', List.mem_of_head? hgo, rfl⟩
      | none =>
        rw [hgo] at hy
        cases cs with
        | nil => cases hy
        | cons c cs =>
          obtain ⟨pre, ds, prev', rfl, hs'⟩ := ih (some c) cs y hy
          exact ⟨c :: pre, ds, prev', rfl, hs'⟩
  unfold search findall at h
  rw [List.head?_map] at h
  obtain ⟨y, hy, rfl⟩ := Option.map_eq_some_iff.mp h
  obtain ⟨pre, cs, prev, hs, s', hs', hgroup⟩ := hfind _ none s.toList y hy
  exact ⟨pre, cs, prev, hs, s', hs', by rw [hgroup, String.toList_ofList]⟩

/-- The pattern has no group. -/
def groupless : Regex → Bool
  | .empty => true
  | .char _ => true
  | .seq r t => r.groupless && t.groupless
  | .alt r t => r.groupless && t.groupless
  | .star r => r.groupless
  | .group _ => false
  | .bol _ => true

theorem group_go {r : Regex} (h : r.groupless = true) :
    ∀ {s s' : Cursor}, s' ∈ r.go s → s'.group = s.group := by
  induction r with
  | empty =>
    intro s s' hs'
    rw [List.mem_singleton.mp hs']
  | char p =>
    intro s s' hs'
    rw [go] at hs'
    split at hs'
    · split at hs'
      · rw [List.mem_singleton.mp hs']
      · cases hs'
    · cases hs'
  | seq r t ihr iht =>
    intro s s' hs'
    obtain ⟨hr, ht⟩ := Bool.and_eq_true_iff.mp h
    obtain ⟨s₁, hs₁, hs'⟩ := List.mem_flatMap.mp hs'
    rw [iht ht hs', ihr hr hs₁]
  | alt r t ihr iht =>
    intro s s' hs'
    obtain ⟨hr, ht⟩ := Bool.and_eq_true_iff.mp h
    rcases List.mem_append.mp hs' with hs' | hs'
    · exact ihr hr hs'
    · exact iht ht hs'
  | star r ih =>
    have hrepeat : ∀ (fuel : Nat) (s s' : Cursor), s' ∈ repeatGreedy r.go fuel s →
        s'.group = s.group := by
      intro fuel
      induction fuel with
      | zero =>
        intro s s' hs'
        rw [List.mem_singleton.mp hs']
      | succ fuel ihf =>
        intro s s' hs'
        rcases List.mem_append.mp hs' with hs' | hs'
        · obtain ⟨s₁, hs₁, hs'⟩ := List.mem_flatMap.mp hs'
          rw [ihf s₁ s' hs', ih h (List.mem_filter.mp hs₁).1]
        · rw [List.mem_singleton.mp hs']
    intro s s' hs'
    exact hrepeat _ s s' hs'
  | group r _ => cases h
  | bol multiline =>
    intro s s' hs'
    rw [go] at hs'
    split at hs'
    · rw [List.mem_singleton.mp hs']
    · cases hs'

end Lib.Regex
