import DevUtil.Lib.FirstMatch

/-!
# Patterns with named groups

A pattern as a sequence of parts, some of them with a name; `Pattern.match` of Python's `re`
module with the texts of the named parts.

    first for each part → first for the pattern                (firstGroups_text, firstGroups_named)
    a part may stop in one place only → it does                (firstGroups_named_only)
    what a pattern's parts read, their named texts are made
      of                                                       (reads_goParts)
-/

namespace Lib.Regex

variable {ν : Type}

structure RegexPart (ν : Type) where
  name : Option ν
  regex : Regex

def text (r : Regex) : RegexPart ν := ⟨none, r⟩

/-- `(?P<n>r)` -/
def named (n : ν) (r : Regex) : RegexPart ν := ⟨some n, r⟩

abbrev Groups (ν : Type) := List (ν × List Char)

/-- The group of a part that has read `u`. -/
def RegexPart.group (p : RegexPart ν) (u : List Char) : Groups ν :=
  match p.name with
  | some n => [(n, u)]
  | none => []

/-- The ways to match the parts one after another, the preferred one first. -/
def goParts : List (RegexPart ν) → Cursor → List (Groups ν)
  | [], _ => [[]]
  | p :: ps, s => (p.regex.go s).flatMap fun s' =>
      (goParts ps s').map fun gs => p.group (s.rest.take (s.rest.length - s'.rest.length)) ++ gs

/-- `Pattern.match`, with the groups. -/
def matchGroups (ps : List (RegexPart ν)) (cs : List Char) : Option (Groups ν) :=
  (goParts ps ⟨none, cs, none⟩).head?

/-! ## The first way -/

/-- From `cs` on, the parts first match with these groups. -/
def FirstGroups (ps : List (RegexPart ν)) (cs : List Char) (gs : Groups ν) : Prop :=
  ∀ prev, (goParts ps ⟨prev, cs, none⟩).head? = some gs

variable {r : Regex} {ps : List (RegexPart ν)} {u v : List Char} {gs : Groups ν} {n : ν}

theorem firstGroups_nil (cs : List Char) : FirstGroups ([] : List (RegexPart ν)) cs [] :=
  fun _ => rfl

theorem take_read (u v : List Char) : (u ++ v).take ((u ++ v).length - v.length) = u := by
  rw [List.length_append, Nat.add_sub_cancel, List.take_left]

theorem firstGroups_cons {p : RegexPart ν} (h : First p.regex (u ++ v) none v none)
    (hps : FirstGroups ps v gs) :
    FirstGroups (p :: ps) (u ++ v) (p.group u ++ gs) := by
  intro prev
  obtain ⟨prev', hr⟩ := h prev
  refine head?_flatMap hr ?_
  rw [List.head?_map, hps prev', take_read]
  rfl

theorem firstGroups_text (h : First r (u ++ v) none v none) (hps : FirstGroups ps v gs) :
    FirstGroups (text r :: ps) (u ++ v) gs :=
  firstGroups_cons (p := text r) h hps

theorem firstGroups_named (h : First r (u ++ v) none v none) (hps : FirstGroups ps v gs) :
    FirstGroups (named n r :: ps) (u ++ v) ((n, u) :: gs) :=
  firstGroups_cons (p := named n r) h hps

/-- `^` at the start of the text. -/
theorem matchGroups_bol (multiline : Bool) (hps : FirstGroups ps v gs) :
    matchGroups (text (.bol multiline) :: ps) v = some gs := by
  refine head?_flatMap (a := ⟨none, v, none⟩) (by simp [text, go]) ?_
  rw [List.head?_map, hps none]
  rfl

theorem matchGroups_of_first (hps : FirstGroups ps v gs) : matchGroups ps v = some gs := hps none

theorem head?_flatMap_of_forall {α β : Type} {f : α → List β} {b : β} :
    ∀ {as : List α}, (∀ a ∈ as, f a = [] ∨ (f a).head? = some b) → (∃ a ∈ as, f a ≠ []) →
      (as.flatMap f).head? = some b := by
  intro as
  induction as with
  | nil =>
    rintro - ⟨a, ha, -⟩
    cases ha
  | cons a as ih =>
    intro hall hex
    rw [List.flatMap_cons, List.head?_append]
    rcases hall a List.mem_cons_self with hnil | hb
    · rw [hnil]
      refine ih (fun a' ha' => hall a' (List.mem_cons_of_mem a ha')) ?_
      obtain ⟨a', ha', hne⟩ := hex
      rcases List.mem_cons.mp ha' with rfl | hin
      · exact absurd hnil hne
      · exact ⟨a', hin, hne⟩
    · rw [hb]
      rfl

/-- A part that could stop elsewhere, but from there nothing goes on. -/
theorem firstGroups_named_only (hgroup : r.groupless = true) (hway : Way r (u ++ v) v)
    (honly : ∀ prev, ∀ s ∈ r.go ⟨prev, u ++ v, none⟩, s.rest = v ∨ goParts ps s = [])
    (hps : FirstGroups ps v gs) :
    FirstGroups (named n r :: ps) (u ++ v) ((n, u) :: gs) := by
  intro prev
  have hstop : ∀ s ∈ r.go ⟨prev, u ++ v, none⟩, s.rest = v → (goParts ps s).head? = some gs := by
    intro s hs hv
    have hnone : s.group = none := group_go hgroup hs
    obtain ⟨prev', rest, group⟩ := s
    obtain rfl : rest = v := hv
    obtain rfl : group = none := hnone
    exact hps prev'
  refine head?_flatMap_of_forall (fun s hs => ?_) ?_
  · rcases honly prev s hs with hv | hnil
    · refine .inr ?_
      rw [List.head?_map, hstop s hs hv, hv, take_read]
      rfl
    · exact .inl (by rw [hnil]; rfl)
  · obtain ⟨prev', g', hin⟩ := hway prev none
    refine ⟨_, hin, fun hnil => ?_⟩
    have hhead := hstop _ hin rfl
    rw [List.map_eq_nil_iff.mp hnil] at hhead
    cases hhead

/-! ## What the parts read -/

/-- All that `r` can read satisfies `P`. -/
def Reads (P : List Char → Prop) (r : Regex) : Prop :=
  ∀ s, ∀ s' ∈ r.go s, ∃ u, s.rest = u ++ s'.rest ∧ P u

theorem reads_lit {l : List Char} :
    Reads (· = l) (l.foldr (fun c r => .seq (.char (· == c)) r) .empty) :=
  fun _ _ h => ⟨l, go_lit h, rfl⟩

theorem Reads.seq {P Q : List Char → Prop} {t : Regex} (hr : Reads P r) (ht : Reads Q t) :
    Reads (fun w => ∃ u v, w = u ++ v ∧ P u ∧ Q v) (.seq r t) := by
  intro s s' hs'
  obtain ⟨s₁, hs₁, hs'⟩ := List.mem_flatMap.mp hs'
  obtain ⟨u, hu, hP⟩ := hr s s₁ hs₁
  obtain ⟨v, hv, hQ⟩ := ht s₁ s' hs'
  exact ⟨u ++ v, by rw [hu, hv, List.append_assoc], u, v, rfl, hP, hQ⟩

theorem Reads.mono {P Q : List Char → Prop} (hr : Reads P r) (h : ∀ u, P u → Q u) : Reads Q r := by
  intro s s' hs'
  obtain ⟨u, hu, hP⟩ := hr s s' hs'
  exact ⟨u, hu, h u hP⟩

theorem reads_char {p : Char → Bool} : Reads (fun u => ∃ c, u = [c] ∧ p c = true) (.char p) := by
  intro s s' hs'
  rw [go] at hs'
  cases hs : s.rest with
  | nil =>
    rw [hs] at hs'
    cases hs'
  | cons c cs =>
    rw [hs] at hs'
    by_cases hc : p c = true
    · simp only [if_pos hc, List.mem_singleton] at hs'
      exact ⟨[c], by rw [hs']; rfl, c, rfl, hc⟩
    · simp [hc] at hs'

theorem reads_plus_char {p : Char → Bool} :
    Reads (fun u => u ≠ [] ∧ ∀ c ∈ u, p c = true) (plus (.char p)) := by
  have hstar : Reads (fun u => ∀ c ∈ u, p c = true) (.star (.char p)) :=
    fun s s' hs' => repeatGreedy_char hs'
  refine (reads_char.seq hstar).mono ?_
  rintro w ⟨_, v, rfl, ⟨c, rfl, hc⟩, hv⟩
  exact ⟨by simp, List.forall_mem_cons.mpr ⟨hc, hv⟩⟩

/-- The text of a name that the first part has. -/
theorem mem_goParts_named {P : List Char → Prop} (hr : Reads P r) {s : Cursor}
    (h : gs ∈ goParts (named n r :: ps) s) :
    ∃ u gs', gs = (n, u) :: gs' ∧ P u := by
  obtain ⟨s', hs', hgs⟩ := List.mem_flatMap.mp h
  obtain ⟨gs', -, rfl⟩ := List.mem_map.mp hgs
  obtain ⟨u, hu, hP⟩ := hr s s' hs'
  refine ⟨u, gs', ?_, hP⟩
  rw [hu, take_read]
  rfl

end Lib.Regex
