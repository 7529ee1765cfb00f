import DevUtil.Syzbot.Gitlog

/-!
# Decoding HTML

`htmldecode` of `utils.py`, against the escaping of a text. The table is walked in the order that
the dictionary has, and each entity is replaced in what the replacements before it have made.

    replacing before `&amp;` changes what is written, not what is meant    (encoded_foldl_before)
    replacing after it does to the text what it does to what is meant      (foldl_encoded)
    decoding the escaped text gives the text back
      ↔ it has no entity that is walked after `&amp;`                      (htmldecode_iff)
-/

namespace SyzbotAutotriager

open Lib

/-! ## `htmldecode` -/

def replacePairs : List (List Char × Char) :=
  [("&gt;".toList, '>'), ("&lt;".toList, '<'), ("&amp;".toList, '&'), ("&apos;".toList, '\''),
    ("&#39;".toList, '\''),
    ("&#34;".toList, '"'), ("&quot;".toList, '"')]

/-- The table in an order in which the dictionary may yield it. -/
structure PairOrder where
  items : List (List Char × Char)
  perm : items.Perm replacePairs

def replacePair (s : List Char) (p : List Char × Char) : List Char := replaceFrom p.1 [p.2] 0 s

def htmldecode (order : PairOrder) (s : List Char) : List Char := order.items.foldl replacePair s

/-! ## Escaping -/

/-- The entities of the two quotes, of which the table has two each. -/
structure Quotes where
  double : List Char
  single : List Char
  double_mem : (double, '"') ∈ replacePairs
  single_mem : (single, '\'') ∈ replacePairs

def escapeChar (q : Quotes) (c : Char) : List Char :=
  if c = '&' then "&amp;".toList
  else if c = '<' then "&lt;".toList
  else if c = '>' then "&gt;".toList
  else if c = '"' then q.double
  else if c = '\'' then q.single
  else [c]

def escape (q : Quotes) (s : List Char) : List Char := s.flatMap (escapeChar q)

/-- The pairs that are walked after `&amp;`. -/
def PairOrder.afterAmp (order : PairOrder) : List (List Char × Char) :=
  (order.items.dropWhile fun p => p.2 != '&').tail

/-! ## The table -/

theorem entity_head {p : List Char × Char} (hp : p ∈ replacePairs) : p.1.head? = some '&' := by
  have hall : (replacePairs.all fun p => p.1.head? == some '&') = true := by decide
  exact beq_iff_eq.mp (List.all_eq_true.mp hall p hp)

/-- What an entity is made of is not decoded to. -/
theorem entity_tail {p q : List Char × Char} (hp : p ∈ replacePairs) (hq : q ∈ replacePairs) :
    q.2 ∉ p.1.tail := by
  have hall : (replacePairs.all fun p => replacePairs.all fun q => !p.1.tail.contains q.2) =
    true := by decide
  simpa using List.all_eq_true.mp (List.all_eq_true.mp hall p hp) q hq

theorem entity_eq {p q : List Char × Char} (hp : p ∈ replacePairs) (hq : q ∈ replacePairs)
    (h : p.1 <+: q.1) : p = q := by
  have hall : (replacePairs.all fun p => replacePairs.all fun q => !p.1.isPrefixOf q.1 || p == q) =
    true := by decide
  have hpq := List.all_eq_true.mp (List.all_eq_true.mp hall p hp) q hq
  rw [List.isPrefixOf_iff_prefix.mpr h] at hpq
  simpa using hpq

theorem amp_mem : ("&amp;".toList, '&') ∈ replacePairs := by decide

theorem entity_amp {p : List Char × Char} (hp : p ∈ replacePairs) (h : p.2 = '&') :
    p = ("&amp;".toList, '&') := by
  have hall : (replacePairs.all fun p => !(p.2 == '&') || p == ("&amp;".toList, '&')) = true := by
    decide
  have hp := List.all_eq_true.mp hall p hp
  rw [h] at hp
  simpa using hp

theorem exists_body {p : List Char × Char} (hp : p ∈ replacePairs) :
    ∃ body, p.1 = '&' :: body ∧ ∀ q ∈ replacePairs, q.2 ∉ body := by
  have hhead := entity_head hp
  have htail := fun q => entity_tail (q := q) hp
  cases hbody : p.1 with
  | nil => simp [hbody] at hhead
  | cons c body =>
    rw [hbody] at hhead htail
    exact ⟨body, by rw [Option.some.inj hhead], htail⟩

theorem entity_ne_nil {p : List Char × Char} (hp : p ∈ replacePairs) : p.1 ≠ [] := by
  obtain ⟨body, hbody, -⟩ := exists_body hp
  simp [hbody]

theorem amp_not_mem_body {body : List Char} (h : ∀ q ∈ replacePairs, q.2 ∉ body) : '&' ∉ body :=
  h _ amp_mem

/-! ## What is written and what is meant -/

/-- `t` is written for `s`: characters may be written as entities of `pairs`, and `&` is unless
`amp`. -/
inductive Encoded (amp : Bool) (pairs : List (List Char × Char)) : List Char → List Char → Prop
  | nil : Encoded amp pairs [] []
  | plain {c : Char} {t s : List Char} (hc : c = '&' → amp = true) (h : Encoded amp pairs t s) :
      Encoded amp pairs (c :: t) (c :: s)
  | entity {p : List Char × Char} {t s : List Char} (hp : p ∈ pairs) (h : Encoded amp pairs t s) :
      Encoded amp pairs (p.1 ++ t) (p.2 :: s)

section

variable {p : List Char × Char} {pairs : List (List Char × Char)} {t s u : List Char}

theorem encoded_escape (hpairs : ∀ p ∈ replacePairs, p ∈ pairs) (q : Quotes) (s : List Char) :
    Encoded false pairs (escape q s) s := by
  induction s with
  | nil => exact .nil
  | cons c s ih =>
    rw [escape, List.flatMap_cons]
    by_cases hamp : c = '&'
    · subst hamp
      exact .entity (hpairs ("&amp;".toList, '&') amp_mem) ih
    by_cases hlt : c = '<'
    · subst hlt
      exact .entity (hpairs ("&lt;".toList, '<') (by decide)) ih
    by_cases hgt : c = '>'
    · subst hgt
      exact .entity (hpairs ("&gt;".toList, '>') (by decide)) ih
    by_cases hdouble : c = '"'
    · subst hdouble
      exact .entity (hpairs (q.double, '"') q.double_mem) ih
    by_cases hsingle : c = '\''
    · subst hsingle
      exact .entity (hpairs (q.single, '\'') q.single_mem) ih
    rw [escapeChar, if_neg hamp, if_neg hlt, if_neg hgt, if_neg hdouble, if_neg hsingle]
    exact .plain (fun h => absurd h hamp) ih

theorem Encoded.eq (h : Encoded true [] t s) : t = s := by
  induction h with
  | nil => rfl
  | plain _ _ ih => rw [ih]
  | entity hp _ _ => cases hp

/-- An entity at which another one is looked for. -/
theorem replacePair_entity {q : List Char × Char} (hp : p ∈ replacePairs) (hq : q ∈ replacePairs)
    (hne : q ≠ p) (t : List Char) :
    replacePair (q.1 ++ t) p = q.1 ++ replacePair t p := by
  obtain ⟨body, hbody, hfree⟩ := exists_body hq
  have hprefix : ¬p.1 <+: q.1 ++ t := by
    intro h
    rcases List.prefix_or_prefix_of_prefix h (List.prefix_append q.1 t) with h | h
    · exact hne (entity_eq hp hq h).symm
    · exact hne (entity_eq hq hp h)
  rw [hbody, List.cons_append] at hprefix
  rw [replacePair, hbody, List.cons_append, replaceFrom_cons hprefix,
    replaceFrom_append (entity_head hp) (amp_not_mem_body hfree)]
  rfl

theorem replacePair_cons {c : Char} (hp : p ∈ replacePairs) (hc : c ≠ '&') (t : List Char) :
    replacePair (c :: t) p = c :: replacePair t p :=
  replaceFrom_append (entity_head hp) (u := [c]) (by simpa using hc.symm) t

/-- Before `&amp;` is replaced, only what is written changes. -/
theorem Encoded.replace_before (h : Encoded false (p :: pairs) t s) (hp : p ∈ replacePairs)
    (hpairs : ∀ q ∈ pairs, q ∈ replacePairs) :
    Encoded (p.2 == '&') pairs (replacePair t p) s := by
  induction h with
  | nil => exact .nil
  | @plain c t s hc _ ih =>
    have hc : c ≠ '&' := fun h => by cases hc h
    rw [replacePair_cons hp hc]
    exact .plain (fun h => absurd h hc) ih
  | @entity q t s hq _ ih =>
    by_cases hqp : q = p
    · subst hqp
      rw [replacePair, replaceFrom_old (entity_ne_nil hp)]
      exact .plain (fun h => by rw [h]; rfl) ih
    · have hq : q ∈ pairs := (List.mem_cons.mp hq).resolve_left hqp
      rw [replacePair_entity hp (hpairs q hq) hqp]
      exact .entity hq ih

/-- A piece without `&` is written as it is. -/
theorem Encoded.of_append_left (h : Encoded true pairs (u ++ t) s)
    (hpairs : ∀ q ∈ pairs, q ∈ replacePairs) (hu : '&' ∉ u) :
    ∃ s', s = u ++ s' ∧ Encoded true pairs t s' := by
  induction u generalizing s with
  | nil => exact ⟨s, rfl, h⟩
  | cons c u ih =>
    rw [List.cons_append] at h
    generalize hw : c :: (u ++ t) = w at h
    cases h with
    | nil => cases hw
    | plain hc h =>
      obtain ⟨rfl, rfl⟩ := List.cons.inj hw
      obtain ⟨s', rfl, hs'⟩ := ih h fun hmem => hu (List.mem_cons_of_mem _ hmem)
      exact ⟨s', rfl, hs'⟩
    | @entity q t' s' hq h =>
      obtain ⟨body, hbody, -⟩ := exists_body (hpairs q hq)
      rw [hbody, List.cons_append] at hw
      exact absurd ((List.cons.inj hw).1 ▸ List.mem_cons_self) hu

/-- A piece of characters that no entity is for is written as it is. -/
theorem Encoded.of_append_right (h : Encoded true pairs t (u ++ s)) (hu : ∀ q ∈ pairs, q.2 ∉ u) :
    ∃ t', t = u ++ t' ∧ Encoded true pairs t' s := by
  induction u generalizing t with
  | nil => exact ⟨t, rfl, h⟩
  | cons c u ih =>
    rw [List.cons_append] at h
    cases h with
    | plain hc h =>
      obtain ⟨t', rfl, ht'⟩ := ih h fun q hq hmem => hu q hq (List.mem_cons_of_mem _ hmem)
      exact ⟨t', rfl, ht'⟩
    | entity hq h => exact absurd List.mem_cons_self (hu _ hq)

/-- After `&amp;` is replaced, both texts have the same places to replace. -/
theorem Encoded.replace_both (h : Encoded true (p :: pairs) t s)
    (hpairs : ∀ q ∈ p :: pairs, q ∈ replacePairs) (hamp : ∀ q ∈ p :: pairs, q.2 ≠ '&') :
    Encoded true pairs (replacePair t p) (replacePair s p) := by
  have hp : p ∈ replacePairs := hpairs p List.mem_cons_self
  obtain ⟨body, hbody, hfree⟩ := exists_body hp
  induction hn : s.length using Nat.strongRecOn generalizing t s with
  | ind n ih =>
    subst hn
    cases h with
    | nil => exact .nil
    | @plain c t s hc h =>
      by_cases hprefix : p.1 <+: c :: t
      · -- an entity that was meant as it is written
        rw [hbody] at hprefix
        obtain ⟨rfl, t', rfl⟩ := List.cons_prefix_cons.mp hprefix
        obtain ⟨s', rfl, hs'⟩ := h.of_append_left hpairs (amp_not_mem_body hfree)
        have hold : ∀ v, replacePair ('&' :: (body ++ v)) p = p.2 :: replacePair v p := by
          intro v
          rw [replacePair, ← List.cons_append, ← hbody, replaceFrom_old (entity_ne_nil hp)]
          rfl
        rw [hold, hold]
        exact .plain (fun _ => rfl)
          (ih s'.length (by simp only [List.length_cons, List.length_append]; omega) hs' rfl)
      · have hprefix' : ¬p.1 <+: c :: s := by
          intro hmeant
          rw [hbody] at hmeant
          obtain ⟨rfl, s', rfl⟩ := List.cons_prefix_cons.mp hmeant
          obtain ⟨t', rfl, -⟩ := h.of_append_right fun q hq => hfree q (hpairs q hq)
          exact hprefix (by rw [hbody]; exact List.prefix_append ('&' :: body) t')
        rw [replacePair, replaceFrom_cons hprefix, replacePair, replaceFrom_cons hprefix']
        exact .plain (fun _ => rfl) (ih s.length (by rw [List.length_cons]; omega) h rfl)
    | @entity q t s hq h =>
      have hs := ih s.length (by rw [List.length_cons]; omega) h rfl
      rw [replacePair_cons hp (hamp q hq)]
      by_cases hqp : q = p
      · subst hqp
        rw [replacePair, replaceFrom_old (entity_ne_nil hp)]
        exact .plain (fun _ => rfl) hs
      · rw [replacePair_entity hp (hpairs q hq) hqp]
        exact .entity ((List.mem_cons.mp hq).resolve_left hqp) hs

/-! ## The whole table -/

theorem encoded_foldl_before {before : List (List Char × Char)}
    (h : Encoded false (before ++ pairs) t s) (hpairs : ∀ q ∈ before ++ pairs, q ∈ replacePairs)
    (hamp : ∀ q ∈ before, q.2 ≠ '&') :
    Encoded false pairs (before.foldl replacePair t) s := by
  induction before generalizing t with
  | nil => exact h
  | cons p before ih =>
    have hstep := h.replace_before (hpairs p List.mem_cons_self) fun q hq =>
      hpairs q (List.mem_cons_of_mem p hq)
    rw [beq_eq_false_iff_ne.mpr (hamp p List.mem_cons_self)] at hstep
    exact ih hstep (fun q hq => hpairs q (List.mem_cons_of_mem p hq)) fun q hq =>
      hamp q (List.mem_cons_of_mem p hq)

theorem foldl_encoded {after : List (List Char × Char)} (h : Encoded true after t s)
    (hpairs : ∀ q ∈ after, q ∈ replacePairs) (hamp : ∀ q ∈ after, q.2 ≠ '&') :
    after.foldl replacePair t = after.foldl replacePair s := by
  induction after generalizing t s with
  | nil => exact h.eq
  | cons p after ih =>
    exact ih (h.replace_both hpairs hamp) (fun q hq => hpairs q (List.mem_cons_of_mem p hq))
      fun q hq => hamp q (List.mem_cons_of_mem p hq)

theorem length_replacePair (hp : p ∈ replacePairs) (s : List Char) :
    (replacePair s p).length ≤ s.length ∧ (p.1 <:+: s → (replacePair s p).length < s.length) := by
  have hall : (replacePairs.all fun p => Nat.blt 1 p.1.length) = true := by decide
  have hlt : [p.2].length < p.1.length := by simpa using List.all_eq_true.mp hall p hp
  exact length_replaceFrom hlt s

theorem length_foldl {after : List (List Char × Char)} (hpairs : ∀ q ∈ after, q ∈ replacePairs)
    (s : List Char) :
    (after.foldl replacePair s).length ≤ s.length := by
  induction after generalizing s with
  | nil => exact Nat.le_refl _
  | cons p after ih =>
    exact (ih (fun q hq => hpairs q (List.mem_cons_of_mem p hq)) _).trans
      (length_replacePair (hpairs p List.mem_cons_self) s).1

theorem foldl_eq_self {after : List (List Char × Char)} (hpairs : ∀ q ∈ after, q ∈ replacePairs)
    (s : List Char) :
    after.foldl replacePair s = s ↔ ∀ q ∈ after, ¬q.1 <:+: s := by
  induction after with
  | nil => simp
  | cons p after ih =>
    have hp : p ∈ replacePairs := hpairs p List.mem_cons_self
    have hafter : ∀ q ∈ after, q ∈ replacePairs := fun q hq => hpairs q (List.mem_cons_of_mem p hq)
    rw [List.foldl_cons, List.forall_mem_cons]
    by_cases hinfix : p.1 <:+: s
    · have hlt := (length_replacePair hp s).2 hinfix
      have hle := length_foldl hafter (replacePair s p)
      constructor
      · intro heq
        rw [heq] at hle
        omega
      · intro h
        exact absurd hinfix h.1
    · rw [replacePair, replaceFrom_of_not_infix hinfix, ih hafter]
      exact (and_iff_right hinfix).symm

end

/-- The order, cut at `&amp;`. -/
theorem PairOrder.split (order : PairOrder) :
    ∃ before, order.items = before ++ ("&amp;".toList, '&') :: order.afterAmp ∧
    (∀ q ∈ before, q.2 ≠ '&') ∧ ∀ q ∈ order.afterAmp, q.2 ≠ '&' := by
  have hmem : ∀ q ∈ order.items, q ∈ replacePairs := fun q hq => order.perm.mem_iff.mp hq
  have hamp : ("&amp;".toList, '&') ∈ order.items := order.perm.mem_iff.mpr amp_mem
  have hnodup : order.items.Nodup := order.perm.nodup_iff.mpr (by decide)
  cases hdrop : order.items.dropWhile fun p => p.2 != '&' with
  | nil =>
    have hall := List.dropWhile_eq_nil_iff.mp hdrop _ hamp
    cases hall
  | cons p after =>
    have hafter : order.afterAmp = after := by rw [PairOrder.afterAmp, hdrop]; rfl
    have hitems : order.items = (order.items.takeWhile fun p => p.2 != '&') ++ p :: after := by
      rw [← hdrop, List.takeWhile_append_dropWhile]
    have hp : p.2 = '&' := by
      have hhead := List.head?_dropWhile_not (fun p : List Char × Char => p.2 != '&') order.items
      rw [hdrop] at hhead
      simpa using hhead
    have hpmem : p ∈ order.items := by rw [hitems]; simp
    obtain rfl := entity_amp (hmem p hpmem) hp
    rw [hafter]
    refine ⟨_, hitems, ?_, ?_⟩
    · intro q hq
      simpa using List.mem_takeWhile_imp hq
    · intro q hq hqamp
      have hqmem : q ∈ order.items := by rw [hitems]; simp [hq]
      rw [hitems] at hnodup
      have hcons := (List.nodup_append.mp hnodup).2.1
      exact (List.nodup_cons.mp hcons).1 (entity_amp (hmem q hqmem) hqamp ▸ hq)

theorem htmldecode_iff (order : PairOrder) (q : Quotes) (s : List Char) :
    htmldecode order (escape q s) = s ↔ ∀ p ∈ order.afterAmp, ¬p.1 <:+: s := by
  obtain ⟨before, hitems, hbefore, hafter⟩ := order.split
  have hmem : ∀ p ∈ order.items, p ∈ replacePairs := fun p hp => order.perm.mem_iff.mp hp
  have hafter_mem : ∀ p ∈ order.afterAmp, p ∈ replacePairs := by
    intro p hp
    apply hmem
    rw [hitems]
    simp [hp]
  have hencoded : Encoded false order.items (escape q s) s :=
    encoded_escape (fun p hp => order.perm.mem_iff.mpr hp) q s
  rw [hitems] at hencoded hmem
  have hamp := (encoded_foldl_before hencoded hmem hbefore).replace_before amp_mem hafter_mem
  rw [htmldecode, hitems, List.foldl_append, List.foldl_cons, foldl_encoded hamp hafter_mem hafter,
    foldl_eq_self hafter_mem]

/-- The order of the source. -/
def written : PairOrder := { items := replacePairs, perm := List.Perm.refl _ }

theorem quot_mem : ("&quot;".toList, '"') ∈ replacePairs := by decide

theorem apos_mem : ("&apos;".toList, '\'') ∈ replacePairs := by decide

def namedQuotes : Quotes where
  double := "&quot;".toList
  single := "&apos;".toList
  double_mem := quot_mem
  single_mem := apos_mem

/-- A text that is an entity is decoded twice. -/
theorem not_htmldecode_escape : ¬∀ order q s, htmldecode order (escape q s) = s := by
  intro h
  have hquot := h written namedQuotes "&quot;".toList
  exact absurd hquot (by decide)

end SyzbotAutotriager
