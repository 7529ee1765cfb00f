import DevUtil.Lib.Dict

/-!
# Trees of dictionaries

Dictionaries nested to any depth, with leaves in `L`. `graft` puts a tree for each leaf and leaves
out the children that `keep` refuses, at every level.

    it is a function of the leaves' trees alone                    (graft_congr)
    a leaf whose tree is kept is there, at the leaf's place        (get?_graft)
    a kept child of a node with distinct keys, found by its key    (find_grafts)
-/

namespace Lib

inductive Tree (κ L : Type) where
  | leaf (l : L)
  | node (items : List (κ × Tree κ L))

namespace Tree

variable {κ L M : Type}

/-- No dictionary of the tree has a key twice. -/
inductive Distinct : Tree κ L → Prop where
  | leaf (l : L) : Distinct (.leaf l)
  | node {items : List (κ × Tree κ L)} :
      (items.map Prod.fst).Nodup → (∀ item ∈ items, Distinct item.2) → Distinct (.node items)

/-- The subtree at a path of keys. -/
def get? [DecidableEq κ] : Tree κ L → List κ → Option (Tree κ L)
  | t, [] => some t
  | .leaf _, _ :: _ => none
  | .node items, k :: path => (Dict.find k items).bind fun t => get? t path

section

variable (keep : Tree κ M → Bool) (f : L → Tree κ M)

mutual

def graft : Tree κ L → Tree κ M
  | .leaf l => f l
  | .node items => .node (grafts items)

/-- The children that are kept, in their order. -/
def grafts : List (κ × Tree κ L) → List (κ × Tree κ M)
  | [] => []
  | (k, t) :: items => if keep (graft t) then (k, graft t) :: grafts items else grafts items

end

end

variable {keep : Tree κ M → Bool} {f g : L → Tree κ M}

theorem grafts_cons (k : κ) (t : Tree κ L) (items : List (κ × Tree κ L)) :
    grafts keep f ((k, t) :: items) =
      (if keep (graft keep f t) then [(k, graft keep f t)] else []) ++ grafts keep f items := by
  rw [grafts]
  split <;> rfl

theorem mem_grafts {k : κ} {r : Tree κ M} {items : List (κ × Tree κ L)} :
    (k, r) ∈ grafts keep f items ↔ ∃ t, (k, t) ∈ items ∧ graft keep f t = r ∧ keep r = true := by
  induction items with
  | nil => simp [grafts]
  | cons item items ih =>
    obtain ⟨k', t'⟩ := item
    by_cases hk : keep (graft keep f t')
    · rw [grafts, if_pos hk, List.mem_cons, ih]
      constructor
      · rintro (heq | ⟨t, ht, hr⟩)
        · cases heq
          exact ⟨t', List.mem_cons_self, rfl, hk⟩
        · exact ⟨t, List.mem_cons_of_mem _ ht, hr⟩
      · rintro ⟨t, ht, rfl, hr⟩
        rcases List.mem_cons.mp ht with heq | ht
        · cases heq
          exact .inl rfl
        · exact .inr ⟨t, ht, rfl, hr⟩
    · rw [grafts, if_neg hk, ih]
      constructor
      · rintro ⟨t, ht, hr⟩
        exact ⟨t, List.mem_cons_of_mem _ ht, hr⟩
      · rintro ⟨t, ht, rfl, hr⟩
        rcases List.mem_cons.mp ht with heq | ht
        · cases heq
          exact absurd hr hk
        · exact ⟨t, ht, rfl, hr⟩

/-- Each key of the result is one of the items' keys, in their order. -/
theorem grafts_keys (items : List (κ × Tree κ L)) :
    ((grafts keep f items).map Prod.fst).Sublist (items.map Prod.fst) := by
  induction items with
  | nil => exact List.Sublist.slnil
  | cons item items ih =>
    obtain ⟨k, t⟩ := item
    rw [grafts]
    split
    · exact ih.cons_cons k
    · exact ih.cons k

theorem grafts_congr {items : List (κ × Tree κ L)}
    (h : ∀ item ∈ items, graft keep f item.2 = graft keep g item.2) :
    grafts keep f items = grafts keep g items := by
  induction items with
  | nil => rfl
  | cons item items ih =>
    have hitem : graft keep f item.2 = graft keep g item.2 := h item List.mem_cons_self
    have hrest : grafts keep f items = grafts keep g items :=
      ih fun i hi => h i (List.mem_cons_of_mem _ hi)
    rw [grafts, grafts, hitem, hrest]

variable [DecidableEq κ]

theorem find_grafts {k : κ} {t : Tree κ L} {items : List (κ × Tree κ L)}
    (hnd : (items.map Prod.fst).Nodup) (h : Dict.find k items = some t)
    (hk : keep (graft keep f t) = true) :
    Dict.find k (grafts keep f items) = some (graft keep f t) := by
  have hmem : (k, graft keep f t) ∈ grafts keep f items :=
    mem_grafts.mpr ⟨t, Dict.mem_of_find h, rfl, hk⟩
  exact Dict.find_of_mem (hnd.sublist (grafts_keys items)) hmem

/-- What holds of the leaves at the paths of a tree holds of those of a child. -/
theorem get?_child {k : κ} {t : Tree κ L} {items : List (κ × Tree κ L)}
    (hnd : (items.map Prod.fst).Nodup) (h : (k, t) ∈ items) (path : List κ) :
    (node items).get? (k :: path) = t.get? path := by
  rw [get?, Dict.find_of_mem hnd h, Option.bind_some]

theorem graft_congr {t : Tree κ L} (hd : t.Distinct)
    (h : ∀ path l, t.get? path = some (.leaf l) → f l = g l) : graft keep f t = graft keep g t := by
  induction hd with
  | leaf l => exact h [] l rfl
  | @node items hnd _ ih =>
    have hitems : ∀ item ∈ items, graft keep f item.2 = graft keep g item.2 := by
      rintro ⟨k, t⟩ hmem
      apply ih (k, t) hmem
      intro path l hl
      exact h (k :: path) l (by rw [get?_child hnd hmem, hl])
    rw [graft, graft, grafts_congr hitems]

/-- `hkeep`: no node with children is refused. -/
theorem get?_graft {t : Tree κ L} (hkeep : ∀ item items, keep (node (item :: items)) = true)
    (hd : t.Distinct) {path : List κ} {l : L} (h : t.get? path = some (.leaf l))
    (hl : keep (f l) = true) :
    (graft keep f t).get? path = some (f l) ∧ keep (graft keep f t) = true := by
  induction hd generalizing path with
  | leaf l' =>
    cases path with
    | nil =>
      cases h
      exact ⟨rfl, hl⟩
    | cons k path => cases h
  | @node items hnd _ ih =>
    cases path with
    | nil => cases h
    | cons k path =>
      rw [get?, Option.bind_eq_some_iff] at h
      obtain ⟨t, hfind, hpath⟩ := h
      obtain ⟨hget, hk⟩ := ih (k, t) (Dict.mem_of_find hfind) hpath
      have hfind' : Dict.find k (grafts keep f items) = some (graft keep f t) :=
        find_grafts hnd hfind hk
      refine ⟨?_, ?_⟩
      · rw [graft, get?, hfind', Option.bind_some, hget]
      · rw [graft]
        cases hg : grafts keep f items with
        | nil => simp [hg, Dict.find] at hfind'
        | cons item items' => exact hkeep item items'

end Tree

end Lib
