import Mathlib.Data.List.Sort

/-!
# Dictionaries

A dictionary keeps the order in which its keys came in, and each key once.

    (d.set k v).get? k = some v,  (d.set k v).get? k' = d.get? k'     (get?_set, get?_set_of_ne)
    (k, v) ∈ d.items ↔ d.get? k = some v                              (mem_items)
    sorting the keys changes no value                                 (get?_sorted)
    of the items of `dict(pairs)`, each is one of the pairs           (get?_setAll)
-/

namespace Lib

structure Dict (κ ν : Type) where
  items : List (κ × ν)
  nodup : (items.map Prod.fst).Nodup

namespace Dict

variable {κ ν : Type}

def empty : Dict κ ν := ⟨[], List.nodup_nil⟩

def keys (d : Dict κ ν) : List κ := d.items.map Prod.fst

/-- The keys in increasing order of `rank`. -/
def sorted (rank : κ → Nat) (d : Dict κ ν) : Dict κ ν where
  items := d.items.insertionSort fun a b => rank a.1 ≤ rank b.1
  nodup := ((List.perm_insertionSort _ d.items).map Prod.fst).nodup_iff.mpr d.nodup

theorem items_sorted_perm (rank : κ → Nat) (d : Dict κ ν) : (d.sorted rank).items.Perm d.items :=
  List.perm_insertionSort _ d.items

variable [DecidableEq κ]

def find (k : κ) : List (κ × ν) → Option ν
  | [] => none
  | (k', v) :: items => if k' = k then some v else find k items

/-- `d.get(k)` -/
def get? (d : Dict κ ν) (k : κ) : Option ν := find k d.items

/-- The value of a key that is there is replaced where it stands. -/
def put (k : κ) (v : ν) : List (κ × ν) → List (κ × ν)
  | [] => [(k, v)]
  | (k', v') :: items => if k' = k then (k, v) :: items else (k', v') :: put k v items

theorem keys_put (k : κ) (v : ν) (items : List (κ × ν)) :
    (put k v items).map Prod.fst =
      if k ∈ items.map Prod.fst then items.map Prod.fst else items.map Prod.fst ++ [k] := by
  induction items with
  | nil => rfl
  | cons item items ih =>
    obtain ⟨k', v'⟩ := item
    by_cases hk : k' = k
    · subst hk
      simp [put]
    · have hk' : ¬k = k' := fun h => hk h.symm
      simp only [put, hk, if_false, List.map_cons, ih, List.mem_cons, hk', false_or]
      split <;> simp

theorem put_of_not_mem {k : κ} {items : List (κ × ν)} (h : k ∉ items.map Prod.fst) (v : ν) :
    put k v items = items ++ [(k, v)] := by
  induction items with
  | nil => rfl
  | cons item items ih =>
    obtain ⟨hk, hrest⟩ := not_or.mp (mt List.mem_cons.mpr h)
    rw [put, if_neg (Ne.symm hk), ih hrest, List.cons_append]

/-- `d[k] = v` -/
def set (d : Dict κ ν) (k : κ) (v : ν) : Dict κ ν where
  items := put k v d.items
  nodup := by
    rw [keys_put]
    split
    · exact d.nodup
    · next h =>
      rw [List.nodup_append]
      refine ⟨d.nodup, by simp, ?_⟩
      intro a ha b hb hab
      rw [List.mem_singleton] at hb
      exact h (hb ▸ hab ▸ ha)

/-! ## Looking up -/

theorem find_put (k : κ) (v : ν) (items : List (κ × ν)) : find k (put k v items) = some v := by
  induction items with
  | nil => simp [put, find]
  | cons item items ih =>
    obtain ⟨k', v'⟩ := item
    by_cases hk : k' = k
    · simp [put, find, hk]
    · simp [put, find, hk, ih]

theorem find_put_of_ne {k k' : κ} (h : k' ≠ k) (v : ν) (items : List (κ × ν)) :
    find k' (put k v items) = find k' items := by
  induction items with
  | nil => simp [put, find, h.symm]
  | cons item items ih =>
    obtain ⟨k'', v'⟩ := item
    by_cases hk : k'' = k
    · subst hk
      simp [put, find, h.symm]
    · simp [put, find, hk, ih]

@[simp] theorem get?_set (d : Dict κ ν) (k : κ) (v : ν) : (d.set k v).get? k = some v :=
  find_put k v d.items

theorem get?_set_of_ne (d : Dict κ ν) {k k' : κ} (h : k' ≠ k) (v : ν) :
    (d.set k v).get? k' = d.get? k' :=
  find_put_of_ne h v d.items

theorem get?_set_cases {d : Dict κ ν} {k k' : κ} {v v' : ν} (h : (d.set k v).get? k' = some v') :
    k' = k ∧ v' = v ∨ k' ≠ k ∧ d.get? k' = some v' := by
  by_cases hk : k' = k
  · subst hk
    rw [get?_set] at h
    exact .inl ⟨rfl, (Option.some.inj h).symm⟩
  · rw [get?_set_of_ne d hk] at h
    exact .inr ⟨hk, h⟩

theorem mem_of_find {k : κ} {v : ν} {items : List (κ × ν)} (h : find k items = some v) :
    (k, v) ∈ items := by
  induction items with
  | nil => cases h
  | cons item items ih =>
    obtain ⟨k', v'⟩ := item
    rw [find] at h
    split at h
    · next hk =>
      cases h
      exact hk ▸ List.mem_cons_self
    · exact List.mem_cons_of_mem _ (ih h)

theorem find_of_mem {k : κ} {v : ν} {items : List (κ × ν)} (hnd : (items.map Prod.fst).Nodup)
    (h : (k, v) ∈ items) : find k items = some v := by
  induction items with
  | nil => cases h
  | cons item items ih =>
    obtain ⟨k', v'⟩ := item
    obtain ⟨hk', hnd⟩ := List.nodup_cons.mp hnd
    rw [find]
    rcases List.mem_cons.mp h with heq | h
    · cases heq
      rw [if_pos rfl]
    · have hk : k' ≠ k := fun hk => hk' (List.mem_map.mpr ⟨(k, v), h, hk.symm⟩)
      rw [if_neg hk]
      exact ih hnd h

theorem mem_items {d : Dict κ ν} {k : κ} {v : ν} : (k, v) ∈ d.items ↔ d.get? k = some v :=
  ⟨find_of_mem d.nodup, mem_of_find⟩

theorem mem_keys {d : Dict κ ν} {k : κ} : k ∈ d.keys ↔ ∃ v, d.get? k = some v := by
  constructor
  · intro h
    obtain ⟨⟨k', v⟩, hmem, rfl⟩ := List.mem_map.mp h
    exact ⟨v, mem_items.mp hmem⟩
  · rintro ⟨v, h⟩
    exact List.mem_map_of_mem (mem_items.mpr h)

theorem get?_eq_none {d : Dict κ ν} {k : κ} : d.get? k = none ↔ k ∉ d.keys := by
  rw [mem_keys]
  cases d.get? k <;> simp

@[simp] theorem get?_sorted (rank : κ → Nat) (d : Dict κ ν) (k : κ) :
    (d.sorted rank).get? k = d.get? k := by
  apply Option.ext
  intro v
  rw [← mem_items, ← mem_items]
  exact (items_sorted_perm rank d).mem_iff

theorem mem_keys_sorted {rank : κ → Nat} {d : Dict κ ν} {k : κ} :
    k ∈ (d.sorted rank).keys ↔ k ∈ d.keys := by
  rw [mem_keys, mem_keys, get?_sorted]

/-! ## Many items -/

/-- `d.update(pairs)` -/
def setAll (d : Dict κ ν) (pairs : List (κ × ν)) : Dict κ ν :=
  pairs.foldl (fun d p => d.set p.1 p.2) d

theorem get?_setAll {d : Dict κ ν} {pairs : List (κ × ν)} {k : κ} {v : ν}
    (h : (d.setAll pairs).get? k = some v) :
    (k, v) ∈ pairs ∨ d.get? k = some v := by
  induction pairs generalizing d with
  | nil => exact .inr h
  | cons p pairs ih =>
    rcases ih (d := d.set p.1 p.2) h with hmem | hset
    · exact .inl (List.mem_cons_of_mem p hmem)
    · rcases get?_set_cases hset with ⟨rfl, rfl⟩ | ⟨-, hget⟩
      · exact .inl List.mem_cons_self
      · exact .inr hget

theorem get?_setAll_of_eq {d : Dict κ ν} {pairs : List (κ × ν)} {k : κ} {v : ν}
    (hd : d.get? k = some v) (huniq : ∀ v', (k, v') ∈ pairs → v' = v) :
    (d.setAll pairs).get? k = some v := by
  induction pairs generalizing d with
  | nil => exact hd
  | cons p pairs ih =>
    have huniq' : ∀ v', (k, v') ∈ pairs → v' = v :=
      fun v' hv' => huniq v' (List.mem_cons_of_mem p hv')
    refine ih (d := d.set p.1 p.2) ?_ huniq'
    by_cases hp : k = p.1
    · have hv : p.2 = v := huniq p.2 (by rw [hp]; exact List.mem_cons_self)
      rw [hp, get?_set, hv]
    · rw [get?_set_of_ne d hp, hd]

theorem get?_setAll_of_mem {d : Dict κ ν} {pairs : List (κ × ν)} {k : κ} {v : ν}
    (h : (k, v) ∈ pairs) (huniq : ∀ v', (k, v') ∈ pairs → v' = v) :
    (d.setAll pairs).get? k = some v := by
  induction pairs generalizing d with
  | nil => cases h
  | cons p pairs ih =>
    have huniq' : ∀ v', (k, v') ∈ pairs → v' = v :=
      fun v' hv' => huniq v' (List.mem_cons_of_mem p hv')
    rcases List.mem_cons.mp h with rfl | h
    · exact get?_setAll_of_eq (d := d.set k v) (get?_set d k v) huniq'
    · exact ih (d := d.set p.1 p.2) h huniq'

theorem get?_setAll_of_not_mem (d : Dict κ ν) {pairs : List (κ × ν)} {k : κ}
    (h : k ∉ pairs.map Prod.fst) :
    (d.setAll pairs).get? k = d.get? k := by
  induction pairs generalizing d with
  | nil => rfl
  | cons p pairs ih =>
    obtain ⟨hp, hpairs⟩ := not_or.mp (mt List.mem_cons.mpr h)
    rw [← get?_set_of_ne d hp p.2]
    exact ih (d.set p.1 p.2) hpairs

theorem get?_setAll_congr {d d' : Dict κ ν} {k : κ} (h : d.get? k = d'.get? k)
    (pairs : List (κ × ν)) :
    (d.setAll pairs).get? k = (d'.setAll pairs).get? k := by
  induction pairs generalizing d d' with
  | nil => exact h
  | cons p pairs ih =>
    show ((d.set p.1 p.2).setAll pairs).get? k = ((d'.set p.1 p.2).setAll pairs).get? k
    apply ih
    by_cases hp : k = p.1
    · rw [hp, get?_set, get?_set]
    · rw [get?_set_of_ne d hp, get?_set_of_ne d' hp, h]

/-- A key that is set says nothing about its values before. -/
theorem get?_setAll_of_mem_keys (d d' : Dict κ ν) {pairs : List (κ × ν)} {k : κ}
    (h : k ∈ pairs.map Prod.fst) :
    (d.setAll pairs).get? k = (d'.setAll pairs).get? k := by
  induction pairs generalizing d d' with
  | nil => cases h
  | cons p pairs ih =>
    by_cases hp : k = p.1
    · show ((d.set p.1 p.2).setAll pairs).get? k = ((d'.set p.1 p.2).setAll pairs).get? k
      apply get?_setAll_congr
      rw [hp, get?_set, get?_set]
    · exact ih (d.set p.1 p.2) (d'.set p.1 p.2) ((List.mem_cons.mp h).resolve_left hp)

theorem setAll_append (d : Dict κ ν) (pairs pairs' : List (κ × ν)) :
    d.setAll (pairs ++ pairs') = (d.setAll pairs).setAll pairs' := List.foldl_append

end Dict

end Lib
