import DevUtil.Lib.Dict

/-!
# Dictionaries that number their keys

A key gets the next id when it comes in, and keeps it; `id n` is the id with the number `n`.

    the next id is a new one                       (Numbered.fresh)
    the inverse dictionary has the keys by id      (get?_inverse)
-/

namespace Lib.Dict

variable {κ ι : Type} {id : Nat → ι} {d : Dict κ ι}

def ids (d : Dict κ ι) : List ι := d.items.map Prod.snd

/-- The ids of the keys, in their order, are `id 1`, `id 2` and so on. -/
def Numbered (id : Nat → ι) (d : Dict κ ι) : Prop :=
  d.ids = (List.range d.items.length).map fun i => id (i + 1)

instance [DecidableEq ι] (id : Nat → ι) (d : Dict κ ι) : Decidable (Numbered id d) :=
  inferInstanceAs (Decidable (_ = _))

theorem numbered_empty (id : Nat → ι) : Numbered id (empty : Dict κ ι) := rfl

theorem Numbered.nodup (h : Numbered id d) (hid : Function.Injective id) : d.ids.Nodup := by
  rw [h]
  apply List.nodup_range.map
  intro m n heq
  have := hid heq
  omega

theorem Numbered.fresh (h : Numbered id d) (hid : Function.Injective id) :
    id (d.items.length + 1) ∉ d.ids := by
  rw [h]
  intro hmem
  obtain ⟨i, hi, heq⟩ := List.mem_map.mp hmem
  have hlt := List.mem_range.mp hi
  have := hid heq
  omega

section

variable [DecidableEq κ] {k k' : κ} {v : ι}

theorem items_set_of_not_mem (h : k ∉ d.keys) (v : ι) : (d.set k v).items = d.items ++ [(k, v)] :=
  put_of_not_mem h v

theorem Numbered.set (h : Numbered id d) (hk : k ∉ d.keys) :
    Numbered id (d.set k (id (d.items.length + 1))) := by
  have hids : (d.set k (id (d.items.length + 1))).ids = d.ids ++ [id (d.items.length + 1)] := by
    rw [ids, items_set_of_not_mem hk, List.map_append]
    rfl
  have hlength : (d.set k (id (d.items.length + 1))).items.length = d.items.length + 1 := by
    rw [items_set_of_not_mem hk, List.length_append]
    rfl
  rw [Numbered, hids, hlength, List.range_succ, List.map_append, ← h]
  rfl

theorem mem_ids : v ∈ d.ids ↔ ∃ k, d.get? k = some v := by
  rw [ids, List.mem_map]
  constructor
  · rintro ⟨⟨k, v'⟩, hmem, rfl⟩
    exact ⟨k, mem_items.mp hmem⟩
  · rintro ⟨k, hk⟩
    exact ⟨(k, v), mem_items.mpr hk, rfl⟩

theorem key_unique (hnd : d.ids.Nodup) (h : d.get? k = some v) (h' : d.get? k' = some v) :
    k = k' := by
  have heq := List.inj_on_of_nodup_map hnd (mem_items.mpr h) (mem_items.mpr h') rfl
  exact congrArg Prod.fst heq

/-! ## The inverse -/

variable [DecidableEq ι]

/-- `{v: k for k, v in d.items()}` -/
def inverse (d : Dict κ ι) : Dict ι κ := empty.setAll (d.items.map Prod.swap)

theorem get?_inverse (hnd : d.ids.Nodup) : d.inverse.get? v = some k ↔ d.get? k = some v := by
  have hmem : ∀ k', (v, k') ∈ d.items.map Prod.swap ↔ d.get? k' = some v := by
    intro k'
    rw [← mem_items]
    simp
  constructor
  · intro h
    rcases get?_setAll h with h | h
    · exact (hmem k).mp h
    · cases h
  · intro h
    apply get?_setAll_of_mem ((hmem k).mpr h)
    intro k' hk'
    exact key_unique hnd ((hmem k').mp hk') h

end

end Lib.Dict
