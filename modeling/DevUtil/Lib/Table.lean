import Mathlib.Data.List.Nodup

/-!
# Tables with a primary key

A `Table key` is a list of rows no two of which have the same key; the list
order is the order in which a query without ORDER BY returns the rows.  Rows
are inserted and updated, never deleted, and an update keeps the key, so a row
is followed through a run by its key (`lookup`).
-/

namespace Lib

/-- Rows with pairwise distinct keys. -/
structure Table {ρ κ : Type} (key : ρ → κ) where
  rows : List ρ
  nodup : (rows.map key).Nodup

namespace Table

variable {ρ κ : Type} {key : ρ → κ}

theorem ext_rows {t t' : Table key} (h : t.rows = t'.rows) : t = t' := by
  cases t
  cases t'
  cases h
  rfl

def empty : Table key := ⟨[], List.nodup_nil⟩

@[simp] theorem rows_empty : (empty : Table key).rows = [] := rfl

/-- Two rows with one key are the same row. -/
theorem eq_of_key {t : Table key} {r r' : ρ} (h : r ∈ t.rows) (h' : r' ∈ t.rows)
    (hk : key r = key r') : r = r' :=
  List.inj_on_of_nodup_map t.nodup h h' hk

/-! ## Update -/

/-- `UPDATE t SET f WHERE p`. -/
def update (t : Table key) (p : ρ → Bool) (f : ρ → ρ) (hf : ∀ r, key (f r) = key r) :
    Table key where
  rows := t.rows.map fun r => if p r then f r else r
  nodup := by
    have h : key ∘ (fun r => if p r then f r else r) = key := by
      funext r
      simp only [Function.comp_apply]
      split
      · exact hf r
      · rfl
    rw [List.map_map, h]
    exact t.nodup

@[simp] theorem rows_update (t : Table key) (p : ρ → Bool) (f : ρ → ρ)
    (hf : ∀ r, key (f r) = key r) :
    (t.update p f hf).rows = t.rows.map fun r => if p r then f r else r := rfl

theorem mem_update {t : Table key} {p : ρ → Bool} {f : ρ → ρ} {hf : ∀ r, key (f r) = key r}
    {r' : ρ} : r' ∈ (t.update p f hf).rows ↔ ∃ r ∈ t.rows, (if p r then f r else r) = r' := by
  rw [rows_update, List.mem_map]

/-- A projection that `f` does not touch. -/
theorem map_update {σ : Type} (g : ρ → σ) (t : Table key) (p : ρ → Bool) (f : ρ → ρ)
    (hf : ∀ r, key (f r) = key r) (hg : ∀ r, g (f r) = g r) :
    (t.update p f hf).rows.map g = t.rows.map g := by
  rw [rows_update, List.map_map]
  apply List.map_congr_left
  intro r _
  simp only [Function.comp_apply]
  split
  · exact hg r
  · rfl

variable [DecidableEq κ]

/-! ## Insert -/

/-- `INSERT`; `none` when the key is taken. -/
def insert (t : Table key) (r : ρ) : Option (Table key) :=
  if h : key r ∈ t.rows.map key then none
  else some ⟨t.rows ++ [r], by
    rw [List.map_append, List.map_singleton, ← List.concat_eq_append]
    exact t.nodup.concat h⟩

theorem insert_eq_some {t t' : Table key} {r : ρ} :
    t.insert r = some t' ↔ (∀ r' ∈ t.rows, key r' ≠ key r) ∧ t'.rows = t.rows ++ [r] := by
  unfold insert
  split
  · next h =>
    obtain ⟨r', hr', hk⟩ := List.mem_map.mp h
    constructor
    · intro h'
      cases h'
    · intro h'
      exact absurd hk (h'.1 r' hr')
  · next h =>
    have hno : ∀ r' ∈ t.rows, key r' ≠ key r := fun r' hr' hk => h (List.mem_map.mpr ⟨r', hr', hk⟩)
    constructor
    · rintro h'
      cases h'
      exact ⟨hno, rfl⟩
    · rintro ⟨-, h'⟩
      exact congrArg some (ext_rows h'.symm)

theorem insert_eq_none {t : Table key} {r : ρ} :
    t.insert r = none ↔ ∃ r' ∈ t.rows, key r' = key r := by
  unfold insert
  split
  · next h => exact ⟨fun _ => List.mem_map.mp h, fun _ => rfl⟩
  · next h =>
    constructor
    · intro h'
      cases h'
    · rintro ⟨r', hr', hk⟩
      exact absurd (List.mem_map.mpr ⟨r', hr', hk⟩) h

/-- `INSERT` of every row that is not rejected. -/
def ofRows (rows : List ρ) : Table key := rows.foldl (fun t r => (t.insert r).getD t) .empty

/-! ## Lookup -/

/-- The row with a key, if there is one. -/
def lookup (t : Table key) (k : κ) : Option ρ := t.rows.find? fun r => decide (key r = k)

theorem lookup_eq_some {t : Table key} {k : κ} {r : ρ} :
    t.lookup k = some r ↔ r ∈ t.rows ∧ key r = k := by
  unfold lookup
  constructor
  · intro h
    exact ⟨List.mem_of_find?_eq_some h, by simpa using List.find?_some h⟩
  · rintro ⟨hr, hk⟩
    cases h : t.rows.find? fun r => decide (key r = k) with
    | none => exact absurd (decide_eq_true hk) (List.find?_eq_none.mp h r hr)
    | some r' =>
      have hk' : key r' = k := by simpa using List.find?_some h
      rw [eq_of_key (List.mem_of_find?_eq_some h) hr (hk'.trans hk.symm)]

theorem lookup_eq_none {t : Table key} {k : κ} :
    t.lookup k = none ↔ ∀ r ∈ t.rows, key r ≠ k := by
  unfold lookup
  rw [List.find?_eq_none]
  simp only [decide_eq_true_eq, ne_eq]

theorem lookup_update {t : Table key} {p : ρ → Bool} {f : ρ → ρ} {hf : ∀ r, key (f r) = key r}
    {k : κ} : (t.update p f hf).lookup k = (t.lookup k).map fun r => if p r then f r else r := by
  have hkey : ∀ r, key (if p r then f r else r) = key r := by
    intro r
    split
    · exact hf r
    · rfl
  cases h : t.lookup k with
  | none =>
    rw [Option.map_none, lookup_eq_none]
    rw [lookup_eq_none] at h
    intro r' hr'
    obtain ⟨r, hr, rfl⟩ := mem_update.mp hr'
    rw [hkey]
    exact h r hr
  | some r =>
    obtain ⟨hr, hk⟩ := lookup_eq_some.mp h
    rw [Option.map_some, lookup_eq_some]
    exact ⟨mem_update.mpr ⟨r, hr, rfl⟩, (hkey r).trans hk⟩

theorem lookup_insert {t t' : Table key} {r : ρ} (h : t.insert r = some t') (k : κ) :
    t'.lookup k = if key r = k then some r else t.lookup k := by
  obtain ⟨hno, hrows⟩ := insert_eq_some.mp h
  split
  · next hk =>
    rw [lookup_eq_some, hrows]
    exact ⟨by simp, hk⟩
  · next hk =>
    cases hl : t.lookup k with
    | none =>
      rw [lookup_eq_none] at hl ⊢
      rw [hrows]
      intro r' hr'
      rcases List.mem_append.mp hr' with hr' | hr'
      · exact hl r' hr'
      · rw [List.mem_singleton.mp hr']
        exact hk
    | some r' =>
      obtain ⟨hr', hk'⟩ := lookup_eq_some.mp hl
      rw [lookup_eq_some, hrows]
      exact ⟨List.mem_append_left _ hr', hk'⟩

end Table

end Lib
