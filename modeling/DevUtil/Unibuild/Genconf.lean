import DevUtil.Lib.Tree

/-!
# The public and the private configuration

`genconf` of `cros_unibuild_convert.py`: one pass over the schema builds both configurations, and
leaves out at every level what has no value.

    the pass gives the two grafts of the schema          (genconf_eq)
    it returns exactly when every leaf function does     (genconf_returns)
    each configuration depends on its own leaves alone,
      and has each of them that has a value              (genconf_separates)
-/

namespace Unibuild

open Lib

def mPublic : Nat := 1 <<< 0

def mPrivate : Nat := 1 <<< 1

/-- A value of a configuration: `None`, a scalar or a list, or a dictionary. -/
abbrev Value (κ α : Type) := Tree κ (Option α)

/-- The tuple of flags and function; the function may raise. -/
structure Leaf (D O ε κ α : Type) where
  flags : Nat
  func : D → O → Except ε (Value κ α)

abbrev SchemaTree (D O ε κ α : Type) := Tree κ (Leaf D O ε κ α)

/-- A schema: a dictionary of Python has no key twice. -/
structure Schema (D O ε κ α : Type) where
  tree : SchemaTree D O ε κ α
  distinct : tree.Distinct

section

variable {D O ε κ α : Type}

/-- `v is not None and v != {}` -/
def qualifiesAsValue : Value κ α → Bool
  | .leaf none => false
  | .node [] => false
  | _ => true

variable [DecidableEq κ]

/-- `if qualifies_as_value(r): conf[k] = r` -/
def store (k : κ) (r : Value κ α) (conf : List (κ × Value κ α)) : List (κ × Value κ α) :=
  if qualifiesAsValue r then Dict.put k r conf else conf

mutual

/-- The interpreter's stack has a frame for each level of the schema, which is a literal of the
script. -/
def genconf (device : D) (overlay : O) : SchemaTree D O ε κ α → Except ε (Value κ α × Value κ α)
  | .node items => do
    let (pub, priv) ← genconfItems device overlay items [] []
    return (.node pub, .node priv)
  | .leaf ⟨flags, func⟩ => do
    let value ← func device overlay
    let pub := if flags &&& mPublic ≠ 0 then value else .leaf none
    let priv := if flags &&& mPrivate ≠ 0 then value else .leaf none
    return (pub, priv)

/-- The loop over `schema.items()`. -/
def genconfItems (device : D) (overlay : O) :
    List (κ × SchemaTree D O ε κ α) → List (κ × Value κ α) → List (κ × Value κ α) →
      Except ε (List (κ × Value κ α) × List (κ × Value κ α))
  | [], pub, priv => return (pub, priv)
  | (k, v) :: items, pub, priv => do
    let (pubR, privR) ← genconf device overlay v
    genconfItems device overlay items (store k pubR pub) (store k privR priv)

end

-- `firmware` has nothing that is public, so the public configuration has no such key
example : (genconf () () (.node [("model", .leaf ⟨mPublic, fun _ _ => .ok (.leaf (some "x"))⟩),
      ("firmware", .node [("bcs", .leaf ⟨mPrivate, fun _ _ => .ok (.leaf (some "y"))⟩)])]) :
        Except Unit (Value String String × Value String String)) =
    .ok (.node [("model", .leaf (some "x"))],
      .node [("firmware", .node [("bcs", .leaf (some "y"))])]) := rfl

/-! ## The two sides -/

inductive Side where
  | pub
  | priv

def Side.flag : Side → Nat
  | .pub => mPublic
  | .priv => mPrivate

/-- A side's part of a pair of configurations. -/
def Side.of {β : Type} : Side → β × β → β
  | .pub => Prod.fst
  | .priv => Prod.snd

/-- `flags` has the side's flag. -/
def Leaf.Names (leaf : Leaf D O ε κ α) (side : Side) : Prop := leaf.flags &&& side.flag ≠ 0

instance (leaf : Leaf D O ε κ α) (side : Side) : Decidable (leaf.Names side) := by
  unfold Leaf.Names
  infer_instance

/-- What a leaf function gives, for one that returns. -/
def Leaf.value (device : D) (overlay : O) (leaf : Leaf D O ε κ α) : Value κ α :=
  match leaf.func device overlay with
  | .ok value => value
  | .error _ => .leaf none

/-- A leaf's part of a side's configuration. -/
def Leaf.conf (device : D) (overlay : O) (side : Side) (leaf : Leaf D O ε κ α) : Value κ α :=
  if leaf.Names side then leaf.value device overlay else .leaf none

/-- A side's configuration, from the leaves of this side alone. -/
def conf (device : D) (overlay : O) (side : Side) (tree : SchemaTree D O ε κ α) : Value κ α :=
  tree.graft qualifiesAsValue (Leaf.conf device overlay side)

/-! ## The pass gives both -/

section

variable {device : D} {overlay : O}

theorem store_fresh {k : κ} {acc : List (κ × Value κ α)} (h : k ∉ acc.map Prod.fst)
    (r : Value κ α) :
    store k r acc = acc ++ if qualifiesAsValue r then [(k, r)] else [] := by
  rw [store]
  split
  · exact Dict.put_of_not_mem h r
  · rw [List.append_nil]

/-- A key that is neither the stored one nor there is not there afterwards. -/
theorem not_mem_store {k k' : κ} {acc : List (κ × Value κ α)} (hne : k' ≠ k)
    (h : k' ∉ acc.map Prod.fst) (r : Value κ α) : k' ∉ (store k r acc).map Prod.fst := by
  rw [store]
  split
  · rw [Dict.keys_put]
    split
    · exact h
    · simp [h, hne]
  · exact h

theorem genconfItems_cons {k : κ} {v : SchemaTree D O ε κ α} {r : Value κ α × Value κ α}
    (hv : genconf device overlay v = .ok r) (items : List (κ × SchemaTree D O ε κ α))
    (pub priv : List (κ × Value κ α)) :
    genconfItems device overlay ((k, v) :: items) pub priv =
      genconfItems device overlay items (store k r.1 pub) (store k r.2 priv) := by
  rw [genconfItems, hv]
  rfl

theorem genconfItems_eq {items : List (κ × SchemaTree D O ε κ α)}
    (hnd : (items.map Prod.fst).Nodup)
    (hitems : ∀ item ∈ items, genconf device overlay item.2 =
      .ok (conf device overlay .pub item.2, conf device overlay .priv item.2))
    {pub priv : List (κ × Value κ α)} (hpub : ∀ k ∈ items.map Prod.fst, k ∉ pub.map Prod.fst)
    (hpriv : ∀ k ∈ items.map Prod.fst, k ∉ priv.map Prod.fst) :
    genconfItems device overlay items pub priv =
      .ok (pub ++ Tree.grafts qualifiesAsValue (Leaf.conf device overlay .pub) items,
        priv ++ Tree.grafts qualifiesAsValue (Leaf.conf device overlay .priv) items) := by
  induction items generalizing pub priv with
  | nil => simp [genconfItems, Tree.grafts, pure, Except.pure]
  | cons item items ih =>
    obtain ⟨k, v⟩ := item
    obtain ⟨hk, hnd⟩ := List.nodup_cons.mp hnd
    have hv : genconf device overlay v =
        .ok (conf device overlay .pub v, conf device overlay .priv v) :=
      hitems (k, v) List.mem_cons_self
    have hne : ∀ k' ∈ items.map Prod.fst, k' ≠ k := fun k' hk' heq => hk (heq ▸ hk')
    have hpub' : ∀ k' ∈ items.map Prod.fst, k' ∉
        (store k (conf device overlay .pub v) pub).map Prod.fst :=
      fun k' hk' => not_mem_store (hne k' hk') (hpub k' (List.mem_cons_of_mem k hk')) _
    have hpriv' : ∀ k' ∈ items.map Prod.fst, k' ∉
        (store k (conf device overlay .priv v) priv).map Prod.fst :=
      fun k' hk' => not_mem_store (hne k' hk') (hpriv k' (List.mem_cons_of_mem k hk')) _
    have hrest := ih hnd (fun item hi => hitems item (List.mem_cons_of_mem _ hi)) hpub' hpriv'
    rw [genconfItems_cons hv, hrest, store_fresh (hpub k List.mem_cons_self),
      store_fresh (hpriv k List.mem_cons_self),
      List.append_assoc, List.append_assoc, Tree.grafts_cons, Tree.grafts_cons]
    rfl

theorem genconf_eq {tree : SchemaTree D O ε κ α} (hd : tree.Distinct)
    (hok : ∀ path leaf, tree.get? path = some (.leaf leaf) →
      ∃ value, leaf.func device overlay = .ok value) :
    genconf device overlay tree =
      .ok (conf device overlay .pub tree, conf device overlay .priv tree) := by
  induction hd with
  | leaf leaf =>
    obtain ⟨value, hvalue⟩ := hok [] leaf rfl
    simp [genconf, hvalue, conf, Tree.graft, Leaf.conf, Leaf.value, Leaf.Names, Side.flag,
      Bind.bind, Except.bind, pure,
      Except.pure]
  | @node items hnd _ ih =>
    have hitems : ∀ item ∈ items,
        genconf device overlay item.2 =
            .ok (conf device overlay .pub item.2, conf device overlay .priv item.2) := by
      rintro ⟨k, v⟩ hmem
      apply ih (k, v) hmem
      intro path leaf hleaf
      exact hok (k :: path) leaf (by rw [Tree.get?_child hnd hmem, hleaf])
    have hnone : ∀ k ∈ items.map Prod.fst, k ∉ ([] : List (κ × Value κ α)).map Prod.fst :=
      fun _ _ => List.not_mem_nil
    rw [genconf, genconfItems_eq hnd hitems hnone hnone]
    rfl

/-! ## When it returns -/

/-- In a run of the loop that returns, so does the call for each item. -/
theorem genconf_item {items : List (κ × SchemaTree D O ε κ α)} {pub priv : List (κ × Value κ α)}
    {out : List (κ × Value κ α) × List (κ × Value κ α)}
    (h : genconfItems device overlay items pub priv = .ok out) :
    ∀ item ∈ items, ∃ r, genconf device overlay item.2 = .ok r := by
  induction items generalizing pub priv with
  | nil => simp
  | cons item items ih =>
    obtain ⟨k, v⟩ := item
    cases hv : genconf device overlay v with
    | error e =>
      rw [genconfItems, hv] at h
      cases h
    | ok r =>
      rw [genconfItems_cons hv] at h
      intro item hitem
      rcases List.mem_cons.mp hitem with rfl | hitem
      · exact ⟨r, hv⟩
      · exact ih h item hitem

theorem leaf_returns {tree : SchemaTree D O ε κ α} (hd : tree.Distinct)
    {out : Value κ α × Value κ α} (h : genconf device overlay tree = .ok out) {path : List κ}
    {leaf : Leaf D O ε κ α} (hleaf : tree.get? path = some (.leaf leaf)) :
    ∃ value, leaf.func device overlay = .ok value := by
  induction hd generalizing out path with
  | leaf leaf' =>
    cases path with
    | nil =>
      cases hleaf
      cases hf : leaf.func device overlay with
      | ok value => exact ⟨value, rfl⟩
      | error e =>
        rw [genconf, hf] at h
        cases h
    | cons k path => cases hleaf
  | @node items _ _ ih =>
    cases path with
    | nil => cases hleaf
    | cons k path =>
      rw [Tree.get?, Option.bind_eq_some_iff] at hleaf
      obtain ⟨v, hfind, hpath⟩ := hleaf
      have hmem : (k, v) ∈ items := Dict.mem_of_find hfind
      cases hitems : genconfItems device overlay items [] [] with
      | error e =>
        rw [genconf, hitems] at h
        cases h
      | ok confs =>
        obtain ⟨r, hr⟩ := genconf_item hitems (k, v) hmem
        exact ih (k, v) hmem hr hpath

end

/-! ## What a configuration says -/

/-- The leaf stands at the path of the schema. -/
def Schema.Has (schema : Schema D O ε κ α) (path : List κ) (leaf : Leaf D O ε κ α) : Prop :=
  schema.tree.get? path = some (.leaf leaf)

/-- Two inputs which the side's leaves do not tell apart: they differ only in what other leaves
read. -/
def Schema.Same (schema : Schema D O ε κ α) (side : Side) (device device' : D)
    (overlay overlay' : O) : Prop :=
  ∀ path leaf, schema.Has path leaf → leaf.Names side →
    leaf.func device overlay = leaf.func device' overlay'

structure Schema.Separated (schema : Schema D O ε κ α) : Prop where
  /-- Nothing of what the other leaves read is in a side's configuration. -/
  same : ∀ side device device' overlay overlay' out out',
    schema.Same side device device' overlay overlay' →
    genconf device overlay schema.tree = .ok out → genconf device' overlay' schema.tree = .ok out' →
      side.of out = side.of out'
  appears : ∀ side device overlay out path leaf value,
    genconf device overlay schema.tree = .ok out →
    schema.Has path leaf → leaf.Names side → leaf.func device overlay = .ok value →
      qualifiesAsValue value →
      (side.of out).get? path = some value
  /-- Only a leaf function that raises keeps the configurations from being generated. -/
  returns : ∀ device overlay, (∃ out, genconf device overlay schema.tree = .ok out) ↔
    ∀ path leaf, schema.Has path leaf → ∃ value, leaf.func device overlay = .ok value

theorem conf_congr {tree : SchemaTree D O ε κ α} (hd : tree.Distinct) {side : Side}
    {device device' : D} {overlay overlay' : O}
    (h : ∀ path leaf, tree.get? path = some (.leaf leaf) → leaf.Names side →
      leaf.func device overlay = leaf.func device' overlay') :
    conf device overlay side tree = conf device' overlay' side tree := by
  apply Tree.graft_congr hd
  intro path leaf hleaf
  rw [Leaf.conf, Leaf.conf]
  split
  · next hnames => rw [Leaf.value, Leaf.value, h path leaf hleaf hnames]
  · rfl

theorem genconf_of {tree : SchemaTree D O ε κ α} (hd : tree.Distinct) {device : D} {overlay : O}
    {out : Value κ α × Value κ α} (h : genconf device overlay tree = .ok out) (side : Side) :
    side.of out = conf device overlay side tree := by
  have heq := genconf_eq hd fun _ _ hleaf => leaf_returns hd h hleaf
  rw [h] at heq
  cases heq
  cases side <;> rfl

/-- Each configuration depends on the leaves of its own side alone, and has every one of them that
has a value. -/
theorem genconf_separates (schema : Schema D O ε κ α) : schema.Separated where
  same := by
    intro side device device' overlay overlay' out out' hsame hout hout'
    rw [genconf_of schema.distinct hout, genconf_of schema.distinct hout']
    exact conf_congr schema.distinct hsame
  appears := by
    intro side device overlay out path leaf value hout hleaf hnames hfunc hvalue
    have hconf : Leaf.conf device overlay side leaf = value := by
      rw [Leaf.conf, if_pos hnames, Leaf.value, hfunc]
    rw [genconf_of schema.distinct hout, ← hconf]
    -- a dictionary that has a child is never left out
    have hkeep : ∀ item items, qualifiesAsValue (.node (item :: items) : Value κ α) = true :=
      fun _ _ => rfl
    exact (Tree.get?_graft hkeep schema.distinct hleaf (by rw [hconf, hvalue])).1
  returns := by
    intro device overlay
    constructor
    · rintro ⟨out, hout⟩ path leaf hleaf
      exact leaf_returns schema.distinct hout hleaf
    · intro hok
      exact ⟨_, genconf_eq schema.distinct hok⟩

end

end Unibuild
