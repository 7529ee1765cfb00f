import Mathlib.Data.List.Induction
import Mathlib.Data.List.Perm.Subperm
import DevUtil.Lib.CString

/-!
# The shared cache

`cache.h`: strings in a file-backed memory that several compiler processes map.
A mapping holds the header (`length`, `count`) and the data after it.  Every
operation takes the lock of the cache, so it is one step.

`Contents` is what a cache is for: the strings inserted, in order, and the size
that bounds them.

    Holds c k → op on c = op on k                                  (Op.exec_spec)
    Conforms m ops ↔ NeverSearchesFull m ops                       (conforms_iff)

The walk over the strings ends at a NUL after the last one.  A cache filled to its
last byte has none: looking there for a string that it lacks reads past the mapping.
-/

namespace Roafteriniter

open Lib CString

/-! ## Strings and mappings -/

def NUL : Char := Char.ofNat 0

/-- No object is larger. -/
def PTRDIFF_MAX : Nat := 2 ^ 63 - 1

/-- A C string, without its NUL. -/
structure CStr where
  chars : List Char
  noNul : NUL ∉ chars
  small : chars.length < PTRDIFF_MAX
deriving DecidableEq

def CStr.length (s : CStr) : Nat := s.chars.length

def CStr.empty : CStr := ⟨[], List.not_mem_nil, by show 0 < 2 ^ 63 - 1; omega⟩

/-- A string literal. -/
def lit (s : String) : CStr :=
  if h : NUL ∉ s.toList ∧ s.toList.length < PTRDIFF_MAX then ⟨s.toList, h.1, h.2⟩ else .empty

theorem CStr.ext {s t : CStr} (h : s.chars = t.chars) : s = t := by
  match s, t, h with
  | ⟨_, _, _⟩, ⟨_, _, _⟩, rfl => rfl

/-- `sizeof(struct cachehdr)` -/
def headerSize : Nat := 16

/-- What `cache_map` maps: an address and a size that it accepts. -/
structure Mapping where
  hdr : Nat
  size : Nat
  pos : size ≠ 0
  pages : size % 0x1000 = 0
  small : size ≤ PTRDIFF_MAX
  /-- the address past its end exists too -/
  inside : hdr + size < 2 ^ 64

theorem Mapping.headerSize_le (m : Mapping) : headerSize ≤ m.size := by
  have hpos := m.pos
  have hpages := m.pages
  unfold headerSize
  omega

structure Cache where
  map : Mapping
  /-- `hdr->length` -/
  length : Nat
  /-- `hdr->count` -/
  count : Nat
  data : List Char
  data_length : headerSize + data.length = map.size

/-- A cache just created: all zero. -/
def Cache.fresh (m : Mapping) : Cache where
  map := m
  length := 0
  count := 0
  data := List.replicate (m.size - headerSize) NUL
  data_length := by
    have h := m.headerSize_le
    rw [List.length_replicate]
    omega

/-! ## Operations -/

inductive Ret
  | insertionSuccess
  | insertionFailed
  | containsSuccess
  | containsFailed
  | einval
deriving DecidableEq

/-- `none` is a read outside the mapping. -/
def _cacheContains (c : Cache) (item : CStr) : Option Ret :=
  match search NUL item.chars c.data with
  | none => none
  | some true => some .containsSuccess
  | some false => some .containsFailed

/-- Whether a string of length `slen` does not fit behind the others. Addresses are `uint64_t`. -/
def tooLong (c : Cache) (slen : Nat) : Bool :=
  let ptr := c.map.hdr + headerSize + c.length
  let copyend := (ptr + slen + 1) % 2 ^ 64
  let copystart := c.map.hdr
  decide (copyend < copystart) || decide (copyend - copystart > c.map.size)

/-- `none` is a write outside the mapping. The header fields are `uint64_t`. -/
def _cacheInsert (c : Cache) (str : CStr) : Option (Ret × Cache) :=
  if str.length = 0 then some (.insertionFailed, c)
  else if tooLong c str.length then some (.insertionFailed, c)
  else
    match h : store c.data c.length str.chars with
    | none => none
    | some data =>
      some (.insertionSuccess,
        { map := c.map
          length := (c.length + (str.length + 1)) % 2 ^ 64
          count := (c.count + 1) % 2 ^ 64
          data := data
          data_length := by rw [length_store h]; exact c.data_length })

def cacheInsert (c : Cache) : Option CStr → Option (Ret × Cache)
  | none => some (.einval, c)
  | some item => _cacheInsert c item

def cacheContains (c : Cache) : Option CStr → Option Ret
  | none => some .einval
  | some item => _cacheContains c item

def cacheNotcontainsInsert (c : Cache) : Option CStr → Option (Ret × Cache)
  | none => some (.einval, c)
  | some item =>
    match _cacheContains c item with
    | none => none
    | some .containsFailed => _cacheInsert c item
    | some ret => some (ret, c)

/-! ## Contents -/

/-- The bytes that a cache with these strings takes. -/
def used (items : List CStr) : Nat := headerSize + (items.map fun s => s.length + 1).sum

theorem used_cons (s : CStr) (items : List CStr) :
    used (s :: items) = used items + (s.length + 1) := by
  simp [used]
  omega

theorem used_perm {items items' : List CStr} (h : items.Perm items') :
    used items = used items' := by
  unfold used
  rw [(h.map _).sum_nat]

theorem used_sublist {items items' : List CStr} (h : items.Sublist items') :
    used items ≤ used items' := by
  induction h with
  | slnil => exact Nat.le_refl _
  | cons s _ ih =>
    rw [used_cons]
    omega
  | cons_cons s _ ih =>
    rw [used_cons, used_cons]
    omega

/-- Distinct strings take no more room than those they are taken from. -/
theorem used_le_of_subset {items items' : List CStr} (hnd : items.Nodup) (hsub : items ⊆ items') :
    used items ≤ used items' := by
  obtain ⟨l, hperm, hl⟩ := hnd.subperm hsub
  rw [← used_perm hperm]
  exact used_sublist hl

structure Contents where
  size : Nat
  items : List CStr
  nonempty : ∀ s ∈ items, s.length ≠ 0
  fits : used items ≤ size

namespace Contents

def empty (m : Mapping) : Contents :=
  ⟨m.size, [], fun _ h => (List.not_mem_nil h).elim, m.headerSize_le⟩

def Full (k : Contents) : Prop := used k.items = k.size

instance decidableFull (k : Contents) : Decidable k.Full := inferInstanceAs (Decidable (_ = _))

theorem used_concat (items : List CStr) (s : CStr) :
    used (items ++ [s]) = used items + (s.length + 1) := by
  simp [used]
  omega

def contains (k : Contents) (s : CStr) : Option Ret :=
  if s ∈ k.items then some .containsSuccess else if k.Full then none else some .containsFailed

def insert (k : Contents) (s : CStr) : Ret × Contents :=
  if h : s.length ≠ 0 ∧ used k.items + (s.length + 1) ≤ k.size then
    (.insertionSuccess,
      { size := k.size
        items := k.items ++ [s]
        nonempty := by
          intro t ht
          rcases List.mem_append.mp ht with ht | ht
          · exact k.nonempty t ht
          · exact List.mem_singleton.mp ht ▸ h.1
        fits := by rw [used_concat]; exact h.2 })
  else (.insertionFailed, k)

def notcontainsInsert (k : Contents) (s : CStr) : Option (Ret × Contents) :=
  match k.contains s with
  | none => none
  | some .containsFailed => some (k.insert s)
  | some ret => some (ret, k)

end Contents

/-! ## A cache holds its contents -/

structure Holds (c : Cache) (k : Contents) : Prop where
  size : k.size = c.map.size
  data : c.data = packed NUL (k.items.map CStr.chars) ++ List.replicate (k.size - used k.items) NUL
  length : headerSize + c.length = used k.items
  count : c.count = k.items.length

theorem length_packed_chars (items : List CStr) :
    headerSize + (packed NUL (items.map CStr.chars)).length = used items := by
  rw [length_packed, List.map_map]
  rfl

theorem used_ge (items : List CStr) : headerSize + items.length ≤ used items := by
  induction items with
  | nil => exact Nat.le_refl _
  | cons s items ih =>
    simp only [used, List.map_cons, List.sum_cons, List.length_cons] at ih ⊢
    omega

theorem mem_map_chars {items : List CStr} {s : CStr} :
    s.chars ∈ items.map CStr.chars ↔ s ∈ items := by
  constructor
  · intro h
    obtain ⟨t, ht, heq⟩ := List.mem_map.mp h
    exact CStr.ext heq ▸ ht
  · exact List.mem_map_of_mem

theorem Holds.fresh (m : Mapping) : Holds (.fresh m) (.empty m) where
  size := rfl
  data := rfl
  length := rfl
  count := rfl

theorem Holds.contains {c : Cache} {k : Contents} (h : Holds c k) (s : CStr) :
    _cacheContains c s = k.contains s := by
  have hitems : ∀ t ∈ k.items.map CStr.chars, NUL ∉ t ∧ t ≠ [] := by
    intro t ht
    obtain ⟨u, hu, rfl⟩ := List.mem_map.mp ht
    exact ⟨u.noNul, fun e => k.nonempty u hu (congrArg List.length e)⟩
  have hfits := k.fits
  unfold _cacheContains Contents.contains
  rw [h.data, search_packed hitems s.noNul]
  by_cases hmem : s ∈ k.items
  · rw [if_pos (mem_map_chars.mpr hmem), if_pos hmem]
  · rw [if_neg (fun e => hmem (mem_map_chars.mp e)), if_neg hmem]
    by_cases hfull : k.Full
    · have hzero : k.size - used k.items = 0 := by unfold Contents.Full at hfull; omega
      rw [if_pos hzero, if_pos hfull]
    · have hzero : k.size - used k.items ≠ 0 := by unfold Contents.Full at hfull; omega
      rw [if_neg hzero, if_neg hfull]

/-- The 64-bit comparison of the addresses is the comparison of the sizes. -/
theorem Holds.tooLong_iff {c : Cache} {k : Contents} (h : Holds c k) (s : CStr) :
    tooLong c s.length = true ↔ k.size < used k.items + (s.length + 1) := by
  have hfits := k.fits
  have hlength := h.length
  have hsize := h.size
  have hinside := c.map.inside
  have hpos := c.map.pos
  have hn : used k.items + (s.length + 1) < 2 ^ 64 := by
    have hsmall := s.small
    have hmap := c.map.small
    unfold PTRDIFF_MAX at hsmall hmap
    unfold CStr.length
    omega
  have hptr : c.map.hdr + headerSize + c.length + s.length + 1 =
      c.map.hdr + (used k.items + (s.length + 1)) := by
    omega
  simp only [tooLong, hptr, Bool.or_eq_true, decide_eq_true_eq]
  by_cases hwrap : c.map.hdr + (used k.items + (s.length + 1)) < 2 ^ 64
  · rw [Nat.mod_eq_of_lt hwrap]
    omega
  · obtain ⟨excess, hexcess⟩ : ∃ excess, c.map.hdr + (used k.items + (s.length + 1)) =
        2 ^ 64 + excess :=
      ⟨_, (Nat.add_sub_cancel' (Nat.le_of_not_lt hwrap)).symm⟩
    rw [hexcess, Nat.add_mod_left, Nat.mod_eq_of_lt (by omega)]
    omega

theorem Contents.insert_room {k : Contents} {s : CStr} (hne : s.length ≠ 0)
    (hroom : used k.items + (s.length + 1) ≤ k.size) :
    (k.insert s).1 = .insertionSuccess ∧ (k.insert s).2.items = k.items ++ [s] ∧
      (k.insert s).2.size = k.size := by
  unfold Contents.insert
  rw [dif_pos ⟨hne, hroom⟩]
  exact ⟨rfl, rfl, rfl⟩

theorem Contents.insert_refused {k : Contents} {s : CStr}
    (h : ¬(s.length ≠ 0 ∧ used k.items + (s.length + 1) ≤ k.size)) :
    k.insert s = (.insertionFailed, k) :=
  dif_neg h

theorem Holds.store {c : Cache} {k : Contents} (h : Holds c k) {s : CStr}
    (hroom : used k.items + (s.length + 1) ≤ k.size) :
    CString.store c.data c.length s.chars = some (packed NUL ((k.items ++ [s]).map CStr.chars) ++
      List.replicate (k.size - used (k.items ++ [s])) NUL) := by
  have hlength := h.length
  have hdata := length_packed_chars k.items
  have hlt : s.length < k.size - used k.items := by omega
  have hat : c.length = (packed NUL (k.items.map CStr.chars)).length := by omega
  rw [h.data, hat, store_packed NUL _ _ hlt, List.map_append, List.map_singleton,
    Contents.used_concat]
  congr 3
  unfold CStr.length
  omega

theorem Holds.insert {c : Cache} {k : Contents} (h : Holds c k) (s : CStr) :
    ∃ c', _cacheInsert c s = some ((k.insert s).1, c') ∧ Holds c' (k.insert s).2 ∧
      ((k.insert s).1 = .insertionFailed → c' = c) := by
  by_cases hempty : s.length = 0
  · have hins := @Contents.insert_refused k s fun e => e.1 hempty
    refine ⟨c, ?_, hins ▸ h, fun _ => rfl⟩
    rw [hins]
    exact if_pos hempty
  by_cases hroom : used k.items + (s.length + 1) ≤ k.size
  · have hshort : ¬tooLong c s.length = true := by rw [h.tooLong_iff]; omega
    obtain ⟨hret, hitems, hsize⟩ := Contents.insert_room hempty hroom
    have hlength := h.length
    have hcount := used_ge k.items
    have hmap := c.map.small
    have hksize := h.size
    unfold PTRDIFF_MAX at hmap
    unfold _cacheInsert
    rw [hret, if_neg hempty, if_neg hshort]
    split
    · next hnone => rw [h.store hroom] at hnone; cases hnone
    · next data hsome =>
      rw [h.store hroom] at hsome
      cases hsome
      refine ⟨_, rfl, ⟨?_, ?_, ?_, ?_⟩, fun e => nomatch e⟩
      · rw [hsize]; exact hksize
      · rw [hitems, hsize]
      · show headerSize + (c.length + (s.length + 1)) % 2 ^ 64 = _
        rw [hitems, Contents.used_concat, Nat.mod_eq_of_lt (by omega)]
        omega
      · show (c.count + 1) % 2 ^ 64 = _
        rw [hitems, h.count, List.length_append, List.length_singleton, Nat.mod_eq_of_lt (by omega)]
  · have hlong : tooLong c s.length = true := by rw [h.tooLong_iff]; omega
    have hins := @Contents.insert_refused k s fun e => hroom e.2
    refine ⟨c, ?_, hins ▸ h, fun _ => rfl⟩
    unfold _cacheInsert
    rw [hins, if_neg hempty, if_pos hlong]

/-! ## Sequences of operations -/

inductive Op
  | insert (s : CStr)
  | notcontainsInsert (s : CStr)
  | contains (s : CStr)

namespace Op

def item : Op → CStr
  | insert s | notcontainsInsert s | contains s => s

/-- Whether the operation walks over the strings. -/
def searches : Op → Bool
  | insert _ => false
  | notcontainsInsert _ | contains _ => true

def exec (c : Cache) : Op → Option (Ret × Cache)
  | insert s => cacheInsert c (some s)
  | notcontainsInsert s => cacheNotcontainsInsert c (some s)
  | contains s => (cacheContains c (some s)).map fun ret => (ret, c)

def spec (k : Contents) : Op → Option (Ret × Contents)
  | insert s => some (k.insert s)
  | notcontainsInsert s => k.notcontainsInsert s
  | contains s => (k.contains s).map fun ret => (ret, k)

/-- The contents after an operation that stays inside the mapping. -/
def after (k : Contents) : Op → Contents
  | insert s => (k.insert s).2
  | notcontainsInsert s => if s ∈ k.items then k else (k.insert s).2
  | contains _ => k

theorem spec_eq_none {op : Op} {k : Contents} :
    op.spec k = none ↔ op.searches = true ∧ op.item ∉ k.items ∧ k.Full := by
  match op with
  | insert s => simp [spec, searches]
  | notcontainsInsert s =>
    simp only [spec, Contents.notcontainsInsert, Contents.contains, searches, item, true_and]
    by_cases hmem : s ∈ k.items
    · simp [hmem]
    · by_cases hfull : k.Full <;> simp [hmem, hfull]
  | contains s =>
    simp only [spec, Contents.contains, searches, item, true_and]
    by_cases hmem : s ∈ k.items
    · simp [hmem]
    · by_cases hfull : k.Full <;> simp [hmem, hfull]

theorem spec_after {op : Op} {k k' : Contents} {r : Ret} (h : op.spec k = some (r, k')) :
    k' = op.after k := by
  match op with
  | insert s => exact (congrArg Prod.snd (Option.some.inj h)).symm
  | notcontainsInsert s =>
    simp only [spec, Contents.notcontainsInsert, Contents.contains, after] at h ⊢
    by_cases hmem : s ∈ k.items
    · simp only [hmem, if_true, Option.some.injEq, Prod.mk.injEq] at h ⊢
      exact h.2.symm
    · by_cases hfull : k.Full
      · simp [hmem, hfull] at h
      · simp only [hmem, hfull, if_false, Option.some.injEq] at h ⊢
        rw [h]
  | contains s =>
    simp only [spec, Option.map_eq_some_iff] at h
    obtain ⟨ret, -, heq⟩ := h
    exact (congrArg Prod.snd heq).symm

/-- The cache does what its contents do. -/
theorem exec_spec {op : Op} {c : Cache} {k : Contents} (h : Holds c k) :
    match op.spec k with
    | none => op.exec c = none
    | some (r, k') =>
      ∃ c', op.exec c = some (r, c') ∧ Holds c' k' ∧ (r = .insertionFailed → c' = c) := by
  match op with
  | insert s => exact h.insert s
  | notcontainsInsert s =>
    simp only [spec, Contents.notcontainsInsert, exec, cacheNotcontainsInsert, h.contains]
    match hk : k.contains s with
    | none => rfl
    | some .containsFailed => exact h.insert s
    | some .containsSuccess => exact ⟨c, rfl, h, fun _ => rfl⟩
    | some .insertionSuccess | some .insertionFailed | some .einval =>
      exact ⟨c, rfl, h, fun _ => rfl⟩
  | contains s =>
    simp only [spec, exec, cacheContains, h.contains]
    match k.contains s with
    | none => rfl
    | some ret => exact ⟨c, rfl, h, fun _ => rfl⟩

end Op

/-- The answers and the cache after a sequence of operations. -/
def runOps : List Op → Cache → Option (List Ret × Cache)
  | [], c => some ([], c)
  | op :: ops, c =>
    match op.exec c with
    | none => none
    | some (ret, c) => (runOps ops c).map fun (rets, c) => (ret :: rets, c)

/-- The strings whose insertion was answered with success, in order. -/
def inserted : List Op → List Ret → List CStr
  | op :: ops, ret :: rets =>
    if ret = .insertionSuccess then op.item :: inserted ops rets else inserted ops rets
  | _, _ => []

structure Layout (c : Cache) (strings : List CStr) : Prop where
  data : ∃ n, c.data = packed NUL (strings.map CStr.chars) ++ List.replicate n NUL
  length : c.length = (packed NUL (strings.map CStr.chars)).length
  count : c.count = strings.length

/-- What a cache should do in a sequence of operations, each time: stay inside the mapping,
keep the layout, find what was inserted, and change nothing when an insertion fails. -/
def Conforms (m : Mapping) (ops : List Op) : Prop :=
  ∀ pre op post, ops = pre ++ op :: post → ∃ rets c ret c',
    runOps pre (.fresh m) = some (rets, c) ∧ op.exec c = some (ret, c') ∧
    Layout c (inserted pre rets) ∧ Layout c' (inserted (pre ++ [op]) (rets ++ [ret])) ∧
    (∀ s, op = .contains s → s.length ≠ 0 → (ret = .containsSuccess ↔ s ∈ inserted pre rets)) ∧
    (ret = .insertionFailed → c' = c)

def contentsAfter (m : Mapping) (ops : List Op) : Contents := ops.foldl Op.after (.empty m)

/-- No operation looks for a string in a cache that lacks it and is filled to its last byte. -/
def NeverSearchesFull (m : Mapping) (ops : List Op) : Prop :=
  ∀ pre op post, ops = pre ++ op :: post → op.searches = true →
    op.item ∈ (contentsAfter m pre).items ∨ ¬(contentsAfter m pre).Full

theorem contentsAfter_concat (m : Mapping) (ops : List Op) (op : Op) :
    contentsAfter m (ops ++ [op]) = op.after (contentsAfter m ops) := by
  simp [contentsAfter]

theorem runOps_concat {ops : List Op} {op : Op} {c c' c'' : Cache} {rets : List Ret} {ret : Ret}
    (h : runOps ops c = some (rets, c')) (hop : op.exec c' = some (ret, c'')) :
    runOps (ops ++ [op]) c = some (rets ++ [ret], c'') := by
  induction ops generalizing c rets with
  | nil =>
    cases h
    simp [runOps, hop]
  | cons o ops ih =>
    rw [runOps] at h
    split at h
    · cases h
    · next r c₁ ho =>
      obtain ⟨⟨rs, c₂⟩, hrun, heq⟩ := Option.map_eq_some_iff.mp h
      cases heq
      rw [List.cons_append, runOps, ho]
      show (runOps (ops ++ [op]) c₁).map _ = _
      rw [ih hrun]
      rfl

theorem length_runOps {ops : List Op} {c c' : Cache} {rets : List Ret}
    (h : runOps ops c = some (rets, c')) :
    rets.length = ops.length := by
  induction ops generalizing c rets with
  | nil =>
    cases h
    rfl
  | cons o ops ih =>
    rw [runOps] at h
    split at h
    · cases h
    · obtain ⟨⟨rs, c₂⟩, hrun, heq⟩ := Option.map_eq_some_iff.mp h
      cases heq
      simp [ih hrun]

theorem inserted_concat {ops : List Op} {rets : List Ret} (h : rets.length = ops.length) (op : Op)
    (ret : Ret) :
    inserted (ops ++ [op]) (rets ++ [ret]) =
      inserted ops rets ++ if ret = .insertionSuccess then [op.item] else [] := by
  induction ops generalizing rets with
  | nil =>
    rw [List.length_eq_zero_iff.mp h]
    simp [inserted]
  | cons o ops ih =>
    match rets, h with
    | r :: rs, h =>
      have ih := ih (Nat.succ.inj h)
      simp only [List.cons_append, inserted, ih]
      split <;> rfl

/-- An operation appends its string exactly if it answers that it inserted it. -/
theorem Op.spec_items {op : Op} {k k' : Contents} {ret : Ret} (h : op.spec k = some (ret, k')) :
    k'.items = k.items ++ if ret = .insertionSuccess then [op.item] else [] := by
  have hinsert : ∀ s, (k.insert s).2.items = k.items ++ if (k.insert s).1 = .insertionSuccess then
    [s] else [] := by
    intro s
    unfold Contents.insert
    split <;> simp
  have hcontains : ∀ s r, k.contains s = some r → r ≠ .insertionSuccess := by
    intro s r hr
    unfold Contents.contains at hr
    split at hr
    · cases hr; simp
    · split at hr
      · cases hr
      · cases hr; simp
  match op with
  | insert s =>
    have hs := hinsert s
    rw [Option.some.inj h] at hs
    exact hs
  | notcontainsInsert s =>
    simp only [spec, Contents.notcontainsInsert] at h
    split at h
    · cases h
    · have hs := hinsert s
      rw [Option.some.inj h] at hs
      exact hs
    · next r _ hr =>
      cases h
      simp [hcontains s _ hr]
  | contains s =>
    obtain ⟨r, hr, heq⟩ := Option.map_eq_some_iff.mp h
    cases heq
    simp [hcontains s _ hr]

/-- The operations `ops` stay inside the mapping and leave what they should. -/
def Reaches (m : Mapping) (ops : List Op) (rets : List Ret) (c : Cache) : Prop :=
  runOps ops (.fresh m) = some (rets, c) ∧ Holds c (contentsAfter m ops) ∧
    inserted ops rets = (contentsAfter m ops).items

/-- One operation more. -/
theorem Reaches.concat {m : Mapping} {ops : List Op} {rets : List Ret} {c : Cache}
    (h : Reaches m ops rets c) {op : Op} (hop : op.spec (contentsAfter m ops) ≠ none) :
    ∃ ret c', op.exec c = some (ret, c') ∧ Reaches m (ops ++ [op]) (rets ++ [ret]) c' ∧
      (∃ k', op.spec (contentsAfter m ops) = some (ret, k')) ∧
        (ret = .insertionFailed → c' = c) := by
  obtain ⟨hrun, hholds, hins⟩ := h
  have hspec := @Op.exec_spec op _ _ hholds
  match hk : op.spec (contentsAfter m ops) with
  | none => exact absurd hk hop
  | some (ret, k') =>
    rw [hk] at hspec
    obtain ⟨c', hexec, hholds', hfail⟩ := hspec
    have hafter : contentsAfter m (ops ++ [op]) = k' := by
      rw [contentsAfter_concat, Op.spec_after hk]
    refine ⟨ret, c', hexec, ⟨runOps_concat hrun hexec, ?_, ?_⟩, ⟨k', rfl⟩, hfail⟩
    · rw [hafter]
      exact hholds'
    · rw [hafter, inserted_concat (length_runOps hrun), Op.spec_items hk, hins]

theorem Reaches.layout {m : Mapping} {ops : List Op} {rets : List Ret} {c : Cache}
    (h : Reaches m ops rets c) :
    Layout c (inserted ops rets) := by
  obtain ⟨-, hholds, hins⟩ := h
  have hlength := hholds.length
  have hpacked := length_packed_chars (contentsAfter m ops).items
  rw [hins]
  exact ⟨⟨_, hholds.data⟩, by omega, hholds.count⟩

theorem Reaches.nil (m : Mapping) : Reaches m [] [] (.fresh m) := ⟨rfl, Holds.fresh m, rfl⟩

theorem spec_ne_none {m : Mapping} {ops : List Op} (h : NeverSearchesFull m ops)
    {pre post : List Op} {op : Op} (hops : ops = pre ++ op :: post) :
    op.spec (contentsAfter m pre) ≠ none := by
  intro hnone
  obtain ⟨hsearch, hmem, hfull⟩ := Op.spec_eq_none.mp hnone
  rcases h pre op post hops hsearch with h | h
  · exact hmem h
  · exact h hfull

theorem reaches_of_searches {m : Mapping} {ops : List Op} (h : NeverSearchesFull m ops)
    (pre : List Op) :
    ∀ post, ops = pre ++ post → ∃ rets c, Reaches m pre rets c := by
  induction pre using List.reverseRecOn with
  | nil => exact fun _ _ => ⟨[], _, Reaches.nil m⟩
  | append_singleton pre op ih =>
    intro post hops
    rw [List.append_assoc, List.singleton_append] at hops
    obtain ⟨rets, c, hreach⟩ := ih _ hops
    obtain ⟨ret, c', -, hreach', -⟩ := hreach.concat (spec_ne_none h hops)
    exact ⟨_, _, hreach'⟩

theorem reaches_of_conforms {m : Mapping} {ops : List Op} (h : Conforms m ops) (pre : List Op) :
    ∀ post, ops = pre ++ post → ∃ rets c, Reaches m pre rets c := by
  induction pre using List.reverseRecOn with
  | nil => exact fun _ _ => ⟨[], _, Reaches.nil m⟩
  | append_singleton pre op ih =>
    intro post hops
    rw [List.append_assoc, List.singleton_append] at hops
    obtain ⟨rets, c, hreach⟩ := ih _ hops
    obtain ⟨rets', c₁, ret, c', hrun, hexec, -⟩ := h pre op post hops
    have hc : some (rets, c) = some (rets', c₁) := hreach.1.symm.trans hrun
    cases hc
    have hspec := @Op.exec_spec op _ _ hreach.2.1
    have hne : op.spec (contentsAfter m pre) ≠ none := by
      intro hnone
      rw [hnone, hexec] at hspec
      cases hspec
    obtain ⟨_, _, -, hreach', -⟩ := hreach.concat hne
    exact ⟨_, _, hreach'⟩

theorem searches_of_conforms {m : Mapping} {ops : List Op} (h : Conforms m ops) :
    NeverSearchesFull m ops := by
  intro pre op post hops hsearch
  obtain ⟨rets, c, hreach⟩ := reaches_of_conforms h pre _ hops
  obtain ⟨rets', c₁, ret, c', hrun, hexec, -⟩ := h pre op post hops
  have hc : some (rets, c) = some (rets', c₁) := hreach.1.symm.trans hrun
  cases hc
  by_cases hmem : op.item ∈ (contentsAfter m pre).items
  · exact .inl hmem
  · refine .inr fun hfull => ?_
    have hspec := @Op.exec_spec op _ _ hreach.2.1
    rw [Op.spec_eq_none.mpr ⟨hsearch, hmem, hfull⟩, hexec] at hspec
    cases hspec

theorem contains_answer {k k' : Contents} {s : CStr} {ret : Ret}
    (h : (Op.contains s).spec k = some (ret, k')) : ret = .containsSuccess ↔ s ∈ k.items := by
  obtain ⟨r, hr, heq⟩ := Option.map_eq_some_iff.mp h
  cases heq
  unfold Contents.contains at hr
  split at hr
  · next hmem =>
    cases hr
    simp [hmem]
  · next hmem =>
    split at hr
    · cases hr
    · cases hr
      simp [hmem]

/-- A cache does what it should exactly if no search in it runs past a full mapping. -/
theorem conforms_iff (m : Mapping) (ops : List Op) : Conforms m ops ↔ NeverSearchesFull m ops := by
  constructor
  · exact searches_of_conforms
  · intro h pre op post hops
    obtain ⟨rets, c, hreach⟩ := reaches_of_searches h pre _ hops
    obtain ⟨ret, c', hexec, hreach', ⟨k', hspec⟩, hfail⟩ := hreach.concat (spec_ne_none h hops)
    refine ⟨rets, c, ret, c', hreach.1, hexec, hreach.layout, hreach'.layout, ?_, hfail⟩
    rintro s rfl -
    rw [hreach.2.2]
    exact contains_answer hspec

/-- One string up to the last byte, then a search for another. -/
theorem not_conforms_of_filled {m : Mapping} {s t : CStr} (hne : s.length ≠ 0)
    (hfill : headerSize + (s.length + 1) = m.size) (ht : t ≠ s) :
    ¬Conforms m [.insert s, .contains t] := by
  intro h
  have hroom : used (Contents.empty m).items + (s.length + 1) ≤ (Contents.empty m).size :=
    Nat.le_of_eq hfill
  obtain ⟨-, hitems, hsize⟩ := Contents.insert_room hne hroom
  rcases searches_of_conforms h [.insert s] (.contains t) [] rfl rfl with hmem | hfull
  · have hmem : t ∈ ((Contents.empty m).insert s).2.items := hmem
    rw [hitems] at hmem
    exact ht (List.mem_singleton.mp hmem)
  · apply hfull
    show used ((Contents.empty m).insert s).2.items = ((Contents.empty m).insert s).2.size
    rw [hitems, hsize, Contents.used_concat]
    exact hfill

/-- The mapping of the tests. -/
def testMapping : Mapping where
  hdr := 0x10000
  size := 0x1000
  pos := by omega
  pages := by omega
  small := by unfold PTRDIFF_MAX; omega
  inside := by omega

/-- A string that takes all the room there is in `testMapping`. -/
def filler : CStr where
  chars := List.replicate 4079 'A'
  noNul := by
    intro h
    have hA := List.eq_of_mem_replicate h
    revert hA
    decide
  small := by
    rw [List.length_replicate]
    decide

theorem length_filler : filler.length = 4079 := List.length_replicate

theorem full_cache_overrun : ¬Conforms testMapping [.insert filler, .contains (lit "B")] := by
  apply not_conforms_of_filled
  · rw [length_filler]
    omega
  · rw [length_filler]
    rfl
  · intro h
    have hlength := congrArg CStr.length h
    have hB : (lit "B").length = 1 := by decide
    rw [length_filler, hB] at hlength
    omega

end Roafteriniter
