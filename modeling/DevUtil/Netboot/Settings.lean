import Mathlib.Data.List.Nodup
import DevUtil.Lib.Struct

/-!
# Settings of the netboot firmware

`Settings` of `netboot_firmware_settings.py`, which are packed into an area of the firmware
image, and a reader for what is packed.

    pack s = some data → readSettings data = some (items of s), and 4 ∣ length of
      data                                                                            (pack_reads)
    the same items in two packed settings → the same settings                         (pack_decodes)
-/

namespace Netboot

open Lib.Struct

/-! ## Settings -/

/-- `Setting`, a string of bytes; for an `IpAddress` these are the four of `inet_pton`. -/
structure Setting where
  val : List UInt8
deriving DecidableEq

def Setting.pack (s : Setting) : List UInt8 := s.val

/-- `Settings.Attribute` -/
structure Attribute where
  code : Nat
  value : Option Setting
deriving DecidableEq

/-- `if self.value: .. else: ''`; a `Setting` is true, whatever is in it. -/
def Attribute.bytes (a : Attribute) : List UInt8 :=
  match a.value with
  | some value => value.pack
  | none => []

/-- `Attribute.pack` -/
def Attribute.pack (a : Attribute) : Option (List UInt8) := do
  let value := a.bytes
  let valueLen := value.length
  let padLen := (valueLen + 3) / 4 * 4 - valueLen
  let value := value ++ List.replicate padLen 0
  let code ← packI a.code
  let len ← packI valueLen
  return code ++ len ++ packS (valueLen + padLen) value

/-- The attributes, in the order in which the dictionary yields them. -/
structure Settings where
  attributes : List (String × Attribute)
  names : (attributes.map Prod.fst).Nodup
  codes : (attributes.map fun x => x.2.code).Nodup

/-- `netboot` and a NUL. -/
def signature : List UInt8 := [110, 101, 116, 98, 111, 111, 116, 0]

/-- `for _, attr in self.attributes.iteritems(): value += attr.pack()` -/
def packAttributes : List UInt8 → List (String × Attribute) → Option (List UInt8)
  | value, [] => some value
  | value, (_, attr) :: attributes => do
    let packed ← attr.pack
    packAttributes (value ++ packed) attributes

/-- `Settings.pack` -/
def Settings.pack (s : Settings) : Option (List UInt8) := do
  let count ← packI s.attributes.length
  packAttributes (signature ++ count) s.attributes

/-- `Settings.__init__` -/
def Settings.init : Settings where
  attributes := [("tftp_server_ip", ⟨1, none⟩), ("kernel_args", ⟨2, none⟩), ("bootfile", ⟨3, none⟩),
    ("argsfile", ⟨4, none⟩)]
  names := by decide
  codes := by decide

def setValue (name : String) (value : Setting) (x : String × Attribute) : String × Attribute :=
  if x.1 = name then (x.1, { x.2 with value := some value }) else x

theorem setValue_fst (name : String) (value : Setting) (x : String × Attribute) :
    (setValue name value x).1 = x.1 := by
  unfold setValue
  split <;> rfl

theorem setValue_code (name : String) (value : Setting) (x : String × Attribute) :
    (setValue name value x).2.code = x.2.code := by
  unfold setValue
  split <;> rfl

/-- `Settings.__setitem__`; `none` is a `KeyError`. -/
def Settings.setItem (s : Settings) (name : String) (value : Setting) : Option Settings :=
  if name ∈ s.attributes.map Prod.fst then
    some {
      attributes := s.attributes.map (setValue name value)
      names := by
        rw [List.map_map, show Prod.fst ∘ setValue name value =
          Prod.fst from funext (setValue_fst name value)]
        exact s.names
      codes := by
        rw [List.map_map]
        rw [show (fun x : String × Attribute => x.2.code) ∘ setValue name value =
          fun x => x.2.code from
          funext (setValue_code name value)]
        exact s.codes }
  else none

/-! ## The reader -/

/-- Code, length, and the value with its padding. -/
def readItem : Reader (Nat × List UInt8) :=
  readI.bind fun code => readI.bind fun len => (readBytes ((len + 3) / 4 * 4)).bind fun value =>
    .pure (code, value.take len)

/-- The signature, a count, and so many items. -/
def readParts : Reader (List UInt8 × List (Nat × List UInt8)) :=
  (readBytes signature.length).bind fun found => readI.bind fun count =>
    (readMany readItem count).bind fun items => .pure (found, items)

/-- The items, if nothing is left after them. -/
def readSettings (data : List UInt8) : Option (List (Nat × List UInt8)) :=
  match readParts data with
  | some ((found, items), []) => if found = signature then some items else none
  | _ => none

/-- What there is to read back. -/
def Settings.items (s : Settings) : List (Nat × List UInt8) :=
  s.attributes.map fun x => (x.2.code, x.2.bytes)

/-- The value for a code, with `None` as empty. -/
def Settings.valueOf (s : Settings) (code : Nat) : Option (List UInt8) := s.items.lookup code

/-- What `struct.pack` has room for. -/
def Attribute.Fits (a : Attribute) : Prop := a.code < 2 ^ 32 ∧ a.bytes.length < 2 ^ 32

instance decidableFits (a : Attribute) : Decidable a.Fits := instDecidableAnd

/-! ## Packing -/

/-- The padded value. -/
def padded (value : List UInt8) : List UInt8 :=
  value ++ List.replicate ((value.length + 3) / 4 * 4 - value.length) 0

theorem length_padded (value : List UInt8) :
    (padded value).length = (value.length + 3) / 4 * 4 := by
  rw [padded, List.length_append, List.length_replicate]
  omega

theorem attribute_pack (a : Attribute) :
    a.pack = (packI a.code).bind fun code => (packI a.bytes.length).bind fun len =>
      some (code ++ len ++ padded a.bytes) := by
  have hpadded : packS (a.bytes.length + ((a.bytes.length + 3) / 4 * 4 - a.bytes.length))
    (padded a.bytes) =
      padded a.bytes := packS_of_length (by rw [length_padded]; omega)
  show (packI a.code).bind (fun code => (packI a.bytes.length).bind fun len => some (code ++ len ++
    packS (a.bytes.length + ((a.bytes.length + 3) / 4 * 4 - a.bytes.length)) (padded a.bytes))) = _
  rw [hpadded]

theorem isSome_attribute_pack (a : Attribute) : a.pack.isSome ↔ a.Fits := by
  rw [attribute_pack]
  cases hcode : packI a.code with
  | none =>
    have hnot : ¬a.code < 2 ^ 32 := by rw [← isSome_packI, hcode]; exact Bool.false_ne_true
    exact iff_of_false Bool.false_ne_true fun h => hnot h.1
  | some code =>
    have hfits := isSome_packI.mp (Option.isSome_of_eq_some hcode)
    cases hlen : packI a.bytes.length with
    | none =>
      have hnot : ¬a.bytes.length < 2 ^ 32 := by rw [← isSome_packI, hlen]; exact Bool.false_ne_true
      exact iff_of_false Bool.false_ne_true fun h => hnot h.2
    | some len => exact iff_of_true rfl ⟨hfits, isSome_packI.mp (Option.isSome_of_eq_some hlen)⟩

theorem reads_attribute {a : Attribute} {bytes : List UInt8} (h : a.pack = some bytes) :
    Reads readItem bytes (a.code, a.bytes) ∧ bytes.length % 4 = 0 := by
  rw [attribute_pack] at h
  obtain ⟨code, hcode, h⟩ := Option.bind_eq_some_iff.mp h
  obtain ⟨len, hlen, h⟩ := Option.bind_eq_some_iff.mp h
  cases h
  constructor
  · have hvalue : Reads ((readBytes ((a.bytes.length + 3) / 4 * 4)).bind fun value =>
        .pure (a.code, value.take a.bytes.length)) (padded a.bytes)
            (a.code, (padded a.bytes).take a.bytes.length) :=
      (reads_bytes (length_padded a.bytes)).bind_pure
    have htake : (padded a.bytes).take a.bytes.length = a.bytes := by
      rw [padded, List.take_left]
    rw [htake] at hvalue
    rw [List.append_assoc]
    exact (reads_packI hcode).bind ((reads_packI hlen).bind hvalue)
  · obtain ⟨-, rfl⟩ := packI_eq_some hcode
    obtain ⟨-, rfl⟩ := packI_eq_some hlen
    rw [List.length_append, List.length_append, length_leBytes, length_leBytes, length_padded]
    omega

/-- The packed attributes one after the other, behind what there is. -/
theorem packAttributes_some {value data : List UInt8} {attributes : List (String × Attribute)}
    (h : packAttributes value attributes = some data) :
    ∃ packed : List (List UInt8 × (Nat × List UInt8)),
    data = value ++ packed.flatMap Prod.fst ∧
      packed.map Prod.snd = attributes.map (fun x => (x.2.code, x.2.bytes)) ∧
      ∀ x ∈ packed, Reads readItem x.1 x.2 ∧ x.1.length % 4 = 0 := by
  induction attributes generalizing value with
  | nil =>
    cases h
    exact ⟨[], by simp, rfl, fun x hx => absurd hx List.not_mem_nil⟩
  | cons x attributes ih =>
    obtain ⟨name, attr⟩ := x
    obtain ⟨bytes, hbytes, h⟩ := Option.bind_eq_some_iff.mp h
    obtain ⟨packed, hdata, hitems, hreads⟩ := ih h
    refine ⟨(bytes, (attr.code, attr.bytes)) :: packed, ?_, ?_, fun x hx => ?_⟩
    · rw [hdata, List.flatMap_cons, List.append_assoc]
    · rw [List.map_cons, List.map_cons, hitems]
    · rcases List.mem_cons.mp hx with rfl | hx
      · exact reads_attribute hbytes
      · exact hreads x hx

theorem isSome_packAttributes {value : List UInt8} {attributes : List (String × Attribute)} :
    (packAttributes value attributes).isSome ↔ ∀ x ∈ attributes, x.2.Fits := by
  induction attributes generalizing value with
  | nil => exact iff_of_true rfl fun x hx => absurd hx List.not_mem_nil
  | cons x attributes ih =>
    obtain ⟨name, attr⟩ := x
    have hattr := isSome_attribute_pack attr
    rw [List.forall_mem_cons, ← hattr]
    show (attr.pack.bind fun packed => packAttributes (value ++ packed) attributes).isSome ↔ _
    cases attr.pack with
    | none => exact iff_of_false Bool.false_ne_true fun h => Bool.false_ne_true h.1
    | some packed => exact ih.trans ⟨fun h => ⟨rfl, h⟩, fun h => h.2⟩

/-- Settings are packed exactly if the numbers have room. -/
theorem isSome_pack (s : Settings) :
    s.pack.isSome ↔ s.attributes.length < 2 ^ 32 ∧ ∀ x ∈ s.attributes, x.2.Fits := by
  show ((packI s.attributes.length).bind fun count => packAttributes
    (signature ++ count) s.attributes).isSome ↔ _
  rw [← isSome_packI]
  cases packI s.attributes.length with
  | none => exact iff_of_false Bool.false_ne_true fun h => Bool.false_ne_true h.1
  | some count => exact isSome_packAttributes.trans ⟨fun h => ⟨rfl, h⟩, fun h => h.2⟩

theorem length_flatMap_mod {packed : List (List UInt8 × (Nat × List UInt8))}
    (h : ∀ x ∈ packed, x.1.length % 4 = 0) :
    (packed.flatMap Prod.fst).length % 4 = 0 := by
  induction packed with
  | nil => rfl
  | cons x packed ih =>
    have hx := h x List.mem_cons_self
    have hpacked := ih fun y hy => h y (List.mem_cons_of_mem _ hy)
    rw [List.flatMap_cons, List.length_append]
    omega

/-- What is packed reads back, and its length is a multiple of 4. -/
theorem pack_reads {s : Settings} {data : List UInt8} (h : s.pack = some data) :
    readSettings data = some s.items ∧ data.length % 4 = 0 := by
  obtain ⟨count, hcount, h⟩ := Option.bind_eq_some_iff.mp h
  obtain ⟨packed, rfl, hitems, hreads⟩ := packAttributes_some h
  have hlength : packed.length = s.attributes.length := by
    rw [← List.length_map (f := Prod.snd), hitems, List.length_map]
  constructor
  · have hmany : Reads (readMany readItem s.attributes.length)
        (packed.flatMap Prod.fst) s.items := by
      rw [← hlength, Settings.items, ← hitems]
      exact reads_many fun x hx => (hreads x hx).1
    have hitems : Reads
      ((readMany readItem s.attributes.length).bind fun items => .pure (signature, items))
        (packed.flatMap Prod.fst) (signature, s.items) := hmany.bind_pure
    have hparts : Reads readParts (signature ++ (count ++ packed.flatMap Prod.fst))
        (signature, s.items) :=
      Reads.bind (reads_bytes rfl) (Reads.bind (reads_packI hcount) hitems)
    have hread := hparts []
    rw [List.append_nil] at hread
    rw [readSettings, List.append_assoc, hread]
    rfl
  · obtain ⟨-, rfl⟩ := packI_eq_some hcount
    have hpacked := length_flatMap_mod fun x hx => (hreads x hx).2
    have hsignature : signature.length = 8 := rfl
    rw [List.length_append, List.length_append, length_leBytes, hsignature]
    omega

/-! ## Different settings -/

theorem codes_items (s : Settings) : (s.items.map Prod.fst).Nodup := by
  rw [Settings.items, List.map_map]
  exact s.codes

theorem lookup_eq_some {items : List (Nat × List UInt8)} (hnodup : (items.map Prod.fst).Nodup)
    (code : Nat) (value : List UInt8) : items.lookup code = some value ↔ (code, value) ∈ items := by
  induction items with
  | nil => simp
  | cons x items ih =>
    obtain ⟨c, v⟩ := x
    rw [List.map_cons, List.nodup_cons] at hnodup
    rw [List.lookup_cons, List.mem_cons]
    by_cases hc : code = c
    · subst hc
      rw [beq_self_eq_true, Prod.mk.injEq]
      show some v = some value ↔ _
      rw [Option.some.injEq]
      refine ⟨fun h => .inl ⟨rfl, h.symm⟩, fun h => ?_⟩
      rcases h with h | h
      · exact h.2.symm
      · exact absurd (List.mem_map_of_mem h) hnodup.1
    · rw [beq_eq_false_iff_ne.mpr hc]
      exact (ih hnodup.2).trans ⟨.inr, fun h => h.resolve_left fun heq => hc (Prod.mk.inj heq).1⟩

/-- A code has one value. -/
theorem valueOf_eq_some (s : Settings) (code : Nat) (value : List UInt8) :
    s.valueOf code = some value ↔ (code, value) ∈ s.items :=
  lookup_eq_some (codes_items s) code value

/-- **Packed settings read back as they are, and the same items come from the same settings
only.** -/
theorem pack_decodes (s : Settings) :
    (s.pack.isSome ↔ s.attributes.length < 2 ^ 32 ∧ ∀ x ∈ s.attributes, x.2.Fits) ∧
    ∀ data, s.pack = some data → readSettings data = some s.items ∧ data.length % 4 = 0 ∧
      ∀ (t : Settings) data' items', t.pack = some data' → readSettings data' = some items' →
        (∀ item, item ∈ s.items ↔ item ∈ items') → ∀ code, s.valueOf code = t.valueOf code := by
  refine ⟨isSome_pack s, fun data hdata => ⟨(pack_reads hdata).1, (pack_reads hdata).2, ?_⟩⟩
  intro t data' items' hdata' hread hsame code
  rw [(pack_reads hdata').1] at hread
  cases hread
  apply Option.ext
  intro value
  rw [valueOf_eq_some, valueOf_eq_some]
  exact hsame (code, value)

/-- An address, a file name that is padded by one byte, and arguments that are padded by three. -/
def someSettings : Settings where
  attributes := [("tftp_server_ip", ⟨1, some ⟨[10, 0, 0, 1]⟩⟩),
    ("kernel_args", ⟨2, some ⟨[97, 98, 99, 100, 0]⟩⟩),
    ("bootfile", ⟨3, some ⟨[98, 120, 0]⟩⟩), ("argsfile", ⟨4, none⟩)]
  names := by decide
  codes := by decide

/-- The same from a dictionary in another order. -/
def otherOrder : Settings where
  attributes := someSettings.attributes.reverse
  names := by decide
  codes := by decide

theorem pack_decodes_someSettings : ∃ data, someSettings.pack = some data ∧
    readSettings data =
      some [(1, [10, 0, 0, 1]), (2, [97, 98, 99, 100, 0]), (3, [98, 120, 0]), (4, [])] ∧
    data.length % 4 = 0 ∧ ∀ code, someSettings.valueOf code = otherOrder.valueOf code := by
  have hsome : someSettings.pack.isSome := (pack_decodes someSettings).1.mpr ⟨by decide, by decide⟩
  have hother : otherOrder.pack.isSome := (pack_decodes otherOrder).1.mpr ⟨by decide, by decide⟩
  obtain ⟨data, hdata⟩ := Option.isSome_iff_exists.mp hsome
  obtain ⟨data', hdata'⟩ := Option.isSome_iff_exists.mp hother
  obtain ⟨hread, hlength, hsame⟩ := (pack_decodes someSettings).2 data hdata
  have hread' := ((pack_decodes otherOrder).2 data' hdata').1
  have hitems : otherOrder.items = someSettings.items.reverse := rfl
  refine ⟨data, hdata, hread, hlength, hsame otherOrder data' _ hdata' hread' fun item => ?_⟩
  rw [hitems, List.mem_reverse]

example :
    someSettings.pack = some (signature ++ [4, 0, 0, 0] ++ [1, 0, 0, 0, 4, 0, 0, 0, 10, 0, 0, 1] ++
    [2, 0, 0, 0, 5, 0, 0, 0, 97, 98, 99, 100, 0, 0, 0, 0] ++
      [3, 0, 0, 0, 3, 0, 0, 0, 98, 120, 0, 0] ++
    [4, 0, 0, 0, 0, 0, 0, 0]) := by decide

end Netboot
