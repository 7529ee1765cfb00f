import Mathlib.Algebra.Group.Nat.Defs
import Mathlib.Data.List.Basic

/-!
# Packed data

Python's `struct` for little-endian numbers and strings of bytes, and readers that take a
value from the front of the data and leave the rest.

    n < 2 ^ 32 → readI reads back what packI packs            (reads_packI)
    reads a, then reads b → reads both, one after the other   (Reads.bind)
    reads every one → reads all of them                       (reads_many)
-/

namespace Lib.Struct

/-! ## Packing -/

/-- `n` in so many bytes, the low one first. -/
def leBytes : Nat → Nat → List UInt8
  | 0, _ => []
  | width + 1, n => UInt8.ofNat n :: leBytes width (n / 256)

def leValue : List UInt8 → Nat
  | [] => 0
  | b :: bs => b.toNat + 256 * leValue bs

/-- `struct.pack('<I', n)`; other numbers are a `struct.error`. -/
def packI (n : Nat) : Option (List UInt8) := if n < 2 ^ 32 then some (leBytes 4 n) else none

/-- `struct.pack('%ds' % n, value)`: cut off or filled up to `n` bytes. -/
def packS (n : Nat) (value : List UInt8) : List UInt8 :=
  value.take n ++ List.replicate (n - value.length) 0

@[simp] theorem length_leBytes (width n : Nat) : (leBytes width n).length = width := by
  induction width generalizing n with
  | zero => rfl
  | succ width ih => rw [leBytes, List.length_cons, ih]

theorem leValue_leBytes {width n : Nat} (h : n < 256 ^ width) : leValue (leBytes width n) = n := by
  induction width generalizing n with
  | zero =>
    rw [Nat.pow_zero] at h
    rw [leBytes, leValue]
    omega
  | succ width ih =>
    have hdiv : n / 256 < 256 ^ width := by
      rw [Nat.pow_succ] at h
      omega
    rw [leBytes, leValue, ih hdiv, UInt8.toNat_ofNat']
    omega

theorem packI_eq_some {n : Nat} {bytes : List UInt8} (h : packI n = some bytes) :
    n < 2 ^ 32 ∧ bytes = leBytes 4 n := by
  unfold packI at h
  split at h
  · next hn =>
    cases h
    exact ⟨hn, rfl⟩
  · cases h

theorem isSome_packI {n : Nat} : (packI n).isSome ↔ n < 2 ^ 32 := by
  unfold packI
  split
  · next h => exact iff_of_true rfl h
  · next h => exact iff_of_false Bool.false_ne_true h

theorem packS_of_length {n : Nat} {value : List UInt8} (h : value.length = n) :
    packS n value = value := by
  unfold packS
  rw [List.take_of_length_le (Nat.le_of_eq h), h, Nat.sub_self, List.replicate_zero,
    List.append_nil]

/-! ## Readers -/

variable {α β : Type}

abbrev Reader (α : Type) := List UInt8 → Option (α × List UInt8)

/-- The reader takes exactly these bytes, for this value. -/
def Reads (r : Reader α) (bytes : List UInt8) (a : α) : Prop :=
  ∀ rest, r (bytes ++ rest) = some (a, rest)

def Reader.bind (r : Reader α) (f : α → Reader β) : Reader β :=
  fun data => (r data).bind fun x => f x.1 x.2

def Reader.pure (a : α) : Reader α := fun data => some (a, data)

def readBytes (n : Nat) : Reader (List UInt8) := fun data =>
  if n ≤ data.length then some (data.take n, data.drop n) else none

def readI : Reader Nat := (readBytes 4).bind fun bytes => .pure (leValue bytes)

def readMany (r : Reader α) : Nat → Reader (List α)
  | 0 => .pure []
  | n + 1 => r.bind fun a => (readMany r n).bind fun as => .pure (a :: as)

theorem Reads.bind {r : Reader α} {f : α → Reader β} {bytes bytes' : List UInt8} {a : α} {b : β}
    (h : Reads r bytes a) (h' : Reads (f a) bytes' b) : Reads (r.bind f) (bytes ++ bytes') b := by
  intro rest
  rw [Reader.bind, List.append_assoc, h (bytes' ++ rest)]
  exact h' rest

theorem Reads.bind_pure {r : Reader α} {f : α → β} {bytes : List UInt8} {a : α}
    (h : Reads r bytes a) :
    Reads (r.bind fun a => .pure (f a)) bytes (f a) := by
  intro rest
  rw [Reader.bind, h rest]
  rfl

theorem reads_pure (a : α) : Reads (.pure a) [] a := fun _ => rfl

theorem reads_bytes {n : Nat} {bytes : List UInt8} (h : bytes.length = n) :
    Reads (readBytes n) bytes bytes := by
  intro rest
  subst h
  unfold readBytes
  rw [if_pos (by simp), List.take_left, List.drop_left]

theorem reads_leBytes {n : Nat} (h : n < 2 ^ 32) : Reads readI (leBytes 4 n) n := by
  have hread : Reads readI (leBytes 4 n) (leValue (leBytes 4 n)) :=
    (reads_bytes (length_leBytes 4 n)).bind_pure
  rw [leValue_leBytes (show n < 256 ^ 4 from h)] at hread
  exact hread

theorem reads_packI {n : Nat} {bytes : List UInt8} (h : packI n = some bytes) :
    Reads readI bytes n := by
  obtain ⟨hn, rfl⟩ := packI_eq_some h
  exact reads_leBytes hn

/-- One after the other. -/
theorem reads_many {r : Reader α} {items : List (List UInt8 × α)}
    (h : ∀ item ∈ items, Reads r item.1 item.2) :
    Reads (readMany r items.length) (items.flatMap Prod.fst) (items.map Prod.snd) := by
  induction items with
  | nil => exact reads_pure []
  | cons item items ih =>
    rw [List.flatMap_cons, List.map_cons, List.length_cons, readMany]
    have hitems := ih fun x hx => h x (List.mem_cons_of_mem _ hx)
    exact (h item List.mem_cons_self).bind hitems.bind_pure

end Lib.Struct
