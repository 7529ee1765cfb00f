import DevUtil.Lib.Dict
import DevUtil.Lib.Regions

/-!
# Areas of a firmware image

`Image` of `netboot_firmware_settings.py`: the data of an image and the areas that its flash map
names.

    a value that fits is read back, filled up with NULs, and changes no byte of another place;
    one that does not is refused; areas without a common byte are written in any order  (assigns)
-/

namespace Netboot

open Lib

/-! ## The image -/

/-- What the flash map says of an area. -/
structure Area where
  name : String
  offset : Nat
  size : Nat

def Area.region (area : Area) : Region := { offset := area.offset, size := area.size }

structure Image where
  areas : Dict String Area
  data : List UInt8

inductive ImageExn where
  | keyError (key : String)
  | valueError (text : String)
deriving DecidableEq

/-- `Image.__init__`; `fmapDecode` gives nothing where it raises `struct.error`. -/
def Image.init (fmapDecode : List UInt8 → String → Option (List Area)) (data : List UInt8) :
    Option Image := do
  let areas ← (fmapDecode data "FMAP").or (fmapDecode data "FLASH")
  return { areas := areas.foldl (fun areas area => areas.set area.name area) Dict.empty,
           data := data }

/-- `value.ljust(size, '\0')` -/
def ljust (value : List UInt8) (size : Nat) : List UInt8 :=
  value ++ List.replicate (size - value.length) 0

def tooMuchData (key : String) : ImageExn := .valueError ("Too much data for FMAP area " ++ key)

/-- `Image.__setitem__`, and the image after it. -/
def Image.setItem (image : Image) (key : String) (value : List UInt8) :
    Except ImageExn Unit × Image :=
  match image.areas.get? key with
  | none => (.error (.keyError key), image)
  | some area =>
    if area.size < value.length then (.error (tooMuchData key), image)
    else
      let value := ljust value area.size
      (.ok (), { image with
        data := image.data.take area.offset ++ value ++ image.data.drop (area.offset + area.size) })

/-- `Image.__getitem__` -/
def Image.getItem (image : Image) (key : String) : Except ImageExn (List UInt8) :=
  match image.areas.get? key with
  | none => .error (.keyError key)
  | some area => .ok ((image.data.take (area.offset + area.size)).drop area.offset)

/-! ## One assignment -/

section

variable {image : Image} {key key' : String} {area area' : Area} {value value' : List UInt8}

theorem length_ljust {size : Nat} (h : value.length ≤ size) : (ljust value size).length = size := by
  rw [ljust, List.length_append, List.length_replicate]
  omega

theorem setItem_tooLong (hkey : image.areas.get? key = some area) (h : area.size < value.length) :
    image.setItem key value = (.error (tooMuchData key), image) := by
  rw [Image.setItem, hkey]
  simp only [if_pos h]

theorem setItem_fits (hkey : image.areas.get? key = some area) (h : value.length ≤ area.size) :
    image.setItem key value =
      (.ok (), { image with data := area.region.write (ljust value area.size) image.data }) := by
  rw [Image.setItem, hkey]
  simp only [if_neg (Nat.not_lt.mpr h)]
  rfl

theorem getItem_area (hkey : image.areas.get? key = some area) :
    image.getItem key = .ok (area.region.read image.data) := by
  rw [Image.getItem, hkey]
  rfl

/-- What an assignment to the area leaves; `image'` is the image after it. -/
structure Assigned (image : Image) (key : String) (area : Area) (value : List UInt8)
    (image' : Image) : Prop where
  result : image.setItem key value = (.ok (), image')
  readBack : image'.getItem key = .ok (ljust value area.size)
  areas : image'.areas = image.areas
  length : image'.data.length = image.data.length
  outside : ∀ i, ¬area.region.Has i → image'.data[i]? = image.data[i]?

theorem exists_assigned (hkey : image.areas.get? key = some area)
    (hwithin : area.region.Within image.data) (h : value.length ≤ area.size) :
    ∃ image', Assigned image key area value image' := by
  have hvalue : (ljust value area.size).length = area.region.size := length_ljust h
  refine ⟨_, setItem_fits hkey h, ?_, rfl, Region.length_write hwithin hvalue, ?_⟩
  · rw [getItem_area (by exact hkey), Region.read_write hwithin hvalue]
  · intro i hi
    exact Region.getElem?_write_of_not_has hwithin hvalue hi

/-! ## Two areas -/

/-- Both orders have the same results, and leave the same image. -/
structure Commute (image : Image) (key : String) (value : List UInt8) (key' : String)
    (value' : List UInt8) : Prop where
  first : ((image.setItem key' value').2.setItem key value).1 = (image.setItem key value).1
  second : ((image.setItem key value).2.setItem key' value').1 = (image.setItem key' value').1
  image : ((image.setItem key value).2.setItem key' value').2 =
    ((image.setItem key' value').2.setItem key value).2

theorem setItem_areas (image : Image) (key : String) (value : List UInt8) :
    (image.setItem key value).2.areas = image.areas := by
  unfold Image.setItem
  split
  · rfl
  · split <;> rfl

/-- The flash map decides if an assignment is refused. -/
theorem setItem_fst_congr {image' : Image} (h : image'.areas = image.areas) (key : String)
    (value : List UInt8) :
    (image'.setItem key value).1 = (image.setItem key value).1 := by
  unfold Image.setItem
  rw [h]
  split
  · rfl
  · split <;> rfl

theorem commute (hkey : image.areas.get? key = some area)
    (hkey' : image.areas.get? key' = some area') (hwithin : area.region.Within image.data)
    (hwithin' : area'.region.Within image.data) (hdisjoint : area.region.Disjoint area'.region)
    (value value' : List UInt8) : Commute image key value key' value' where
  first := setItem_fst_congr (setItem_areas image key' value') key value
  second := setItem_fst_congr (setItem_areas image key value) key' value'
  image := by
    by_cases h : value.length ≤ area.size
    · by_cases h' : value'.length ≤ area'.size
      · have hvalue : (ljust value area.size).length = area.region.size := length_ljust h
        have hvalue' : (ljust value' area'.size).length = area'.region.size := length_ljust h'
        rw [setItem_fits hkey h, setItem_fits hkey' h', setItem_fits (by exact hkey) h,
          setItem_fits (by exact hkey') h',
          Region.write_comm hwithin hwithin' hdisjoint hvalue hvalue']
      · have h' := Nat.not_le.mp h'
        rw [setItem_tooLong hkey' h', setItem_fits hkey h, setItem_tooLong (by exact hkey') h']
    · have h := Nat.not_le.mp h
      by_cases h' : value'.length ≤ area'.size
      · rw [setItem_tooLong hkey h, setItem_fits hkey' h', setItem_tooLong (by exact hkey) h]
      · have h' := Nat.not_le.mp h'
        rw [setItem_tooLong hkey h, setItem_tooLong hkey' h', setItem_tooLong hkey h]

end

/-! ## All assignments -/

/-- What assignments do to an image with this area. -/
structure Assigns (image : Image) (key : String) (area : Area) : Prop where
  fits : ∀ value, value.length ≤ area.size → ∃ image', Assigned image key area value image'
  tooLong : ∀ value, area.size < value.length →
    image.setItem key value = (.error (tooMuchData key), image)
  commute : ∀ key' area', image.areas.get? key' = some area' → area'.region.Within image.data →
    area.region.Disjoint area'.region → ∀ value value', Commute image key value key' value'

theorem assigns (image : Image) (key : String) (area : Area)
    (hkey : image.areas.get? key = some area) (hwithin : area.region.Within image.data) :
    Assigns image key area where
  fits _ h := exists_assigned hkey hwithin h
  tooLong _ h := setItem_tooLong hkey h
  commute _ _ hkey' hwithin' hdisjoint value value' :=
    commute hkey hkey' hwithin hwithin' hdisjoint value value'

/-- Six bytes, with an area of two and one of three. -/
def sixBytes : Image where
  areas := (Dict.empty.set "GBB" { name := "GBB", offset := 1, size := 2 }).set "VPD"
    { name := "VPD", offset := 3, size := 3 }
  data := [1, 2, 3, 4, 5, 6]

theorem assigns_sixBytes : Assigns sixBytes "GBB" { name := "GBB", offset := 1, size := 2 } :=
  assigns sixBytes "GBB" { name := "GBB", offset := 1,
                           size := 2 } rfl (by simp [Region.Within, Area.region, sixBytes])

end Netboot
