import Mathlib.Data.List.Basic

/-!
# Regions of a list

    what is written to a region is read from it      (read_write)
    … changes nothing outside of it                  (getElem?_write_of_not_has, length_write)
    writes to disjoint regions commute               (write_comm)
-/

namespace Lib

/-- So many positions of a list. -/
structure Region where
  offset : Nat
  size : Nat

namespace Region

variable {α : Type}

def Has (r : Region) (i : Nat) : Prop := r.offset ≤ i ∧ i < r.offset + r.size

instance (r : Region) (i : Nat) : Decidable (r.Has i) := inferInstanceAs (Decidable (_ ∧ _))

def Within (r : Region) (xs : List α) : Prop := r.offset + r.size ≤ xs.length

/-- No position is in both. -/
def Disjoint (r s : Region) : Prop := ∀ i, r.Has i → ¬s.Has i

def read (r : Region) (xs : List α) : List α := (xs.take (r.offset + r.size)).drop r.offset

/-- `xs`, with `ys` where `r` was. -/
def write (r : Region) (ys xs : List α) : List α :=
  xs.take r.offset ++ ys ++ xs.drop (r.offset + r.size)

variable {r s : Region} {xs ys zs : List α}

theorem getElem?_write (hr : r.Within xs) (hys : ys.length = r.size) (i : Nat) :
    (r.write ys xs)[i]? = if r.Has i then ys[i - r.offset]? else xs[i]? := by
  unfold Within at hr
  have htake : (xs.take r.offset).length = r.offset := by
    rw [List.length_take]
    omega
  have hwritten : (xs.take r.offset ++ ys).length = r.offset + r.size := by
    rw [List.length_append, htake, hys]
  rw [write]
  by_cases hbefore : i < r.offset
  · have hnot : ¬r.Has i := fun h => by
      have := h.1
      omega
    rw [if_neg hnot, List.getElem?_append_left (by omega), List.getElem?_append_left (by omega),
      List.getElem?_take,
      if_pos hbefore]
  · by_cases hin : i < r.offset + r.size
    · have hhas : r.Has i := ⟨by omega, hin⟩
      rw [if_pos hhas, List.getElem?_append_left (by omega),
        List.getElem?_append_right (by omega), htake]
    · have hnot : ¬r.Has i := fun h => hin h.2
      have hi : r.offset + r.size + (i - (r.offset + r.size)) = i := by omega
      rw [if_neg hnot, List.getElem?_append_right (by omega), hwritten, List.getElem?_drop, hi]

theorem getElem?_write_of_not_has (hr : r.Within xs) (hys : ys.length = r.size) {i : Nat}
    (hi : ¬r.Has i) :
    (r.write ys xs)[i]? = xs[i]? := by
  rw [getElem?_write hr hys, if_neg hi]

theorem length_write (hr : r.Within xs) (hys : ys.length = r.size) :
    (r.write ys xs).length = xs.length := by
  unfold Within at hr
  simp only [write, List.length_append, List.length_take, List.length_drop, hys]
  omega

theorem Within.write (hs : s.Within xs) (hr : r.Within xs) (hys : ys.length = r.size) :
    s.Within (r.write ys xs) := by
  unfold Within
  rw [length_write hr hys]
  exact hs

theorem read_write (hr : r.Within xs) (hys : ys.length = r.size) : r.read (r.write ys xs) = ys := by
  unfold Within at hr
  have htake : (xs.take r.offset).length = r.offset := by
    rw [List.length_take]
    omega
  have hwritten : (xs.take r.offset ++ ys).length = r.offset + r.size := by
    rw [List.length_append, htake, hys]
  rw [read, Region.write, List.take_left' hwritten, List.drop_left' htake]

theorem write_comm (hr : r.Within xs) (hs : s.Within xs) (hrs : r.Disjoint s)
    (hys : ys.length = r.size) (hzs : zs.length = s.size) :
    s.write zs (r.write ys xs) = r.write ys (s.write zs xs) := by
  apply List.ext_getElem?
  intro i
  rw [getElem?_write (hs.write hr hys) hzs, getElem?_write hr hys,
    getElem?_write (hr.write hs hzs) hys,
    getElem?_write hs hzs]
  by_cases hi : r.Has i
  · rw [if_pos hi, if_pos hi, if_neg (hrs i hi)]
  · rw [if_neg hi, if_neg hi]

end Region

end Lib
