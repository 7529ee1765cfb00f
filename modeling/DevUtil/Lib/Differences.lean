import Mathlib.Data.Nat.Find

/-!
# The first difference

Two sequences are compared position by position: `o i` is the order of their elements at `i`, and
the first one that is not `eq` decides.

    the positions before a difference may be left out               (precedes_drop)
    a loop that looks at one position and goes on                   (precedes_step)
    an empty sequence precedes one with an element that is not 0    (precedes_zeros)
    a comparison of finitely many positions                         (first_eq_lt_iff)
-/

namespace Lib.Differences

def order (x y : Int) : Ordering := if x < y then .lt else if y < x then .gt else .eq

@[simp] theorem order_eq_lt {x y : Int} : order x y = .lt ↔ x < y := by
  unfold order
  split
  · next h => simp [h]
  · next h => split <;> simp [h]

@[simp] theorem order_eq_gt {x y : Int} : order x y = .gt ↔ y < x := by
  unfold order
  split
  · next h => simp [Int.le_of_lt h]
  · split <;> simp_all

@[simp] theorem order_eq_eq {x y : Int} : order x y = .eq ↔ x = y := by
  unfold order
  split
  · next h => simp [Int.ne_of_lt h]
  · next h =>
    split
    · next h' => simp [Int.ne_of_gt h']
    · simp
      omega

variable {o : Nat → Ordering} {i : Nat}

/-- The first difference is for the first sequence. -/
def Precedes (o : Nat → Ordering) : Prop := ∃ i, (∀ j < i, o j = .eq) ∧ o i = .lt

/-- The sequence from position `i` on. -/
def rest (o : Nat → Ordering) (i : Nat) : Nat → Ordering := fun k => o (i + k)

theorem precedes_of_first (h : ∀ j < i, o j = .eq) (hi : o i ≠ .eq) : Precedes o ↔ o i = .lt := by
  constructor
  · rintro ⟨j, hbefore, hj⟩
    rcases Nat.lt_trichotomy i j with hlt | rfl | hgt
    · exact absurd (hbefore i hlt) hi
    · exact hj
    · rw [h j hgt] at hj
      cases hj
  · exact fun hlt => ⟨i, h, hlt⟩

theorem precedes_drop (h : ∀ j < i, o j = .eq) : Precedes o ↔ Precedes (rest o i) := by
  constructor
  · rintro ⟨j, hbefore, hj⟩
    have hij : i ≤ j := by
      by_contra hlt
      rw [h j (Nat.lt_of_not_le hlt)] at hj
      cases hj
    refine ⟨j - i, ?_, ?_⟩
    · intro k hk
      exact hbefore (i + k) (by omega)
    · show o (i + (j - i)) = .lt
      rw [Nat.add_sub_cancel' hij, hj]
  · rintro ⟨j, hbefore, hj⟩
    refine ⟨i + j, ?_, hj⟩
    intro k hk
    by_cases hki : k < i
    · exact h k hki
    · have heq := hbefore (k - i) (by omega)
      rwa [rest, Nat.add_sub_cancel' (Nat.le_of_not_lt hki)] at heq

theorem rest_add (o : Nat → Ordering) (i j : Nat) : rest (rest o i) j = rest o (i + j) := by
  funext k
  simp only [rest, Nat.add_assoc]

theorem precedes_step (o : Nat → Ordering) :
    Precedes o ↔ o 0 = .lt ∨ o 0 = .eq ∧ Precedes (rest o 1) := by
  have hnone : ∀ j < 0, o j = .eq := fun j hj => absurd hj (Nat.not_lt_zero j)
  have hone : o 0 = .eq → ∀ j < 1, o j = .eq := fun h j hj => (Nat.lt_one_iff.mp hj) ▸ h
  cases h : o 0 with
  | lt => exact ⟨fun _ => .inl rfl, fun _ => ⟨0, hnone, h⟩⟩
  | eq =>
    rw [precedes_drop (hone h)]
    simp
  | gt =>
    rw [precedes_of_first hnone (by rw [h]; decide), h]
    simp

theorem not_precedes_of_eq (h : ∀ j, o j = .eq) : ¬Precedes o := by
  rintro ⟨i, -, hi⟩
  rw [h] at hi
  cases hi

/-- Sequences that are not all equal have a first difference. -/
theorem exists_first (h : ∃ j, o j ≠ .eq) : ∃ i, (∀ j < i, o j = .eq) ∧ o i ≠ .eq :=
  ⟨Nat.find h, fun _ hj => not_not.mp (Nat.find_min h hj), Nat.find_spec h⟩

theorem precedes_zeros {f : Nat → Nat} (h : ∀ k, o k = order 0 (f k)) :
    Precedes o ↔ ∃ k, f k ≠ 0 := by
  have hlt : ∀ k, o k ≠ .eq ↔ f k ≠ 0 := by
    intro k
    rw [h, Ne, order_eq_eq]
    omega
  constructor
  · rintro ⟨i, -, hi⟩
    exact ⟨i, (hlt i).mp (by rw [hi]; decide)⟩
  · rintro ⟨k, hk⟩
    obtain ⟨i, hbefore, hi⟩ := exists_first ⟨k, (hlt k).mpr hk⟩
    refine ⟨i, hbefore, ?_⟩
    have hpos := (hlt i).mp hi
    rw [h, order_eq_lt]
    omega

/-- The order at the first difference among the first positions. -/
def first (o : Nat → Ordering) : Nat → Ordering
  | 0 => .eq
  | n + 1 => (first o n).then (o n)

theorem first_eq_eq {n : Nat} : first o n = .eq ↔ ∀ i < n, o i = .eq := by
  induction n with
  | zero => exact iff_of_true rfl fun i hi => absurd hi (Nat.not_lt_zero i)
  | succ n ih => rw [first, Ordering.then_eq_eq, ih, Nat.forall_lt_succ_right]

theorem first_eq_lt {n : Nat} : first o n = .lt ↔ ∃ i < n, (∀ j < i, o j = .eq) ∧ o i = .lt := by
  induction n with
  | zero => simp [first]
  | succ n ih =>
    rw [first, Ordering.then_eq_lt, ih, first_eq_eq]
    constructor
    · rintro (⟨i, hi, h⟩ | h)
      · exact ⟨i, Nat.lt_succ_of_lt hi, h⟩
      · exact ⟨n, Nat.lt_succ_self n, h⟩
    · rintro ⟨i, hi, h⟩
      rcases Nat.lt_succ_iff_lt_or_eq.mp hi with hi | rfl
      · exact .inl ⟨i, hi, h⟩
      · exact .inr h

/-- With no difference behind them, the first positions decide. -/
theorem first_eq_lt_iff {n : Nat} (h : ∀ i, n ≤ i → o i = .eq) : first o n = .lt ↔ Precedes o := by
  rw [first_eq_lt]
  constructor
  · rintro ⟨i, -, hbefore, hi⟩
    exact ⟨i, hbefore, hi⟩
  · rintro ⟨i, hbefore, hi⟩
    refine ⟨i, ?_, hbefore, hi⟩
    by_contra hge
    rw [h i (Nat.le_of_not_lt hge)] at hi
    cases hi

end Lib.Differences
