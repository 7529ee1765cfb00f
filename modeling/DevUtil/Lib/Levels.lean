import Mathlib.Logic.Relation
import Mathlib.Order.Bounds.Basic

/-!
# Rounds of a search

A search that goes from the root along the rows `(x, y)`, round by round.  It goes on
from each vertex once, in the round after it is found for the first time.

    a walk of n steps ends in a vertex of depth ≤ n         (depth_of_walk)
    a vertex of depth n is found in round n                 (Depth.found)
    each round before one that finds something new does so  (Depth.before)
-/

namespace Lib.Levels

variable {α : Type} (rows : List (α × α)) (root : α)

def Edge (x y : α) : Prop := (x, y) ∈ rows

inductive Walk : Nat → α → Prop
  | root : Walk 0 root
  | step {n : Nat} {x y : α} : Walk n x → (x, y) ∈ rows → Walk (n + 1) y

/-- `n` is the length of the shortest walk to `x`. -/
def Depth (n : Nat) (x : α) : Prop := Walk rows root n x ∧ ∀ m < n, ¬Walk rows root m x

/-- `x` is found in round `n`, for the first time or again. -/
inductive FoundIn : Nat → α → Prop
  | root : FoundIn 0 root
  | next {n : Nat} {x y : α} : Depth rows root n x → (x, y) ∈ rows → FoundIn (n + 1) y

variable {rows root} {m n : Nat} {x y : α}

theorem reflTransGen_iff : Relation.ReflTransGen (Edge rows) root x ↔ ∃ n, Walk rows root n x := by
  constructor
  · intro h
    induction h with
    | refl => exact ⟨0, .root⟩
    | tail _ hedge ih =>
      obtain ⟨n, hn⟩ := ih
      exact ⟨n + 1, .step hn hedge⟩
  · rintro ⟨n, h⟩
    induction h with
    | root => exact .refl
    | step _ hedge ih => exact .tail ih hedge

theorem depth_of_walk (h : Walk rows root n x) : ∃ m ≤ n, Depth rows root m x := by
  induction n using Nat.strong_induction_on with
  | _ n ih =>
    by_cases hless : ∃ m < n, Walk rows root m x
    · obtain ⟨m, hm, hwalk⟩ := hless
      obtain ⟨k, hk, hdepth⟩ := ih m hm hwalk
      exact ⟨k, by omega, hdepth⟩
    · exact ⟨n, le_refl n, h, fun m hm hwalk => hless ⟨m, hm, hwalk⟩⟩

theorem Depth.le (h : Depth rows root n x) (hwalk : Walk rows root m x) : n ≤ m := by
  by_contra hlt
  exact h.2 m (by omega) hwalk

theorem Depth.unique (h : Depth rows root m x) (h' : Depth rows root n x) : m = n :=
  Nat.le_antisymm (h.le h'.1) (h'.le h.1)

theorem depth_zero : Depth rows root 0 x ↔ x = root := by
  constructor
  · rintro ⟨h, -⟩
    cases h
    rfl
  · rintro rfl
    exact ⟨.root, fun m hm => by omega⟩

/-- The last step of a shortest walk. -/
theorem Depth.pred (h : Depth rows root (n + 1) y) : ∃ x, Depth rows root n x ∧ (x, y) ∈ rows := by
  obtain ⟨hwalk, hleast⟩ := h
  cases hwalk with
  | @step _ x _ hx hrow =>
    obtain ⟨m, hm, hdepth⟩ := depth_of_walk hx
    have hle : n + 1 ≤ m + 1 := by
      by_contra hlt
      exact hleast (m + 1) (by omega) (.step hdepth.1 hrow)
    obtain rfl : m = n := by omega
    exact ⟨x, hdepth, hrow⟩

theorem FoundIn.walk (h : FoundIn rows root n x) : Walk rows root n x := by
  cases h with
  | root => exact .root
  | next hdepth hrow => exact .step hdepth.1 hrow

theorem Depth.found (h : Depth rows root n x) : FoundIn rows root n x := by
  cases n with
  | zero =>
    rw [depth_zero.mp h]
    exact .root
  | succ n =>
    obtain ⟨p, hp, hrow⟩ := h.pred
    exact .next hp hrow

/-- Each round before one that finds something new finds something new. -/
theorem Depth.before (h : Depth rows root n x) (hm : m ≤ n) : ∃ y, Depth rows root m y := by
  induction n generalizing x with
  | zero =>
    obtain rfl : m = 0 := by omega
    exact ⟨x, h⟩
  | succ n ih =>
    by_cases heq : m = n + 1
    · exact ⟨x, heq ▸ h⟩
    · obtain ⟨p, hp, -⟩ := h.pred
      exact ih hp (by omega)

end Lib.Levels
