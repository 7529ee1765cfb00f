import DevUtil.Lib.Interleave
import Mathlib.Data.Finset.Range
import Mathlib.Order.Filter.AtTopBot.Basic
import Mathlib.Order.Filter.Finite

/-!
# Fair executions

An execution that never ends, and is fair: a process that is enabled again and again moves again and
again.

    a number that no step raises is constant from some point on        (eventually_constant)
    every process but one lowers such a number, and one of them is
      enabled again and again → no execution that never ends is fair   (not_fair)
-/

namespace Lib.Interleave

open Filter

universe u v

variable {S : Type} {P : Type u} {L : Type v} {step : P → S → L → P → S → Prop}

/-- Process `i` can move. -/
def Enabled (step : P → S → L → P → S → Prop) (c : Config S P) (i : Nat) : Prop :=
  ∃ l c', Step step c i l c'

/-- An execution that never ends. -/
structure Execution (step : P → S → L → P → S → Prop) (c₀ : Config S P) where
  config : Nat → Config S P
  mover : Nat → Nat
  label : Nat → L
  starts : config 0 = c₀
  moves : ∀ n, Step step (config n) (mover n) (label n) (config (n + 1))

namespace Execution

variable {c₀ : Config S P} (e : Execution step c₀)

/-- Strong fairness. -/
def Fair : Prop := ∀ i, (∃ᶠ n in atTop, Enabled step (e.config n) i) → ∃ᶠ n in atTop, e.mover n = i

theorem run (n : Nat) : Run step (fun _ _ _ => True) c₀ (e.config n) := by
  induction n with
  | zero =>
    rw [e.starts]
    exact .refl
  | succ n ih => exact .tail ih trivial (e.moves n)

variable {e} {μ : Config S P → Nat}

theorem measure_le (hle : ∀ n, μ (e.config (n + 1)) ≤ μ (e.config n)) {m n : Nat} (hmn : m ≤ n) :
    μ (e.config n) ≤ μ (e.config m) := by
  induction hmn with
  | refl => exact le_refl _
  | step _ ih => exact (hle _).trans ih

theorem eventually_constant (hle : ∀ n, μ (e.config (n + 1)) ≤ μ (e.config n)) :
    ∃ N, ∀ n, N ≤ n → μ (e.config n) = μ (e.config N) := by
  obtain ⟨N, hN⟩ : ∃ N, ∀ n, μ (e.config N) ≤ μ (e.config n) := by
    have hwf := (measure fun n => μ (e.config n)).wf
    refine ⟨hwf.min Set.univ ⟨0, trivial⟩, fun n => ?_⟩
    exact not_lt.mp (hwf.not_lt_min Set.univ (Set.mem_univ n))
  refine ⟨N, fun n hn => le_antisymm (measure_le hle hn) (hN n)⟩

variable (μ) in
/-- `b` is the one process that may move without lowering the number; `m` bounds the numbers of the
others. -/
theorem not_fair (hle : ∀ n, μ (e.config (n + 1)) ≤ μ (e.config n)) {b m : Nat}
    (hlt : ∀ n, e.mover n ≠ b → μ (e.config (n + 1)) < μ (e.config n))
    (henabled : ∀ N, (∀ n, N ≤ n → μ (e.config n) = μ (e.config N)) →
      ∃ n, N ≤ n ∧ ∃ i, i < m ∧ i ≠ b ∧ Enabled step (e.config n) i) : ¬e.Fair := by
  intro hfair
  obtain ⟨N, hN⟩ := eventually_constant hle
  -- from `N` on only `b` moves
  have hquiet : ∀ n, N ≤ n → e.mover n = b := by
    intro n hn
    by_contra hb
    have hdrop := hlt n hb
    rw [hN n hn, hN (n + 1) (by omega)] at hdrop
    exact Nat.lt_irrefl _ hdrop
  have hnever : ∀ i ∈ Finset.range m, i ≠ b → ∀ᶠ n in atTop, ¬Enabled step (e.config n) i := by
    intro i _ hib
    by_contra hoften
    rw [← not_frequently, not_not] at hoften
    have hmoves := hfair i hoften
    obtain ⟨n, hn, hi⟩ := frequently_atTop.mp hmoves N
    exact hib (hi.symm.trans (hquiet n hn))
  have hall : ∀ᶠ n in atTop, ∀ i ∈ Finset.range m, i ≠ b → ¬Enabled step (e.config n) i := by
    rw [Filter.eventually_all_finset]
    intro i hi
    by_cases hib : i = b
    · exact Eventually.of_forall fun n h => absurd hib h
    · filter_upwards [hnever i hi hib] with n hn _
      exact hn
  obtain ⟨N', hN'⟩ := eventually_atTop.mp hall
  have hconst : ∀ n, max N N' ≤ n → μ (e.config n) = μ (e.config (max N N')) := by
    intro n hn
    rw [hN n (by omega), hN (max N N') (by omega)]
  obtain ⟨n, hn, i, hi, hib, hen⟩ := henabled (max N N') hconst
  exact hN' n (by omega) i (Finset.mem_range.mpr hi) hib hen

end Execution

end Lib.Interleave
