import Mathlib.Data.Set.Finite.Basic
import Mathlib.Logic.Hydra

/-!
# Work lists

A work list hands out its first element and puts the ones that follow from it behind the others; it
does not know what it handed out before.

    elements from which only finite chains begin are worked off              (drain_returns)
    one of which there is no end keeps the list from getting empty           (drain_none)
    what is worked off has all that is reached                               (mem_of_drain)
    among finitely many elements, a chain without an end goes round a cycle  (acc_of_acyclic)
-/

namespace Lib.WorkList

variable {α : Type}

/-- Works off the list; `done` is what it handed out, in order. -/
def drain (next : α → List α) : Nat → List α → List α → Option (List α)
  | 0, _, _ => none
  | _ + 1, [], done => some done
  | fuel + 1, a :: rest, done => drain next fuel (rest ++ next a) (done ++ [a])

def Follows (next : α → List α) (b a : α) : Prop := b ∈ next a

def Reach (next : α → List α) : α → α → Prop := Relation.ReflTransGen fun a b => b ∈ next a

/-- On a cycle. -/
def Returns (next : α → List α) (a : α) : Prop := Relation.TransGen (fun a b => b ∈ next a) a a

variable {next : α → List α} {rest done result : List α} {fuel : Nat}

/-! ## Termination -/

theorem not_follows_self {a : α} (h : Acc (Follows next) a) : ¬Follows next a a := by
  induction h with
  | intro a _ ih => exact fun hself => ih a hself hself

/-- The elements that follow from one from which only finite chains begin. -/
def FollowsFinite (next : α → List α) (b a : α) : Prop := Follows next b a ∧ Acc (Follows next) a

instance (next : α → List α) : Std.Irrefl (FollowsFinite next) :=
  ⟨fun _ h => not_follows_self h.2 h.1⟩

theorem acc_followsFinite {a : α} (h : Acc (Follows next) a) : Acc (FollowsFinite next) a := by
  induction h with
  | intro a _ ih => exact Acc.intro a fun b hb => ih b hb.1

/-- The elements of the list, in any order, get smaller. -/
theorem drain_returns (h : ∀ a ∈ rest, Acc (Follows next) a) (done : List α) :
    ∃ fuel result, drain next fuel rest done = some result := by
  have hacc : Acc (Relation.CutExpand (FollowsFinite next)) (rest : Multiset α) := by
    apply Relation.acc_of_singleton
    intro a ha
    exact (acc_followsFinite (h a (Multiset.mem_coe.mp ha))).cutExpand
  generalize hs : (rest : Multiset α) = s at hacc
  induction hacc generalizing rest done with
  | intro s _ ih =>
    subst hs
    cases rest with
    | nil => exact ⟨1, done, rfl⟩
    | cons a rest =>
      have ha : Acc (Follows next) a := h a List.mem_cons_self
      have hlt : Relation.CutExpand (FollowsFinite next) ((rest ++ next a : List α) : Multiset α)
          ((a :: rest : List α) : Multiset α) := by
        refine ⟨(next a : Multiset α), a, fun b hb => ⟨Multiset.mem_coe.mp hb, ha⟩, ?_⟩
        rw [← Multiset.coe_add, ← Multiset.cons_coe, ← Multiset.singleton_add]
        ac_rfl
      have hrest : ∀ b ∈ rest ++ next a, Acc (Follows next) b := by
        intro b hb
        rcases List.mem_append.mp hb with hb | hb
        · exact h b (List.mem_cons_of_mem a hb)
        · exact ha.inv hb
      obtain ⟨fuel, result, hrun⟩ := ih _ hlt hrest (done ++ [a]) rfl
      exact ⟨fuel + 1, result, hrun⟩

/-- `B` are elements from which a chain without an end begins. -/
theorem drain_none {B : α → Prop} (hB : ∀ a, B a → ∃ b ∈ next a, B b) (h : ∃ a ∈ rest, B a) :
    drain next fuel rest done = none := by
  induction fuel generalizing rest done with
  | zero => rfl
  | succ fuel ih =>
    cases rest with
    | nil => simp at h
    | cons a rest =>
      rw [drain]
      apply ih
      obtain ⟨b, hb, hbad⟩ := h
      rcases List.mem_cons.mp hb with rfl | hb
      · obtain ⟨c, hc, hbad⟩ := hB b hbad
        exact ⟨c, List.mem_append_right _ hc, hbad⟩
      · exact ⟨b, List.mem_append_left _ hb, hbad⟩

/-! ## Completeness -/

/-- What follows from what was handed out is handed out, too. -/
theorem drain_closed (h : drain next fuel rest done = some result) :
    (∀ a ∈ done, a ∈ result) ∧ (∀ a ∈ rest, a ∈ result) ∧
      ∀ a ∈ result, a ∈ done ∨ ∀ b ∈ next a, b ∈ result := by
  induction fuel generalizing rest done with
  | zero => cases h
  | succ fuel ih =>
    cases rest with
    | nil =>
      cases h
      exact ⟨fun a ha => ha, by simp, fun a ha => .inl ha⟩
    | cons a rest =>
      obtain ⟨hdone, hrest, hclosed⟩ := ih h
      refine ⟨fun b hb => hdone b (List.mem_append_left _ hb), ?_, ?_⟩
      · intro b hb
        rcases List.mem_cons.mp hb with rfl | hb
        · exact hdone b (by simp)
        · exact hrest b (List.mem_append_left _ hb)
      · intro b hb
        rcases hclosed b hb with hb | hb
        · rcases List.mem_append.mp hb with hb | hb
          · exact .inl hb
          · rw [List.mem_singleton.mp hb]
            exact .inr fun c hc => hrest c (List.mem_append_right _ hc)
        · exact .inr hb

theorem mem_of_drain (h : drain next fuel rest [] = some result) {a b : α} (ha : a ∈ rest)
    (hreach : Reach next a b) :
    b ∈ result := by
  obtain ⟨-, hrest, hclosed⟩ := drain_closed h
  induction hreach with
  | refl => exact hrest a ha
  | @tail b c _ hc ih =>
    rcases hclosed b ih with hb | hb
    · cases hb
    · exact hb c hc

/-! ## Cycles -/

/-- From an element that reaches a cycle, a chain without an end begins. -/
theorem exists_next_of_cycle {a b : α} (hreach : Reach next a b) (hcycle : Returns next b) :
    ∃ c ∈ next a, ∃ b, Reach next c b ∧ Returns next b := by
  rcases Relation.ReflTransGen.cases_head hreach with rfl | ⟨c, hc, hrest⟩
  · obtain ⟨c, hc, hrest⟩ := Relation.TransGen.head'_iff.mp hcycle
    exact ⟨c, hc, a, hrest, hcycle⟩
  · exact ⟨c, hc, b, hrest, hcycle⟩

theorem acc_of_acyclic {all : List α} (hclosed : ∀ a ∈ all, ∀ b ∈ next a, b ∈ all) {a : α}
    (ha : a ∈ all) (h : ∀ b, Reach next a b → ¬Returns next b) : Acc (Follows next) a := by
  let T := { b // b ∈ all ∧ Reach next a b }
  let After : T → T → Prop := fun c b => Relation.TransGen (fun a b => b ∈ next a) b.1 c.1
  have : Finite T := (List.finite_toSet all).subset fun b hb => hb.1
  have : IsTrans T After := ⟨fun _ _ _ hbc hcd => hcd.trans hbc⟩
  have : Std.Irrefl After := ⟨fun b hb => h b.1 b.2.2 hb⟩
  have hacc : ∀ b : T, Acc (Follows next) b.1 := by
    intro b
    induction b using (Finite.wellFounded_of_trans_of_irrefl After).induction with
    | h b ih =>
      obtain ⟨b, hb, hreach⟩ := b
      refine Acc.intro b fun c hc => ?_
      exact ih ⟨c, hclosed b hb c hc, hreach.tail hc⟩ (Relation.TransGen.single hc)
  exact hacc ⟨a, ha, Relation.ReflTransGen.refl⟩

end Lib.WorkList
