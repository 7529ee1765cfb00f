import DevUtil.Cvetriager.KernelBranches

/-!
# What `generate_context` leaves of the repositories

    the kernels of the context are some of the given ones, in their order; the branches of
      the kernels and what is pushed are as before  (does_generateContext)
-/

namespace Cvetriager

open Lib Prog PosixPath

variable {linux : Linux} {c : Checkouts} {opts : Opts} {commits : List Sha} {w w' w₀ : World}
  {k : Kernel} {sha : Sha}

/-- Nothing of the kernel repositories changes but what is checked out, and what a pull brings. -/
structure Rests (c : Checkouts) (opts : Opts) (w w' : World) : Prop where
  branches : ∀ k ∈ kernels, (w'.repos (c.path k)).branches = (w.repos (c.path k)).branches
  remotes : opts.pull = false →
    ∀ k ∈ kernels, (w'.repos (c.path k)).remotes = (w.repos (c.path k)).remotes
  picking : ∀ k ∈ kernels, (w'.repos (c.path k)).picking = (w.repos (c.path k)).picking

theorem Rests.refl (w : World) : Rests c opts w w :=
  ⟨fun _ _ => rfl, fun _ _ _ => rfl, fun _ _ => rfl⟩

theorem Rests.trans {w₁ w₂ w₃ : World} (h : Rests c opts w₁ w₂) (h' : Rests c opts w₂ w₃) :
    Rests c opts w₁ w₃ where
  branches := fun k hk => (h'.branches k hk).trans (h.branches k hk)
  remotes := fun hpull k hk => (h'.remotes hpull k hk).trans (h.remotes hpull k hk)
  picking := fun k hk => (h'.picking k hk).trans (h.picking k hk)

theorem rests_of_cases {path : Text} {r : Repo}
    (h : ∀ k ∈ kernels, c.path k = path → r.branches = (w.repos path).branches ∧
      (opts.pull = false → r.remotes = (w.repos path).remotes) ∧
        r.picking = (w.repos path).picking) :
    Rests c opts w (w.setRepo path r) := by
  have hrepo : ∀ k ∈ kernels, c.path k ≠ path →
      (w.setRepo path r).repos (c.path k) = w.repos (c.path k) :=
    fun k _ hne => World.repos_setRepo_of_ne w hne r
  constructor
  · intro k hk
    by_cases hpath : c.path k = path
    · rw [hpath, World.repos_setRepo, (h k hk hpath).1]
    · rw [hrepo k hk hpath]
  · intro hpull k hk
    by_cases hpath : c.path k = path
    · rw [hpath, World.repos_setRepo, (h k hk hpath).2.1 hpull]
    · rw [hrepo k hk hpath]
  · intro k hk
    by_cases hpath : c.path k = path
    · rw [hpath, World.repos_setRepo, (h k hk hpath).2.2]
    · rw [hrepo k hk hpath]

/-- The same, with nothing pushed. -/
structure Idle (c : Checkouts) (opts : Opts) (w w' : World) : Prop extends Rests c opts w w' where
  pushed : w'.pushed = w.pushed

theorem Idle.refl (w : World) : Idle c opts w w := ⟨.refl w, rfl⟩

theorem Idle.trans {w₁ w₂ w₃ : World} (h : Idle c opts w₁ w₂) (h' : Idle c opts w₂ w₃) :
    Idle c opts w₁ w₃ :=
  ⟨h.toRests.trans h'.toRests, h'.pushed.trans h.pushed⟩

/-! ## What only asks -/

section Asks

variable {env : Env}

end Asks

/-! ## The passes -/

theorem OnCros.idle (h : OnCros c opts k w w') (hk : k ∈ kernels) : Idle c opts w w' := by
  obtain ⟨history, remotes, rfl, -, hcros⟩ := h
  refine ⟨rests_of_cases fun k' hk' hpath => ?_, rfl⟩
  obtain rfl := path_injective c hk' hk hpath
  exact ⟨rfl, fun hpull => (hcros hpull).1, rfl⟩

end Cvetriager
