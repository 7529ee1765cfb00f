import DevUtil.Lib.Lift

/-!
# What a program guarantees on its way

`Does sem V d₀ R p d`: every state that `p` reaches from `d` is `V` to the state `d₀`, and where `p`
returns, the value and the state satisfy `R`.

    a part over fewer operations                              (does_lift)
    one part after the other                                  (does_bind)
    of a run that is cut off, and of one that returns         (Does.steps, Does.exec)
-/

namespace Lib.Prog

variable {Op : Type → Type} {E D α β : Type} {sem : Sem Op D} {V : D → D → Prop} {d₀ d : D}

def Does (sem : Sem Op D) (V : D → D → Prop) (d₀ : D) (R : α → D → Prop) (p : Prog Op E α) (d : D) :
    Prop :=
  wp sem (V d₀) (fun r d' => V d₀ d' ∧ ∀ a, r = .ok a → R a d') p d

variable {R R' : α → D → Prop}

theorem does_ret {a : α} (hV : V d₀ d) (h : R a d) : Does sem V d₀ R (ret a : Prog Op E α) d :=
  ⟨hV, fun _ ha => Except.ok.inj ha ▸ h⟩

theorem does_raise (hV : V d₀ d) (e : E) : Does sem V d₀ R (raise e) d :=
  ⟨hV, fun _ ha => by cases ha⟩

theorem does_op {o : Op β} {k : β → Prog Op E α}
    (h : ∀ b d', sem o d b d' → V d₀ d' ∧ Does sem V d₀ R (k b) d') :
    Does sem V d₀ R (op o k) d := h

theorem does_perform {R : β → D → Prop} {o : Op β} (h : ∀ b d', sem o d b d' → V d₀ d' ∧ R b d') :
    Does sem V d₀ R (perform o : Prog Op E β) d :=
  does_op fun b d' ho => ⟨(h b d' ho).1, does_ret (h b d' ho).1 (h b d' ho).2⟩

theorem Does.mono {p : Prog Op E α} (h : Does sem V d₀ R p d) (hR : ∀ a d', R a d' → R' a d') :
    Does sem V d₀ R' p d :=
  wp_mono (fun _ d' hr => ⟨hr.1, fun a ha => hR a d' (hr.2 a ha)⟩) h

theorem does_bind {R' : β → D → Prop} {p : Prog Op E α} {f : α → Prog Op E β}
    (hp : Does sem V d₀ R p d) (hf : ∀ a d', V d₀ d' → R a d' → Does sem V d₀ R' (f a) d') :
    Does sem V d₀ R' (p >>= f) d := by
  unfold Does
  rw [wp_bind]
  refine wp_mono ?_ hp
  intro r d' hr
  cases r with
  | ok a => exact hf a d' hr.1 (hr.2 a rfl)
  | error e => exact ⟨hr.1, fun _ h => by cases h⟩

/-- A part over fewer operations. -/
theorem does_lift {Op' : Type → Type} {E' : Type} {f : ∀ ⦃β : Type⦄, Op β → Op' β} {g : E → E'}
    {sem' : Sem Op' D} {p : Prog Op E α} (h : Does (fun _ o => sem' (f o)) V d₀ R p d) :
    Does sem' V d₀ R (p.lift f g) d := by
  refine wp_lift.mpr (wp_mono ?_ h)
  intro r d' hr
  refine ⟨hr.1, fun a ha => ?_⟩
  cases r with
  | ok a' =>
    have hok : (.ok a' : Except E' α) = .ok a := ha
    cases hok
    exact hr.2 a rfl
  | error e =>
    have herror : (.error (g e) : Except E' α) = .ok a := ha
    cases herror

theorem Does.steps {p p' : Prog Op E α} {d' : D} (h : Does sem V d₀ R p d) (hV : V d₀ d)
    (hs : Steps sem p d p' d') :
    V d₀ d' :=
  wp_steps h hV hs

/-- A run that is cut off later. -/
theorem exists_steps_op {o : Op β} {k : β → Prog Op E α} {b : β} {d₁ d' : D} (ho : sem o d b d₁)
    (h : ∃ p', Steps sem (k b) d₁ p' d') : ∃ p', Steps sem (op o k) d p' d' := by
  obtain ⟨p', hsteps⟩ := h
  exact ⟨p', .op ho hsteps⟩

theorem Does.exec {p : Prog Op E α} {d' : D} {a : α} (h : Does sem V d₀ R p d)
    (hx : Exec sem p d (.ok a) d') : R a d' :=
  (wp_exec h hx).2 a rfl

end Lib.Prog
