import DevUtil.Lib.Prog

/-!
# A program as a part of a larger one

A program over some operations is one over more operations, with exceptions of its own kind among
others.

    what holds of it among more operations, holds of it where each of its
      operations does what it does there                                    (wp_lift)
-/

namespace Lib.Prog

variable {Op Op' : Type → Type} {E E' D α : Type}

/-- The operations and the exceptions of a larger program. -/
def lift (f : ∀ ⦃β : Type⦄, Op β → Op' β) (g : E → E') : Prog Op E α → Prog Op' E' α
  | ret a => ret a
  | raise e => raise (g e)
  | op o k => op (f o) fun b => (k b).lift f g

variable {f : ∀ ⦃β : Type⦄, Op β → Op' β} {g : E → E'} {sem : Sem Op' D} {I : D → Prop}

theorem wp_lift {Q : Except E' α → D → Prop} : ∀ {p : Prog Op E α} {d : D},
    wp sem I Q (p.lift f g) d ↔ wp (fun _ o => sem (f o)) I (fun r => Q (r.mapError g)) p d := by
  intro p
  induction p with
  | ret a => intro d; exact Iff.rfl
  | raise e => intro d; exact Iff.rfl
  | op o k ih =>
    intro d
    rw [lift, wp_op, wp_op]
    simp only [ih]

end Lib.Prog
