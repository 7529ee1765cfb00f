import Mathlib.Logic.Relation

/-!
# Programs of atomic operations

A `Prog` performs the operations of a signature `Op` one after another on a
shared state, each answer deciding how it goes on, and returns a value or
raises an exception.  What an operation may answer, and what it does to the
state, is a `Sem`; the program text does not fix it.

* `Exec`: complete runs.  `Steps`: runs cut off anywhere.
* `wp sem I Q p d`: every state that `p` reaches from `d` satisfies `I`, and
  every outcome satisfies `Q` (`wp_exec`, `wp_steps`).
* `Ensures sem R p d`: what holds where `p` returns.
* `Keeps sem I p`: `p` keeps an invariant, one rule for each way to build a
  program.  `Only P p`: every operation that `p` can ever ask for satisfies `P`.
* `Session`: commands run one after another, each possibly cut off, with the
  surroundings changing the state between two commands (`Session.invariant`).
-/

namespace Lib

/-- A program over the operations `Op` that may raise an `E`. -/
inductive Prog (Op : Type → Type) (E : Type) (α : Type) : Type 1
  | ret (a : α)
  | raise (e : E)
  | op {β : Type} (o : Op β) (k : β → Prog Op E α)

/-- What each operation may answer, and the state it may leave. -/
abbrev Sem (Op : Type → Type) (D : Type) := ∀ ⦃β : Type⦄, Op β → D → β → D → Prop

/-- One operation together with its answer. -/
structure Event (Op : Type → Type) : Type 1 where
  {β : Type}
  o : Op β
  ans : β

variable {Op : Type → Type} {E D α β γ : Type}

namespace Prog

/-! ## Building programs -/

protected def bind : Prog Op E α → (α → Prog Op E β) → Prog Op E β
  | ret a, f => f a
  | raise e, _ => raise e
  | op o k, f => op o fun b => (k b).bind f

instance : Monad (Prog Op E) where
  pure := ret
  bind := Prog.bind

def perform (o : Op β) : Prog Op E β := op o ret

/-- `try p except e: h e`. -/
def tryCatch : Prog Op E α → (E → Prog Op E α) → Prog Op E α
  | ret a, _ => ret a
  | raise e, h => h e
  | op o k, h => op o fun b => (k b).tryCatch h

/-- `try p finally f`. -/
def ensuring : Prog Op E α → Prog Op E Unit → Prog Op E α
  | ret a, f => f >>= fun _ => ret a
  | raise e, f => f >>= fun _ => raise e
  | op o k, f => op o fun b => (k b).ensuring f

/-- `for x in xs: f x`. -/
def each (f : γ → Prog Op E Unit) : List γ → Prog Op E Unit
  | [] => ret ()
  | x :: xs => f x >>= fun _ => each f xs

@[simp] theorem ret_bind (a : α) (f : α → Prog Op E β) : (ret a >>= f : Prog Op E β) = f a := rfl

@[simp] theorem pure_bind (a : α) (f : α → Prog Op E β) : (pure a >>= f : Prog Op E β) = f a := rfl

@[simp] theorem raise_bind (e : E) (f : α → Prog Op E β) :
    (raise e >>= f : Prog Op E β) = raise e := rfl

@[simp] theorem op_bind (o : Op γ) (k : γ → Prog Op E α) (f : α → Prog Op E β) :
    (op o k >>= f : Prog Op E β) = op o fun b => k b >>= f := rfl

/-! ## Runs -/

inductive Step (sem : Sem Op D) : Prog Op E α → D → Event Op → Prog Op E α → D → Prop
  | op {β : Type} {o : Op β} {k : β → Prog Op E α} {d d' : D} {b : β} :
      sem o d b d' → Step sem (.op o k) d ⟨o, b⟩ (k b) d'

/-- Complete runs, with the value returned or the exception raised. -/
inductive Exec (sem : Sem Op D) : Prog Op E α → D → Except E α → D → Prop
  | ret {a : α} {d : D} : Exec sem (.ret a) d (.ok a) d
  | raise {e : E} {d : D} : Exec sem (.raise e) d (.error e) d
  | op {β : Type} {o : Op β} {k : β → Prog Op E α} {d d₁ d' : D} {b : β} {r : Except E α} :
      sem o d b d₁ → Exec sem (k b) d₁ r d' → Exec sem (.op o k) d r d'

/-- Runs cut off anywhere, with the rest of the program. -/
inductive Steps (sem : Sem Op D) : Prog Op E α → D → Prog Op E α → D → Prop
  | refl {p : Prog Op E α} {d : D} : Steps sem p d p d
  | op {β : Type} {o : Op β} {k : β → Prog Op E α} {d d₁ d' : D} {b : β} {p : Prog Op E α} :
      sem o d b d₁ → Steps sem (k b) d₁ p d' → Steps sem (.op o k) d p d'

theorem Exec.bind {sem : Sem Op D} {p : Prog Op E α} {f : α → Prog Op E β} {d d₁ d' : D} {a : α}
    {r : Except E β} (hp : Exec sem p d (.ok a) d₁) (hf : Exec sem (f a) d₁ r d') :
    Exec sem (p >>= f) d r d' := by
  generalize hra : (Except.ok a : Except E α) = ra at hp
  induction hp with
  | ret => cases hra; exact hf
  | raise => cases hra
  | op ho _ ih => exact .op ho (ih hf hra)

theorem Exec.tryCatch_ok {sem : Sem Op D} {p : Prog Op E α} {h : E → Prog Op E α} {d d' : D} {a : α}
    (hp : Exec sem p d (.ok a) d') : Exec sem (p.tryCatch h) d (.ok a) d' := by
  generalize hra : (Except.ok a : Except E α) = ra at hp
  induction hp with
  | ret => cases hra; exact .ret
  | raise => cases hra
  | op ho _ ih => exact .op ho (ih hra)

theorem Exec.tryCatch_error {sem : Sem Op D} {p : Prog Op E α} {h : E → Prog Op E α} {d d₁ d' : D}
    {e : E} {r : Except E α} (hp : Exec sem p d (.error e) d₁) (hh : Exec sem (h e) d₁ r d') :
    Exec sem (p.tryCatch h) d r d' := by
  generalize hra : (Except.error e : Except E α) = ra at hp
  induction hp with
  | ret => cases hra
  | raise => cases hra; exact hh
  | op ho _ ih => exact .op ho (ih hh hra)

theorem Exec.ensuring {sem : Sem Op D} {p : Prog Op E α} {f : Prog Op E Unit} {d d₁ d' : D}
    {r : Except E α} (hp : Exec sem p d r d₁) (hf : Exec sem f d₁ (.ok ()) d') :
    Exec sem (p.ensuring f) d r d' := by
  induction hp with
  | ret => exact hf.bind .ret
  | raise => exact hf.bind .raise
  | op ho _ ih => exact .op ho (ih hf)

/-- A run of `p >>= f` is a run of `p` that raises, or one of `p` and then one of `f a`. -/
theorem exec_bind_cases {sem : Sem Op D} {f : α → Prog Op E β} {d' : D} {r : Except E β} :
    ∀ {p : Prog Op E α} {d : D}, Exec sem (p >>= f) d r d' →
      (∃ e, Exec sem p d (.error e) d' ∧ r = .error e) ∨
      ∃ a d₁, Exec sem p d (.ok a) d₁ ∧ Exec sem (f a) d₁ r d' := by
  intro p
  induction p with
  | ret a => intro d h; exact .inr ⟨a, d, .ret, h⟩
  | raise e => intro d h; cases h; exact .inl ⟨e, .raise, rfl⟩
  | op o k ih =>
    intro d h
    cases h with
    | op ho hk =>
      rcases ih _ hk with ⟨e, he, hr⟩ | ⟨a, d₁, ha, hf⟩
      · exact .inl ⟨e, .op ho he, hr⟩
      · exact .inr ⟨a, d₁, .op ho ha, hf⟩

/-- A complete run as a run that was not cut off. -/
theorem Steps.of_exec {sem : Sem Op D} {p : Prog Op E α} {d d' : D} {r : Except E α}
    (h : Exec sem p d r d') : ∃ p', Steps sem p d p' d' := by
  induction h with
  | ret => exact ⟨_, .refl⟩
  | raise => exact ⟨_, .refl⟩
  | op ho _ ih =>
    obtain ⟨p', hp'⟩ := ih
    exact ⟨p', .op ho hp'⟩

/-- The rest of a run that was cut off. -/
theorem Steps.exec {sem : Sem Op D} {p p' : Prog Op E α} {d d₁ d' : D} {r : Except E α}
    (h : Steps sem p d p' d₁) (hx : Exec sem p' d₁ r d') : Exec sem p d r d' := by
  induction h with
  | refl => exact hx
  | op ho _ ih => exact .op ho (ih hx)

/-! ## Evaluation -/

/-- A run whose operations are carried out by `h`, which may refuse one. -/
def eval (h : ∀ ⦃β : Type⦄, Op β → D → Option (β × D)) : Prog Op E α → D → Option (Except E α × D)
  | ret a, d => some (.ok a, d)
  | raise e, d => some (.error e, d)
  | op o k, d =>
    match h o d with
    | some (b, d') => (k b).eval h d'
    | none => none

theorem exec_of_eval {sem : Sem Op D} {h : ∀ ⦃β : Type⦄, Op β → D → Option (β × D)}
    (hs : ∀ ⦃β : Type⦄ (o : Op β) (d : D) (b : β) (d' : D), h o d = some (b, d') → sem o d b d') :
    ∀ {p : Prog Op E α} {d d' : D} {r : Except E α}, eval h p d = some (r, d') →
      Exec sem p d r d' := by
  intro p
  induction p with
  | ret a => intro d d' r he; cases he; exact .ret
  | raise e => intro d d' r he; cases he; exact .raise
  | op o k ih =>
    intro d d' r he
    rw [eval] at he
    split at he
    · next b d₁ ho => exact .op (hs o d b d₁ ho) (ih b he)
    · cases he

theorem eval_total {h : ∀ ⦃β : Type⦄, Op β → D → Option (β × D)}
    (ht : ∀ ⦃β : Type⦄ (o : Op β) (d : D), ∃ b d', h o d = some (b, d')) :
    ∀ (p : Prog Op E α) (d : D), ∃ r d', p.eval h d = some (r, d') := by
  intro p
  induction p with
  | ret a => exact fun d => ⟨_, _, rfl⟩
  | raise e => exact fun d => ⟨_, _, rfl⟩
  | op o k ih =>
    intro d
    obtain ⟨b, d₁, hb⟩ := ht o d
    obtain ⟨r, d', hr⟩ := ih b d₁
    refine ⟨r, d', ?_⟩
    rw [eval, hb]
    exact hr

theorem eval_bind {h : ∀ ⦃β : Type⦄, Op β → D → Option (β × D)} {f : α → Prog Op E β} {a : α}
    {d' : D} :
    ∀ {p : Prog Op E α} {d : D}, eval h p d = some (.ok a, d') →
      eval h (p >>= f) d = eval h (f a) d' := by
  intro p
  induction p with
  | ret a' => intro d he; cases he; rfl
  | raise e => intro d he; cases he
  | op o k ih =>
    intro d he
    rw [eval] at he
    rw [op_bind, eval]
    split at he
    · next b d₁ _ => exact ih b he
    · cases he

theorem eval_bind_error {h : ∀ ⦃β : Type⦄, Op β → D → Option (β × D)} {f : α → Prog Op E β}
    {e : E} {d' : D} :
    ∀ {p : Prog Op E α} {d : D}, eval h p d = some (.error e, d') →
      eval h (p >>= f) d = some (.error e, d') := by
  intro p
  induction p with
  | ret a => intro d he; cases he
  | raise e' => intro d he; cases he; rfl
  | op o k ih =>
    intro d he
    rw [eval] at he
    rw [op_bind, eval]
    split at he
    · next b d₁ _ => exact ih b he
    · cases he

theorem eval_tryCatch {h : ∀ ⦃β : Type⦄, Op β → D → Option (β × D)} {f : E → Prog Op E α} {a : α}
    {d' : D} :
    ∀ {p : Prog Op E α} {d : D}, eval h p d = some (.ok a, d') →
      eval h (p.tryCatch f) d = some (.ok a, d') := by
  intro p
  induction p with
  | ret a' => intro d he; cases he; rfl
  | raise e => intro d he; cases he
  | op o k ih =>
    intro d he
    rw [eval] at he
    rw [Prog.tryCatch, eval]
    split at he
    · next b d₁ _ => exact ih b he
    · cases he

theorem eval_tryCatch_error {h : ∀ ⦃β : Type⦄, Op β → D → Option (β × D)} {f : E → Prog Op E α}
    {e : E} {d' : D} :
    ∀ {p : Prog Op E α} {d : D}, eval h p d = some (.error e, d') →
      eval h (p.tryCatch f) d = eval h (f e) d' := by
  intro p
  induction p with
  | ret a => intro d he; cases he
  | raise e' => intro d he; cases he; rfl
  | op o k ih =>
    intro d he
    rw [eval] at he
    rw [Prog.tryCatch, eval]
    split at he
    · next b d₁ _ => exact ih b he
    · cases he

/-- Operations that do what `h` does. -/
def semOf (h : ∀ ⦃β : Type⦄, Op β → D → Option (β × D)) : Sem Op D :=
  fun _ o d b d' => h o d = some (b, d')

/-- One step, carried out by `h`. -/
def advance (h : ∀ ⦃β : Type⦄, Op β → D → Option (β × D)) :
    Prog Op E α → D → Option (Event Op × Prog Op E α × D)
  | op o k, d =>
    match h o d with
    | some (b, d') => some (⟨o, b⟩, k b, d')
    | none => none
  | _, _ => none

theorem step_of_advance {sem : Sem Op D} {h : ∀ ⦃β : Type⦄, Op β → D → Option (β × D)}
    (hs : ∀ ⦃β : Type⦄ (o : Op β) (d : D) (b : β) (d' : D), h o d = some (b, d') → sem o d b d')
    {p p' : Prog Op E α} {d d' : D} {ev : Event Op} (ha : advance h p d = some (ev, p', d')) :
    Step sem p d ev p' d' := by
  cases p with
  | ret a => cases ha
  | raise e => cases ha
  | op o k =>
    simp only [advance] at ha
    split at ha
    · next b d₁ ho =>
      cases ha
      exact .op (hs o d b d' ho)
    · cases ha

/-! ## Weakest preconditions -/

/-- Every state reached satisfies `I`, every outcome satisfies `Q`. -/
def wp (sem : Sem Op D) (I : D → Prop) (Q : Except E α → D → Prop) : Prog Op E α → D → Prop
  | ret a, d => Q (.ok a) d
  | raise e, d => Q (.error e) d
  | op o k, d => ∀ b d', sem o d b d' → I d' ∧ (k b).wp sem I Q d'

variable {sem : Sem Op D} {I : D → Prop}

@[simp] theorem wp_ret {Q : Except E α → D → Prop} (a : α) (d : D) :
    wp sem I Q (ret a) d ↔ Q (.ok a) d := Iff.rfl

@[simp] theorem wp_pure {Q : Except E α → D → Prop} (a : α) (d : D) :
    wp sem I Q (pure a : Prog Op E α) d ↔ Q (.ok a) d := Iff.rfl

@[simp] theorem wp_raise {Q : Except E α → D → Prop} (e : E) (d : D) :
    wp sem I Q (raise e) d ↔ Q (.error e) d := Iff.rfl

theorem wp_op {Q : Except E α → D → Prop} (o : Op β) (k : β → Prog Op E α) (d : D) :
    wp sem I Q (op o k) d ↔ ∀ b d', sem o d b d' → I d' ∧ wp sem I Q (k b) d' := Iff.rfl

theorem wp_perform {Q : Except E β → D → Prop} (o : Op β) (d : D) :
    wp sem I Q (perform o : Prog Op E β) d ↔ ∀ b d', sem o d b d' → I d' ∧ Q (.ok b) d' := Iff.rfl

theorem wp_mono {Q Q' : Except E α → D → Prop} (hQ : ∀ r d, Q r d → Q' r d) :
    ∀ {p : Prog Op E α} {d : D}, wp sem I Q p d → wp sem I Q' p d := by
  intro p
  induction p with
  | ret a => intro d h; exact hQ _ _ h
  | raise e => intro d h; exact hQ _ _ h
  | op o k ih =>
    intro d h b d' ho
    exact ⟨(h b d' ho).1, ih b (h b d' ho).2⟩

theorem wp_congr {Q Q' : Except E α → D → Prop} (h : ∀ r d, Q r d ↔ Q' r d) {p : Prog Op E α}
    {d : D} :
    wp sem I Q p d ↔ wp sem I Q' p d :=
  ⟨wp_mono fun r d => (h r d).mp, wp_mono fun r d => (h r d).mpr⟩

/-- A weaker condition on the states on the way. -/
theorem wp_weaken {I' : D → Prop} {Q : Except E α → D → Prop} (hI : ∀ d, I d → I' d) :
    ∀ {p : Prog Op E α} {d : D}, wp sem I Q p d → wp sem I' Q p d := by
  intro p
  induction p with
  | ret a => intro d h; exact h
  | raise e => intro d h; exact h
  | op o k ih =>
    intro d h b d' ho
    exact ⟨hI d' (h b d' ho).1, ih b (h b d' ho).2⟩

theorem wp_bind {Q : Except E β → D → Prop} {f : α → Prog Op E β} :
    ∀ {p : Prog Op E α} {d : D},
      wp sem I Q (p >>= f) d ↔
        wp sem I (fun r d' => match r with
          | .ok a => wp sem I Q (f a) d'
          | .error e => Q (.error e) d') p d := by
  intro p
  induction p with
  | ret a => intro d; exact Iff.rfl
  | raise e => intro d; exact Iff.rfl
  | op o k ih =>
    intro d
    simp only [op_bind, wp_op, ih]

theorem wp_tryCatch {Q : Except E α → D → Prop} {h : E → Prog Op E α} :
    ∀ {p : Prog Op E α} {d : D},
      wp sem I Q (p.tryCatch h) d ↔
        wp sem I (fun r d' => match r with
          | .ok a => Q (.ok a) d'
          | .error e => wp sem I Q (h e) d') p d := by
  intro p
  induction p with
  | ret a => intro d; exact Iff.rfl
  | raise e => intro d; exact Iff.rfl
  | op o k ih =>
    intro d
    simp only [tryCatch, wp_op, ih]

theorem wp_ensuring {Q : Except E α → D → Prop} {f : Prog Op E Unit} :
    ∀ {p : Prog Op E α} {d : D},
      wp sem I Q (p.ensuring f) d ↔
        wp sem I (fun r d' => wp sem I (fun rf d'' => match rf with
          | .ok _ => Q r d''
          | .error e => Q (.error e) d'') f d') p d := by
  intro p
  induction p with
  | ret a =>
    intro d
    rw [ensuring, wp_bind]
    refine wp_congr fun rf d' => ?_
    cases rf <;> exact Iff.rfl
  | raise e =>
    intro d
    rw [ensuring, wp_bind]
    refine wp_congr fun rf d' => ?_
    cases rf <;> exact Iff.rfl
  | op o k ih =>
    intro d
    simp only [ensuring, wp_op, ih]

/-- The loop rule: `J xs` holds when the items `xs` are still to come. -/
theorem wp_each {Q : Except E Unit → D → Prop} {f : γ → Prog Op E Unit} (J : List γ → D → Prop)
    (hf : ∀ x xs d, J (x :: xs) d → wp sem I (fun r d' => match r with
      | .ok _ => J xs d'
      | .error e => Q (.error e) d') (f x) d)
    (hQ : ∀ d, J [] d → Q (.ok ()) d) :
    ∀ (xs : List γ) (d : D), J xs d → wp sem I Q (each f xs) d := by
  intro xs
  induction xs with
  | nil => intro d h; exact hQ d h
  | cons x xs ih =>
    intro d h
    rw [each, wp_bind]
    refine wp_mono ?_ (hf x xs d h)
    intro r d' hr
    cases r with
    | ok _ => exact ih d' hr
    | error e => exact hr

/-- `wp` speaks of every complete run. -/
theorem wp_exec {Q : Except E α → D → Prop} {p : Prog Op E α} {d d' : D} {r : Except E α}
    (h : wp sem I Q p d) (hx : Exec sem p d r d') : Q r d' := by
  induction hx with
  | ret => exact h
  | raise => exact h
  | op ho _ ih => exact ih (h _ _ ho).2

/-- `wp` speaks of every state on the way. -/
theorem wp_steps {Q : Except E α → D → Prop} {p p' : Prog Op E α} {d d' : D}
    (h : wp sem I Q p d) (hd : I d) (hx : Steps sem p d p' d') : I d' := by
  induction hx with
  | refl => exact hd
  | op ho _ ih => exact ih (h _ _ ho).2 (h _ _ ho).1

/-- The complete runs decide `wp` when nothing is asked of the states on the way. -/
theorem wp_of_exec {Q : Except E α → D → Prop} :
    ∀ {p : Prog Op E α} {d : D}, (∀ r d', Exec sem p d r d' → Q r d') →
      wp sem (fun _ => True) Q p d := by
  intro p
  induction p with
  | ret a => intro d h; exact h _ _ .ret
  | raise e => intro d h; exact h _ _ .raise
  | op o k ih =>
    intro d h b d' ho
    exact ⟨trivial, ih b fun r d'' hx => h r d'' (.op ho hx)⟩

/-! ## What holds where a program returns -/

/-- If `p` returns from `d`, the value and the state satisfy `R`. -/
def Ensures (sem : Sem Op D) (R : α → D → Prop) (p : Prog Op E α) (d : D) : Prop :=
  wp sem (fun _ => True) (fun r d' => ∀ a, r = .ok a → R a d') p d

theorem ensures_ret {R : α → D → Prop} {a : α} {d : D} (h : R a d) :
    Ensures sem R (ret a : Prog Op E α) d :=
  fun _ ha => Except.ok.inj ha ▸ h

theorem ensures_raise {R : α → D → Prop} (e : E) (d : D) : Ensures sem R (raise e) d :=
  fun _ h => by cases h

theorem ensures_op {R : α → D → Prop} {o : Op β} {k : β → Prog Op E α} {d : D}
    (h : ∀ b d', sem o d b d' → Ensures sem R (k b) d') : Ensures sem R (op o k) d :=
  fun b d' ho => ⟨trivial, h b d' ho⟩

theorem Ensures.mono {R R' : α → D → Prop} {p : Prog Op E α} {d : D} (h : Ensures sem R p d)
    (hR : ∀ a d', R a d' → R' a d') : Ensures sem R' p d :=
  wp_mono (fun _ d' hr a ha => hR a d' (hr a ha)) h

theorem ensures_bind {R : α → D → Prop} {R' : β → D → Prop} {p : Prog Op E α}
    {f : α → Prog Op E β} {d : D} (hp : Ensures sem R p d)
    (hf : ∀ a d', R a d' → Ensures sem R' (f a) d') : Ensures sem R' (p >>= f) d := by
  unfold Ensures
  rw [wp_bind]
  refine wp_mono ?_ hp
  intro r d' hr
  cases r with
  | ok a => exact hf a d' (hr a rfl)
  | error e => exact fun _ h => by cases h

theorem ensures_ensuring {R : α → D → Prop} {R' : α → D → Prop} {p : Prog Op E α}
    {f : Prog Op E Unit} {d : D} (hp : Ensures sem R p d)
    (hf : ∀ a d', R a d' → Ensures sem (fun _ => R' a) f d') :
    Ensures sem R' (p.ensuring f) d := by
  unfold Ensures
  rw [wp_ensuring]
  refine wp_mono ?_ hp
  intro r d' hr
  cases r with
  | ok a =>
    refine wp_mono ?_ (hf a d' (hr a rfl))
    intro rf d'' hrf
    cases rf with
    | ok u =>
      intro b hb
      obtain rfl := Except.ok.inj hb
      exact hrf u rfl
    | error e => exact fun _ h => by cases h
  | error e =>
    refine wp_of_exec fun rf d'' _ => ?_
    cases rf <;> exact fun _ h => by cases h

theorem Ensures.exec {R : α → D → Prop} {p : Prog Op E α} {d d' : D} {a : α} (h : Ensures sem R p d)
    (hx : Exec sem p d (.ok a) d') : R a d' :=
  wp_exec h hx a rfl

/-! ## Programs that keep an invariant -/

/-- From a state with `I`, every state reached has `I`, whatever the outcome. -/
def Keeps (sem : Sem Op D) (I : D → Prop) (p : Prog Op E α) : Prop :=
  ∀ d, I d → wp sem I (fun _ d' => I d') p d

theorem keeps_ret (a : α) : Keeps sem I (ret a : Prog Op E α) := fun _ h => h

theorem keeps_pure (a : α) : Keeps sem I (pure a : Prog Op E α) := fun _ h => h

theorem keeps_raise (e : E) : Keeps sem I (raise e : Prog Op E α) := fun _ h => h

theorem keeps_perform {o : Op β} (h : ∀ d b d', sem o d b d' → I d → I d') :
    Keeps sem I (perform o : Prog Op E β) :=
  fun d hd b d' ho => ⟨h d b d' ho hd, h d b d' ho hd⟩

theorem keeps_bind {p : Prog Op E α} {f : α → Prog Op E β} (hp : Keeps sem I p)
    (hf : ∀ a, Keeps sem I (f a)) : Keeps sem I (p >>= f) := by
  intro d hd
  rw [wp_bind]
  refine wp_mono ?_ (hp d hd)
  intro r d' hd'
  cases r with
  | ok a => exact hf a d' hd'
  | error e => exact hd'

theorem keeps_tryCatch {p : Prog Op E α} {h : E → Prog Op E α} (hp : Keeps sem I p)
    (hh : ∀ e, Keeps sem I (h e)) : Keeps sem I (p.tryCatch h) := by
  intro d hd
  rw [wp_tryCatch]
  refine wp_mono ?_ (hp d hd)
  intro r d' hd'
  cases r with
  | ok a => exact hd'
  | error e => exact hh e d' hd'

theorem keeps_each {f : γ → Prog Op E Unit} (hf : ∀ x, Keeps sem I (f x)) (xs : List γ) :
    Keeps sem I (each f xs) := by
  induction xs with
  | nil => exact keeps_ret ()
  | cons x xs ih => exact keeps_bind (hf x) fun _ => ih

/-! ## The operations a program can ask for -/

/-- Every operation that the program can ask for, whatever the answers, satisfies `P`. -/
def Only (P : ∀ ⦃β : Type⦄, Op β → Prop) : Prog Op E α → Prop
  | ret _ => True
  | raise _ => True
  | op o k => P o ∧ ∀ b, (k b).Only P

variable {P : ∀ ⦃β : Type⦄, Op β → Prop}

theorem only_pure (a : α) : Only P (pure a : Prog Op E α) := trivial

theorem only_raise (e : E) : Only P (raise e : Prog Op E α) := trivial

theorem only_perform {o : Op β} (h : P o) : Only P (perform o : Prog Op E β) :=
  ⟨h, fun _ => trivial⟩

theorem only_bind {f : α → Prog Op E β} :
    ∀ {p : Prog Op E α}, Only P p → (∀ a, Only P (f a)) → Only P (p >>= f) := by
  intro p
  induction p with
  | ret a => intro _ hf; exact hf a
  | raise e => intro _ _; trivial
  | op o k ih => intro hp hf; exact ⟨hp.1, fun b => ih b (hp.2 b) hf⟩

theorem only_tryCatch {h : E → Prog Op E α} :
    ∀ {p : Prog Op E α}, Only P p → (∀ e, Only P (h e)) → Only P (p.tryCatch h) := by
  intro p
  induction p with
  | ret a => intro _ _; trivial
  | raise e => intro _ hh; exact hh e
  | op o k ih => intro hp hh; exact ⟨hp.1, fun b => ih b (hp.2 b) hh⟩

theorem only_each {f : γ → Prog Op E Unit} (hf : ∀ x, Only P (f x)) (xs : List γ) :
    Only P (each f xs) := by
  induction xs with
  | nil => trivial
  | cons x xs ih => exact only_bind (hf x) fun _ => ih

theorem Only.mono {P' : ∀ ⦃β : Type⦄, Op β → Prop} (h : ∀ ⦃β : Type⦄ (o : Op β), P o → P' o) :
    ∀ {p : Prog Op E α}, Only P p → Only P' p := by
  intro p
  induction p with
  | ret a => intro _; trivial
  | raise e => intro _; trivial
  | op o k ih => intro hp; exact ⟨h o hp.1, fun b => ih b (hp.2 b)⟩

/-- A step performs an operation with `P` and leaves a program with `Only P`. -/
theorem Only.step {p p' : Prog Op E α} {d d' : D} {ev : Event Op} (hp : Only P p)
    (h : Step sem p d ev p' d') : P ev.o ∧ Only P p' := by
  cases h with
  | op _ => exact ⟨hp.1, hp.2 _⟩

/-- If each operation with `P` keeps `I`, a program of such operations keeps `I`. -/
theorem keeps_of_only (h : ∀ ⦃β : Type⦄ (o : Op β), P o → ∀ d b d', sem o d b d' → I d → I d') :
    ∀ {p : Prog Op E α}, Only P p → Keeps sem I p := by
  intro p
  induction p with
  | ret a => intro _; exact keeps_ret a
  | raise e => intro _; exact keeps_raise e
  | op o k ih =>
    intro hp d hd b d' ho
    have hd' := h o hp.1 d b d' ho hd
    exact ⟨hd', ih b (hp.2 b) d' hd'⟩

/-- A program of operations that leave the state alone. -/
theorem wp_of_only_frozen {Q : Except E α → D → Prop}
    (h : ∀ ⦃β : Type⦄ (o : Op β), P o → ∀ d b d', sem o d b d' → d' = d) {d : D} (hd : I d)
    (hQ : ∀ r, Q r d) : ∀ {p : Prog Op E α}, Only P p → wp sem I Q p d := by
  intro p
  induction p with
  | ret a => intro _; exact hQ _
  | raise e => intro _; exact hQ _
  | op o k ih =>
    intro hp b d' ho
    obtain rfl := h o hp.1 d b d' ho
    exact ⟨hd, ih b (hp.2 b)⟩

end Prog

/-! ## Restricting and recording what operations do -/

/-- The runs of `sem` whose steps all meet the condition `ok`. -/
def Sem.restrict (sem : Sem Op D) (ok : ∀ ⦃β : Type⦄, Op β → D → Prop) : Sem Op D :=
  fun _ o d b d' => ok o d ∧ sem o d b d'

/-- `sem` with a log next to the state: what `note` says of each operation and its
answer is appended to it. -/
def Sem.noting {L : Type} (sem : Sem Op D) (note : ∀ ⦃β : Type⦄, Op β → β → List L) :
    Sem Op (D × List L) :=
  fun _ o d b d' => sem o d.1 b d'.1 ∧ d'.2 = d.2 ++ note o b

namespace Prog

variable {L : Type} {sem : Sem Op D} {note : ∀ ⦃β : Type⦄, Op β → β → List L}

theorem Exec.of_noting {p : Prog Op E α} {s s' : D × List L} {r : Except E α}
    (h : Exec (sem.noting note) p s r s') : Exec sem p s.1 r s'.1 := by
  induction h with
  | ret => exact .ret
  | raise => exact .raise
  | op ho _ ih => exact .op ho.1 ih

variable (note) in
theorem Exec.noting {p : Prog Op E α} {d d' : D} {r : Except E α} (h : Exec sem p d r d') :
    ∀ l : List L, ∃ l', Exec (sem.noting note) p (d, l) r (d', l') := by
  induction h with
  | ret => intro l; exact ⟨l, .ret⟩
  | raise => intro l; exact ⟨l, .raise⟩
  | @op β o k d d₁ d' b r ho _ ih =>
    intro l
    obtain ⟨l', hl'⟩ := ih (l ++ note o b)
    have hs : (sem.noting note) o (d, l) b (d₁, l ++ note o b) := ⟨ho, rfl⟩
    exact ⟨l', .op hs hl'⟩

/-- A run with notes, whose operations are carried out by `h`. -/
def noted (h : ∀ ⦃β : Type⦄, Op β → D → Option (β × D)) (note : ∀ ⦃β : Type⦄, Op β → β → List L) :
    ∀ ⦃β : Type⦄, Op β → D × List L → Option (β × (D × List L)) :=
  fun _ o d => (h o d.1).map fun a => (a.1, (a.2, d.2 ++ note o a.1))

theorem noted_total {h : ∀ ⦃β : Type⦄, Op β → D → Option (β × D)}
    (ht : ∀ ⦃β : Type⦄ (o : Op β) (d : D), ∃ b d', h o d = some (b, d')) ⦃β : Type⦄ (o : Op β)
    (d : D × List L) :
    ∃ b d', noted h note o d = some (b, d') := by
  obtain ⟨b, d', hb⟩ := ht o d.1
  exact ⟨b, (d', d.2 ++ note o b), by rw [noted, hb]; rfl⟩

theorem noting_of_noted {h : ∀ ⦃β : Type⦄, Op β → D → Option (β × D)}
    (hs : ∀ ⦃β : Type⦄ (o : Op β) (d : D) (b : β) (d' : D), h o d = some (b, d') → sem o d b d')
    ⦃β : Type⦄ (o : Op β) (d : D × List L) (b : β) (d' : D × List L)
    (hn : noted h note o d = some (b, d')) :
    (sem.noting note) o d b d' := by
  obtain ⟨a, ha, heq⟩ := Option.map_eq_some_iff.mp hn
  cases heq
  exact ⟨hs o d.1 a.1 a.2 ha, rfl⟩

/-- The notes of a run do not depend on those before it. -/
theorem Exec.noting_append {p : Prog Op E α} {s s' : D × List L} {r : Except E α}
    (h : Exec (sem.noting note) p s r s') :
    ∃ notes, s'.2 = s.2 ++ notes ∧ ∀ l, Exec (sem.noting note) p (s.1, l) r (s'.1, l ++ notes) := by
  induction h with
  | ret => exact ⟨[], (List.append_nil _).symm, fun l => by rw [List.append_nil]; exact .ret⟩
  | raise => exact ⟨[], (List.append_nil _).symm, fun l => by rw [List.append_nil]; exact .raise⟩
  | @op β o k d d₁ d' b r ho _ ih =>
    obtain ⟨notes, hn, hx⟩ := ih
    refine ⟨note o b ++ notes, by rw [hn, ho.2, List.append_assoc], fun l => ?_⟩
    rw [← List.append_assoc]
    have hs : (sem.noting note) o (d.1, l) b (d₁.1, l ++ note o b) := ⟨ho.1, rfl⟩
    exact .op hs (hx _)

/-- A condition that does not look at the notes. -/
theorem wp_noting_iff {I : D → Prop} {Q : Except E α → D → Prop} :
    ∀ {p : Prog Op E α} {s : D × List L},
      wp (sem.noting note) (fun s => I s.1) (fun r s => Q r s.1) p s ↔ wp sem I Q p s.1 := by
  intro p
  induction p with
  | ret a => exact fun {_} => Iff.rfl
  | raise e => exact fun {_} => Iff.rfl
  | op o k ih =>
    intro s
    constructor
    · intro h b d' ho
      have hs := h b (d', s.2 ++ note o b) ⟨ho, rfl⟩
      exact ⟨hs.1, (ih b).mp hs.2⟩
    · intro h b s' hs
      have hd := h b s'.1 hs.1
      exact ⟨hd.1, (ih b).mpr hd.2⟩

/-- What every operation keeps, every run keeps, wherever it is cut off. -/
theorem Steps.invariant {I : D → Prop}
    (hs : ∀ ⦃β : Type⦄ (o : Op β) (d : D) (b : β) (d' : D), sem o d b d' → I d → I d')
    {p p' : Prog Op E α} {d d' : D} (h : Steps sem p d p' d') (hd : I d) : I d' := by
  induction h with
  | refl => exact hd
  | op ho _ ih => exact ih (hs _ _ _ _ ho hd)

/-- What every operation keeps, every run keeps. -/
theorem Exec.invariant {I : D → Prop}
    (hI : ∀ ⦃β : Type⦄ (o : Op β) (d : D) (b : β) (d' : D), sem o d b d' → I d → I d')
    {p : Prog Op E α} {d d' : D} {r : Except E α} (h : Exec sem p d r d') (hd : I d) : I d' := by
  induction h with
  | ret => exact hd
  | raise => exact hd
  | op ho _ ih => exact ih (hI _ _ _ _ ho hd)

/-- A loop whose body can always end, from the states with `I`. -/
theorem exec_each_ok {I : D → Prop} {f : γ → Prog Op E Unit} :
    ∀ {xs : List γ}, (∀ x ∈ xs, ∀ d, I d → ∃ d', Exec sem (f x) d (.ok ()) d' ∧ I d') →
      ∀ d, I d → ∃ d', Exec sem (each f xs) d (.ok ()) d' ∧ I d' := by
  intro xs
  induction xs with
  | nil => intro _ d hd; exact ⟨d, .ret, hd⟩
  | cons x xs ih =>
    intro hf d hd
    obtain ⟨d₁, h₁, hd₁⟩ := hf x (List.mem_cons_self ..) d hd
    obtain ⟨d₂, h₂, hd₂⟩ := ih (fun y hy => hf y (List.mem_cons_of_mem _ hy)) d₁ hd₁
    exact ⟨d₂, h₁.bind h₂, hd₂⟩

end Prog

/-! ## Sessions -/

/-- The states of a session: commands of `menu` run one after another from `d₀`,
each possibly cut off (by an exception, a failure or the end of the process);
between two of them the surroundings may change the state by `env`. -/
inductive Session (sem : Sem Op D) (menu : Prog Op E Unit → Prop) (env : D → D → Prop) (d₀ : D) :
    D → Prop
  | start : Session sem menu env d₀ d₀
  | command {d d' : D} {p p' : Prog Op E Unit} :
      Session sem menu env d₀ d → menu p → Prog.Steps sem p d p' d' → Session sem menu env d₀ d'
  | surroundings {d d' : D} :
      Session sem menu env d₀ d → env d d' → Session sem menu env d₀ d'

/-- The induction over a session, done once. -/
theorem Session.invariant {sem : Sem Op D} {menu : Prog Op E Unit → Prop} {env : D → D → Prop}
    {I : D → Prop} (hp : ∀ p, menu p → Prog.Keeps sem I p) (he : ∀ d d', env d d' → I d → I d')
    {d₀ d : D} (h₀ : I d₀) (h : Session sem menu env d₀ d) : I d := by
  induction h with
  | start => exact h₀
  | command _ hm hs ih => exact Prog.wp_steps (hp _ hm _ ih) ih hs
  | surroundings _ hd ih => exact he _ _ hd ih

/-- The state after evaluating a program, or the state before it if an operation was refused. -/
def Prog.evalState (h : ∀ ⦃β : Type⦄, Op β → D → Option (β × D)) (p : Prog Op E α) (d : D) : D :=
  match p.eval h d with
  | some (_, d') => d'
  | none => d

theorem Prog.steps_evalState {sem : Sem Op D} {h : ∀ ⦃β : Type⦄, Op β → D → Option (β × D)}
    (hs : ∀ ⦃β : Type⦄ (o : Op β) (d : D) (b : β) (d' : D), h o d = some (b, d') → sem o d b d')
    (p : Prog Op E α) (d : D) : ∃ p', Prog.Steps sem p d p' (p.evalState h d) := by
  unfold Prog.evalState
  split
  · next r d' he => exact Prog.Steps.of_exec (Prog.exec_of_eval hs he)
  · exact ⟨p, .refl⟩

/-- A session goes on with the evaluation of a command. -/
theorem Session.evalState {sem : Sem Op D} {menu : Prog Op E Unit → Prop} {env : D → D → Prop}
    {h : ∀ ⦃β : Type⦄, Op β → D → Option (β × D)}
    (hs : ∀ ⦃β : Type⦄ (o : Op β) (d : D) (b : β) (d' : D), h o d = some (b, d') → sem o d b d')
    {p : Prog Op E Unit} {d₀ d : D} (hp : menu p) (hd : Session sem menu env d₀ d) :
    Session sem menu env d₀ (p.evalState h d) := by
  obtain ⟨p', hp'⟩ := Prog.steps_evalState hs p d
  exact .command hd hp hp'

end Lib
