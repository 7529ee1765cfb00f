import DevUtil.Lib.Prog

/-!
# Traces, and Python's `ExitStack`

What a program asks for and is answered, whatever the answers are; and the exits
that a `with` block runs when it is left.

    a trace of p, then f = a trace of p, then one of f, or one of p that raises   (trace_bind)
    the exits of a block see what its body raised, or one of themselves did       (unwind)
    a body's exits are those there were and those it has entered                  (Body)
-/

namespace Lib.Prog

variable {Op : Type → Type} {E L α β : Type}

/-! ## Traces -/

/-- A complete run with what `note` says of each operation and its answer. -/
inductive Trace (note : ∀ ⦃β : Type⦄, Op β → β → L) : Prog Op E α → List L → Except E α → Prop
  | ret (a : α) : Trace note (.ret a) [] (.ok a)
  | raise (e : E) : Trace note (.raise e) [] (.error e)
  | op {β : Type} {o : Op β} {k : β → Prog Op E α} (b : β) {es : List L} {r : Except E α} :
      Trace note (k b) es r → Trace note (.op o k) (note o b :: es) r

variable {note : ∀ ⦃β : Type⦄, Op β → β → L} {es : List L}

theorem trace_ret {a : α} {r : Except E α} (h : Trace note (.ret a : Prog Op E α) es r) :
    es = [] ∧ r = .ok a := by
  cases h
  exact ⟨rfl, rfl⟩

theorem trace_raise {e : E} {r : Except E α} (h : Trace note (.raise e : Prog Op E α) es r) :
    es = [] ∧ r = .error e := by
  cases h
  exact ⟨rfl, rfl⟩

theorem trace_op {o : Op β} {k : β → Prog Op E α} {r : Except E α} (h : Trace note (.op o k) es r) :
    ∃ b es', es = note o b :: es' ∧ Trace note (k b) es' r := by
  cases h with
  | op b h => exact ⟨b, _, rfl, h⟩

theorem trace_bind {f : α → Prog Op E β} {r : Except E β} :
    ∀ {p : Prog Op E α} {es : List L}, Trace note (p >>= f) es r →
      (∃ e, Trace note p es (.error e) ∧ r = .error e) ∨
      ∃ a es₁ es₂, Trace note p es₁ (.ok a) ∧ Trace note (f a) es₂ r ∧ es = es₁ ++ es₂ := by
  intro p
  induction p with
  | ret a => exact fun {es} h => .inr ⟨a, [], es, .ret a, h, rfl⟩
  | raise e =>
    intro es h
    obtain ⟨rfl, rfl⟩ := trace_raise h
    exact .inl ⟨e, .raise e, rfl⟩
  | op o k ih =>
    intro es h
    obtain ⟨b, es', rfl, hk⟩ := trace_op h
    rcases ih b hk with ⟨e, he, rfl⟩ | ⟨a, es₁, es₂, ha, hf, rfl⟩
    · exact .inl ⟨e, .op b he, rfl⟩
    · exact .inr ⟨a, note o b :: es₁, es₂, .op b ha, hf, rfl⟩

theorem trace_tryCatch {h : E → Prog Op E α} {r : Except E α} :
    ∀ {p : Prog Op E α} {es : List L}, Trace note (p.tryCatch h) es r →
      (∃ a, Trace note p es (.ok a) ∧ r = .ok a) ∨
      ∃ e es₁ es₂, Trace note p es₁ (.error e) ∧ Trace note (h e) es₂ r ∧ es = es₁ ++ es₂ := by
  intro p
  induction p with
  | ret a =>
    intro es ht
    obtain ⟨rfl, rfl⟩ := trace_ret ht
    exact .inl ⟨a, .ret a, rfl⟩
  | raise e => exact fun {es} ht => .inr ⟨e, [], es, .raise e, ht, rfl⟩
  | op o k ih =>
    intro es ht
    obtain ⟨b, es', rfl, hk⟩ := trace_op ht
    rcases ih b hk with ⟨a, ha, rfl⟩ | ⟨e, es₁, es₂, he, hh, rfl⟩
    · exact .inl ⟨a, .op b ha, rfl⟩
    · exact .inr ⟨e, note o b :: es₁, es₂, .op b he, hh, rfl⟩

/-- A program whose exceptions are turned into results. -/
theorem trace_settled {f : α → β} {g : E → β} {p : Prog Op E α} {r : Except E β}
    (h : Trace note ((p >>= fun a => ret (f a)).tryCatch fun e => ret (g e)) es r) :
    (∃ a, Trace note p es (.ok a) ∧ r = .ok (f a)) ∨
      ∃ e, Trace note p es (.error e) ∧ r = .ok (g e) := by
  rcases trace_tryCatch h with ⟨b, hb, rfl⟩ | ⟨e, es₁, es₂, he, hret, rfl⟩
  · rcases trace_bind hb with ⟨e, -, he⟩ | ⟨a, es₁, es₂, hp, hret, rfl⟩
    · cases he
    · obtain ⟨rfl, heq⟩ := trace_ret hret
      obtain rfl := Except.ok.inj heq
      exact .inl ⟨a, by rw [List.append_nil]; exact hp, rfl⟩
  · obtain ⟨rfl, rfl⟩ := trace_ret hret
    rcases trace_bind he with ⟨e', hp, he'⟩ | ⟨a, es₁', es₂', -, hret', -⟩
    · obtain rfl := Except.error.inj he'
      exact .inr ⟨e, by rw [List.append_nil]; exact hp, rfl⟩
    · cases hret'

/-- The run in which each operation has its answer. -/
def play (note : ∀ ⦃β : Type⦄, Op β → β → L) (answer : ∀ ⦃β : Type⦄, Op β → β) :
    Prog Op E α → List L × Except E α
  | ret a => ([], .ok a)
  | raise e => ([], .error e)
  | op o k =>
    let (es, r) := play note answer (k (answer o))
    (note o (answer o) :: es, r)

theorem trace_play (answer : ∀ ⦃β : Type⦄, Op β → β) :
    ∀ p : Prog Op E α, Trace note p (play note answer p).1 (play note answer p).2 := by
  intro p
  induction p with
  | ret a => exact .ret a
  | raise e => exact .raise e
  | op o k ih => exact .op (answer o) (ih (answer o))

/-! ## Exits -/

variable {X : Type}

/-- The exits of a block, the last one entered first, each with the exception that the block is left
by. None of them suppresses it. -/
def unwind (exit : X → Option E → Prog Op E Unit) : List X → Option E → Prog Op E Unit
  | [], none => ret ()
  | [], some e => raise e
  | x :: xs, exc =>
    ((exit x exc >>= fun _ => ret exc).tryCatch fun e => ret (some e)) >>= unwind exit xs

/-- The body of a `with ExitStack()` block: what it returns or raises, and the contexts it has
entered. -/
def Body (Op : Type → Type) (E X α : Type) := List X → Prog Op E (Except E α × List X)

namespace Body

protected def pure (a : α) : Body Op E X α := fun xs => ret (.ok a, xs)

protected def bind (b : Body Op E X α) (f : α → Body Op E X β) : Body Op E X β := fun xs =>
  b xs >>= fun r =>
    match r with
    | (.ok a, xs) => f a xs
    | (.error e, xs) => ret (.error e, xs)

instance : Monad (Body Op E X) where
  pure := Body.pure
  bind := Body.bind

def lift (p : Prog Op E α) : Body Op E X α := fun xs =>
  (p >>= fun a => ret (.ok a, xs)).tryCatch fun e => ret (.error e, xs)

/-- `stack.enter_context` -/
def enter (p : Prog Op E (α × X)) : Body Op E X α := fun xs =>
  (p >>= fun a => ret (.ok a.1, a.2 :: xs)).tryCatch fun e => ret (.error e, xs)

/-- What a body does: `S es r new` for its trace, its result and the contexts it has entered. -/
def Does (note : ∀ ⦃β : Type⦄, Op β → β → L) (b : Body Op E X α)
    (S : List L → Except E α → List X → Prop) : Prop :=
  ∀ xs es r, Trace note (b xs) es r → ∃ r' new, r = .ok (r', new ++ xs) ∧ S es r' new

theorem Does.mono {b : Body Op E X α} {S S' : List L → Except E α → List X → Prop}
    (h : Does note b S) (hS : ∀ es r new, S es r new → S' es r new) : Does note b S' := by
  intro xs es r ht
  obtain ⟨r', new, rfl, hs⟩ := h xs es r ht
  exact ⟨r', new, rfl, hS es r' new hs⟩

theorem does_pure (a : α) :
    Does note (pure a : Body Op E X α) fun es r new => es = [] ∧ r = .ok a ∧ new = [] := by
  intro xs es r h
  obtain ⟨rfl, rfl⟩ := trace_ret h
  exact ⟨.ok a, [], rfl, rfl, rfl, rfl⟩

theorem does_lift (p : Prog Op E α) :
    Does note (lift p : Body Op E X α) fun es r new => Trace note p es r ∧ new = [] := by
  intro xs es r h
  rcases trace_settled h with ⟨a, hp, rfl⟩ | ⟨e, hp, rfl⟩
  · exact ⟨.ok a, [], rfl, hp, rfl⟩
  · exact ⟨.error e, [], rfl, hp, rfl⟩

theorem does_enter (p : Prog Op E (α × X)) :
    Does note (enter p : Body Op E X α) fun es r new =>
      (∃ a x, Trace note p es (.ok (a, x)) ∧ r = .ok a ∧ new = [x]) ∨
      ∃ e, Trace note p es (.error e) ∧ r = .error e ∧ new = [] := by
  intro xs es r h
  rcases trace_settled h with ⟨a, hp, rfl⟩ | ⟨e, hp, rfl⟩
  · exact ⟨.ok a.1, [a.2], rfl, .inl ⟨a.1, a.2, hp, rfl, rfl⟩⟩
  · exact ⟨.error e, [], rfl, .inr ⟨e, hp, rfl, rfl⟩⟩

theorem does_bind {b : Body Op E X α} {f : α → Body Op E X β}
    {S : List L → Except E α → List X → Prop} {T : α → List L → Except E β → List X → Prop}
    (hb : Does note b S) (hf : ∀ a, Does note (f a) (T a)) :
    Does note (b >>= f) fun es r new =>
      (∃ e, S es (.error e) new ∧ r = .error e) ∨
      ∃ a es₁ es₂ new₁ new₂, S es₁ (.ok a) new₁ ∧ T a es₂ r new₂ ∧ es = es₁ ++ es₂ ∧
        new = new₂ ++ new₁ := by
  intro xs es r h
  rcases trace_bind h with ⟨e, he, rfl⟩ | ⟨⟨r₁, xs₁⟩, es₁, es₂, h₁, h₂, rfl⟩
  · obtain ⟨r', new, hr, -⟩ := hb xs es _ he
    cases hr
  · obtain ⟨r', new₁, hr, hs⟩ := hb xs es₁ _ h₁
    obtain ⟨rfl, rfl⟩ := Prod.mk.inj (Except.ok.inj hr)
    cases r₁ with
    | error e =>
      obtain ⟨rfl, rfl⟩ := trace_ret h₂
      exact ⟨.error e, new₁, rfl, .inl ⟨e, by rw [List.append_nil]; exact hs, rfl⟩⟩
    | ok a =>
      obtain ⟨r', new₂, rfl, ht⟩ := hf a _ es₂ _ h₂
      exact ⟨r',
        new₂ ++ new₁, by rw [List.append_assoc], .inr ⟨a, es₁, es₂, new₁, new₂, hs, ht, rfl, rfl⟩⟩

end Body

/-- `with ExitStack() as stack: body` -/
def withExitStack (exit : X → Option E → Prog Op E Unit) (body : Body Op E X α) : Prog Op E α :=
  body [] >>= fun r =>
    match r with
    | (.ok a, xs) => unwind exit xs none >>= fun _ => ret a
    | (.error e, xs) => unwind exit xs (some e) >>= fun _ => raise e

/-- A block is its body, and then the exits of all that has been entered. -/
theorem trace_withExitStack {exit : X → Option E → Prog Op E Unit} {body : Body Op E X α}
    {S : List L → Except E α → List X → Prop} (hb : body.Does note S) {r : Except E α}
    (h : Trace note (withExitStack exit body) es r) :
    ∃ es₁ es₂ r₁ new r₂, S es₁ r₁ new ∧ es = es₁ ++ es₂ ∧
      Trace note (unwind exit new (match r₁ with | .ok _ => none | .error e => some e)) es₂ r₂ := by
  rcases trace_bind h with ⟨e, he, -⟩ | ⟨⟨r₁, xs⟩, es₁, es₂, h₁, h₂, rfl⟩
  · obtain ⟨r', new, hr, -⟩ := hb [] es _ he
    cases hr
  · obtain ⟨r', new, hr, hs⟩ := hb [] es₁ _ h₁
    obtain ⟨rfl, rfl⟩ := Prod.mk.inj (Except.ok.inj hr)
    rw [List.append_nil] at h₂
    cases r₁ with
    | ok a =>
      rcases trace_bind h₂ with ⟨e, he, -⟩ | ⟨_, es₁', es₂', hu, hret, rfl⟩
      · exact ⟨es₁, es₂, .ok a, new, _, hs, rfl, he⟩
      · obtain ⟨rfl, -⟩ := trace_ret hret
        exact ⟨es₁, es₁', .ok a, new, _, hs, by rw [List.append_nil], hu⟩
    | error e =>
      rcases trace_bind h₂ with ⟨e', he, -⟩ | ⟨_, es₁', es₂', hu, hret, rfl⟩
      · exact ⟨es₁, es₂, .error e, new, _, hs, rfl, he⟩
      · obtain ⟨rfl, -⟩ := trace_raise hret
        exact ⟨es₁, es₁', .error e, new, _, hs, by rw [List.append_nil], hu⟩

/-- One exit, and then the others with what the block is left by now. -/
theorem trace_unwind {exit : X → Option E → Prog Op E Unit} {x : X} {xs : List X} {exc : Option E}
    {r : Except E Unit} (h : Trace note (unwind exit (x :: xs) exc) es r) :
    ∃ es₁ es₂ r₁, Trace note (exit x exc) es₁ r₁ ∧ es = es₁ ++ es₂ ∧
      Trace note (unwind exit xs (match r₁ with | .ok _ => exc | .error e => some e)) es₂ r := by
  rcases trace_bind h with ⟨e, he, -⟩ | ⟨exc', es₁, es₂, h₁, h₂, rfl⟩
  · rcases trace_settled he with ⟨a, -, ha⟩ | ⟨e', -, he'⟩
    · cases ha
    · cases he'
  · rcases trace_settled h₁ with ⟨a, hx, hexc⟩ | ⟨e', hx, hexc⟩
    · obtain rfl := Except.ok.inj hexc
      exact ⟨es₁, es₂, .ok a, hx, rfl, h₂⟩
    · obtain rfl := Except.ok.inj hexc
      exact ⟨es₁, es₂, .error e', hx, rfl, h₂⟩

end Lib.Prog
