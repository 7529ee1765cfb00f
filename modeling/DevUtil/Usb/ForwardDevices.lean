import DevUtil.Lib.ExitStack
import Mathlib.Data.List.TakeWhile

/-!
# `forward_usb_devices.py`

Devices of the host are bound to usbip and attached to the target, through a
tunnel to a daemon.  Each of the four is a context manager whose release stands
after its `yield`, and an exception that comes in at the `yield` skips it.

    whatever is answered: everything is released
      ↔ between the opening and the ending of the tunnel nothing fails that is not caught there,
        and the daemon and the ports are those that the tool takes them for   (forward_devices_iff)
-/

namespace Usb

open Lib Prog

/-! ## Commands -/

inductive Exn
  /-- a command has returned an error -/
  | runCommandError
  | keyboardInterrupt
  | timeoutExpired
  /-- any other exception -/
  | other (name : String)
deriving DecidableEq

/-- What is asked of the host, of the target and of the processes between them. -/
inductive Call
  | log
  | which
  | connect
  | disconnect
  | hasProgramInPath
  | createTunnel
  | poll
  | terminate
  | waitTunnel
  | killTunnel
  | modprobe (onTarget : Bool) (module : String)
  | startUsbipd
  /-- `retry_util.GenericRetry` of reading the PID file -/
  | readPid
  | killUsbipd (pid : Nat)
  | bind (busid : String)
  | unbind (busid : String)
  | attach (busid : String)
  | detach (port : Nat)
  | setSignal (signal : String)
  | logReady
  /-- `while True: time.sleep(60)` -/
  | sleep
deriving DecidableEq

/-- What a call returns. -/
abbrev Call.Result : Call → Type
  | .which => Bool
  | .hasProgramInPath => Bool
  | .poll => Bool
  /- the process that has been started -/
  | .startUsbipd => Nat
  | .readPid => Nat
  /- the port that the target has given to the device -/
  | .attach _ => Nat
  | .sleep => Empty
  | _ => Unit

instance decidableEqResult : (c : Call) → DecidableEq c.Result
  | .which => inferInstanceAs (DecidableEq Bool)
  | .hasProgramInPath => inferInstanceAs (DecidableEq Bool)
  | .poll => inferInstanceAs (DecidableEq Bool)
  | .startUsbipd => inferInstanceAs (DecidableEq Nat)
  | .readPid => inferInstanceAs (DecidableEq Nat)
  | .attach _ => inferInstanceAs (DecidableEq Nat)
  | .sleep => inferInstanceAs (DecidableEq Empty)
  | .log => inferInstanceAs (DecidableEq Unit)
  | .connect => inferInstanceAs (DecidableEq Unit)
  | .disconnect => inferInstanceAs (DecidableEq Unit)
  | .createTunnel => inferInstanceAs (DecidableEq Unit)
  | .terminate => inferInstanceAs (DecidableEq Unit)
  | .waitTunnel => inferInstanceAs (DecidableEq Unit)
  | .killTunnel => inferInstanceAs (DecidableEq Unit)
  | .modprobe _ _ => inferInstanceAs (DecidableEq Unit)
  | .killUsbipd _ => inferInstanceAs (DecidableEq Unit)
  | .bind _ => inferInstanceAs (DecidableEq Unit)
  | .unbind _ => inferInstanceAs (DecidableEq Unit)
  | .detach _ => inferInstanceAs (DecidableEq Unit)
  | .setSignal _ => inferInstanceAs (DecidableEq Unit)
  | .logReady => inferInstanceAs (DecidableEq Unit)

inductive Op : Type → Type
  | call (c : Call) : Op (Except Exn c.Result)

/-- A call and how it was answered. -/
abbrev Ev := (c : Call) × Except Exn c.Result

def note : ∀ ⦃β : Type⦄, Op β → β → Ev
  | _, .call c, answer => ⟨c, answer⟩

abbrev M := Prog Op Exn

def call (c : Call) : M c.Result := .op (.call c) fun
  | .ok a => .ret a
  | .error e => .raise e

/-- `try: c` with a handler for `RunCommandError`: whether `c` was a success. -/
def succeeds (c : Call) : M Bool :=
  (call c >>= fun _ => .ret true).tryCatch fun e => if e = .runCommandError then .ret false
    else .raise e

/-! ## Contexts -/

/-- What has been entered; a generator is named after the `yield` where it stands. -/
inductive Context
  /-- `remote_access.ChromiumOSDeviceHandler` -/
  | device
  | tunnel
  | usbipd (pid : Nat)
  | bound (busid : String)
  | attached (port : Nat)
  /-- `yield False` -/
  | failed
deriving DecidableEq

/-- What follows the `yield`. -/
def Context.resume : Context → M Unit
  | .device => .ret ()
  | .tunnel => do
    call .log
    call .terminate
    (call .waitTunnel).tryCatch fun e =>
      if e = .timeoutExpired then do
        call .killTunnel
        call .waitTunnel
      else .raise e
  | .usbipd pid => do
    call .log
    call (.killUsbipd pid)
  | .bound busid => do
    call .log
    call (.unbind busid)
  | .attached port => do
    if ← succeeds (.detach port) then call .log else call .log
  | .failed => .ret ()

/-- An exception is thrown in at the `yield`; no `try` is around it, so it comes out again. -/
def exit : Context → Option Exn → M Unit
  | .device, _ => call .disconnect
  | c, none => c.resume
  | _, some _ => .ret ()

def setupUsbipTunnel : M (Unit × Context) := do
  call .createTunnel
  pure ((), .tunnel)

def startUsbipd : M (Bool × Context) := do
  if ← succeeds .startUsbipd then do
    call .log
    let pid ← call .readPid
    pure (true, .usbipd pid)
  else do
    call .log
    pure (false, .failed)

/-- A generator that acquires something with `c`, up to its `yield`. -/
def acquire (c : Call) (context : Context) : M (Bool × Context) := do
  if ← succeeds c then do
    call .log
    pure (true, context)
  else do
    call .log
    pure (false, .failed)

def bindUsbDevice (busid : String) : M (Bool × Context) := acquire (.bind busid) (.bound busid)

def attachUsbDevice (busid : String) (port : Nat) : M (Bool × Context) :=
  acquire (.attach busid) (.attached port)

/-! ## The program -/

def loadModulesOn (onTarget : Bool) : List String → M Bool
  | [] => pure true
  | module :: modules => do
    if ← succeeds (.modprobe onTarget module) then do
      call .log
      loadModulesOn onTarget modules
    else do
      call .log
      pure false

/-- `load_modules`; the modules of the host and those of the target, in the order of the two
sets. -/
def loadModules (host target : List String) : M Bool := do
  if ← loadModulesOn false host then loadModulesOn true target else pure false

def untilInterrupted : M Unit := do
  call (.setSignal "SIGINT")
  call (.setSignal "SIGTERM")
  call (.setSignal "SIGHUP")
  call .logReady
  let never ← call .sleep
  Empty.elim never

def waitForSignal : M Unit :=
  untilInterrupted.tryCatch fun e => if e = .keyboardInterrupt then .ret () else .raise e

abbrev B := Body Op Exn Context

/-- `if not b: return False` -/
def proceed (b k : B Bool) : B Bool := b >>= fun ok => if ok then k else pure false

def bindAll : List String → B Bool
  | [] => pure true
  | busid :: busids => proceed (Body.enter (bindUsbDevice busid)) (bindAll busids)

/-- The devices from the `port`-th one on. -/
def attachAll (port : Nat) : List String → B Bool
  | [] => pure true
  | busid :: busids =>
    proceed (Body.enter (attachUsbDevice busid port)) (attachAll (port + 1) busids)

def tunnelIsAlive : M Bool := do
  if ← call .poll then pure true
  else do
    call .log
    pure false

/-- The block from the tunnel on. -/
def throughTunnel (host target usbDevices : List String) : B Bool :=
  proceed (Body.lift (loadModules host target)) <|
  proceed (Body.enter startUsbipd) <|
  proceed (bindAll usbDevices) <|
  proceed (Body.lift tunnelIsAlive) <|
  proceed (attachAll 0 usbDevices) <|
  Body.lift (waitForSignal >>= fun _ => pure true)

def checkTarget : M Bool := do
  if ← call .hasProgramInPath then do
    call .log
    pure true
  else do
    call .log
    pure false

def forwardBlock (host target usbDevices : List String) : B Bool := do
  Body.enter (call .connect >>= fun _ => pure ((), .device))
  proceed (Body.lift checkTarget) do
    Body.enter setupUsbipTunnel
    throughTunnel host target usbDevices

def announce : M Unit := do
  let found ← call .which
  if found then call .log else call .log
  call .log

/-- `forward_devices`; after a block that returns `False` nothing more is logged. -/
def forwardDevices (host target usbDevices : List String) : M Bool := do
  announce
  let done ← withExitStack exit (forwardBlock host target usbDevices)
  if done then do
    call .log
    pure true
  else pure false

/-! ## What is asked of it -/

/-- The exceptions that are caught around a call. -/
def Call.catches : Call → Exn → Bool
  | .modprobe _ _, .runCommandError => true
  | .startUsbipd, .runCommandError => true
  | .bind _, .runCommandError => true
  | .attach _, .runCommandError => true
  | .detach _, .runCommandError => true
  | .setSignal _, .keyboardInterrupt => true
  | .logReady, .keyboardInterrupt => true
  | .sleep, .keyboardInterrupt => true
  | _, _ => false

/-- Fails with what is not caught around it. -/
def Ev.harmful (ev : Ev) : Bool :=
  match ev.2 with
  | .ok _ => false
  | .error e => !ev.1.catches e

def Calm (es : List Ev) : Prop := ∀ ev ∈ es, ev.harmful = false

/-- The call that releases what has been acquired.  It is enough that it is made: it may fail. -/
def Ev.owes : Ev → Option Call
  | ⟨.createTunnel, .ok _⟩ => some .terminate
  | ⟨.startUsbipd, .ok pid⟩ => some (.killUsbipd pid)
  | ⟨.bind busid, .ok _⟩ => some (.unbind busid)
  | ⟨.attach _, .ok port⟩ => some (.detach port)
  | _ => none

/-- All that has been acquired is released later. -/
def Released : List Ev → Prop
  | [] => True
  | ev :: es => (∀ c ∈ ev.owes, ∃ ev' ∈ es, ev'.1 = c) ∧ Released es

instance decidableReleased : (es : List Ev) → Decidable (Released es)
  | [] => inferInstanceAs (Decidable True)
  | ev :: es =>
    have := decidableReleased es
    inferInstanceAs (Decidable ((∀ c ∈ ev.owes, ∃ ev' ∈ es, ev'.1 = c) ∧ Released es))

def Ev.opensTunnel : Ev → Bool
  | ⟨.createTunnel, .ok _⟩ => true
  | _ => false

/-- What happens while the tunnel is open. -/
def tunnelWindow (trace : List Ev) : List Ev :=
  ((trace.dropWhile fun ev => !ev.opensTunnel).drop 1).takeWhile fun ev => ev.1 ≠ .terminate

/-- The process that was started, if one was. -/
def Ev.started : Ev → Option Nat
  | ⟨.startUsbipd, .ok pid⟩ => some pid
  | _ => none

/-- The port that a device was given, if it was attached. -/
def Ev.port : Ev → Option Nat
  | ⟨.attach _, .ok port⟩ => some port
  | _ => none

/-- The PID file names the daemon. -/
def PidKnown (trace : List Ev) : Prop :=
  ∀ ev ∈ trace, ∀ pid ∈ ev.started, (⟨.readPid, .ok pid⟩ : Ev) ∈ trace

def attaches (es : List Ev) : Nat := es.countP fun ev => ev.port.isSome

/-- The target has given the first ports to the devices. -/
def PortsFirst (trace : List Ev) : Prop := ∀ ev ∈ trace, ∀ port ∈ ev.port, port < attaches trace

instance (es : List Ev) : Decidable (Calm es) :=
  inferInstanceAs (Decidable (∀ ev ∈ es, ev.harmful = false))

instance (trace : List Ev) : Decidable (PidKnown trace) :=
  inferInstanceAs (Decidable (∀ ev ∈ trace, ∀ pid ∈ ev.started, (⟨.readPid, .ok pid⟩ : Ev) ∈ trace))

instance (trace : List Ev) : Decidable (PortsFirst trace) :=
  inferInstanceAs (Decidable (∀ ev ∈ trace, ∀ port ∈ ev.port, port < attaches trace))

/-! ## Calm traces -/

/-- A trace that ends without an exception is calm; one that ends with one is calm only where
`caught` says so. -/
def Ends {α : Type} (caught : Exn → Bool) (es : List Ev) (r : Except Exn α) : Prop :=
  match r with
  | .ok _ => Calm es
  | .error e => Calm es ↔ caught e = true

theorem calm_append {es es' : List Ev} : Calm (es ++ es') ↔ Calm es ∧ Calm es' :=
  List.forall_mem_append

theorem calm_singleton {ev : Ev} : Calm [ev] ↔ ev.harmful = false := List.forall_mem_singleton

variable {α β : Type} {es : List Ev} {P Q : Call → Prop} {caught : Exn → Bool}

theorem Ends.append {es es' : List Ev} {r : Except Exn α} (h : Calm es) (h' : Ends caught es' r) :
    Ends caught (es ++ es') r := by
  cases r with
  | ok b => exact calm_append.mpr ⟨h, h'⟩
  | error e => exact calm_append.trans ((and_iff_right h).trans h')

/-- `p` ends as its calls are answered, and all of them satisfy `P`. -/
def Honest (caught : Exn → Bool) (P : Call → Prop) (p : M α) : Prop :=
  ∀ es r, Trace note p es r → Ends caught es r ∧ ∀ ev ∈ es, P ev.1

theorem Honest.mono {p : M α} (h : Honest caught P p) (hPQ : ∀ c, P c → Q c) : Honest caught Q p :=
  fun es r ht => ⟨(h es r ht).1, fun ev hev => hPQ _ ((h es r ht).2 ev hev)⟩

theorem trace_call {c : Call} {r : Except Exn c.Result} (h : Trace note (call c) es r) :
    es = [⟨c, r⟩] := by
  obtain ⟨answer, es', rfl, hk⟩ := trace_op h
  cases answer with
  | ok a =>
    obtain ⟨rfl, rfl⟩ := trace_ret hk
    rfl
  | error e =>
    obtain ⟨rfl, rfl⟩ := trace_raise hk
    rfl

theorem honest_ret (a : α) : Honest caught P (.ret a : M α) := by
  intro es r h
  obtain ⟨rfl, rfl⟩ := trace_ret h
  exact ⟨List.forall_mem_nil _, List.forall_mem_nil _⟩

theorem honest_call {c : Call} (hc : ∀ e, c.catches e = caught e) (hP : P c) :
    Honest caught P (call c) := by
  intro es r h
  obtain rfl := trace_call h
  refine ⟨?_, fun ev hev => List.mem_singleton.mp hev ▸ hP⟩
  cases r with
  | ok a => exact calm_singleton.mpr rfl
  | error e =>
    refine calm_singleton.trans ?_
    show (!c.catches e) = false ↔ _
    rw [hc, Bool.not_eq_false']

theorem honest_bind {p : M α} {f : α → M β} (hp : Honest caught P p)
    (hf : ∀ a, Honest caught P (f a)) :
    Honest caught P (p >>= f) := by
  intro es r h
  rcases trace_bind h with ⟨e, he, rfl⟩ | ⟨a, es₁, es₂, ha, hfa, rfl⟩
  · exact hp es _ he
  · obtain ⟨h₁, hP₁⟩ := hp es₁ _ ha
    obtain ⟨h₂, hP₂⟩ := hf a es₂ r hfa
    exact ⟨Ends.append h₁ h₂, List.forall_mem_append.mpr ⟨hP₁, hP₂⟩⟩

theorem honest_ite {p q : M α} (b : Bool) (hp : Honest caught P p) (hq : Honest caught P q) :
    Honest caught P (if b then p else q) := by
  cases b
  · exact hq
  · exact hp

/-- Nothing is caught around the whole. -/
def uncaught : Exn → Bool := fun _ => false

/-- What is caught around the calls is caught here. -/
theorem honest_tryCatch {p : M α} {e₀ : Exn} {a : α} (hp : Honest (fun e => decide (e = e₀)) P p) :
    Honest uncaught P (p.tryCatch fun e => if e = e₀ then .ret a else .raise e) := by
  intro es r h
  rcases trace_tryCatch h with ⟨b, hb, rfl⟩ | ⟨e, es₁, es₂, he, hh, rfl⟩
  · exact hp es _ hb
  · obtain ⟨hends, hP⟩ := hp es₁ _ he
    have hends : Calm es₁ ↔ decide (e = e₀) = true := hends
    split at hh
    next heq =>
      obtain ⟨rfl, rfl⟩ := trace_ret hh
      rw [List.append_nil]
      exact ⟨hends.mpr (by simpa using heq), hP⟩
    next hne =>
      obtain ⟨rfl, rfl⟩ := trace_raise hh
      rw [List.append_nil]
      refine ⟨?_, hP⟩
      show Calm es₁ ↔ uncaught e = true
      rw [hends]
      simp [uncaught, hne]

theorem honest_succeeds {c : Call} (hc : ∀ e, c.catches e = decide (e = .runCommandError))
    (hP : P c) :
    Honest uncaught P (succeeds c) :=
  honest_tryCatch (honest_bind (honest_call hc hP) fun _ => honest_ret true)

/-- A caught call, answered. -/
theorem trace_succeeds {c : Call} {r : Except Exn Bool} (h : Trace note (succeeds c) es r) :
    ∃ answer, es = [⟨c, answer⟩] ∧ (r = .ok true → ∃ a, answer = .ok a) ∧
      (r = .ok false → ∃ e, answer = .error e) := by
  rcases trace_tryCatch h with ⟨b, hb, rfl⟩ | ⟨e, es₁, es₂, he, hh, rfl⟩
  · rcases trace_bind hb with ⟨e, -, he⟩ | ⟨a, es₁, es₂, hc, hret, rfl⟩
    · cases he
    · obtain ⟨rfl, hb'⟩ := trace_ret hret
      rw [List.append_nil]
      refine ⟨.ok a, trace_call hc, fun _ => ⟨a, rfl⟩, fun hfalse => ?_⟩
      rw [hb'] at hfalse
      cases hfalse
  · rcases trace_bind he with ⟨e', hc, -⟩ | ⟨a, es₁', es₂', -, hret, -⟩
    · obtain rfl := trace_call hc
      split at hh
      next heq =>
        obtain ⟨rfl, rfl⟩ := trace_ret hh
        exact ⟨.error e', rfl, fun h => (by cases h), fun _ => ⟨e', rfl⟩⟩
      next hne =>
        obtain ⟨rfl, rfl⟩ := trace_raise hh
        exact ⟨.error e', rfl, fun h => (by cases h), fun _ => ⟨e', rfl⟩⟩
    · cases hret

/-! ## What is neither acquired nor released -/

/-- A call that acquires nothing, and is not `readPid`. -/
def Plain : Call → Prop
  | .log | .which | .connect | .hasProgramInPath | .poll | .modprobe _ _ | .setSignal _ | .logReady
  | .sleep => True
  | _ => False

theorem honest_log : Honest uncaught Plain (call .log) := honest_call (fun _ => rfl) trivial

theorem honest_loadModulesOn (onTarget : Bool) (modules : List String) :
    Honest uncaught Plain (loadModulesOn onTarget modules) := by
  induction modules with
  | nil => exact honest_ret true
  | cons module modules ih =>
    have hprobe : Honest uncaught Plain (succeeds (.modprobe onTarget module)) :=
      honest_succeeds (fun e => by cases e <;> rfl) trivial
    refine honest_bind hprobe fun loaded => honest_ite loaded ?_ ?_
    · exact honest_bind honest_log fun _ => ih
    · exact honest_bind honest_log fun _ => honest_ret false

theorem honest_loadModules (host target : List String) :
    Honest uncaught Plain (loadModules host target) :=
  honest_bind (honest_loadModulesOn false host) fun loaded =>
    honest_ite loaded (honest_loadModulesOn true target) (honest_ret false)

theorem honest_tunnelIsAlive : Honest uncaught Plain tunnelIsAlive := by
  refine honest_bind (honest_call (fun _ => rfl) trivial) fun alive =>
    honest_ite alive (honest_ret true) ?_
  exact honest_bind honest_log fun _ => honest_ret false

theorem honest_checkTarget : Honest uncaught Plain checkTarget := by
  refine honest_bind (honest_call (fun _ => rfl) trivial) fun found => honest_ite found ?_ ?_
  · exact honest_bind honest_log fun _ => honest_ret true
  · exact honest_bind honest_log fun _ => honest_ret false

theorem honest_waitForSignal : Honest uncaught Plain waitForSignal := by
  have hcall : ∀ c, (∀ e, c.catches e = decide (e = Exn.keyboardInterrupt)) → Plain c →
      Honest (fun e => decide (e = Exn.keyboardInterrupt)) Plain (call c) := fun c => honest_call
  apply honest_tryCatch
  refine honest_bind (hcall _ (fun e => by cases e <;> rfl) trivial) fun _ => ?_
  refine honest_bind (hcall _ (fun e => by cases e <;> rfl) trivial) fun _ => ?_
  refine honest_bind (hcall _ (fun e => by cases e <;> rfl) trivial) fun _ => ?_
  refine honest_bind (hcall _ (fun e => by cases e <;> rfl) trivial) fun _ => ?_
  exact honest_bind (hcall _ (fun e => by cases e <;> rfl) trivial) fun never => Empty.elim never

/-! ## What the block acquires -/

/-- A call of the block, which releases nothing. -/
def Inside : Call → Prop
  | .createTunnel | .terminate | .waitTunnel | .killTunnel | .killUsbipd _ | .unbind _ | .detach _
  | .disconnect => False
  | _ => True

theorem inside_of_plain (c : Call) (h : Plain c) : Inside c := by
  cases c <;> first | exact trivial | exact h.elim

/-- A context that stands in the stack for each thing acquired; the ports are counted from `n`
on. -/
structure Kept (n : Nat) (contexts : List Context) (es : List Ev) : Prop where
  bound : ∀ busid, (⟨.bind busid, .ok ()⟩ : Ev) ∈ es → .bound busid ∈ contexts
  usbipd : ∀ pid, .usbipd pid ∈ contexts ↔ (⟨.readPid, .ok pid⟩ : Ev) ∈ es
  ports : ∀ port, .attached port ∈ contexts ↔ n ≤ port ∧ port < n + attaches es

theorem attaches_append (es es' : List Ev) : attaches (es ++ es') = attaches es + attaches es' :=
  List.countP_append

theorem Kept.append {n : Nat} {contexts contexts' : List Context} {es es' : List Ev}
    (h : Kept n contexts es) (h' : Kept (n + attaches es) contexts' es') :
    Kept n (contexts' ++ contexts) (es ++ es') where
  bound := fun busid hmem => by
    rcases List.mem_append.mp hmem with hmem | hmem
    · exact List.mem_append_right _ (h.bound busid hmem)
    · exact List.mem_append_left _ (h'.bound busid hmem)
  usbipd := fun pid => by
    rw [List.mem_append, List.mem_append, h.usbipd, h'.usbipd, Or.comm]
  ports := fun port => by
    rw [List.mem_append, h.ports, h'.ports, attaches_append]
    omega

theorem attaches_plain (h : ∀ ev ∈ es, Plain ev.1) : attaches es = 0 := by
  refine List.countP_eq_zero.mpr fun ev hev hport => ?_
  have hplain := h ev hev
  obtain ⟨c, answer⟩ := ev
  cases c <;> first | exact hplain.elim | cases hport

theorem kept_plain {n : Nat} (h : ∀ ev ∈ es, Plain ev.1) : Kept n [] es where
  bound := fun busid hmem => (h _ hmem).elim
  usbipd := fun pid => ⟨fun hmem => (by cases hmem), fun hmem => (h _ hmem).elim⟩
  ports := fun port => by
    rw [attaches_plain h]
    exact ⟨fun hmem => (by cases hmem), fun hlt => by omega⟩

def Generators (contexts : List Context) : Prop := ∀ c ∈ contexts, c ≠ .device ∧ c ≠ .tunnel

/-- A piece of the block: it attaches `m` devices, with the ports from `n` on, if it is to go on. -/
def Piece (n m : Nat) (b : B Bool) : Prop :=
  b.Does note fun es r new => Ends uncaught es r ∧ (∀ ev ∈ es, Inside ev.1) ∧ Generators new ∧
    ∀ a, r = .ok a → Kept n new es ∧ (a = true → attaches es = m)

theorem piece_pure (n : Nat) (a : Bool) : Piece n 0 (pure a) := by
  refine (Body.does_pure a).mono fun es r new => ?_
  rintro ⟨rfl, rfl, rfl⟩
  exact ⟨List.forall_mem_nil _, List.forall_mem_nil _, List.forall_mem_nil _,
    fun _ _ => ⟨kept_plain (List.forall_mem_nil _), fun _ => rfl⟩⟩

theorem piece_lift {p : M Bool} (h : Honest uncaught Plain p) (n : Nat) :
    Piece n 0 (Body.lift p) := by
  refine (Body.does_lift p).mono fun es r new => ?_
  rintro ⟨ht, rfl⟩
  obtain ⟨hends, hplain⟩ := h es r ht
  exact ⟨hends, fun ev hev => inside_of_plain _ (hplain ev hev), List.forall_mem_nil _,
    fun _ _ => ⟨kept_plain hplain, fun _ => attaches_plain hplain⟩⟩

theorem piece_proceed {n m m' : Nat} {b k : B Bool} (hb : Piece n m b) (hk : Piece (n + m) m' k) :
    Piece n (m + m') (proceed b k) := by
  have hrest : ∀ a : Bool, Body.Does note (if a then k else pure false : B Bool) fun es r new =>
      Ends uncaught es r ∧ (∀ ev ∈ es, Inside ev.1) ∧ Generators new ∧
        ∀ a', r = .ok a' → (a = true → Kept (n + m) new es ∧ (a' = true → attaches es = m')) ∧
          (a = false → es = [] ∧ new = [] ∧ a' = false) := by
    intro a
    cases a with
    | true =>
      refine hk.mono fun es r new h =>
        ⟨h.1, h.2.1, h.2.2.1, fun a' ha' => ⟨fun _ => h.2.2.2 a' ha', fun hf => ?_⟩⟩
      cases hf
    | false =>
      refine (Body.does_pure false).mono fun es r new => ?_
      rintro ⟨rfl, rfl, rfl⟩
      refine ⟨List.forall_mem_nil _, List.forall_mem_nil _, List.forall_mem_nil _,
        fun a' ha' => ⟨fun hf => ?_, fun _ => ⟨rfl, rfl, ?_⟩⟩⟩
      · cases hf
      · exact (Except.ok.inj ha').symm
  refine (Body.does_bind hb hrest).mono fun es r new h => ?_
  rcases h with ⟨e, ⟨hends, hin, hgen, -⟩, rfl⟩ |
    ⟨a, es₁, es₂, new₁, new₂, ⟨hends, hin, hgen, hkept⟩, ⟨hends', hin', hgen', hkept'⟩, rfl, rfl⟩
  · exact ⟨hends, hin, hgen, fun a ha => (by cases ha)⟩
  · refine ⟨Ends.append hends hends', List.forall_mem_append.mpr ⟨hin, hin'⟩,
      List.forall_mem_append.mpr ⟨hgen', hgen⟩, fun a' ha' => ?_⟩
    obtain ⟨hone, hcount⟩ := hkept a rfl
    obtain ⟨htrue, hfalse⟩ := hkept' a' ha'
    cases a with
    | true =>
      have hm := hcount rfl
      obtain ⟨htwo, hm'⟩ := htrue rfl
      refine ⟨hone.append (by rw [hm]; exact htwo), fun h => ?_⟩
      rw [attaches_append, hm, hm' h]
    | false =>
      obtain ⟨rfl, rfl, rfl⟩ := hfalse rfl
      refine ⟨by rw [List.append_nil, List.nil_append]; exact hone, fun h => (by cases h)⟩

theorem honest_acquire {c : Call} (hc : ∀ e, c.catches e = decide (e = .runCommandError))
    (hin : Inside c) (context : Context) : Honest uncaught Inside (acquire c context) := by
  have hlog : Honest uncaught Inside (call .log) := honest_log.mono inside_of_plain
  refine honest_bind (honest_succeeds hc hin) fun ok => honest_ite ok ?_ ?_
  · exact honest_bind hlog fun _ => honest_ret _
  · exact honest_bind hlog fun _ => honest_ret _

theorem trace_log_then {a : α} {r : Except Exn α}
    (h : Trace note (call .log >>= fun _ => (pure a : M α)) es r) :
    ∃ answer, es = [⟨.log, answer⟩] ∧ (∀ a', r = .ok a' → a' = a) := by
  rcases trace_bind h with ⟨e, he, rfl⟩ | ⟨_, es₁, es₂, hlog, hret, rfl⟩
  · exact ⟨.error e, trace_call he, fun a' ha' => (by cases ha')⟩
  · obtain ⟨rfl, rfl⟩ := trace_ret hret
    exact ⟨.ok _, by rw [List.append_nil, trace_call hlog], fun a' ha' => (Except.ok.inj ha').symm⟩

/-- A generator that has come to its `yield`. -/
theorem trace_acquire {c : Call} {context : Context} {a : Bool × Context}
    (h : Trace note (acquire c context) es (.ok a)) :
    ∃ answer logged, es = [⟨c, answer⟩, ⟨.log, logged⟩] ∧
      ((a = (true, context) ∧ ∃ v, answer = .ok v) ∨
        (a = (false, .failed) ∧ ∃ e, answer = .error e)) := by
  rcases trace_bind h with ⟨e, -, he⟩ | ⟨ok, es₁, es₂, hc, hrest, rfl⟩
  · cases he
  · obtain ⟨answer, rfl, htrue, hfalse⟩ := trace_succeeds hc
    cases ok with
    | true =>
      obtain ⟨logged, rfl, ha⟩ := trace_log_then hrest
      exact ⟨answer, logged, rfl, .inl ⟨ha a rfl, htrue rfl⟩⟩
    | false =>
      obtain ⟨logged, rfl, ha⟩ := trace_log_then hrest
      exact ⟨answer, logged, rfl, .inr ⟨ha a rfl, hfalse rfl⟩⟩

/-- A generator as a piece; what is to be shown is what it keeps at its `yield`. -/
theorem piece_enter {n m : Nat} {p : M (Bool × Context)} (hp : Honest uncaught Inside p)
    (hkept : ∀ es a, Trace note p es (.ok a) →
      Generators [a.2] ∧ Kept n [a.2] es ∧ (a.1 = true → attaches es = m)) :
    Piece n m (Body.enter p) := by
  refine (Body.does_enter p).mono fun es r new h => ?_
  rcases h with ⟨a, x, ht, rfl, rfl⟩ | ⟨e, ht, rfl, rfl⟩
  · obtain ⟨hends, hin⟩ := hp es _ ht
    obtain ⟨hgen, hkept⟩ := hkept es (a, x) ht
    refine ⟨hends, hin, hgen, fun a' ha' => ?_⟩
    obtain rfl := Except.ok.inj ha'
    exact hkept
  · obtain ⟨hends, hin⟩ := hp es _ ht
    exact ⟨hends, hin, List.forall_mem_nil _, fun a' ha' => (by cases ha')⟩

theorem piece_bind (n : Nat) (busid : String) : Piece n 0 (Body.enter (bindUsbDevice busid)) := by
  refine piece_enter (honest_acquire (c := .bind busid) (fun e => by cases e <;> rfl) trivial _)
    fun es a h => ?_
  obtain ⟨answer, logged, rfl, hcases⟩ := trace_acquire h
  have hnone : attaches [⟨.bind busid, answer⟩, ⟨.log, logged⟩] = 0 := rfl
  refine ⟨fun c hc => ?_, ⟨fun busid' hmem => ?_, fun pid => ?_, fun port => ?_⟩, fun _ => hnone⟩
  · rcases hcases with ⟨rfl, v, rfl⟩ | ⟨rfl, e, rfl⟩ <;> simp_all
  · rcases hcases with ⟨rfl, v, rfl⟩ | ⟨rfl, e, rfl⟩ <;> simp_all
  · rcases hcases with ⟨rfl, v, rfl⟩ | ⟨rfl, e, rfl⟩ <;> simp
  · rw [hnone]
    rcases hcases with ⟨rfl, v, rfl⟩ | ⟨rfl, e, rfl⟩ <;> simp

theorem piece_attach (n : Nat) (busid : String) :
    Piece n 1 (Body.enter (attachUsbDevice busid n)) := by
  refine piece_enter (honest_acquire (c := .attach busid) (fun e => by cases e <;> rfl) trivial _)
    fun es a h => ?_
  obtain ⟨answer, logged, rfl, hcases⟩ := trace_acquire h
  rcases hcases with ⟨rfl, port, rfl⟩ | ⟨rfl, e, rfl⟩
  · have hone : attaches [⟨.attach busid, .ok port⟩, ⟨.log, logged⟩] = 1 := rfl
    refine ⟨fun c hc => ?_, ⟨fun busid' hmem => ?_, fun pid => ?_, fun port' => ?_⟩, fun _ => hone⟩
    · simp_all
    · simp at hmem
    · simp
    · rw [hone]
      simp only [List.mem_singleton, Context.attached.injEq]
      omega
  · have hnone : attaches [⟨.attach busid, .error e⟩, ⟨.log, logged⟩] = 0 := rfl
    refine ⟨fun c hc => ?_, ⟨fun busid' hmem => ?_, fun pid => ?_, fun port' => ?_⟩,
      fun h => (by cases h)⟩
    · simp_all
    · simp at hmem
    · simp
    · rw [hnone]
      simp

theorem honest_startUsbipd : Honest uncaught Inside startUsbipd := by
  have hlog : Honest uncaught Inside (call .log) := honest_log.mono inside_of_plain
  refine honest_bind (honest_succeeds (fun e => by cases e <;> rfl) trivial) fun ok =>
    honest_ite ok ?_ ?_
  · refine honest_bind hlog fun _ => honest_bind (honest_call (fun _ => rfl) trivial) fun _ =>
      honest_ret _
  · exact honest_bind hlog fun _ => honest_ret _

/-- The daemon that is killed is the one whose PID has been read. -/
theorem trace_startUsbipd {a : Bool × Context} (h : Trace note startUsbipd es (.ok a)) :
    ∃ answer logged, (∃ pid, es = [⟨.startUsbipd, answer⟩, ⟨.log, logged⟩, ⟨.readPid, .ok pid⟩] ∧
      a = (true, .usbipd pid)) ∨
      (es = [⟨.startUsbipd, answer⟩, ⟨.log, logged⟩] ∧ a = (false, .failed)) := by
  rcases trace_bind h with ⟨e, -, he⟩ | ⟨ok, es₁, es₂, hc, hrest, rfl⟩
  · cases he
  · obtain ⟨answer, rfl, -, -⟩ := trace_succeeds hc
    cases ok with
    | true =>
      rcases trace_bind hrest with ⟨e, -, he⟩ | ⟨_, es₁', es₂', hlog, hrest', rfl⟩
      · cases he
      · rcases trace_bind hrest' with ⟨e, -, he⟩ | ⟨pid, es₁'', es₂'', hpid, hret, rfl⟩
        · cases he
        · obtain ⟨rfl, ha⟩ := trace_ret hret
          obtain rfl := trace_call hlog
          obtain rfl := trace_call hpid
          exact ⟨answer, _, .inl ⟨pid, rfl, Except.ok.inj ha⟩⟩
    | false =>
      obtain ⟨logged, rfl, ha⟩ := trace_log_then hrest
      exact ⟨answer, logged, .inr ⟨rfl, ha a rfl⟩⟩

theorem piece_startUsbipd (n : Nat) : Piece n 0 (Body.enter startUsbipd) := by
  refine piece_enter honest_startUsbipd fun es a h => ?_
  obtain ⟨answer, logged, ⟨pid, rfl, rfl⟩ | ⟨rfl, rfl⟩⟩ := trace_startUsbipd h
  · have hnone : attaches [⟨.startUsbipd, answer⟩, ⟨.log, logged⟩, ⟨.readPid, .ok pid⟩] = 0 := rfl
    refine ⟨fun c hc => ?_, ⟨fun busid' hmem => ?_, fun pid' => ?_, fun port' => ?_⟩,
      fun _ => hnone⟩
    · simp_all
    · simp at hmem
    · simp
    · rw [hnone]
      simp
  · have hnone : attaches [⟨.startUsbipd, answer⟩, ⟨.log, logged⟩] = 0 := rfl
    refine ⟨fun c hc => ?_, ⟨fun busid' hmem => ?_, fun pid' => ?_, fun port' => ?_⟩,
      fun _ => hnone⟩
    · simp_all
    · simp at hmem
    · simp
    · rw [hnone]
      simp

theorem piece_bindAll (n : Nat) (busids : List String) : Piece n 0 (bindAll busids) := by
  induction busids with
  | nil => exact piece_pure n true
  | cons busid busids ih => exact piece_proceed (piece_bind n busid) ih

theorem piece_attachAll (n : Nat) (busids : List String) :
    Piece n busids.length (attachAll n busids) := by
  induction busids generalizing n with
  | nil => exact piece_pure n true
  | cons busid busids ih =>
    have hpiece := piece_proceed (piece_attach n busid) (ih (n + 1))
    rw [Nat.add_comm] at hpiece
    exact hpiece

/-- The block from the tunnel on. -/
theorem piece_throughTunnel (host target usbDevices : List String) :
    Piece 0 usbDevices.length (throughTunnel host target usbDevices) := by
  have hwait : Honest uncaught Plain (waitForSignal >>= fun _ => pure true) :=
    honest_bind honest_waitForSignal fun _ => honest_ret true
  have hattach :=
    piece_proceed (piece_attachAll 0 usbDevices) (piece_lift hwait (0 + usbDevices.length))
  have halive := piece_proceed (piece_lift honest_tunnelIsAlive 0) hattach
  have hbind := piece_proceed (piece_bindAll 0 usbDevices) halive
  have hstart := piece_proceed (piece_startUsbipd 0) hbind
  have hload := piece_proceed (piece_lift (honest_loadModules host target) 0) hstart
  simp only [Nat.zero_add, Nat.add_zero] at hload
  exact hload

/-! ## What the exits release -/

def Context.releases : Context → Option Call
  | .usbipd pid => some (.killUsbipd pid)
  | .bound busid => some (.unbind busid)
  | .attached port => some (.detach port)
  | _ => none

theorem honest_resume {c : Context} (hne : c ≠ .tunnel) :
    Honest uncaught (fun call => call = .log ∨ call ∈ c.releases) c.resume := by
  have hlog : ∀ context : Context, Honest uncaught
      (fun call => call = .log ∨ call ∈ context.releases) (call .log) :=
    fun _ => honest_call (fun _ => rfl) (Or.inl rfl)
  cases c with
  | device => exact honest_ret ()
  | tunnel => exact absurd rfl hne
  | failed => exact honest_ret ()
  | usbipd pid => exact honest_bind (hlog _) fun _ => honest_call (fun _ => rfl) (Or.inr rfl)
  | bound busid => exact honest_bind (hlog _) fun _ => honest_call (fun _ => rfl) (Or.inr rfl)
  | attached port =>
    refine honest_bind (honest_succeeds (fun e => by cases e <;> rfl) (Or.inr rfl))
      fun detached => ?_
    exact honest_ite detached (hlog _) (hlog _)

/-- A generator that is resumed without an exception makes the call that releases. -/
theorem released_resume {c : Context} {r : Except Exn Unit} (h : Trace note c.resume es r)
    (hr : r = .ok ()) :
    ∀ call ∈ c.releases, ∃ ev ∈ es, ev.1 = call := by
  have hlogThen : ∀ {call' : Call} {p : M call'.Result}, p = call call' →
    ∀ {es : List Ev} {r : Except Exn call'.Result},
      Trace note (call .log >>= fun _ => p) es r → (∃ a, r = .ok a) → ∃ ev ∈ es, ev.1 = call' := by
    rintro call' p rfl es r ht ⟨a, rfl⟩
    rcases trace_bind ht with ⟨e, -, he⟩ | ⟨_, es₁, es₂, -, hcall, rfl⟩
    · cases he
    · obtain rfl := trace_call hcall
      exact ⟨_, List.mem_append_right _ List.mem_cons_self, rfl⟩
  intro rel hrel
  cases c with
  | device => cases hrel
  | tunnel => cases hrel
  | failed => cases hrel
  | usbipd pid =>
    obtain rfl := Option.some.inj hrel
    exact hlogThen rfl h ⟨(), hr⟩
  | bound busid =>
    obtain rfl := Option.some.inj hrel
    exact hlogThen rfl h ⟨(), hr⟩
  | attached port =>
    obtain rfl := Option.some.inj hrel
    rcases trace_bind h with ⟨e, -, he⟩ | ⟨detached, es₁, es₂, hc, -, rfl⟩
    · rw [hr] at he
      cases he
    · obtain ⟨answer, rfl, -, -⟩ := trace_succeeds hc
      exact ⟨_, List.mem_append_left _ List.mem_cons_self, rfl⟩

/-- What a block is left by, after some of its exits. -/
structure Unwound (contexts : List Context) (exc exc' : Option Exn) (es : List Ev) : Prop where
  /-- an exception goes past the generators, and nothing is called -/
  passed : ∀ e, exc = some e → es = [] ∧ exc' = some e
  calm : exc = none → (Calm es ↔ exc' = none)
  released : exc = none → exc' = none → ∀ c ∈ contexts, ∀ call ∈ c.releases, ∃ ev ∈ es, ev.1 = call
  calls : ∀ ev ∈ es, ev.1 = .log ∨ ∃ c ∈ contexts, ev.1 ∈ c.releases

theorem trace_unwind_generators {contexts rest : List Context} (hgen : Generators contexts)
    {exc : Option Exn} {r : Except Exn Unit}
    (h : Trace note (unwind exit (contexts ++ rest) exc) es r) :
    ∃ es₁ es₂ exc', es = es₁ ++ es₂ ∧ Unwound contexts exc exc' es₁ ∧
      Trace note (unwind exit rest exc') es₂ r := by
  induction contexts generalizing exc es with
  | nil =>
    refine ⟨[], es, exc, rfl,
      ⟨fun e he => ⟨rfl, he⟩, fun he => ?_, fun _ _ => List.forall_mem_nil _,
      List.forall_mem_nil _⟩, h⟩
    exact ⟨fun _ => he, fun _ => List.forall_mem_nil _⟩
  | cons c contexts ih =>
    obtain ⟨hdevice, htunnel⟩ := hgen c List.mem_cons_self
    have hgen := fun c' hc' => hgen c' (List.mem_cons_of_mem c hc')
    obtain ⟨es₁, es₂, r₁, hexit, rfl, hrest⟩ := trace_unwind h
    obtain ⟨es₃, es₄, exc', rfl, hunwound, hlast⟩ := ih hgen hrest
    refine ⟨es₁ ++ es₃, es₄, exc', by rw [List.append_assoc], ?_, hlast⟩
    cases exc with
    | some e =>
      have hnothing : es₁ = [] ∧ r₁ = .ok () := by
        cases c <;> first | exact absurd rfl hdevice | exact trace_ret hexit
      obtain ⟨rfl, rfl⟩ := hnothing
      obtain ⟨rfl, rfl⟩ := hunwound.passed e rfl
      refine ⟨fun e' he' => ⟨rfl, he'⟩, fun he => (by cases he),
        fun he => (by cases he), List.forall_mem_nil _⟩
    | none =>
      have hresume : Trace note c.resume es₁ r₁ := by
        cases c <;> first | exact absurd rfl hdevice | exact hexit
      obtain ⟨hends, hcalls⟩ := honest_resume htunnel es₁ r₁ hresume
      have hall : ∀ ev ∈ es₁ ++ es₃, ev.1 = .log ∨ ∃ c' ∈ c :: contexts, ev.1 ∈ c'.releases := by
        refine List.forall_mem_append.mpr ⟨fun ev hev => ?_, fun ev hev => ?_⟩
        · exact (hcalls ev hev).imp id fun hrel => ⟨c, List.mem_cons_self, hrel⟩
        · exact (hunwound.calls ev hev).imp id fun ⟨c', hc', hrel⟩ =>
            ⟨c', List.mem_cons_of_mem c hc', hrel⟩
      refine ⟨fun e he => (by cases he), fun _ => ?_, fun _ hnone => ?_, hall⟩
      · cases r₁ with
        | ok _ => exact calm_append.trans ((and_iff_right hends).trans (hunwound.calm rfl))
        | error e =>
          obtain ⟨-, rfl⟩ := hunwound.passed e rfl
          have hends : Calm es₁ ↔ uncaught e = true := hends
          refine ⟨fun hcalm => ?_, fun hnone => (by cases hnone)⟩
          exact absurd (hends.mp (calm_append.mp hcalm).1) (by simp [uncaught])
      · cases r₁ with
        | ok _ =>
          refine List.forall_mem_cons.mpr ⟨fun call hcall => ?_, fun c' hc' call hcall => ?_⟩
          · obtain ⟨ev, hev, heq⟩ := released_resume hresume rfl call hcall
            exact ⟨ev, List.mem_append_left _ hev, heq⟩
          · obtain ⟨ev, hev, heq⟩ := hunwound.released rfl hnone c' hc' call hcall
            exact ⟨ev, List.mem_append_right _ hev, heq⟩
        | error e =>
          obtain ⟨-, rfl⟩ := hunwound.passed e rfl
          cases hnone

/-! ## The whole run -/

/-- Neither opens the tunnel nor has to do with the daemon or a device. -/
def Ev.idle : Ev → Bool
  | ⟨.createTunnel, .ok _⟩ | ⟨.startUsbipd, _⟩ | ⟨.readPid, _⟩ | ⟨.killUsbipd _, _⟩ => false
  | ⟨.bind _, _⟩ | ⟨.unbind _, _⟩ | ⟨.attach _, _⟩ | ⟨.detach _, _⟩ => false
  | _ => true

def Idle (es : List Ev) : Prop := ∀ ev ∈ es, ev.idle = true

theorem idle_plain (h : ∀ ev ∈ es, Plain ev.1) : Idle es := by
  intro ev hev
  have hplain := h ev hev
  obtain ⟨c, answer⟩ := ev
  cases c <;> first | exact hplain.elim | rfl

def tunnelOpened : Ev := ⟨.createTunnel, .ok ()⟩

/-- The block before its tunnel is open, or with it. -/
def Entered (es : List Ev) (r : Except Exn Bool) (new : List Context) : Prop :=
  (Idle es ∧ (new = [] ∨ new = [.device])) ∨
    ∃ before inside contexts, es = before ++ tunnelOpened :: inside ∧ Idle before ∧
      new = contexts ++ [.tunnel, .device] ∧ Generators contexts ∧ Ends uncaught inside r ∧
      (∀ ev ∈ inside, Inside ev.1) ∧ ∀ a, r = .ok a → Kept 0 contexts inside

/-- The tunnel and what is done through it. -/
theorem does_tunnel (host target usbDevices : List String) :
    (Body.enter setupUsbipTunnel >>= fun _ => throughTunnel host target usbDevices : B Bool).Does
      note fun es r new =>
      (Idle es ∧ new = []) ∨
        ∃ inside contexts, es = tunnelOpened :: inside ∧ new = contexts ++ [.tunnel] ∧
          Generators contexts ∧
          Ends uncaught inside r ∧ (∀ ev ∈ inside, Inside ev.1) ∧ ∀ a, r = .ok a →
            Kept 0 contexts inside := by
  refine (Body.does_bind (Body.does_enter setupUsbipTunnel)
    fun _ => piece_throughTunnel host target usbDevices).mono fun es r new h => ?_
  have hopen : ∀ es r, Trace note setupUsbipTunnel es r →
      (∃ e, r = .error e ∧ es = [⟨.createTunnel, .error e⟩]) ∨
          (r = .ok ((), .tunnel) ∧ es = [tunnelOpened]) := by
    intro es r ht
    rcases trace_bind ht with ⟨e, he, rfl⟩ | ⟨_, es₁, es₂, hc, hret, rfl⟩
    · exact .inl ⟨e, rfl, trace_call he⟩
    · obtain ⟨rfl, rfl⟩ := trace_ret hret
      exact .inr ⟨rfl, by rw [List.append_nil]; exact trace_call hc⟩
  rcases h with ⟨e, ⟨a, x, -, he, -⟩ | ⟨e', ht, -, rfl⟩, rfl⟩ |
    ⟨a, es₁, es₂, new₁, new₂, ⟨a', x, ht, -, rfl⟩ | ⟨e', -, he, -⟩,
      ⟨hends, hin, hgen, hkept⟩, rfl, rfl⟩
  · cases he
  · rcases hopen es _ ht with ⟨e'', -, rfl⟩ | ⟨h, -⟩
    · exact .inl ⟨List.forall_mem_singleton.mpr rfl, rfl⟩
    · cases h
  · rcases hopen es₁ _ ht with ⟨e'', h, -⟩ | ⟨h, rfl⟩
    · cases h
    · obtain ⟨-, rfl⟩ := Prod.mk.inj (Except.ok.inj h)
      exact .inr ⟨es₂, new₂, rfl, rfl, hgen, hends, hin, fun a ha => (hkept a ha).1⟩
  · cases he

theorem does_forwardBlock (host target usbDevices : List String) :
    (forwardBlock host target usbDevices).Does note Entered := by
  have hconnect : Honest uncaught Plain (call .connect >>= fun _ => pure ((), Context.device)) :=
    honest_bind (honest_call (fun _ => rfl) trivial) fun _ => honest_ret _
  have hchecked : ∀ ok : Bool, Body.Does note (if ok then Body.enter setupUsbipTunnel >>= fun _ =>
      throughTunnel host target usbDevices else pure false : B Bool) fun es r new =>
      (Idle es ∧ new = []) ∨
        ∃ inside contexts, es = tunnelOpened :: inside ∧ new = contexts ++ [.tunnel] ∧
          Generators contexts ∧
          Ends uncaught inside r ∧ (∀ ev ∈ inside, Inside ev.1) ∧ ∀ a, r = .ok a →
              Kept 0 contexts inside := by
    intro ok
    cases ok with
    | true => exact does_tunnel host target usbDevices
    | false =>
      refine (Body.does_pure false).mono fun es r new => ?_
      rintro ⟨rfl, -, rfl⟩
      exact .inl ⟨List.forall_mem_nil _, rfl⟩
  refine (Body.does_bind
      (Body.does_enter (call .connect >>= fun _ => pure ((), Context.device))) fun _ =>
    Body.does_bind (Body.does_lift checkTarget) hchecked).mono fun es r new h => ?_
  rcases h with ⟨e, ⟨a, x, -, he, -⟩ | ⟨e', ht, -, rfl⟩, rfl⟩ |
    ⟨a, es₁, es₂, new₁, new₂, ⟨a', x, ht, -, rfl⟩ | ⟨e', -, he, -⟩, hrest, rfl, rfl⟩
  · cases he
  · exact .inl ⟨idle_plain (hconnect es _ ht).2, .inl rfl⟩
  · have hidle : Idle es₁ := idle_plain (hconnect es₁ _ ht).2
    obtain rfl : x = .device := by
      rcases trace_bind ht with ⟨e, -, he⟩ | ⟨_, es₁', es₂', -, hret, -⟩
      · cases he
      · exact (Prod.mk.inj (Except.ok.inj (trace_ret hret).2)).2
    rcases hrest with ⟨e, ⟨hcheck, rfl⟩, rfl⟩ | ⟨ok, es₃, es₄, new₃, new₄, ⟨hcheck, rfl⟩,
      htunnel, rfl, rfl⟩
    · have hplain := (honest_checkTarget es₂ _ hcheck).2
      exact .inl ⟨List.forall_mem_append.mpr ⟨hidle, idle_plain hplain⟩, .inr rfl⟩
    · have hbefore : Idle (es₁ ++ es₃) :=
        List.forall_mem_append.mpr ⟨hidle, idle_plain (honest_checkTarget es₃ _ hcheck).2⟩
      rcases htunnel with ⟨hnone, rfl⟩ | ⟨inside, contexts, rfl, rfl, hgen, hends, hin, hkept⟩
      · refine .inl ⟨?_, .inr rfl⟩
        rw [← List.append_assoc]
        exact List.forall_mem_append.mpr ⟨hbefore, hnone⟩
      · refine .inr ⟨es₁ ++ es₃, inside,
          contexts, by rw [List.append_assoc], hbefore, ?_, hgen, hends, hin, hkept⟩
        rw [List.append_nil, List.append_assoc]
        rfl
  · cases he

/-- How a run can go: the tunnel is never open; an exception has gone past its generator; it is
ended after all the exits before it. -/
inductive Ran : List Ev → Prop
  | idle {trace : List Ev} : Idle trace → Ran trace
  | lost {before after : List Ev} : Idle before → (∀ ev ∈ after, ev.1 ≠ .terminate) → ¬Calm after →
      Ran (before ++ tunnelOpened :: after)
  | stopped {before inside exits rest : List Ev} {contexts : List Context}
      {answer : Except Exn Unit} :
      Idle before → Calm inside → (∀ ev ∈ inside, Inside ev.1) → Kept 0 contexts inside →
      Unwound contexts none none exits → Idle rest →
      Ran (before ++ tunnelOpened ::
        (inside ++ (exits ++ ⟨.log, .ok ()⟩ :: ⟨.terminate, answer⟩ :: rest)))

theorem terminate_of_plain {c : Call} (h : Plain c) : c ≠ .terminate := by
  rintro rfl
  exact h

theorem Ran.prepend {trace : List Ev} (h : Ran trace) (hes : Idle es) : Ran (es ++ trace) := by
  cases h with
  | idle hidle => exact .idle (List.forall_mem_append.mpr ⟨hes, hidle⟩)
  | lost hbefore hterm hcalm =>
    rw [← List.append_assoc]
    exact .lost (List.forall_mem_append.mpr ⟨hes, hbefore⟩) hterm hcalm
  | stopped hbefore hcalm hin hkept hunwound hrest =>
    rw [← List.append_assoc]
    exact .stopped (List.forall_mem_append.mpr ⟨hes, hbefore⟩) hcalm hin hkept hunwound hrest

theorem Ran.append {trace : List Ev} (h : Ran trace) (hes : ∀ ev ∈ es, Plain ev.1) :
    Ran (trace ++ es) := by
  cases h with
  | idle hidle => exact .idle (List.forall_mem_append.mpr ⟨hidle, idle_plain hes⟩)
  | @lost before after hbefore hterm hcalm =>
    rw [List.append_assoc, List.cons_append]
    refine .lost hbefore (List.forall_mem_append.mpr
      ⟨hterm, fun ev hev => terminate_of_plain (hes ev hev)⟩) fun h => ?_
    exact hcalm (calm_append.mp h).1
  | @stopped before inside exits rest contexts answer hbefore hcalm hin hkept hunwound hrest =>
    have hassoc : before ++ tunnelOpened ::
      (inside ++ (exits ++ ⟨.log, .ok ()⟩ :: ⟨.terminate, answer⟩ :: rest)) ++ es =
        before ++ tunnelOpened ::
          (inside ++ (exits ++ ⟨.log, .ok ()⟩ :: ⟨.terminate, answer⟩ :: (rest ++ es))) := by simp
    rw [hassoc]
    exact .stopped hbefore hcalm hin hkept hunwound
      (List.forall_mem_append.mpr ⟨hrest, idle_plain hes⟩)

theorem trace_unwind_device {exc : Option Exn} {r : Except Exn Unit}
    (h : Trace note (unwind exit [.device] exc) es r) :
    ∃ answer, es = [⟨.disconnect, answer⟩] := by
  obtain ⟨es₁, es₂, r₁, hexit, rfl, hrest⟩ := trace_unwind h
  obtain rfl := trace_call hexit
  refine ⟨r₁, ?_⟩
  cases r₁ with
  | ok a =>
    cases exc with
    | none => rw [(trace_ret hrest).1]; rfl
    | some e => rw [(trace_raise hrest).1]; rfl
  | error e => rw [(trace_raise hrest).1]; rfl

/-- The generator of the tunnel, resumed. -/
theorem trace_resume_tunnel {r : Except Exn Unit} (h : Trace note Context.tunnel.resume es r) :
    (∃ e, es = [⟨.log, .error e⟩]) ∨
      ∃ answer rest, es = ⟨.log, .ok ()⟩ :: ⟨.terminate, answer⟩ :: rest ∧ Idle rest := by
  have hwait : Honest (fun _ => false) (fun c => c = .waitTunnel ∨ c = .killTunnel)
      (call .killTunnel >>= fun _ => call .waitTunnel) :=
    honest_bind (honest_call (fun _ => rfl) (.inr rfl)) fun _ =>
      honest_call (fun _ => rfl) (.inl rfl)
  have hidle : ∀ es : List Ev, (∀ ev ∈ es, ev.1 = .waitTunnel ∨ ev.1 = .killTunnel) → Idle es := by
    intro es hes ev hev
    have hc := hes ev hev
    obtain ⟨c, answer⟩ := ev
    rcases hc with hc | hc <;> (subst hc; rfl)
  rcases trace_bind h with ⟨e, he, -⟩ | ⟨_, es₁, es₂, hlog, hrest, rfl⟩
  · exact .inl ⟨e, trace_call he⟩
  · obtain rfl := trace_call hlog
    right
    rcases trace_bind hrest with ⟨e, he, -⟩ | ⟨_, es₃, es₄, hterm, hlast, rfl⟩
    · obtain rfl := trace_call he
      exact ⟨_, [], rfl, List.forall_mem_nil _⟩
    · obtain rfl := trace_call hterm
      refine ⟨_, es₄, rfl, hidle es₄ ?_⟩
      rcases trace_tryCatch hlast with ⟨a, ha, -⟩ | ⟨e, es₅, es₆, he, hh, rfl⟩
      · rw [trace_call ha]
        exact List.forall_mem_singleton.mpr (.inl rfl)
      · rw [trace_call he]
        refine List.forall_mem_append.mpr ⟨List.forall_mem_singleton.mpr (.inl rfl), ?_⟩
        split at hh
        next => exact (hwait es₆ r hh).2
        next =>
          rw [(trace_raise hh).1]
          exact List.forall_mem_nil _

theorem terminate_of_unwound {contexts : List Context} {exc exc' : Option Exn}
    (h : Unwound contexts exc exc' es) :
    ∀ ev ∈ es, ev.1 ≠ .terminate := by
  intro ev hev hterm
  rcases h.calls ev hev with hlog | ⟨c, -, hrel⟩
  · rw [hterm] at hlog
    cases hlog
  · rw [hterm] at hrel
    cases c <;> cases hrel

theorem ran_block {host target usbDevices : List String} {r : Except Exn Bool}
    (h : Trace note (withExitStack exit (forwardBlock host target usbDevices)) es r) : Ran es := by
  obtain ⟨es₁, es₂, r₁, new, r₂, hentered, rfl, hunwind⟩ :=
    trace_withExitStack (does_forwardBlock host target usbDevices) h
  rcases hentered with ⟨hidle, rfl | rfl⟩ | ⟨before, inside, contexts, rfl, hbefore, rfl, hgen,
    hends, hin, hkept⟩
  · have hnil : es₂ = [] := by
      cases r₁ with
      | ok a => exact (trace_ret hunwind).1
      | error e => exact (trace_raise hunwind).1
    rw [hnil, List.append_nil]
    exact .idle hidle
  · obtain ⟨answer, rfl⟩ := trace_unwind_device hunwind
    exact .idle (List.forall_mem_append.mpr ⟨hidle, List.forall_mem_singleton.mpr rfl⟩)
  · obtain ⟨es₃, es₄, exc', rfl, hunwound, hrest⟩ := trace_unwind_generators hgen hunwind
    obtain ⟨es₅, es₆, r₃, hexit, rfl, hdevice⟩ := trace_unwind hrest
    obtain ⟨answer, rfl⟩ := trace_unwind_device hdevice
    have hdisconnect : ∀ ev ∈ ([⟨.disconnect, answer⟩] : List Ev), ev.1 ≠ .terminate :=
      List.forall_mem_singleton.mpr (by simp)
    have hinside : ∀ ev ∈ inside, ev.1 ≠ .terminate := fun ev hev hterm => by
      have hnot := hin ev hev
      rw [hterm] at hnot
      exact hnot
    have hassoc : before ++ tunnelOpened :: inside ++ (es₃ ++ (es₅ ++ [⟨.disconnect, answer⟩])) =
        before ++ tunnelOpened :: (inside ++ (es₃ ++ (es₅ ++ [⟨.disconnect, answer⟩]))) := by simp
    rw [hassoc]
    cases exc' with
    | some e =>
      obtain ⟨rfl, -⟩ := trace_ret hexit
      refine .lost hbefore ?_ fun hcalm => ?_
      · exact List.forall_mem_append.mpr ⟨hinside,
          List.forall_mem_append.mpr ⟨terminate_of_unwound hunwound, hdisconnect⟩⟩
      · obtain ⟨hcalm₁, hcalm₂⟩ := calm_append.mp hcalm
        cases r₁ with
        | ok a => exact absurd ((hunwound.calm rfl).mp (calm_append.mp hcalm₂).1) (by simp)
        | error e =>
          have hends : Calm inside ↔ uncaught e = true := hends
          exact absurd (hends.mp hcalm₁) (by simp [uncaught])
    | none =>
      cases r₁ with
      | error e =>
        obtain ⟨-, hnone⟩ := hunwound.passed e rfl
        cases hnone
      | ok a =>
        have hcalm : Calm inside := hends
        rcases trace_resume_tunnel hexit with ⟨e, rfl⟩ | ⟨answer', rest, rfl, hidle⟩
        · refine .lost hbefore ?_ fun h => ?_
          · refine List.forall_mem_append.mpr
              ⟨hinside, List.forall_mem_append.mpr ⟨terminate_of_unwound hunwound, ?_⟩⟩
            exact List.forall_mem_append.mpr ⟨List.forall_mem_singleton.mpr (by simp), hdisconnect⟩
          · have hlog := h ⟨.log, .error e⟩ (by simp)
            cases hlog
        · exact .stopped hbefore hcalm hin (hkept a rfl) hunwound
            (List.forall_mem_append.mpr ⟨hidle, List.forall_mem_singleton.mpr rfl⟩)

theorem ran_forwardDevices {host target usbDevices : List String} {trace : List Ev}
    {r : Except Exn Bool} (h : Trace note (forwardDevices host target usbDevices) trace r) :
    Ran trace := by
  have hannounce : Honest uncaught Plain announce := by
    have htwice : Honest uncaught Plain (call .log >>= fun _ => call .log) :=
      honest_bind honest_log fun _ => honest_log
    exact honest_bind (honest_call (fun _ => rfl) trivial) fun found =>
      honest_ite found htwice htwice
  have hend : ∀ done : Bool, Honest uncaught Plain
      (if done then call .log >>= fun _ => pure true else pure false) :=
    fun done => honest_ite done (honest_bind honest_log fun _ => honest_ret true) (honest_ret false)
  rcases trace_bind h with ⟨e, he, -⟩ | ⟨_, es₁, es₂, hfirst, hrest, rfl⟩
  · exact .idle (idle_plain (hannounce trace _ he).2)
  · refine Ran.prepend ?_ (idle_plain (hannounce es₁ _ hfirst).2)
    rcases trace_bind hrest with ⟨e, he, -⟩ | ⟨done, es₃, es₄, hblock, hlast, rfl⟩
    · exact ran_block he
    · exact (ran_block hblock).append (hend done es₄ r hlast).2

/-! ## What is released -/

theorem Released.mem {trace : List Ev} (h : Released trace) {ev : Ev} (hev : ev ∈ trace)
    {c : Call} (hc : c ∈ ev.owes) :
    ∃ ev' ∈ trace, ev'.1 = c := by
  induction trace with
  | nil => cases hev
  | cons first rest ih =>
    rcases List.mem_cons.mp hev with rfl | hev
    · obtain ⟨ev', hev', heq⟩ := h.1 c hc
      exact ⟨ev', List.mem_cons_of_mem _ hev', heq⟩
    · obtain ⟨ev', hev', heq⟩ := ih h.2 hev
      exact ⟨ev', List.mem_cons_of_mem _ hev', heq⟩

theorem released_append {es es' : List Ev} (h : ∀ ev ∈ es, ∀ c ∈ ev.owes, ∃ ev' ∈ es', ev'.1 = c)
    (h' : Released es') : Released (es ++ es') := by
  induction es with
  | nil => exact h'
  | cons ev es ih =>
    refine ⟨fun c hc => ?_, ih fun ev' hev' => h ev' (List.mem_cons_of_mem ev hev')⟩
    obtain ⟨ev', hev', heq⟩ := h ev List.mem_cons_self c hc
    exact ⟨ev', List.mem_append_right _ hev', heq⟩

theorem released_of_append {es es' : List Ev} (h : Released (es ++ es')) : Released es' := by
  induction es with
  | nil => exact h
  | cons ev es ih => exact ih h.2

theorem released_nothing (h : ∀ ev ∈ es, ev.owes = none) : Released es := by
  induction es with
  | nil => trivial
  | cons ev es ih =>
    refine ⟨fun c hc => ?_, ih fun ev' hev' => h ev' (List.mem_cons_of_mem ev hev')⟩
    rw [h ev List.mem_cons_self] at hc
    cases hc

theorem owes_of_idle {ev : Ev} (h : ev.idle = true) : ev.owes = none := by
  obtain ⟨c, answer⟩ := ev
  cases c <;> cases answer <;> first | rfl | cases h

/-- What owes nothing opens no tunnel, starts no daemon and attaches no device. -/
theorem nothing_of_owes {ev : Ev} (h : ev.owes = none) :
    ev.opensTunnel = false ∧ ev.started = none ∧ ev.port = none := by
  obtain ⟨c, answer⟩ := ev
  cases c <;> cases answer <;> first | exact ⟨rfl, rfl, rfl⟩ | cases h

theorem Idle.not_opens (h : Idle es) : ∀ ev ∈ es, ev.opensTunnel = false :=
  fun ev hev => (nothing_of_owes (owes_of_idle (h ev hev))).1

theorem tunnelWindow_idle (h : Idle es) : tunnelWindow es = [] := by
  have hdrop : (es.dropWhile fun ev => !ev.opensTunnel) = [] :=
    List.dropWhile_eq_nil_iff.mpr fun ev hev => by simp [h.not_opens ev hev]
  rw [tunnelWindow, hdrop]
  rfl

theorem tunnelWindow_opened {before after : List Ev} (h : Idle before) :
    tunnelWindow (before ++ tunnelOpened :: after) = after.takeWhile fun ev =>
        ev.1 ≠ .terminate := by
  have hdrop : ((before ++ tunnelOpened :: after).dropWhile fun ev => !ev.opensTunnel) =
      tunnelOpened :: after := by
    rw [List.dropWhile_append_of_pos fun ev hev => by simp [h.not_opens ev hev]]
    rfl
  rw [tunnelWindow, hdrop]
  rfl

theorem attaches_nothing (h : ∀ ev ∈ es, ev.owes = none) : attaches es = 0 :=
  List.countP_eq_zero.mpr fun ev hev => by simp [(nothing_of_owes (h ev hev)).2.2]

/-- What is acquired inside, and the call that releases it. -/
theorem owes_cases {ev : Ev} (hin : Inside ev.1) {call : Call} (hcall : call ∈ ev.owes) :
    (∃ pid, ev = ⟨.startUsbipd, .ok pid⟩ ∧ call = .killUsbipd pid) ∨
      (∃ busid, ev = ⟨.bind busid, .ok ()⟩ ∧ call = .unbind busid) ∨
      ∃ busid port, ev = ⟨.attach busid, .ok port⟩ ∧ call = .detach port := by
  obtain ⟨c, a⟩ := ev
  cases c <;> cases a <;> cases hcall
  · exact hin.elim
  · exact .inl ⟨_, rfl, rfl⟩
  · exact .inr (.inl ⟨_, rfl, rfl⟩)
  · exact .inr (.inr ⟨_, _, rfl, rfl⟩)

section Stopped

variable {before inside exits rest : List Ev} {contexts : List Context} {answer : Except Exn Unit}

/-- The rest of a run, from the opening of the tunnel on. -/
abbrev stoppedTrace (inside exits rest : List Ev) (answer : Except Exn Unit) : List Ev :=
  tunnelOpened :: (inside ++ (exits ++ ⟨.log, .ok ()⟩ :: ⟨.terminate, answer⟩ :: rest))

theorem owes_of_unwound {exc exc' : Option Exn} (h : Unwound contexts exc exc' es) :
    ∀ ev ∈ es, ev.owes = none := by
  intro ev hev
  have hcalls := h.calls ev hev
  obtain ⟨c, answer⟩ := ev
  rcases hcalls with hlog | ⟨context, -, hrel⟩
  · subst hlog
    rfl
  · cases context <;> cases hrel <;> rfl

theorem calm_stopped (hcalm : Calm inside) (hin : ∀ ev ∈ inside, Inside ev.1)
    (hunwound : Unwound contexts none none exits) (hbefore : Idle before) :
    Calm (tunnelWindow (before ++ stoppedTrace inside exits rest answer)) := by
  have hterm : ∀ ev ∈ inside, decide (ev.1 ≠ Call.terminate) = true := by
    intro ev hev
    have hnot := hin ev hev
    refine decide_eq_true fun h => ?_
    rw [h] at hnot
    exact hnot
  have hterm' : ∀ ev ∈ exits, decide (ev.1 ≠ Call.terminate) = true :=
    fun ev hev => decide_eq_true (terminate_of_unwound hunwound ev hev)
  rw [tunnelWindow_opened hbefore, List.takeWhile_append_of_pos hterm,
    List.takeWhile_append_of_pos hterm']
  refine calm_append.mpr ⟨hcalm, calm_append.mpr ⟨(hunwound.calm rfl).mpr rfl, ?_⟩⟩
  exact List.forall_mem_singleton.mpr rfl

theorem attaches_stopped (hbefore : Idle before) (hunwound : Unwound contexts none none exits)
    (hrest : Idle rest) :
    attaches (before ++ stoppedTrace inside exits rest answer) = attaches inside := by
  have hlast : ∀ ev ∈ exits ++ ⟨.log, .ok ()⟩ :: ⟨.terminate, answer⟩ :: rest, ev.owes = none := by
    refine List.forall_mem_append.mpr ⟨owes_of_unwound hunwound, ?_⟩
    exact List.forall_mem_cons.mpr
      ⟨rfl, List.forall_mem_cons.mpr ⟨rfl, fun ev hev => owes_of_idle (hrest ev hev)⟩⟩
  rw [attaches_append, attaches_nothing fun ev hev => owes_of_idle (hbefore ev hev)]
  show 0 + attaches ([tunnelOpened] ++ (inside ++ _)) = _
  rw [attaches_append, attaches_append, attaches_nothing hlast]
  show 0 + (0 + (_ + 0)) = _
  omega

/-- Where an event of the trace is that is not idle. -/
theorem mem_stopped (hbefore : Idle before) (hrest : Idle rest) {ev : Ev} (hidle : ev.idle = false)
    (hopen : ev ≠ tunnelOpened) (hmem : ev ∈ before ++ stoppedTrace inside exits rest answer) :
    ev ∈ inside ∨ ev ∈ exits := by
  have hnot : ∀ {es : List Ev}, Idle es → ev ∉ es := fun hes hev => by
    rw [hes ev hev] at hidle
    cases hidle
  rcases List.mem_append.mp hmem with h | h
  · exact absurd h (hnot hbefore)
  · rcases List.mem_cons.mp h with h | h
    · exact absurd h hopen
    · rcases List.mem_append.mp h with h | h
      · exact .inl h
      · rcases List.mem_append.mp h with h | h
        · exact .inr h
        · have hlast : Idle (⟨.log, .ok ()⟩ :: ⟨.terminate, answer⟩ :: rest) :=
            List.forall_mem_cons.mpr ⟨rfl, List.forall_mem_cons.mpr ⟨rfl, hrest⟩⟩
          exact absurd h (hnot hlast)

/-- What has been acquired inside is released by an exit. -/
theorem exit_of_released (hin : ∀ ev ∈ inside, Inside ev.1)
    (hunwound : Unwound contexts none none exits) (hrest : Idle rest)
    (h : Released (stoppedTrace inside exits rest answer)) {ev : Ev} (hev : ev ∈ inside)
    {call : Call} (hcall : call ∈ ev.owes) : ∃ c ∈ contexts, call ∈ c.releases := by
  have hmem : ev ∈ stoppedTrace inside exits rest answer :=
    List.mem_cons_of_mem _ (List.mem_append_left _ hev)
  obtain ⟨ev', hev', rfl⟩ := h.mem hmem hcall
  have hkind : ev'.idle = false ∧ ev' ≠ tunnelOpened ∧ ¬Inside ev'.1 ∧ ev'.1 ≠ .log := by
    obtain ⟨c, a⟩ := ev'
    obtain ⟨pid, -, rfl⟩ | ⟨busid, -, rfl⟩ | ⟨busid, port, -, rfl⟩ :=
      owes_cases (hin ev hev) hcall <;>
      exact ⟨rfl, (fun h => by cases h), (fun h => h), (fun h => by cases h)⟩
  obtain ⟨hidle, hopen, hnot, hlog⟩ := hkind
  have hbefore : Idle [] := List.forall_mem_nil _
  have hev' : ev' ∈ [] ++ stoppedTrace inside exits rest answer := hev'
  rcases mem_stopped hbefore hrest hidle hopen hev' with hev' | hev'
  · exact absurd (hin ev' hev') hnot
  · exact (hunwound.calls ev' hev').resolve_left hlog

theorem released_stopped (hbefore : Idle before) (hin : ∀ ev ∈ inside, Inside ev.1)
    (hkept : Kept 0 contexts inside) (hunwound : Unwound contexts none none exits)
    (hrest : Idle rest) :
    Released (before ++ stoppedTrace inside exits rest answer) ↔
      PidKnown (before ++ stoppedTrace inside exits rest answer) ∧
        PortsFirst (before ++ stoppedTrace inside exits rest answer) := by
  have hattaches : attaches (before ++ stoppedTrace inside exits rest answer) = attaches inside :=
    attaches_stopped hbefore hunwound hrest
  have hnothing := owes_of_unwound hunwound
  have hinside : ∀ {ev : Ev}, ev.owes ≠ none → ev ≠ tunnelOpened →
      ev ∈ before ++ stoppedTrace inside exits rest answer → ev ∈ inside := by
    intro ev howes hopen hmem
    have hidle : ev.idle = false := Bool.eq_false_iff.mpr fun h => howes (owes_of_idle h)
    exact (mem_stopped hbefore hrest hidle hopen hmem).resolve_right fun h => howes (hnothing ev h)
  constructor
  · intro h
    have h := released_of_append h
    constructor
    · rintro ⟨c, a⟩ hev pid hpid
      cases c <;> cases a <;> cases hpid
      have hev := hinside (by simp [Ev.owes]) (fun h => by cases h) hev
      obtain ⟨context, hcontext, hrel⟩ := exit_of_released hin hunwound hrest h hev rfl
      obtain rfl : context = .usbipd pid := by
        cases context <;> cases hrel
        rfl
      have hread := (hkept.usbipd pid).mp hcontext
      exact List.mem_append_right _ (List.mem_cons_of_mem _ (List.mem_append_left _ hread))
    · rintro ⟨c, a⟩ hev port hport
      cases c <;> cases a <;> cases hport
      have hev := hinside (by simp [Ev.owes]) (fun h => by cases h) hev
      obtain ⟨context, hcontext, hrel⟩ := exit_of_released hin hunwound hrest h hev rfl
      obtain rfl : context = .attached port := by
        cases context <;> cases hrel
        rfl
      have hlt := ((hkept.ports port).mp hcontext).2
      rw [hattaches]
      omega
  · rintro ⟨hpid, hports⟩
    have hlast : ∀ ev ∈ exits ++ ⟨.log, .ok ()⟩ :: ⟨.terminate, answer⟩ :: rest,
        ev.owes = none := by
      refine List.forall_mem_append.mpr ⟨hnothing, ?_⟩
      exact List.forall_mem_cons.mpr
        ⟨rfl, List.forall_mem_cons.mpr ⟨rfl, fun ev hev => owes_of_idle (hrest ev hev)⟩⟩
    have hreleased : ∀ context ∈ contexts, ∀ call ∈ context.releases,
        ∃ ev' ∈ exits ++ ⟨.log, .ok ()⟩ :: ⟨.terminate, answer⟩ :: rest, ev'.1 = call := by
      intro context hcontext call hcall
      obtain ⟨ev', hev', heq⟩ := hunwound.released rfl rfl context hcontext call hcall
      exact ⟨ev', List.mem_append_left _ hev', heq⟩
    refine released_append (fun ev hev c hc => ?_)
      ⟨fun c hc => ?_, released_append (fun ev hev c hc => ?_) ?_⟩
    · rw [owes_of_idle (hbefore ev hev)] at hc
      cases hc
    · obtain rfl := Option.some.inj hc
      exact ⟨⟨.terminate, answer⟩, by simp, rfl⟩
    · have hmem : ev ∈ before ++ stoppedTrace inside exits rest answer :=
        List.mem_append_right _ (List.mem_cons_of_mem _ (List.mem_append_left _ hev))
      obtain ⟨pid, rfl, rfl⟩ | ⟨busid, rfl, rfl⟩ | ⟨busid, port, rfl, rfl⟩ :=
        owes_cases (hin ev hev) hc
      · have hread := hpid _ hmem pid rfl
        have hread : (⟨.readPid, .ok pid⟩ : Ev) ∈ inside :=
          (mem_stopped hbefore hrest rfl (fun h => by cases h) hread).resolve_right fun h => by
            rcases hunwound.calls _ h with h | ⟨c, -, h⟩
            · cases h
            · cases c <;> cases h
        exact hreleased _ ((hkept.usbipd pid).mpr hread) _ rfl
      · exact hreleased _ (hkept.bound busid hev) _ rfl
      · have hlt := hports _ hmem port rfl
        rw [hattaches] at hlt
        exact hreleased _ ((hkept.ports port).mpr ⟨Nat.zero_le _, by omega⟩) _ rfl
    · exact released_nothing hlast

end Stopped

/-- Everything is released ↔ while the tunnel was open nothing has failed with what is not caught
there, and the daemon and the ports were those that the tool takes them for. -/
theorem forward_devices_iff {host target usbDevices : List String} {trace : List Ev}
    {r : Except Exn Bool} (h : Trace note (forwardDevices host target usbDevices) trace r) :
    Released trace ↔ Calm (tunnelWindow trace) ∧ PidKnown trace ∧ PortsFirst trace := by
  cases ran_forwardDevices h with
  | idle hidle =>
    have hnothing := fun ev hev => nothing_of_owes (owes_of_idle (hidle ev hev))
    refine ⟨fun _ => ⟨?_, fun ev hev pid hpid => ?_, fun ev hev port hport => ?_⟩,
      fun _ => released_nothing fun ev hev => owes_of_idle (hidle ev hev)⟩
    · rw [tunnelWindow_idle hidle]
      exact List.forall_mem_nil _
    · rw [(hnothing ev hev).2.1] at hpid
      cases hpid
    · rw [(hnothing ev hev).2.2] at hport
      cases hport
  | @lost before after hbefore hterm hcalm =>
    constructor
    · intro hreleased
      have h := released_of_append hreleased
      obtain ⟨ev', hev', heq⟩ := h.1 .terminate rfl
      exact absurd heq (hterm ev' hev')
    · rintro ⟨hwindow, -⟩
      have hall : (after.takeWhile fun ev => ev.1 ≠ .terminate) = after :=
        List.takeWhile_eq_self_iff.mpr fun ev hev => decide_eq_true (hterm ev hev)
      rw [tunnelWindow_opened hbefore, hall] at hwindow
      exact absurd hwindow hcalm
  | stopped hbefore hcalm hin hkept hunwound hrest =>
    rw [and_iff_right (calm_stopped hcalm hin hunwound hbefore)]
    exact released_stopped hbefore hin hkept hunwound hrest

/-! ## Two devices -/

def hostModules : List String := ["usbip-core", "usbip-host", "vhci-hcd"]

def clientModules : List String := ["usbip-core", "vhci-hcd"]

/-- Commands that succeed; the user waits and presses Ctrl-C. -/
def success : (c : Call) → Except Exn c.Result
  | .which => .ok true
  | .hasProgramInPath => .ok true
  | .poll => .ok true
  | .startUsbipd => .ok 7
  | .readPid => .ok 7
  | .attach busid => .ok (if busid = "1-3.1" then 0 else 1)
  | .sleep => .error .keyboardInterrupt
  | .log => .ok ()
  | .connect => .ok ()
  | .disconnect => .ok ()
  | .createTunnel => .ok ()
  | .terminate => .ok ()
  | .waitTunnel => .ok ()
  | .killTunnel => .ok ()
  | .modprobe _ _ => .ok ()
  | .killUsbipd _ => .ok ()
  | .bind _ => .ok ()
  | .unbind _ => .ok ()
  | .detach _ => .ok ()
  | .setSignal _ => .ok ()
  | .logReady => .ok ()

/-- All succeed but `failing`, if it is one of them. -/
def answers (failing : Option Call) : ∀ ⦃β : Type⦄, Op β → β
  | _, .call c => if failing = some c then .error .runCommandError else success c

def twoDevices (failing : Option Call) : List Ev × Except Exn Bool :=
  play note (answers failing) (forwardDevices hostModules clientModules ["1-3.1", "1-3.2"])

theorem trace_twoDevices (failing : Option Call) :
    Trace note (forwardDevices hostModules clientModules ["1-3.1", "1-3.2"]) (twoDevices failing).1
      (twoDevices failing).2 :=
  trace_play (answers failing) _

theorem forward_devices_iff_twoDevices : Released (twoDevices (some (.attach "1-3.2"))).1 :=
  (forward_devices_iff (trace_twoDevices (some (.attach "1-3.2")))).mpr (by decide)

/-- One `usbip unbind` that fails leaves the other device bound and the daemon and the tunnel
running. -/
theorem not_released : ¬∀ (host target usbDevices : List String) (trace : List Ev)
    (r : Except Exn Bool),
    Trace note (forwardDevices host target usbDevices) trace r → Released trace := by
  intro h
  have hreleased := h _ _ _ _ _ (trace_twoDevices (some (.unbind "1-3.2")))
  revert hreleased
  decide

end Usb
