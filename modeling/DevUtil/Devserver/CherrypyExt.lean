import DevUtil.Lib.Prog

/-!
# `cherrypy_ext.py`: the port file

The handlers of `PortFile`, which the bus calls, and which call the bus again: every
`bus.log` is a `log` event of its own.  Python's recursion limit is a parameter; each call of
`_check_and_write_port` takes one from it.

    at every event the file is there exactly if `written` says so,
    only after a start and before the next stop, and holds the bound port   NoteOk
    the handlers keep that, and need a recursion limit of 2 only            (ends_runBus)
-/

namespace CherrypyExt

open Lib Prog

/-! ## The server -/

/-- What `getsockname` returns. -/
inductive SockName
  | unnamed
  | path (name : String)
  | inet (host : String) (port : Nat)
deriving DecidableEq

structure HttpServer where
  socket : Option SockName
deriving DecidableEq

/-- The bound port; zero if there is none. -/
def getPortFromHttpserver : Option HttpServer → Nat
  | some ⟨some (.inet _ port)⟩ => port
  | _ => 0

/-! ## Operations -/

inductive BusEvent
  | start
  | log
  | stop
deriving DecidableEq

/-- What can be seen from outside at an event. -/
structure View where
  written : Bool
  file : Option String
  port : Nat
deriving DecidableEq

inductive BusOp : Type → Type
  /-- An event reaches the plugin. -/
  | enter (event : BusEvent) : BusOp View
  /-- Its handler has returned. -/
  | leave (event : BusEvent) : BusOp View
  | stopped : BusOp Bool
  | written : BusOp Bool
  | setStopped (value : Bool) : BusOp Unit
  | setWritten (value : Bool) : BusOp Unit
  | getPort : BusOp Nat
  | write (text : String) : BusOp Unit
  /-- `os.remove(self.portfile)`; `false` is an exception -/
  | remove : BusOp Bool

inductive Error
  | recursionError
  | osError
deriving DecidableEq

abbrev M := Prog BusOp Error

/-! ## The plugin -/

def publish (event : BusEvent) (handler : M Unit) : M Unit := do
  let _ ← perform (.enter event)
  handler
  let _ ← perform (.leave event)

/-- `_check_and_write_port`, with what is left of the recursion limit. -/
def checkAndWritePort : Nat → M Unit
  | 0 => raise .recursionError
  | limit + 1 => do
    if ← perform .stopped then return
    if ← perform .written then return
    let port ← perform .getPort
    if port = 0 then return
    perform (.write (toString port))
    perform (.setWritten true)
    -- bus.log, which calls the handler of the event `log`
    publish .log (checkAndWritePort limit)

def log (limit : Nat) : M Unit := checkAndWritePort limit

def busLog (limit : Nat) : M Unit := publish .log (log limit)

def start (limit : Nat) : M Unit := do
  perform (.setStopped false)
  checkAndWritePort limit

def removePortFile : M Unit := do
  if ← perform .remove then return
  raise .osError

def stop (limit : Nat) : M Unit := do
  perform (.setStopped true)
  if ← perform .written then
    perform (.setWritten false)
    (removePortFile >>= fun _ => busLog limit).tryCatch fun _ => busLog limit

def handler (limit : Nat) : BusEvent → M Unit
  | .start => start limit
  | .log => log limit
  | .stop => stop limit

/-- The events of the bus, one after another. -/
def runBus (limit : Nat) (events : List BusEvent) : M Unit :=
  each (fun event => publish event (handler limit event)) events

/-! ## What the operations do -/

structure World where
  stopped : Bool
  written : Bool
  file : Option String
  httpserver : Option HttpServer
deriving DecidableEq

/-- `PortFile.__init__`, with no file from before. -/
def World.init (httpserver : Option HttpServer) : World where
  stopped := true
  written := false
  file := none
  httpserver := httpserver

def World.port (d : World) : Nat := getPortFromHttpserver d.httpserver

def World.view (d : World) : View := ⟨d.written, d.file, d.port⟩

/-- What the server may do at any moment: as long as it is started, a port once bound stays
bound. -/
def World.Moves (d : World) (httpserver : Option HttpServer) : Prop :=
  d.stopped = true ∨ d.port = 0 ∨ getPortFromHttpserver httpserver = d.port

/-- Files can be written, and removed where they are. -/
def answer : ∀ ⦃β : Type⦄, BusOp β → World → β × World
  | _, .enter _, d => (d.view, d)
  | _, .leave _, d => (d.view, d)
  | _, .stopped, d => (d.stopped, d)
  | _, .written, d => (d.written, d)
  | _, .setStopped value, d => ((), { d with stopped := value })
  | _, .setWritten value, d => ((), { d with written := value })
  | _, .getPort, d => (d.port, d)
  | _, .write text, d => ((), { d with file := some text })
  | _, .remove, d => (d.file.isSome, { d with file := none })

/-- Before each operation the server may move. -/
def sem : Sem BusOp World := fun _ o d b d' =>
  ∃ httpserver, d.Moves httpserver ∧ answer o { d with httpserver := httpserver } = (b, d')

/-! ## The trace of a run -/

inductive Note
  | enter (event : BusEvent) (view : View)
  | leave (event : BusEvent) (view : View)
  | wrote (text : String)
deriving DecidableEq

def note : ∀ ⦃β : Type⦄, BusOp β → β → List Note
  | _, .enter event, view => [.enter event view]
  | _, .leave event, view => [.leave event view]
  | _, .write text, _ => [.wrote text]
  | _, _, _ => []

/-- Whether a start was the last of the start and stop events. -/
def started (trace : List Note) : Bool :=
  trace.foldl (fun b n => match n with
    | .enter .start _ => true
    | .enter .stop _ => false
    | _ => b) false

/-- Whether the file was written since the last stop event. -/
def wroteSinceStop (trace : List Note) : Bool :=
  trace.foldl (fun b n => match n with
    | .wrote _ => true
    | .enter .stop _ => false
    | _ => b) false

/-- What can be seen at an event, after the trace `before`. -/
structure ViewOk (before : List Note) (view : View) : Prop where
  exists_iff : view.file.isSome = true ↔ view.written = true
  started : view.file.isSome = true → started before = true
  port : ∀ text, view.file = some text → view.port ≠ 0 ∧ text = toString view.port

/-- A note is as it should be: events by what can be seen, and the file is written once between a
start and the next stop. -/
def NoteOk (before : List Note) : Note → Prop
  | .enter _ view => ViewOk before view
  | .leave _ view => ViewOk before view
  | .wrote _ => started before = true ∧ wroteSinceStop before = false

def Sound (trace : List Note) : Prop :=
  ∀ before n after, trace = before ++ n :: after → NoteOk before n

theorem sound_nil : Sound [] := by
  intro before n after h
  simp at h

theorem Sound.append {trace : List Note} {n : Note} (h : Sound trace) (hn : NoteOk trace n) :
    Sound (trace ++ [n]) := by
  intro before n' after heq
  rcases List.eq_nil_or_concat after with rfl | ⟨after', last, rfl⟩
  · obtain ⟨rfl, hlast⟩ := List.append_inj' heq rfl
    obtain rfl : n = n' := by simpa using hlast
    exact hn
  · rw [List.concat_eq_append, ← List.cons_append, ← List.append_assoc] at heq
    obtain ⟨htrace, -⟩ := List.append_inj' heq rfl
    exact h before n' after' htrace

@[simp] theorem started_append (trace : List Note) (n : Note) :
    started (trace ++ [n]) = match n with
      | .enter .start _ => true
      | .enter .stop _ => false
      | _ => started trace := by
  simp only [started, List.foldl_append, List.foldl_cons, List.foldl_nil]

@[simp] theorem wroteSinceStop_append (trace : List Note) (n : Note) :
    wroteSinceStop (trace ++ [n]) = match n with
      | .wrote _ => true
      | .enter .stop _ => false
      | _ => wroteSinceStop trace := by
  simp only [wroteSinceStop, List.foldl_append, List.foldl_cons, List.foldl_nil]

/-! ## The invariant between two statements -/

/-- What holds of the plugin and the trace at every event. -/
structure Inv (d : World) (trace : List Note) : Prop where
  sound : Sound trace
  exists_iff : d.file.isSome = d.written
  notStopped : d.written = true → d.stopped = false
  started : d.stopped = false → started trace = true
  port : ∀ text, d.file = some text → d.port ≠ 0 ∧ text = toString d.port
  wrote : wroteSinceStop trace = d.written

variable {d : World} {trace : List Note}

theorem Inv.written_of_file {text : String} (h : Inv d trace) (hf : d.file = some text) :
    d.written = true := by
  rw [← h.exists_iff, hf, Option.isSome_some]

/-- The server may move. -/
theorem Inv.moves (h : Inv d trace) {httpserver : Option HttpServer} (hm : d.Moves httpserver) :
    Inv { d with httpserver := httpserver } trace where
  sound := h.sound
  exists_iff := h.exists_iff
  notStopped := h.notStopped
  started := h.started
  port := by
    intro text hf
    have hrunning := h.notStopped (h.written_of_file hf)
    obtain ⟨hport, htext⟩ := h.port text hf
    rcases hm with hs | h0 | hsame
    · rw [hrunning] at hs
      cases hs
    · exact absurd h0 hport
    · show getPortFromHttpserver httpserver ≠ 0 ∧ text = toString (getPortFromHttpserver httpserver)
      rw [hsame]
      exact ⟨hport, htext⟩
  wrote := h.wrote

theorem Inv.viewOk (h : Inv d trace) : ViewOk trace d.view where
  exists_iff := by
    show d.file.isSome = true ↔ d.written = true
    rw [h.exists_iff]
  started hf := h.started (h.notStopped (by rw [← h.exists_iff]; exact hf))
  port := h.port

/-- A note of an event that is not a stop. -/
theorem Inv.enter (h : Inv d trace) {event : BusEvent} (hne : event ≠ .stop) :
    Inv d (trace ++ [.enter event d.view]) where
  sound := h.sound.append h.viewOk
  exists_iff := h.exists_iff
  notStopped := h.notStopped
  started hs := by
    cases event with
    | start => simp
    | log => simpa using h.started hs
    | stop => exact absurd rfl hne
  port := h.port
  wrote := by
    cases event with
    | start => simpa using h.wrote
    | log => simpa using h.wrote
    | stop => exact absurd rfl hne

theorem Inv.leave (h : Inv d trace) (event : BusEvent) :
    Inv d (trace ++ [.leave event d.view]) where
  sound := h.sound.append h.viewOk
  exists_iff := h.exists_iff
  notStopped := h.notStopped
  started hs := by simpa using h.started hs
  port := h.port
  wrote := by simpa using h.wrote

/-! ## Rules -/

/-- Every trace on the way is sound; the program returns, in a state with `Q`. -/
def Ends (Q : World → List Note → Prop) (p : M Unit) (d : World) (trace : List Note) : Prop :=
  wp (sem.noting note) (fun s => Sound s.2) (fun r s => r = .ok () ∧ Q s.1 s.2) p (d, trace)

variable {Q : World → List Note → Prop}

theorem ends_ret (h : Q d trace) : Ends Q (.ret ()) d trace := ⟨rfl, h⟩

theorem ends_bind {R : World → List Note → Prop} {p : M Unit} {f : Unit → M Unit}
    (hp : Ends R p d trace) (hf : ∀ d' trace', R d' trace' → Ends Q (f ()) d' trace') :
    Ends Q (p >>= f) d trace := by
  unfold Ends
  rw [wp_bind]
  refine wp_mono ?_ hp
  rintro r ⟨d', trace'⟩ ⟨rfl, hr⟩
  exact hf d' trace' hr

theorem ends_op {β : Type} {o : BusOp β} {k : β → M Unit}
    (h : ∀ httpserver, d.Moves httpserver →
      Sound (trace ++ note o (answer o { d with httpserver := httpserver }).1) ∧
        Ends Q (k (answer o { d with httpserver := httpserver }).1)
          (answer o { d with httpserver := httpserver }).2
          (trace ++ note o (answer o { d with httpserver := httpserver }).1)) :
    Ends Q (perform o >>= k) d trace := by
  rintro b ⟨d', trace'⟩ ⟨⟨httpserver, hmoves, hanswer⟩, htrace⟩
  obtain rfl : (answer o { d with httpserver := httpserver }).1 = b := by rw [hanswer]
  obtain rfl : (answer o { d with httpserver := httpserver }).2 = d' := by rw [hanswer]
  obtain rfl : trace' = _ := htrace
  exact h httpserver hmoves

/-- An operation without a note. -/
theorem ends_quiet {β : Type} {o : BusOp β} {k : β → M Unit} (hnote : ∀ b, note o b = [])
    (hsound : Sound trace)
    (h : ∀ httpserver, d.Moves httpserver →
      Ends Q (k (answer o { d with httpserver := httpserver }).1)
      (answer o { d with httpserver := httpserver }).2 trace) : Ends Q (perform o >>=
          k) d trace := by
  refine ends_op fun httpserver hmoves => ?_
  rw [hnote, List.append_nil]
  exact ⟨hsound, h httpserver hmoves⟩

/-! ## The handlers -/

/-- An event whose handler keeps the invariant keeps it. -/
theorem ends_publish {event : BusEvent} {body : M Unit} (hne : event ≠ .stop) (h : Inv d trace)
    (hbody : ∀ d' trace', d'.stopped = d.stopped → d'.written = d.written → Inv d' trace' →
      Ends Inv body d' trace') :
    Ends Inv (publish event body) d trace := by
  refine ends_op fun httpserver hmoves => ?_
  have hin : Inv { d with httpserver := httpserver }
      (trace ++ [.enter event (World.view { d with httpserver := httpserver })]) :=
    (h.moves hmoves).enter hne
  refine ⟨hin.sound, ends_bind (hbody _ _ rfl rfl hin) fun d₁ trace₁ h₁ =>
    ends_op fun httpserver₁ hmoves₁ => ?_⟩
  have hout := (h₁.moves hmoves₁).leave event
  exact ⟨hout.sound, ends_ret hout⟩

/-- Stopped, or with the file written, the check does nothing. -/
theorem ends_check_quiet (limit : Nat) (h : Inv d trace)
    (hquiet : d.stopped = true ∨ d.written = true) :
    Ends Inv (checkAndWritePort (limit + 1)) d trace := by
  refine ends_quiet (fun _ => rfl) h.sound fun httpserver hmoves => ?_
  have h₁ := h.moves hmoves
  show Ends Inv (if d.stopped = true then _ else _) _ _
  split
  · exact ends_ret h₁
  · next hs =>
    refine ends_quiet (fun _ => rfl) h.sound fun httpserver₁ hmoves₁ => ?_
    show Ends Inv (if d.written = true then _ else _) _ _
    rw [if_pos (hquiet.resolve_left hs)]
    exact ends_ret (h₁.moves hmoves₁)

/-- The state when the file has been written and the flag set. -/
theorem Inv.wrote_file (h : Inv d trace) (hs : d.stopped = false) (hw : d.written = false)
    (text : String) (hport : d.port ≠ 0) (htext : text = toString d.port) :
    Inv { d with file := some text, written := true } (trace ++ [.wrote text]) where
  sound := h.sound.append ⟨h.started hs, by rw [h.wrote, hw]⟩
  exists_iff := rfl
  notStopped _ := hs
  started _ := by simpa using h.started hs
  port text' ht := Option.some.inj ht ▸ ⟨hport, htext⟩
  wrote := by simp

/-- The check calls itself once at most, through the event that it logs. -/
theorem ends_check (limit : Nat) (h : Inv d trace) :
    Ends Inv (checkAndWritePort (limit + 2)) d trace := by
  refine ends_quiet (fun _ => rfl) h.sound fun server₁ hm₁ => ?_
  have h₁ := h.moves hm₁
  show Ends Inv (if d.stopped = true then _ else _) _ _
  split
  · exact ends_ret h₁
  next hstopped =>
  refine ends_quiet (fun _ => rfl) h.sound fun server₂ hm₂ => ?_
  have h₂ := h₁.moves hm₂
  show Ends Inv (if d.written = true then _ else _) _ _
  split
  · exact ends_ret h₂
  next hwritten =>
  refine ends_quiet (fun _ => rfl) h.sound fun server₃ hm₃ => ?_
  have h₃ := h₂.moves hm₃
  show Ends Inv (if getPortFromHttpserver server₃ = 0 then _ else _)
    { d with httpserver := server₃ } _
  split
  · exact ends_ret h₃
  next hport =>
  have hs : d.stopped = false := by simpa using hstopped
  have hw : d.written = false := by simpa using hwritten
  -- from here on the port is bound and the plugin started: the port stays
  have hsame : ∀ {s s' : Option HttpServer}, getPortFromHttpserver s =
    getPortFromHttpserver server₃ →
      World.Moves { d with httpserver := s } s' →
          getPortFromHttpserver s' = getPortFromHttpserver server₃ := by
    intro s s' hstill hm
    rcases hm with h1 | h0 | heq
    · exact absurd h1 (by simp [hs])
    · exact absurd (hstill.symm.trans h0) hport
    · exact heq.trans hstill
  refine ends_op fun server₄ hm₄ => ?_
  have hport₄ := hsame rfl hm₄
  have h₄ := (h₃.moves hm₄).wrote_file hs hw (toString (getPortFromHttpserver server₃))
    (by rw [World.port, hport₄]; exact hport) (by rw [World.port, hport₄])
  refine ⟨h₄.sound, ends_quiet (fun _ => rfl) h₄.sound fun server₅ hm₅ => ?_⟩
  have h₅ := h₄.moves (.inr (.inr ((hsame hport₄ hm₅).trans hport₄.symm)))
  refine ends_publish (by decide) h₅ fun d' trace' _ hwritten' h' => ?_
  exact ends_check_quiet limit h' (.inr hwritten')

theorem ends_start (limit : Nat) (h : Inv d trace) (hstarted : started trace = true) :
    Ends Inv (start (limit + 2)) d trace := by
  refine ends_quiet (fun _ => rfl) h.sound fun httpserver hmoves => ?_
  have h₁ := h.moves hmoves
  have hInv : Inv { d with httpserver := httpserver, stopped := false } trace :=
    ⟨h₁.sound, h₁.exists_iff, fun _ => rfl, fun _ => hstarted, h₁.port, h₁.wrote⟩
  exact ends_check limit hInv

/-- With the plugin stopped, no flag set and no file, a logged event changes nothing. -/
theorem ends_busLog (limit : Nat) (h : Inv d trace) (hs : d.stopped = true) :
    Ends Inv (busLog (limit + 1)) d trace :=
  ends_publish (by decide) h fun _ _ hs' _ h' => ends_check_quiet limit h' (.inl (hs'.trans hs))

theorem ends_tryCatch {p : M Unit} {h : Error → M Unit} (hp : Ends Q p d trace) :
    Ends Q (p.tryCatch h) d trace := by
  unfold Ends
  rw [wp_tryCatch]
  refine wp_mono ?_ hp
  rintro r s ⟨rfl, hs⟩
  exact ⟨rfl, hs⟩

/-- The plugin is stopped and its file gone. -/
theorem inv_stopped (hsound : Sound trace) (hwrote : wroteSinceStop trace = false)
    (httpserver : Option HttpServer) :
    Inv ⟨true, false, none, httpserver⟩ trace where
  sound := hsound
  exists_iff := rfl
  notStopped h := by cases h
  started h := by cases h
  port text h := by cases h
  wrote := hwrote

/-- What `stop` does once its event has been seen. -/
theorem ends_stop (limit : Nat) (hsound : Sound trace) (hwrote : wroteSinceStop trace = false)
    (hexists : d.file.isSome = d.written) : Ends Inv (stop (limit + 1)) d trace := by
  refine ends_quiet (fun _ => rfl) hsound fun server₁ _ => ?_
  refine ends_quiet (fun _ => rfl) hsound fun server₂ _ => ?_
  show Ends Inv (if d.written = true then _ else _) ⟨true, d.written, d.file, server₂⟩ _
  split
  · next hwritten =>
    refine ends_quiet (fun _ => rfl) hsound fun server₃ _ => ends_tryCatch ?_
    have hremove : Ends (fun d' trace' => Inv d' trace' ∧ d'.stopped = true) removePortFile
        ⟨true, false, d.file, server₃⟩ trace := by
      refine ends_quiet (fun _ => rfl) hsound fun server₄ _ => ?_
      show Ends _ (if d.file.isSome = true then _ else _) ⟨true, false, none, server₄⟩ _
      rw [if_pos (hexists.trans hwritten)]
      exact ends_ret ⟨inv_stopped hsound hwrote server₄, rfl⟩
    exact ends_bind hremove fun d' trace' h' => ends_busLog limit h'.1 h'.2
  · next hwritten =>
    have hw : d.written = false := by simpa using hwritten
    have hfile : d.file = none := by
      rw [hw] at hexists
      simpa using hexists
    rw [hw, hfile]
    exact ends_ret (inv_stopped hsound hwrote server₂)

theorem ends_publish_stop (limit : Nat) (h : Inv d trace) :
    Ends Inv (publish .stop (stop (limit + 1))) d trace := by
  refine ends_op fun server₁ hm₁ => ?_
  have h₁ := h.moves hm₁
  have hsound : Sound (trace ++ [.enter .stop (World.view { d with httpserver := server₁ })]) :=
    h₁.sound.append h₁.viewOk
  refine ⟨hsound, ends_bind (ends_stop limit hsound (by simp [note]) h₁.exists_iff)
    fun d₂ trace₂ h₂ => ?_⟩
  refine ends_op fun server₂ hm₂ => ?_
  have hout := (h₂.moves hm₂).leave .stop
  exact ⟨hout.sound, ends_ret hout⟩

/-- Each event keeps the invariant. -/
theorem ends_event (limit : Nat) (event : BusEvent) (h : Inv d trace) :
    Ends Inv (publish event (handler (limit + 2) event)) d trace := by
  cases event with
  | start =>
    refine ends_op fun server₁ hm₁ => ?_
    have hin : Inv _ (trace ++ [.enter .start _]) := (h.moves hm₁).enter (by decide)
    refine ⟨hin.sound, ends_bind (ends_start limit hin (by simp [note])) fun d₂ trace₂ h₂ => ?_⟩
    refine ends_op fun server₂ hm₂ => ?_
    have hout := (h₂.moves hm₂).leave .start
    exact ⟨hout.sound, ends_ret hout⟩
  | log => exact ends_publish (by decide) h fun _ _ _ _ h' => ends_check limit h'
  | stop => exact ends_publish_stop (limit + 1) h

/-- So do all the events of a run. -/
theorem ends_runBus (limit : Nat) (events : List BusEvent) (h : Inv d trace) :
    Ends Inv (runBus (limit + 2) events) d trace := by
  induction events generalizing d trace with
  | nil => exact ends_ret h
  | cons event events ih => exact ends_bind (ends_event limit event h) fun d' trace' h' => ih h'

theorem inv_init (httpserver : Option HttpServer) : Inv (World.init httpserver) [] :=
  inv_stopped sound_nil rfl httpserver

/-! ## All runs -/

/-- A server that does not move. -/
def still : ∀ ⦃β : Type⦄, BusOp β → World → Option (β × World) := fun _ o d => some (answer o d)

theorem sem_of_still ⦃β : Type⦄ (o : BusOp β) (d : World) (b : β) (d' : World)
    (h : still o d = some (b, d')) :
    sem o d b d' :=
  ⟨d.httpserver, .inr (.inr rfl), Option.some.inj h⟩

theorem still_total ⦃β : Type⦄ (o : BusOp β) (d : World) : ∃ b d', still o d = some (b, d') :=
  ⟨_, _, rfl⟩

/-- At every moment of every run: what was seen at the events is as it should be, the run comes to
an end, and no handler raises, whatever the recursion limit from 2 on. -/
theorem portFile_run {limit : Nat} (hlimit : 2 ≤ limit) (events : List BusEvent)
    (httpserver : Option HttpServer) {p : M Unit} {s : World × List Note}
    (h : Steps (sem.noting note) (runBus limit events) (World.init httpserver, []) p s) :
    Sound s.2 ∧ (∃ r s', Exec (sem.noting note) p s r s') ∧
      ∀ r s', Exec (sem.noting note) p s r s' → r = .ok () := by
  obtain ⟨n, rfl⟩ := Nat.exists_eq_add_of_le' hlimit
  have hends : wp (sem.noting note) (fun s => Sound s.2) (fun r s => r = .ok () ∧ Inv s.1 s.2)
    (runBus (n + 2) events)
      (World.init httpserver, []) := ends_runBus n events (inv_init httpserver)
  have hsound := wp_steps hends sound_nil h
  refine ⟨hsound, ?_, fun r s' hx => (wp_exec hends (h.exec hx)).1⟩
  obtain ⟨r, s', he⟩ := eval_total (noted_total still_total) p s
  exact ⟨r, s', exec_of_eval (noting_of_noted sem_of_still) he⟩

def served : Option HttpServer := some ⟨some (.inet "0.0.0.0" 8080)⟩

/-- A start, two logged events and a stop. -/
def servedRun : World × List Note :=
  (runBus 2 [.start, .log, .log, .stop]).evalState (noted still note) (World.init served, [])

theorem portFile_run_served : Sound servedRun.2 := by
  obtain ⟨p, hp⟩ := steps_evalState (noting_of_noted sem_of_still)
    (runBus 2 [.start, .log, .log, .stop]) (World.init served, [])
  exact (portFile_run (by decide) [.start, .log, .log, .stop] served hp).1

example : servedRun.2.filter (fun n => n matches .wrote _) = [.wrote "8080"] := by decide

end CherrypyExt
