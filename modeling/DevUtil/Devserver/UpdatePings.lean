import DevUtil.Devserver.Autoupdate
import DevUtil.Lib.Separators

/-!
# The answer to an update ping

`Autoupdate.HandleUpdatePing`, up to what nebraska is asked.

    a ping is served as documented ↔ it does not come to the
      `AutoupdateError`                                                (handleUpdatePing_serves_iff)

After the `except` clause the next line reads `base_url`, which only the `try` block sets.
-/

namespace Devserver

open Lib Prog PosixPath

/-! ## Queries -/

/-- The value of a key of the query string. -/
inductive QueryValue
  | str (s : String)
  | list (l : List String)

abbrev Query := String → Option QueryValue

/-- The value, or the first of its list, unless it is empty. -/
def queryText (query : Query) (key : String) : Option String :=
  match query key with
  | some (.str s) => if s = "" then none else some s
  | some (.list l) => l.head?
  | none => none

def queryBool (query : Query) (key : String) : Option Bool :=
  (queryText query key).map fun s => s == "True"

def queryInt (query : Query) (key : String) : Except UpdateError (Option Int) :=
  match queryText query key with
  | none => .ok none
  | some s =>
    match Nebraska.parseInt s with
    | none => .error .valueError
    | some n => .ok (some n)

/-- `ResponseProperties(**QueryDictToDict(query))` -/
def queryProperties (query : Query) : Except UpdateError Nebraska.AnswerProperties := do
  let eolDate ← queryInt query "eol_date"
  let failuresPerUrl ← queryInt query "failures_per_url"
  let numUrls ← queryInt query "num_urls"
  return { noUpdate := (queryBool query "no_update").getD false
           fullPayload := queryBool query "full_payload"
           criticalUpdate := (queryBool query "critical_update").getD false
           isRollback := false
           failuresPerUrl := failuresPerUrl
           disablePayloadBackoff := (queryBool query "disable_payload_backoff").getD false
           numUrls := (numUrls.getD 1).toNat
           eolDate := eolDate }

/-! ## `HandleUpdatePing` -/

/-- `cherrypy.request` -/
structure HttpRequest where
  base : Text
  /-- the header `X-Forwarded-Host` -/
  forwardedHost : Option Text

def getDevserverUrl (http : HttpRequest) : Text :=
  match http.forwardedHost with
  | none => http.base
  | some forwarded =>
    if forwarded = [] then http.base else "http://".toList ++
      Separators.trim isSpace ((forwarded.splitOn ',').headD [])

def getStaticUrl (http : HttpRequest) : Text := getDevserverUrl http ++ "/static".toList

/-- What nebraska is asked for a response to. -/
structure NebraskaCall where
  updatePayloadsAddress : Option Text
  /-- without it there are no payloads -/
  updateMetadataDir : Option Text
  request : Nebraska.ParsedRequest
  responseProps : Nebraska.AnswerProperties

/-- The local variables that the `try` block sets. -/
structure PayloadPlace where
  baseUrl : Text
  localPayloadDir : Text

def findPayload (self : Autoupdate) (http : HttpRequest) (label : Text) (board : Option String) :
    UpdateM (Option PayloadPlace) :=
  Prog.tryCatch
    (do
      let pathToPayload ← getPathToPayload self label board
      return some ⟨nonePathJoin [some (getStaticUrl http), some pathToPayload],
        nonePathJoin [self.staticDir, some pathToPayload]⟩)
    fun e => match e with
      | .autoupdateError _ => return none
      | e => raise e

def ofExcept {α : Type} (r : Except UpdateError α) : UpdateM α :=
  match r with
  | .ok a => return a
  | .error e => raise e

def handleUpdatePing (fromstring : String → Except String (List Nebraska.AppElement))
    (self : Autoupdate) (http : HttpRequest) (data : String) (label : Text) (query : Query) :
    UpdateM NebraskaCall := do
  let responseProps ← ofExcept (queryProperties query)
  let request ← ofExcept ((Nebraska.requestInit fromstring data).mapError .request)
  if request.requestType = .EVENT then return ⟨none, none, request, responseProps⟩
  else
    match ← findPayload self http label request.board with
    -- `base_url` has not been set
    | none => raise .unboundLocalError
    | some place => return ⟨some place.baseUrl, some place.localPayloadDir, request, responseProps⟩

/-! ## Runs -/

section

variable (fromstring : String → Except String (List Nebraska.AppElement)) (w : World)
  (self : Autoupdate) (http : HttpRequest)
  (data : String) (label : Text) (query : Query)

/-- Nebraska finds no payload, or gives none away. -/
def NoUpdate (call : NebraskaCall) : Prop :=
  call.updateMetadataDir = none ∨ call.responseProps.noUpdate = true

/-- The request is for an update or an install, and the query can be read. -/
def Pings (request : Nebraska.ParsedRequest) : Prop :=
  (∃ props, queryProperties query = .ok props) ∧ Nebraska.requestInit fromstring data =
    .ok request ∧ request.requestType ≠ .EVENT

/-- What a ping comes to. -/
structure Serves : Prop where
  /-- no payload: an answer without an update -/
  failed : ∀ request message, Pings fromstring data query request →
    (w.play (getPathToPayload self label request.board)).1 = .error (.autoupdateError message) →
    ∃ call, (w.play (handleUpdatePing fromstring self http data label query)).1 = .ok call ∧
      call.request = request ∧ NoUpdate call
  /-- a payload: its place below the static URL and the static directory -/
  succeeded : ∀ request path, Pings fromstring data query request →
    (w.play (getPathToPayload self label request.board)).1 = .ok path →
    ∃ call, (w.play (handleUpdatePing fromstring self http data label query)).1 = .ok call ∧
      call.request = request ∧
      call.updatePayloadsAddress = some (nonePathJoin [some (getStaticUrl http), some path]) ∧
      call.updateMetadataDir = some (nonePathJoin [self.staticDir, some path])

/-- No update is found for the label, for its translation or by XBuddy. -/
def NothingFound (board : Option String) : Prop :=
  w.found self (some label) = none ∧ ∃ xLabel, w.translate (poppedLabel label) board = .ok xLabel ∧
    w.found self xLabel = none ∧ w.get ["remote".toList, label, "full_payload".toList] = .ok none

variable {fromstring w self http data label query}

theorem pathToPayload_error_iff {board : Option String} :
    (∃ message, w.pathToPayload self label board = .error (.autoupdateError message)) ↔
      NothingFound w self label board := by
  unfold World.pathToPayload NothingFound
  cases w.found self (some label) with
  | some path => exact iff_of_false (fun h => by obtain ⟨_, h⟩ := h; cases h) fun h => by cases h.1
  | none =>
    rw [and_iff_right rfl]
    cases w.translate (poppedLabel label) board with
    | error e =>
      exact iff_of_false (fun h => by obtain ⟨_, h⟩ := h; cases h) fun h => by
        obtain ⟨_, h, _⟩ := h; cases h
    | ok xLabel =>
      constructor
      · rintro ⟨message, h⟩
        refine ⟨xLabel, rfl, ?_⟩
        cases hfound : w.found self xLabel with
        | some path =>
          simp only [hfound] at h
          cases h
        | none =>
          refine ⟨rfl, ?_⟩
          simp only [hfound] at h
          cases hget : w.get ["remote".toList, label, "full_payload".toList] with
          | error e =>
            rw [hget] at h
            cases h
          | ok path =>
            cases path with
            | none => rfl
            | some path =>
              rw [hget] at h
              cases h
      · rintro ⟨xLabel', hx, hfound, hget⟩
        cases hx
        exact ⟨_, by simp only [hfound, hget]; rfl⟩

theorem play_findPayload (w : World) (self : Autoupdate) (http : HttpRequest) (label : Text)
    (board : Option String) :
    (w.play (findPayload self http label board)).1 = match w.pathToPayload self label board with
      | .ok path =>
        .ok (some ⟨nonePathJoin [some (getStaticUrl http), some path],
          nonePathJoin [self.staticDir, some path]⟩)
      | .error (.autoupdateError _) => .ok none
      | .error e => .error e := by
  have hplay := World.play_getPathToPayload w self label board
  unfold findPayload
  cases hresult : w.pathToPayload self label board with
  | ok path =>
    rw [hresult] at hplay
    exact World.play_tryCatch_ok (congrArg Prod.fst (World.play_bind_ok hplay))
  | error e =>
    rw [hresult] at hplay
    have hbody : (w.play (getPathToPayload self label board >>= fun pathToPayload =>
        return some (⟨nonePathJoin [some (getStaticUrl http), some pathToPayload],
          nonePathJoin [self.staticDir, some pathToPayload]⟩ : PayloadPlace))).1 = .error e :=
      World.play_bind_error (congrArg Prod.fst hplay)
    refine (World.play_tryCatch_error hbody).trans ?_
    cases e <;> rfl

/-- What a ping for an update or an install comes to, by its lookup. -/
theorem play_handleUpdatePing (w : World) (self : Autoupdate) (http : HttpRequest) (label : Text)
    {request : Nebraska.ParsedRequest} (h : Pings fromstring data query request) :
    ∃ props, (w.play (handleUpdatePing fromstring self http data label query)).1 =
      match w.pathToPayload self label request.board with
      | .ok path =>
        .ok ⟨some (nonePathJoin [some (getStaticUrl http), some path]),
          some (nonePathJoin [self.staticDir, some path]),
          request, props⟩
      | .error (.autoupdateError _) => .error .unboundLocalError
      | .error e => .error e := by
  obtain ⟨⟨props, hprops⟩, hrequest, htype⟩ := h
  refine ⟨props, ?_⟩
  have hfind := play_findPayload w self http label request.board
  have hping : handleUpdatePing fromstring self http data label query =
      (findPayload self http label request.board >>= fun place => match place with
        | none => raise .unboundLocalError
        | some place =>
          return ⟨some place.baseUrl, some place.localPayloadDir, request, props⟩) := by
    unfold handleUpdatePing
    rw [hprops, hrequest]
    show (if request.requestType = .EVENT then _ else _) = _
    rw [if_neg htype]
  rw [hping]
  cases hresult : w.pathToPayload self label request.board with
  | ok path =>
    rw [hresult] at hfind
    exact congrArg Prod.fst (World.play_bind_ok (Prod.ext hfind rfl))
  | error e =>
    rw [hresult] at hfind
    cases e with
    | autoupdateError message => exact congrArg Prod.fst (World.play_bind_ok (Prod.ext hfind rfl))
    | unboundLocalError => exact World.play_bind_error hfind
    | valueError => exact World.play_bind_error hfind
    | request e => exact World.play_bind_error hfind
    | xbuddy message => exact World.play_bind_error hfind

/-- A ping is served unless it finds nothing. -/
theorem handleUpdatePing_serves_iff
    (fromstring : String → Except String (List Nebraska.AppElement)) (w : World)
    (self : Autoupdate) (http : HttpRequest) (data : String) (label : Text) (query : Query) :
    Serves fromstring w self http data label query ↔
      ∀ request, Pings fromstring data query request →
        ¬NothingFound w self label request.board := by
  constructor
  · intro h request hping hnothing
    obtain ⟨message, hmessage⟩ := pathToPayload_error_iff.mpr hnothing
    obtain ⟨hfailed, -⟩ := h
    obtain ⟨call, hcall, -⟩ :=
      hfailed request message hping (by rw [World.play_getPathToPayload]; exact hmessage)
    obtain ⟨props, hplay⟩ := play_handleUpdatePing w self http label hping
    rw [hmessage] at hplay
    rw [hplay] at hcall
    cases hcall
  · intro h
    refine ⟨fun request message hping hlookup => ?_, fun request path hping hlookup => ?_⟩
    · rw [World.play_getPathToPayload] at hlookup
      exact absurd (pathToPayload_error_iff.mp ⟨message, hlookup⟩) (h request hping)
    · rw [World.play_getPathToPayload] at hlookup
      obtain ⟨props, hplay⟩ := play_handleUpdatePing w self http label hping
      have hpath : w.pathToPayload self label request.board = .ok path := hlookup
      rw [hpath] at hplay
      exact ⟨_, hplay, rfl, rfl, rfl⟩

end

/-! ## A ping for nothing -/

def localRequest : HttpRequest := ⟨"http://127.0.0.1:8080".toList, none⟩

def updateApps : List Nebraska.AppElement := [Nebraska.eventElement none]

/-- The client gets an exception. -/
theorem handleUpdatePing_unbound :
    (emptyWorld.play (getPathToPayload staticAutoupdate "eve/R80".toList (some "eve"))).1 =
        .error (.autoupdateError "Failed to get an update for: eve/R80".toList) ∧
      (emptyWorld.play (handleUpdatePing (fun _ => .ok updateApps) staticAutoupdate localRequest ""
        "eve/R80".toList
        fun _ => none)).1.toOption.isNone = true ∧
      ¬Serves (fun _ => .ok updateApps) emptyWorld staticAutoupdate localRequest "" "eve/R80".toList
        fun _ => none := by
  have hlookup :
    (emptyWorld.play (getPathToPayload staticAutoupdate "eve/R80".toList (some "eve"))).1 =
      .error (.autoupdateError "Failed to get an update for: eve/R80".toList) := by decide
  have hping :
    (emptyWorld.play
      (handleUpdatePing (fun _ => .ok updateApps) staticAutoupdate localRequest "" "eve/R80".toList
      fun _ => none)).1 = .error .unboundLocalError := rfl
  refine ⟨hlookup, by rw [hping]; rfl, fun h => ?_⟩
  have hpings : ∃ request, Pings (fun _ => .ok updateApps) "" (fun _ => none) request ∧
      request.board = some "eve" :=
    ⟨_, ⟨⟨_, rfl⟩, rfl, fun h => by cases h⟩, rfl⟩
  obtain ⟨request, hpings, hboard⟩ := hpings
  obtain ⟨hfailed, -⟩ := h
  obtain ⟨call, hcall, -⟩ := hfailed request _ hpings (by rw [hboard]; exact hlookup)
  rw [hping] at hcall
  cases hcall

end Devserver
