import Mathlib.Data.List.Dedup
import Mathlib.Data.List.DropRight
import DevUtil.Lib.Text
import DevUtil.Nebraska.AppIndex

/-!
# Parsing a request

`Request.ParseRequest` of `nebraska.py`, from the app elements of the request on.

    all apps are of the type of the request; those of an update
      have an updatecheck, those of an event have none             (parseRequest_checked)
-/

namespace Nebraska

open Lib

/-! ## Elements -/

structure EventTag where
  eventtype : Option String
  eventresult : Option String
  previousversion : Option String

/-- An `app` element: its attributes, and the children that are looked at. -/
structure AppElement where
  appid : Option String
  version : Option String
  track : Option String
  board : Option String
  deltaOkay : Option String
  /-- with its `rollback_allowed` -/
  updatecheck : Option (Option String)
  event : Option EventTag
  ping : Bool

inductive ParseError
  | invalidRequestError (message : String)
  /-- `int(None)` -/
  | typeError
  | valueError
deriving DecidableEq

/-- An app of a request. -/
structure ParsedApp extends AppRequest where
  version : String
  track : Option String
  board : Option String
  ping : Bool
  eventType : Option Int
  eventResult : Option Int
  previousVersion : Option String
  rollbackAllowed : Bool
deriving DecidableEq

structure ParsedRequest where
  requestType : RequestType
  appRequests : List ParsedApp
  version : Option String
  track : Option String
  board : Option String
deriving DecidableEq

/-! ## Parsing -/

/-- The zeros of the decimal digits of Unicode. -/
def decimalZeros : List Nat :=
  [48, 1632, 1776, 1984, 2406, 2534, 2662, 2790, 2918, 3046, 3174, 3302, 3430, 3558, 3664, 3792,
    3872, 4160, 4240, 6112,
    6160, 6470, 6608, 6784, 6800, 6992, 7088, 7232, 7248, 42528, 43216, 43264, 43472, 43504, 43600,
      44016, 65296, 66720,
    68912, 69734, 69872, 69942, 70096, 70384, 70736, 70864, 71248, 71360, 71472, 71904, 72016,
      72784, 73040, 73120, 92768,
    92864, 93008, 120782, 120792, 120802, 120812, 120822, 123200, 123632, 125264, 130032]

def decimalDigit (c : Char) : Option Nat :=
  (decimalZeros.find? fun zero => zero ≤ c.toNat && c.toNat < zero + 10).map (c.toNat - ·)

/-- The value of digits with single underscores between them. -/
def digitsValue (cs : List Char) : Option Int :=
  let groups := cs.splitOn '_'
  if groups.all fun group => group ≠ [] && group.all fun c => (decimalDigit c).isSome then
    some (groups.flatten.foldl (fun n c => 10 * n + ((decimalDigit c).getD 0 : Nat)) 0)
  else none

/-- `int(s)` -/
def parseInt (s : String) : Option Int :=
  match (s.toList.dropWhile isSpace).rdropWhile isSpace with
  | '-' :: cs => (digitsValue cs).map fun n => -n
  | '+' :: cs => digitsValue cs
  | cs => digitsValue cs

def toInt : Option String → Except ParseError Int
  | none => .error .typeError
  | some s =>
    match parseInt s with
    | some n => .ok n
    | none => .error .valueError

/-- The event type and result. -/
def parseEvent : Option EventTag → Except ParseError (Option (Int × Int))
  | none => .ok none
  | some event => do
    let eventType ← toInt event.eventtype
    let eventResult ← toInt (event.eventresult.getD "0")
    return some (eventType, eventResult)

/-- `AppRequest.ParseApp` -/
def parseApp (requestType : RequestType) (app : AppElement) : Except ParseError ParsedApp := do
  let event ← parseEvent app.event
  match app.appid, app.version with
  | some appid, some version =>
    return { requestType := requestType
             appid := appid
             deltaOkay := app.deltaOkay == some "true"
             hasUpdateCheck := app.updatecheck.isSome
             version := version
             track := app.track
             board := app.board
             ping := app.ping
             eventType := event.map Prod.fst
             eventResult := event.map Prod.snd
             previousVersion := app.event.bind EventTag.previousversion
             rollbackAllowed := app.updatecheck.isSome && app.updatecheck.join == some "true" }
  | _, _ => .error (.invalidRequestError "Invalid app request.")

def parseApps (requestType : RequestType) : List AppElement → Except ParseError (List ParsedApp)
  | [] => .ok []
  | app :: apps => do
    let request ← parseApp requestType app
    let requests ← parseApps requestType apps
    return request :: requests

/-- An install is a request where one app has no updatecheck. -/
def requestTypeOf (apps : List AppElement) : Except ParseError RequestType :=
  let updateCheckCount := apps.countP fun app => app.updatecheck.isSome
  if updateCheckCount = 0 then .ok .EVENT
  else if updateCheckCount + 1 = apps.length then .ok .INSTALL
  else if updateCheckCount = apps.length then .ok .UPDATE
  else .error (.invalidRequestError
    "Client request omits update_check tag for more than one, but not all app requests.")

/-- `_CheckAttributesAndReturnIt` -/
def checkAttributesAndReturnIt (name : String) (allAttrs : List (Option String)) (inAll : Bool)
    (ignoreValue : Option String) : Except ParseError (Option String) :=
  if inAll && allAttrs.contains ignoreValue then
    .error (.invalidRequestError ("All apps should have \"" ++ name ++ "\" attribute."))
  else
    match (allAttrs.filter (· != ignoreValue)).dedup with
    | [] => .ok ignoreValue
    | [value] => .ok value
    | _ =>
      .error (.invalidRequestError
        ("Attribute \"" ++ name ++ "\" is not the same in all app tags."))

def VERSION_ZERO : String := "0.0.0.0"

def ParsedRequest.checkVersion (requestType : RequestType) (apps : List ParsedApp) :
    Except ParseError (Option String) :=
  let versions := apps.map fun app => some app.version
  if requestType = .UPDATE then checkAttributesAndReturnIt "version" versions true none
  else checkAttributesAndReturnIt "version" versions false (some VERSION_ZERO)

def emptyAttributes (track board : Option String) : ParseError :=
  .invalidRequestError
    ("Either track(" ++ track.getD "None" ++ ") or board(" ++ board.getD "None" ++
    ") attributes are empty in all apps.")

def parseRequest (apps : List AppElement) : Except ParseError ParsedRequest := do
  let requestType ← requestTypeOf apps
  let appRequests ← parseApps requestType apps
  let version ← ParsedRequest.checkVersion requestType appRequests
  let track ← checkAttributesAndReturnIt "track" (appRequests.map ParsedApp.track) false none
  let board ← checkAttributesAndReturnIt "board" (appRequests.map ParsedApp.board) false none
  if track = none ∨ board = none then .error (emptyAttributes track board)
  else return ⟨requestType, appRequests, version, track, board⟩

/-- `Request(request_str)`; `fromstring` finds the app elements, or raises a `ParseError` with a
text. -/
def requestInit (fromstring : String → Except String (List AppElement)) (requestStr : String) :
    Except ParseError ParsedRequest :=
  match fromstring requestStr with
  | .error err => .error (.invalidRequestError ("Request string is not valid XML: " ++ err))
  | .ok apps => parseRequest apps

/-! ## What is parsed -/

/-- The types of the apps, and which of them have an updatecheck. -/
structure ParsedRequest.Checked (request : ParsedRequest) : Prop where
  sameType : ∀ app ∈ request.appRequests, app.requestType = request.requestType
  update : request.requestType = .UPDATE → ∀ app ∈ request.appRequests, app.hasUpdateCheck = true
  event : request.requestType = .EVENT → ∀ app ∈ request.appRequests, app.hasUpdateCheck = false

theorem bind_eq_ok {α β : Type} {x : Except ParseError α} {f : α → Except ParseError β} {b : β}
    (h : x >>= f = .ok b) :
    ∃ a, x = .ok a ∧ f a = .ok b := by
  cases x with
  | error e => cases h
  | ok a => exact ⟨a, rfl, h⟩

theorem parseApp_ok {requestType : RequestType} {app : AppElement} {request : ParsedApp}
    (h : parseApp requestType app = .ok request) :
    request.requestType = requestType ∧ request.hasUpdateCheck = app.updatecheck.isSome := by
  obtain ⟨event, -, h⟩ := bind_eq_ok h
  cases happid : app.appid with
  | none =>
    rw [happid] at h
    cases h
  | some appid =>
    cases hversion : app.version with
    | none =>
      rw [happid, hversion] at h
      cases h
    | some version =>
      rw [happid, hversion] at h
      cases h
      exact ⟨rfl, rfl⟩

theorem parseApps_ok {requestType : RequestType} {apps : List AppElement}
    {requests : List ParsedApp} (h : parseApps requestType apps = .ok requests) :
    ∀ request ∈ requests, request.requestType = requestType ∧
      ∃ app ∈ apps, request.hasUpdateCheck = app.updatecheck.isSome := by
  induction apps generalizing requests with
  | nil =>
    cases h
    exact fun request hin => absurd hin List.not_mem_nil
  | cons app apps ih =>
    obtain ⟨request, hrequest, h⟩ := bind_eq_ok h
    obtain ⟨others, hothers, h⟩ := bind_eq_ok h
    cases h
    intro r hr
    rcases List.mem_cons.mp hr with rfl | hr
    · obtain ⟨htype, hcheck⟩ := parseApp_ok hrequest
      exact ⟨htype, app, List.mem_cons_self, hcheck⟩
    · obtain ⟨htype, app', happ', hcheck⟩ := ih hothers r hr
      exact ⟨htype, app', List.mem_cons_of_mem app happ', hcheck⟩

theorem requestTypeOf_ok {apps : List AppElement} {requestType : RequestType}
    (h : requestTypeOf apps = .ok requestType) :
    (requestType = .UPDATE → ∀ app ∈ apps, app.updatecheck.isSome = true) ∧
      (requestType = .EVENT → ∀ app ∈ apps, app.updatecheck.isSome = false) := by
  simp only [requestTypeOf] at h
  split at h
  · next hzero =>
    cases h
    refine ⟨fun h => (by cases h), fun _ app happ => ?_⟩
    exact Bool.eq_false_iff.mpr (List.countP_eq_zero.mp hzero app happ)
  · split at h
    · cases h
      exact ⟨fun h => (by cases h), fun h => (by cases h)⟩
    · split at h
      · next hall =>
        cases h
        exact ⟨fun _ => List.countP_eq_length.mp hall, fun h => (by cases h)⟩
      · cases h

theorem parseRequest_checked {apps : List AppElement} {request : ParsedRequest}
    (h : parseRequest apps = .ok request) :
    request.Checked := by
  obtain ⟨requestType, htype, h⟩ := bind_eq_ok h
  obtain ⟨appRequests, happs, h⟩ := bind_eq_ok h
  obtain ⟨version, -, h⟩ := bind_eq_ok h
  obtain ⟨track, -, h⟩ := bind_eq_ok h
  obtain ⟨board, -, h⟩ := bind_eq_ok h
  split at h
  · cases h
  · cases h
    obtain ⟨hupdate, hevent⟩ := requestTypeOf_ok htype
    have hparsed := parseApps_ok happs
    refine ⟨fun app happ => (hparsed app happ).1, fun he app happ => ?_, fun he app happ => ?_⟩
    · obtain ⟨-, element, helement, hcheck⟩ := hparsed app happ
      rw [hcheck]
      exact hupdate he element helement
    · obtain ⟨-, element, helement, hcheck⟩ := hparsed app happ
      rw [hcheck]
      exact hevent he element helement

end Nebraska
