import Mathlib.Data.List.Infix
import DevUtil.Lib.Serving

/-!
# Payload selection of nebraska.py

`Request.AppRequest.MatchAppData`, `AppIndex.Find` and the loop of
`Response.GetXMLString` with `AppResponse.__init__`, as far as they decide which
payload an app gets.  The objects of an index are told apart by `ref`, as
`matched_apps` does.
-/

namespace Nebraska

open Lib

/-- This is the same for all images on canary channel. -/
def CANARY_APP_ID : String := "{90F229CE-83E2-4FAF-8479-E368A34938B1}"

inductive RequestType
  | INSTALL
  | UPDATE
  | EVENT
deriving DecidableEq, Repr

/-- A payload of the index. -/
structure AppData where
  /-- which object it is -/
  ref : Nat
  appid : String
  isDelta : Bool
deriving DecidableEq, Repr

/-- The App ID with its beginning replaced; empty if it is too short for that. -/
def AppData.canaryAppid (d : AppData) : String :=
  if CANARY_APP_ID.length ≤ d.appid.length then
    String.ofList (CANARY_APP_ID.toList ++ d.appid.toList.drop CANARY_APP_ID.length)
  else ""

structure AppIndex where
  entries : List AppData
  nodup : (entries.map AppData.ref).Nodup

structure AppRequest where
  requestType : RequestType
  appid : String
  deltaOkay : Bool
  hasUpdateCheck : Bool
deriving DecidableEq, Repr

/-- All apps of a request are of one type. -/
structure Request where
  requestType : RequestType
  appRequests : List AppRequest
  sameType : ∀ r ∈ appRequests, r.requestType = requestType

structure NebraskaProperties where
  updateAppIndex : AppIndex
  installAppIndex : AppIndex
  ignoreAppid : Bool

structure ResponseProperties where
  noUpdate : Bool
  /-- None if we don't care -/
  fullPayload : Option Bool

/-! ## Matching -/

/-- `a in b` -/
def isSubstring (a b : String) : Bool := decide (a.toList <:+: b.toList)

/-- The second half of `MatchAppData`: the kind of payload that the app can take. -/
def AppRequest.eligible (request : AppRequest) (appData : AppData) : Bool :=
  match request.requestType with
  | .UPDATE => if appData.isDelta then request.deltaOkay else true
  | .INSTALL => !appData.isDelta
  | .EVENT => false

def AppRequest.matchAppData (request : AppRequest) (appData : AppData)
    (partialMatchAppid checkAgainstCanary ignoreAppid : Bool) : Bool :=
  let appidDiffers :=
    if !ignoreAppid && request.appid != appData.appid then
      if partialMatchAppid then !isSubstring appData.appid request.appid
      else if checkAgainstCanary then appData.canaryAppid != request.appid
      else true
    else false
  if appidDiffers then false else request.eligible appData

/-! ## Find -/

/-- The matches of `Find` before those already served are removed. -/
def AppIndex.matches (index : AppIndex) (request : AppRequest) (ignoreAppid : Bool) :
    List AppData :=
  let ms := index.entries.filter fun d => request.matchAppData d false false false
  let ms := if ms.isEmpty then index.entries.filter fun d =>
    request.matchAppData d false true false else ms
  let ms := if ms.isEmpty then index.entries.filter fun d =>
    request.matchAppData d true false false else ms
  if ms.isEmpty && ignoreAppid then index.entries.filter fun d =>
    request.matchAppData d false false true else ms

def AppIndex.find (index : AppIndex) (request : AppRequest) (matchedApps : List AppData)
    (fullPayload : Option Bool) (ignoreAppid : Bool) : Option AppData :=
  let ms := (index.matches request ignoreAppid).filter fun d =>
    !(matchedApps.map AppData.ref).contains d.ref
  if fullPayload == some false && !request.deltaOkay then none
  else
    let fullMatch := ms.find? fun d => !d.isDelta
    let deltaMatch := ms.find? fun d => d.isDelta
    if fullPayload == some true || !request.deltaOkay then fullMatch
    else if fullPayload == some false || deltaMatch.isSome then deltaMatch
    else fullMatch

/-! ## The response -/

/-- The payload that `AppResponse.__init__` finds. -/
def appData (props : NebraskaProperties) (resp : ResponseProperties) (request : AppRequest)
    (matchedApps : List AppData) : Option AppData :=
  if resp.noUpdate then none
  else
    match request.requestType with
    | .INSTALL =>
      if request.hasUpdateCheck then props.installAppIndex.find request matchedApps
        (some true) false else none
    | .UPDATE => props.updateAppIndex.find request matchedApps resp.fullPayload props.ignoreAppid
    | .EVENT => none

/-- The payloads of a response, app by app. -/
def Request.served (request : Request) (props : NebraskaProperties) (resp : ResponseProperties) :
    List (Option AppData) :=
  serve (appData props resp) [] request.appRequests

end Nebraska
