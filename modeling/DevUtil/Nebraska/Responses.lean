import DevUtil.Nebraska.Requests

/-!
# The response to a request

`Response.GetXMLString` and `AppResponse.Compile` of `nebraska.py`.

    the loop compiles what the apps are served                        (compileApps_eq)
    every app is answered in its place, with one updatecheck if it
      asked ↔ an install serves every app that asks                   (response_answers_iff)

`Compile` has no branch for an install that asks and is not served.
-/

namespace Nebraska

open Lib

/-! ## Elements -/

/-- `ElementTree.Element` -/
inductive Element
  | mk (tag : String) (attrib : List (String × String)) (children : List Element)

namespace Element

def tag : Element → String
  | mk tag _ _ => tag

def attrib : Element → List (String × String)
  | mk _ attrib _ => attrib

def children : Element → List Element
  | mk _ _ children => children

/-- `element.get(key)` -/
def get (element : Element) (key : String) : Option String := element.attrib.lookup key

/-- `element.findall(tag)` -/
def findall (element : Element) (tag : String) : List Element :=
  element.children.filter fun child => child.tag == tag

end Element

/-! ## Properties -/

/-- What the properties file of a payload says of it. -/
structure PayloadInfo where
  name : String
  targetVersion : String
  size : Nat
  /-- empty if the payload is not signed -/
  metadataSignature : String
  metadataSize : Nat
  sha256 : String
  sha256Hex : String
  publicKey : Option String

structure ServerProperties extends NebraskaProperties where
  /-- the entries of the indices -/
  info : AppData → PayloadInfo
  updatePayloadsAddress : String
  installPayloadsAddress : String

structure AnswerProperties extends ResponseProperties where
  criticalUpdate : Bool
  isRollback : Bool
  failuresPerUrl : Option Int
  disablePayloadBackoff : Bool
  numUrls : Nat
  eolDate : Option Int

def FIRMWARE_VER : String := "5"

def KERNEL_VER : String := "7"

/-! ## `Compile` -/

/-- `str(b).lower()` -/
def lowerBool (b : Bool) : String := if b then "true" else "false"

def eolAttribs (resp : AnswerProperties) : List (String × String) :=
  resp.eolDate.toList.map fun date => ("_eol_date", toString date)

def rollbackAttribs (resp : AnswerProperties) (app : ParsedApp) : List (String × String) :=
  if resp.isRollback && app.rollbackAllowed then
    ("_is_rollback", "true") :: ["", "_0", "_1", "_2", "_3", "_4"].flatMap fun idx =>
      [("_firmware_version" ++ idx, FIRMWARE_VER), ("_kernel_version" ++ idx, KERNEL_VER)]
  else []

def postinstallAction (resp : AnswerProperties) (appData : AppData) (info : PayloadInfo) :
    Element :=
  .mk "action" ([("ChromeOSVersion", info.targetVersion), ("ChromeVersion", "1.0.0.0"),
    ("DisablePayloadBackoff", lowerBool resp.disablePayloadBackoff),
      ("IsDeltaPayload", lowerBool appData.isDelta),
    ("MaxDaysToScatter", "14"), ("MetadataSignatureRsa", info.metadataSignature),
    ("MetadataSize", toString info.metadataSize), ("sha256", info.sha256),
      ("event", "postinstall")] ++
    (resp.failuresPerUrl.toList.map fun n => ("MaxFailureCountPerUrl", toString n)) ++
    (if resp.criticalUpdate then [("deadline", "now")] else []) ++
    info.publicKey.toList.map fun key => ("PublicKeyRsa", key)) []

def manifestElement (resp : AnswerProperties) (appData : AppData) (info : PayloadInfo) : Element :=
  .mk "manifest" [("version", info.targetVersion)]
    [.mk "actions" [] [.mk "action" [("event", "update"), ("run", info.name)] [],
      postinstallAction resp appData info],
      .mk "packages" []
        [.mk "package" [("fp", "1." ++ info.sha256Hex), ("hash_sha256", info.sha256Hex),
        ("name", info.name), ("required", "true"), ("size", toString info.size)] []]]

/-- The updatecheck for a payload. -/
def okUpdateCheck (resp : AnswerProperties) (app : ParsedApp) (payloadsAddress : String)
    (appData : AppData) (info : PayloadInfo) : Element :=
  .mk "updatecheck" (("status", "ok") :: (rollbackAttribs resp app ++ eolAttribs resp))
    [.mk "urls" [] (List.replicate resp.numUrls (.mk "url" [("codebase", payloadsAddress)] [])),
      manifestElement resp appData info]

def pingAndEvent (app : ParsedApp) : List Element :=
  (if app.ping then [.mk "ping" [("status", "ok")] []] else []) ++
    if app.eventType.isSome then [.mk "event" [("status", "ok")] []] else []

def payloadsAddress (props : ServerProperties) (app : ParsedApp) : String :=
  match app.requestType with
  | .INSTALL => props.installPayloadsAddress
  | _ => props.updatePayloadsAddress

def compile (props : ServerProperties) (resp : AnswerProperties) (app : ParsedApp) :
    Option AppData → Element
  | some appData =>
    .mk "app" [("appid", app.appid), ("status", "ok")] (pingAndEvent app ++
      [okUpdateCheck resp app (payloadsAddress props app) appData (props.info appData)])
  | none =>
    if app.requestType = .INSTALL ∧ app.hasUpdateCheck = false then
      .mk "app" [("appid", app.appid), ("status", "noupdate")] (pingAndEvent app)
    else if app.requestType = .UPDATE then
      .mk "app" [("appid", app.appid), ("status", "ok")] (pingAndEvent app ++
        [.mk "updatecheck" (("status", "noupdate") :: eolAttribs resp) []])
    else .mk "app" [("appid", app.appid), ("status", "ok")] (pingAndEvent app)

/-- The loop of `GetXMLString`. -/
def compileApps (props : ServerProperties) (resp : AnswerProperties) :
    List AppData → List ParsedApp → List Element
  | _, [] => []
  | matchedApps, app :: apps =>
    let found :=
      appData props.toNebraskaProperties resp.toResponseProperties app.toAppRequest matchedApps
    compile props resp app found :: compileApps props resp (matchedApps ++ found.toList) apps

def getXML (elapsedDays elapsedSeconds : Nat) (props : ServerProperties) (resp : AnswerProperties)
    (request : ParsedRequest) :
    Element :=
  .mk "response" [("protocol", "3.0"), ("server", "nebraska")]
    (.mk "daystart" [("elapsed_days", toString elapsedDays),
      ("elapsed_seconds", toString elapsedSeconds)] [] ::
      compileApps props resp [] request.appRequests)

/-! ## What the apps are served -/

/-- Each app with the payload that it is served. -/
def ParsedRequest.served (request : ParsedRequest) (props : ServerProperties)
    (resp : AnswerProperties) :
    List (ParsedApp × Option AppData) :=
  request.appRequests.zip (serve (appData props.toNebraskaProperties resp.toResponseProperties) []
    (request.appRequests.map ParsedApp.toAppRequest))

theorem compileApps_eq (props : ServerProperties) (resp : AnswerProperties)
    (matchedApps : List AppData) (apps : List ParsedApp) : compileApps props resp matchedApps apps =
      (apps.zip (serve (appData props.toNebraskaProperties resp.toResponseProperties) matchedApps
        (apps.map ParsedApp.toAppRequest))).map fun p => compile props resp p.1 p.2 := by
  induction apps generalizing matchedApps with
  | nil => rfl
  | cons app apps ih =>
    rw [compileApps, ih]
    rfl

/-- An app without an updatecheck is not served. -/
theorem asks_of_served {request : ParsedRequest} (h : request.Checked) {props : ServerProperties}
    {resp : AnswerProperties} {app : ParsedApp} {d : AppData}
    (hin : (app, some d) ∈ request.served props resp) : app.hasUpdateCheck = true := by
  have happ := (List.of_mem_zip hin).1
  obtain ⟨before, hfound⟩ := mem_zip_serve hin
  unfold appData at hfound
  split at hfound
  · cases hfound
  · cases htype : app.requestType with
    | UPDATE => exact h.update ((h.sameType app happ).symm.trans htype) app happ
    | INSTALL =>
      rw [htype] at hfound
      by_contra hcheck
      simp only [hcheck, if_false] at hfound
      cases hfound
    | EVENT =>
      rw [htype] at hfound
      cases hfound

/-! ## Answers -/

/-- The element answers the app. -/
structure Answers (p : ParsedApp × Option AppData) (element : Element) : Prop where
  appid : element.get "appid" = some p.1.appid
  /-- one updatecheck if the app asked for one, with its payload or without -/
  asked : p.1.hasUpdateCheck = true → ∃ updatecheck, element.findall "updatecheck" = [updatecheck] ∧
    updatecheck.get "status" = some (if p.2.isSome then "ok" else "noupdate")
  notAsked : p.1.hasUpdateCheck = false → element.findall "updatecheck" = []

section

variable {props : ServerProperties} {resp : AnswerProperties} {app : ParsedApp}
  {request : ParsedRequest}

theorem findall_pingAndEvent (app : ParsedApp) :
    (pingAndEvent app).filter (fun child => child.tag == "updatecheck") = [] := by
  unfold pingAndEvent
  cases app.ping <;> cases app.eventType.isSome <;> rfl

/-- Where there is no payload. -/
theorem compile_none (props : ServerProperties) (resp : AnswerProperties) (app : ParsedApp) :
    compile props resp app none =
    if app.requestType = .INSTALL ∧ app.hasUpdateCheck = false then
      .mk "app" [("appid", app.appid), ("status", "noupdate")] (pingAndEvent app)
    else if app.requestType = .UPDATE then
      .mk "app" [("appid", app.appid), ("status", "ok")] (pingAndEvent app ++
        [.mk "updatecheck" (("status", "noupdate") :: eolAttribs resp) []])
    else .mk "app" [("appid", app.appid), ("status", "ok")] (pingAndEvent app) := rfl

theorem compile_tag (props : ServerProperties) (resp : AnswerProperties) (app : ParsedApp)
    (found : Option AppData) :
    (compile props resp app found).tag = "app" := by
  cases found with
  | some d => rfl
  | none =>
    rw [compile_none]
    split
    · rfl
    · split <;> rfl

theorem compile_some (d : AppData) (hcheck : app.hasUpdateCheck = true) :
    Answers (app, some d) (compile props resp app (some d)) where
  appid := rfl
  asked := fun _ => ⟨okUpdateCheck resp app (payloadsAddress props app) d (props.info d), by
    show (pingAndEvent app ++ _).filter _ = _
    rw [List.filter_append, findall_pingAndEvent]
    rfl, rfl⟩
  notAsked := fun h => by
    rw [hcheck] at h
    cases h

theorem compile_update (hcheck : app.hasUpdateCheck = true) (htype : app.requestType = .UPDATE) :
    Answers (app, none) (compile props resp app none) := by
  have hcompile : compile props resp app none = .mk "app" [("appid", app.appid), ("status", "ok")]
    (pingAndEvent app ++
      [.mk "updatecheck" (("status", "noupdate") :: eolAttribs resp) []]) := by
    rw [compile_none, if_neg fun h => (by rw [hcheck] at h; cases h.2), if_pos htype]
  rw [hcompile]
  refine ⟨rfl, fun _ => ⟨.mk "updatecheck" (("status", "noupdate") :: eolAttribs resp) [], ?_, rfl⟩,
    fun h => ?_⟩
  · show (pingAndEvent app ++ _).filter _ = _
    rw [List.filter_append, findall_pingAndEvent]
    rfl
  · rw [hcheck] at h
    cases h

/-- Where there is no payload and it is no update, there is no updatecheck. -/
theorem findall_compile_none (htype : app.requestType ≠ .UPDATE) :
    (compile props resp app none).findall "updatecheck" = [] := by
  rw [compile_none]
  split
  · exact findall_pingAndEvent app
  · exact findall_pingAndEvent app

theorem compile_notAsked (hcheck : app.hasUpdateCheck = false) (htype : app.requestType ≠ .UPDATE) :
    Answers (app, none) (compile props resp app none) where
  appid := by
    rw [compile_none]
    split
    · rfl
    · rfl
  asked := fun h => by
    rw [hcheck] at h
    cases h
  notAsked := fun _ => findall_compile_none htype

/-- An app that the request has asked for and that nothing is served. -/
def Unserved (request : ParsedRequest) (p : ParsedApp × Option AppData) : Prop :=
  request.requestType = .INSTALL ∧ p.1.hasUpdateCheck = true ∧ p.2 = none

theorem compile_answers_iff (h : request.Checked) {p : ParsedApp × Option AppData}
    (hin : p ∈ request.served props resp) :
    Answers p (compile props resp p.1 p.2) ↔ ¬Unserved request p := by
  obtain ⟨app, found⟩ := p
  have happ := (List.of_mem_zip hin).1
  have htype := h.sameType app happ
  cases found with
  | some d => exact iff_of_true (compile_some d (asks_of_served h hin)) fun hno => by cases hno.2.2
  | none =>
    by_cases hcheck : app.hasUpdateCheck = true
    · by_cases hupdate : app.requestType = .UPDATE
      · refine iff_of_true (compile_update hcheck hupdate) fun hno => ?_
        rw [htype, hno.1] at hupdate
        cases hupdate
      · -- the missing branch
        have hinstall : request.requestType = .INSTALL := by
          cases hr : request.requestType with
          | INSTALL => rfl
          | UPDATE => exact absurd (htype.trans hr) hupdate
          | EVENT =>
            rw [h.event hr app happ] at hcheck
            cases hcheck
        refine iff_of_false (fun hanswers => ?_) fun hno => hno ⟨hinstall, hcheck, rfl⟩
        obtain ⟨updatecheck, hone, -⟩ := hanswers.asked hcheck
        rw [findall_compile_none hupdate] at hone
        cases hone
    · have hcheck := Bool.eq_false_iff.mpr hcheck
      have hupdate : app.requestType ≠ .UPDATE := fun hupdate => by
        rw [h.update (htype.symm.trans hupdate) app happ] at hcheck
        cases hcheck
      refine iff_of_true (compile_notAsked hcheck hupdate) fun hno => ?_
      rw [hno.2.1] at hcheck
      cases hcheck

theorem findall_app (elapsedDays elapsedSeconds : Nat) (props : ServerProperties)
    (resp : AnswerProperties) (request : ParsedRequest) :
    (getXML elapsedDays elapsedSeconds props resp request).findall "app" =
      (request.served props resp).map fun p => compile props resp p.1 p.2 := by
  have hday : (getXML elapsedDays elapsedSeconds props resp request).findall "app" =
      (compileApps props resp [] request.appRequests).filter fun child => child.tag == "app" := rfl
  rw [hday, compileApps_eq]
  refine List.filter_eq_self.mpr fun element helement => ?_
  obtain ⟨p, -, rfl⟩ := List.mem_map.mp helement
  rw [compile_tag]
  rfl

/-- The response has an element for every app, in order, that answers it. -/
theorem response_answers_iff {apps : List AppElement} (h : parseRequest apps = .ok request)
    (elapsedDays elapsedSeconds : Nat) (props : ServerProperties) (resp : AnswerProperties) :
    List.Forall₂ Answers (request.served props resp)
      ((getXML elapsedDays elapsedSeconds props resp request).findall "app") ↔
      ∀ p ∈ request.served props resp, ¬Unserved request p := by
  rw [findall_app, List.forall₂_map_right_iff, List.forall₂_same]
  constructor
  · exact fun hall p hp => (compile_answers_iff (parseRequest_checked h) hp).mp (hall p hp)
  · exact fun hall p hp => (compile_answers_iff (parseRequest_checked h) hp).mpr (hall p hp)

end

/-! ## Two requests -/

/-- An app with these attributes; no event, no ping. -/
def appElement (appid : String) (updatecheck : Option (Option String)) : AppElement :=
  ⟨some appid, some "1.2.3", some "stable-channel", some "eve", none, updatecheck, none, false⟩

def noPayloads : ServerProperties where
  updateAppIndex := ⟨[], List.nodup_nil⟩
  installAppIndex := ⟨[], List.nodup_nil⟩
  ignoreAppid := false
  info := fun _ => ⟨"", "", 0, "", 0, "", "", none⟩
  updatePayloadsAddress := "http://127.0.0.1:8080/"
  installPayloadsAddress := "http://127.0.0.1:8080/"

def defaultAnswer : AnswerProperties where
  noUpdate := false
  fullPayload := none
  criticalUpdate := false
  isRollback := false
  failuresPerUrl := none
  disablePayloadBackoff := false
  numUrls := 1
  eolDate := none

/-- An update where there is none. -/
theorem response_answers_update :
    ∃ request, parseRequest [appElement "platform" (some none)] = .ok request ∧
    List.Forall₂ Answers (request.served noPayloads defaultAnswer)
      ((getXML 5000 60 noPayloads defaultAnswer request).findall "app") := by
  refine ⟨_, rfl,
    (@response_answers_iff _ [appElement "platform" (some none)] rfl 5000 60 noPayloads
      defaultAnswer).mpr ?_⟩
  intro p _ hno
  cases hno.1

/-- The install of a package that is not in the index is not answered. -/
theorem response_answers_install : ∃ request,
    parseRequest [appElement "platform" none, appElement "platform_dlc" (some none)] = .ok request ∧
    ¬List.Forall₂ Answers (request.served noPayloads defaultAnswer)
      ((getXML 5000 60 noPayloads defaultAnswer request).findall "app") := by
  refine ⟨_, rfl, fun hanswers => ?_⟩
  cases hanswers with
  | cons _ hrest =>
    cases hrest with
    | cons hdlc _ =>
      obtain ⟨updatecheck, hone, -⟩ := hdlc.asked rfl
      cases hone

end Nebraska
