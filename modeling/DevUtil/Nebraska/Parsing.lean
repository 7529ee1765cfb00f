import DevUtil.Nebraska.Requests

/-!
# Which requests are accepted

    what `_CheckAttributesAndReturnIt` returns is the common value          (check_ok_iff)
    the events are well formed → a request is accepted as a type, with a
      version, track and board ↔ they are the ones that its apps agree on   (parseRequest_accepts)
    only `InvalidRequestError` is raised ↔ no ill-formed event is reached   (init_raises_iff)

The number of an event is read by `int`, which raises other errors.
-/

namespace Nebraska

open Lib

/-! ## Events -/

/-- The numbers of an event can be read. -/
structure WellFormedEvent (event : EventTag) : Prop where
  eventtype : ∃ s, event.eventtype = some s ∧ (parseInt s).isSome = true
  eventresult : ∀ s, event.eventresult = some s → (parseInt s).isSome = true

def EventOk (app : AppElement) : Prop := ∀ event, app.event = some event → WellFormedEvent event

theorem exists_toInt {s : String} (h : (parseInt s).isSome = true) :
    ∃ n, toInt (some s) = .ok n := by
  obtain ⟨n, hn⟩ := Option.isSome_iff_exists.mp h
  exact ⟨n, by rw [toInt, hn]⟩

theorem isSome_of_toInt {s : String} {n : Int} (h : toInt (some s) = .ok n) :
    (parseInt s).isSome = true := by
  rw [toInt] at h
  cases hs : parseInt s with
  | none =>
    rw [hs] at h
    cases h
  | some n => rfl

theorem parseEvent_ok_iff (event : Option EventTag) :
    (∃ numbers, parseEvent event = .ok numbers) ↔
      ∀ tag, event = some tag → WellFormedEvent tag := by
  cases event with
  | none => exact ⟨fun _ tag h => (by cases h), fun _ => ⟨none, rfl⟩⟩
  | some tag =>
    constructor
    · rintro ⟨numbers, h⟩ tag' htag
      obtain rfl := Option.some.inj htag
      obtain ⟨eventType, htype, h⟩ := bind_eq_ok h
      obtain ⟨eventResult, hresult, -⟩ := bind_eq_ok h
      constructor
      · cases hs : tag.eventtype with
        | none =>
          rw [hs] at htype
          cases htype
        | some s =>
          rw [hs] at htype
          exact ⟨s, rfl, isSome_of_toInt htype⟩
      · intro s hs
        rw [hs] at hresult
        exact isSome_of_toInt hresult
    · intro h
      obtain ⟨⟨s, hs, hint⟩, hresult⟩ := h tag rfl
      obtain ⟨eventType, htype⟩ := exists_toInt hint
      have hdefault : (parseInt (tag.eventresult.getD "0")).isSome = true := by
        cases hr : tag.eventresult with
        | none => decide
        | some s => exact hresult s hr
      obtain ⟨eventResult, hres⟩ := exists_toInt hdefault
      refine ⟨some (eventType, eventResult), ?_⟩
      simp only [parseEvent, hs, htype, hres]
      rfl

/-- Reading a number fails in its own ways. -/
theorem parseEvent_error {event : Option EventTag} {e : ParseError}
    (h : parseEvent event = .error e) (message : String) :
    e ≠ .invalidRequestError message := by
  have htoInt : ∀ s e, toInt s = .error e → e ≠ .invalidRequestError message := by
    intro s e he
    cases s with
    | none =>
      cases he
      exact fun h => by cases h
    | some s =>
      rw [toInt] at he
      cases hs : parseInt s with
      | none =>
        rw [hs] at he
        cases he
        exact fun h => by cases h
      | some n =>
        rw [hs] at he
        cases he
  cases event with
  | none => cases h
  | some tag =>
    simp only [parseEvent] at h
    cases htype : toInt tag.eventtype with
    | error e' =>
      rw [htype] at h
      cases h
      exact htoInt _ _ htype
    | ok eventType =>
      rw [htype] at h
      cases hresult : toInt (some (tag.eventresult.getD "0")) with
      | error e' =>
        rw [hresult] at h
        cases h
        exact htoInt _ _ hresult
      | ok eventResult =>
        rw [hresult] at h
        cases h

/-! ## Apps -/

/-- The attributes that an app must have. -/
def Named (app : AppElement) : Prop := app.appid.isSome = true ∧ app.version.isSome = true

section

variable {requestType : RequestType} {app : AppElement} {apps : List AppElement}

/-- What an app keeps of its element. -/
structure Parsed (app : AppElement) (request : ParsedApp) : Prop where
  version : some request.version = app.version
  track : request.track = app.track
  board : request.board = app.board

variable (requestType) in
theorem exists_parseApp (hevent : EventOk app) (hnamed : Named app) :
    ∃ request, parseApp requestType app = .ok request ∧ Parsed app request := by
  obtain ⟨numbers, hnumbers⟩ := (parseEvent_ok_iff app.event).mpr hevent
  obtain ⟨appid, happid⟩ := Option.isSome_iff_exists.mp hnamed.1
  obtain ⟨version, hversion⟩ := Option.isSome_iff_exists.mp hnamed.2
  simp only [parseApp, hnumbers, happid, hversion]
  exact ⟨_, rfl, hversion.symm, rfl, rfl⟩

theorem ok_of_parseApp {request : ParsedApp} (h : parseApp requestType app = .ok request) :
    EventOk app ∧ Named app ∧ Parsed app request := by
  obtain ⟨numbers, hnumbers, h⟩ := bind_eq_ok h
  refine ⟨(parseEvent_ok_iff app.event).mp ⟨numbers, hnumbers⟩, ?_⟩
  cases happid : app.appid with
  | none =>
    rw [happid] at h
    cases h
  | some appid =>
    cases hversion : app.version with
    | none =>
      rw [happid, hversion] at h
      cases h
    | some version =>
      rw [happid, hversion] at h
      cases h
      exact ⟨⟨by rw [happid]; rfl, by rw [hversion]; rfl⟩, hversion.symm, rfl, rfl⟩

/-- An app with a well-formed event fails as an invalid request; another one in another way. -/
theorem parseApp_error {e : ParseError} (h : parseApp requestType app = .error e) :
    (∃ message, e = .invalidRequestError message) ↔ EventOk app := by
  cases hevent : parseEvent app.event with
  | error e' =>
    simp only [parseApp, hevent] at h
    cases h
    refine iff_of_false (fun hinvalid => ?_) fun hok => ?_
    · obtain ⟨message, hmessage⟩ := hinvalid
      exact parseEvent_error hevent message hmessage
    · obtain ⟨numbers, hnumbers⟩ := (parseEvent_ok_iff app.event).mpr hok
      rw [hevent] at hnumbers
      cases hnumbers
  | ok numbers =>
    refine iff_of_true ?_ ((parseEvent_ok_iff app.event).mp ⟨numbers, hevent⟩)
    simp only [parseApp, hevent] at h
    cases happid : app.appid with
    | none =>
      rw [happid] at h
      cases h
      exact ⟨_, rfl⟩
    | some appid =>
      cases hversion : app.version with
      | none =>
        rw [happid, hversion] at h
        cases h
        exact ⟨_, rfl⟩
      | some version =>
        rw [happid, hversion] at h
        cases h

variable (requestType) in
theorem exists_parseApps (h : ∀ app ∈ apps, EventOk app ∧ Named app) :
    ∃ requests, parseApps requestType apps = .ok requests := by
  induction apps with
  | nil => exact ⟨[], rfl⟩
  | cons app apps ih =>
    obtain ⟨request, hrequest, -⟩ :=
      exists_parseApp requestType (h app List.mem_cons_self).1 (h app List.mem_cons_self).2
    obtain ⟨requests, hrequests⟩ := ih fun app' happ' => h app' (List.mem_cons_of_mem app happ')
    refine ⟨request :: requests, ?_⟩
    simp only [parseApps, hrequest, hrequests]
    rfl

theorem ok_of_parseApps {requests : List ParsedApp}
    (h : parseApps requestType apps = .ok requests) :
    (∀ app ∈ apps, EventOk app ∧ Named app) ∧ List.Forall₂ Parsed apps requests := by
  induction apps generalizing requests with
  | nil =>
    cases h
    exact ⟨fun app happ => absurd happ List.not_mem_nil, .nil⟩
  | cons app apps ih =>
    obtain ⟨request, hrequest, h⟩ := bind_eq_ok h
    obtain ⟨others, hothers, h⟩ := bind_eq_ok h
    cases h
    obtain ⟨hevent, hnamed, hparsed⟩ := ok_of_parseApp hrequest
    obtain ⟨hall, hrest⟩ := ih hothers
    refine ⟨fun app' happ' => ?_, .cons hparsed hrest⟩
    rcases List.mem_cons.mp happ' with rfl | happ'
    · exact ⟨hevent, hnamed⟩
    · exact hall app' happ'

/-- The first app that fails decides on the error. -/
theorem parseApps_error {e : ParseError} (h : parseApps requestType apps = .error e) :
    (∃ message, e = .invalidRequestError message) ↔
      ∀ pre app post, apps = pre ++ app :: post → (∀ app ∈ pre, EventOk app ∧ Named app) →
        EventOk app := by
  induction apps with
  | nil => cases h
  | cons app apps ih =>
    cases hrequest : parseApp requestType app with
    | error e' =>
      simp only [parseApps, hrequest] at h
      cases h
      rw [parseApp_error hrequest]
      constructor
      · intro hok pre app' post happs hpre
        cases pre with
        | nil =>
          cases happs
          exact hok
        | cons first pre =>
          cases happs
          -- the first app would have been parsed
          obtain ⟨request, hparsed, -⟩ :=
            exists_parseApp requestType (hpre app List.mem_cons_self).1
            (hpre app List.mem_cons_self).2
          rw [hrequest] at hparsed
          cases hparsed
      · exact fun hall => hall [] app apps rfl fun app' happ' => absurd happ' List.not_mem_nil
    | ok request =>
      have happ := ok_of_parseApp hrequest
      cases hrequests : parseApps requestType apps with
      | ok requests =>
        simp only [parseApps, hrequest, hrequests] at h
        cases h
      | error e' =>
        simp only [parseApps, hrequest, hrequests] at h
        cases h
        rw [ih hrequests]
        constructor
        · intro hall pre app' post happs hpre
          cases pre with
          | nil =>
            cases happs
            exact happ.1
          | cons first pre =>
            cases happs
            exact hall pre app' post rfl fun a ha => hpre a (List.mem_cons_of_mem _ ha)
        · intro hall pre app' post happs hpre
          refine hall (app :: pre) app' post (by rw [happs]; rfl) fun a ha => ?_
          rcases List.mem_cons.mp ha with rfl | ha
          · exact ⟨happ.1, happ.2.1⟩
          · exact hpre a ha

end

/-! ## Attributes -/

/-- All values but the ignored one are this one. -/
def Common (ignored : Option String) (values : List (Option String)) (value : Option String) :
    Prop :=
  (∀ v ∈ values, v ≠ ignored → v = value) ∧ (value ≠ ignored → value ∈ values)

theorem Common.perm {ignored value : Option String} {values values' : List (Option String)}
    (h : Common ignored values value) (hperm : values.Perm values') :
    Common ignored values' value :=
  ⟨fun v hv => h.1 v (hperm.mem_iff.mpr hv), fun hne => hperm.mem_iff.mp (h.2 hne)⟩

theorem check_ok_iff {name : String} {allAttrs : List (Option String)} {inAll : Bool}
    {ignoreValue value : Option String} :
    checkAttributesAndReturnIt name allAttrs inAll ignoreValue = .ok value ↔
      (inAll = true → ignoreValue ∉ allAttrs) ∧ Common ignoreValue allAttrs value := by
  have hmem : ∀ v, v ∈ (allAttrs.filter (· != ignoreValue)).dedup ↔
      v ∈ allAttrs ∧ v ≠ ignoreValue := by
    intro v
    rw [List.mem_dedup, List.mem_filter, bne_iff_ne]
  have hnodup := List.nodup_dedup (allAttrs.filter (· != ignoreValue))
  unfold checkAttributesAndReturnIt
  by_cases hbad : (inAll && allAttrs.contains ignoreValue) = true
  · rw [if_pos hbad]
    rw [Bool.and_eq_true, List.contains_iff_mem] at hbad
    exact iff_of_false (fun h => by cases h) fun h => h.1 hbad.1 hbad.2
  · rw [if_neg hbad]
    have hin : inAll = true → ignoreValue ∉ allAttrs := fun ht hv => hbad (by
      rw [Bool.and_eq_true, List.contains_iff_mem]
      exact ⟨ht, hv⟩)
    rw [and_iff_right hin]
    generalize (allAttrs.filter (· != ignoreValue)).dedup = unique at hmem hnodup
    cases unique with
    | nil =>
      have hnone : ∀ v ∈ allAttrs, v = ignoreValue := fun v hv => by
        by_contra hne
        exact absurd ((hmem v).mpr ⟨hv, hne⟩) List.not_mem_nil
      constructor
      · intro h
        cases h
        exact ⟨fun v hv hne => absurd (hnone v hv) hne, fun hne => absurd rfl hne⟩
      · rintro ⟨-, hvalue⟩
        by_cases hne : value = ignoreValue
        · rw [hne]
        · exact absurd (hnone value (hvalue hne)) hne
    | cons first others =>
      obtain ⟨hfirst, hfirstNe⟩ := (hmem first).mp List.mem_cons_self
      cases others with
      | nil =>
        constructor
        · intro h
          cases h
          exact ⟨fun v hv hne => List.mem_singleton.mp ((hmem v).mpr ⟨hv, hne⟩), fun _ => hfirst⟩
        · rintro ⟨hall, -⟩
          rw [hall first hfirst hfirstNe]
      | cons second others =>
        obtain ⟨hsecond, hsecondNe⟩ := (hmem second).mp (List.mem_cons_of_mem _ List.mem_cons_self)
        refine iff_of_false (fun h => by cases h) fun h => ?_
        have hsame : first = second :=
          (h.1 first hfirst hfirstNe).trans (h.1 second hsecond hsecondNe).symm
        exact (List.nodup_cons.mp hnodup).1 (hsame ▸ List.mem_cons_self)

/-- A check fails as an invalid request. -/
theorem check_error {name : String} {allAttrs : List (Option String)} {inAll : Bool}
    {ignoreValue : Option String} {e : ParseError}
    (h : checkAttributesAndReturnIt name allAttrs inAll ignoreValue = .error e) :
    ∃ message, e = .invalidRequestError message := by
  unfold checkAttributesAndReturnIt at h
  split at h
  · cases h
    exact ⟨_, rfl⟩
  · split at h
    · cases h
    · cases h
    · cases h
      exact ⟨_, rfl⟩

/-! ## Requests -/

/-- The type of a request by its updatechecks. -/
def Classified (apps : List AppElement) : RequestType → Prop
  | .EVENT => ∀ app ∈ apps, app.updatecheck.isSome = false
  | .INSTALL => 2 ≤ apps.length ∧ (apps.countP fun app => app.updatecheck.isNone) = 1
  | .UPDATE => 1 ≤ apps.length ∧ ∀ app ∈ apps, app.updatecheck.isSome = true

def VersionsAgree (apps : List AppElement) (requestType : RequestType) (version : Option String) :
    Prop :=
  Common (if requestType = .UPDATE then none else some VERSION_ZERO)
    (apps.map AppElement.version) version

/-- The apps agree on these. -/
structure Accepted (apps : List AppElement) (requestType : RequestType)
    (version track board : Option String) : Prop where
  classified : Classified apps requestType
  named : ∀ app ∈ apps, Named app
  version : VersionsAgree apps requestType version
  track : track ≠ none ∧ Common none (apps.map AppElement.track) track
  board : board ≠ none ∧ Common none (apps.map AppElement.board) board

section

variable {apps apps' : List AppElement} {requestType : RequestType}
  {version track board : Option String}

theorem requestTypeOf_ok_iff : requestTypeOf apps = .ok requestType ↔
    Classified apps requestType := by
  have hsum : apps.length = (apps.countP fun app => app.updatecheck.isSome) + apps.countP fun app =>
      app.updatecheck.isNone := by
    have h :=
      List.length_eq_countP_add_countP (fun app : AppElement => app.updatecheck.isSome) (l := apps)
    have hnone : (apps.countP fun app => app.updatecheck.isNone) =
        apps.countP fun app => decide ¬app.updatecheck.isSome = true :=
      List.countP_congr fun app _ => by cases app.updatecheck <;> simp
    omega
  have hevent : (∀ app ∈ apps, app.updatecheck.isSome = false) ↔
      (apps.countP fun app => app.updatecheck.isSome) = 0 := by
    rw [List.countP_eq_zero]
    exact forall₂_congr fun app _ => Bool.not_eq_true _ |>.symm ▸ Iff.rfl
  have hupdate : (∀ app ∈ apps, app.updatecheck.isSome = true) ↔
      (apps.countP fun app => app.updatecheck.isSome) = apps.length :=
    List.countP_eq_length.symm
  simp only [requestTypeOf]
  cases requestType with
  | EVENT =>
    rw [Classified, hevent]
    split
    · next h => exact iff_of_true rfl h
    · next h =>
      refine iff_of_false (fun he => ?_) h
      split at he
      · cases he
      · split at he <;> cases he
  | INSTALL =>
    rw [Classified]
    split
    · next h => exact iff_of_false (fun he => by cases he) fun hc => by omega
    · split
      · next h₀ h => exact iff_of_true rfl ⟨by omega, by omega⟩
      · next h₀ h =>
        refine iff_of_false (fun he => ?_) fun hc => by omega
        split at he <;> cases he
  | UPDATE =>
    rw [Classified, hupdate]
    split
    · next h => exact iff_of_false (fun he => by cases he) fun hc => by omega
    · split
      · next h₀ h => exact iff_of_false (fun he => by cases he) fun hc => by omega
      · split
        · next h₀ h₁ h => exact iff_of_true rfl ⟨by omega, h⟩
        · next h₀ h₁ h => exact iff_of_false (fun he => by cases he) fun hc => h hc.2

/-- What the apps keep of their elements. -/
theorem map_parsed {γ : Type} {f : ParsedApp → γ} {g : AppElement → γ}
    (hfg : ∀ app request, Parsed app request → f request = g app) {requests : List ParsedApp}
    (h : List.Forall₂ Parsed apps requests) : requests.map f = apps.map g := by
  induction h with
  | nil => rfl
  | cons hp _ ih => rw [List.map_cons, List.map_cons, ih, hfg _ _ hp]

theorem map_version {requests : List ParsedApp} (h : List.Forall₂ Parsed apps requests) :
    (requests.map fun app => some app.version) = apps.map AppElement.version :=
  map_parsed (fun _ _ hp => hp.version) h

theorem map_track {requests : List ParsedApp} (h : List.Forall₂ Parsed apps requests) :
    requests.map ParsedApp.track = apps.map AppElement.track :=
  map_parsed (fun _ _ hp => hp.track) h

theorem map_board {requests : List ParsedApp} (h : List.Forall₂ Parsed apps requests) :
    requests.map ParsedApp.board = apps.map AppElement.board :=
  map_parsed (fun _ _ hp => hp.board) h

theorem checkVersion_ok_iff {requests : List ParsedApp} (h : List.Forall₂ Parsed apps requests) :
    ParsedRequest.checkVersion requestType requests = .ok version ↔
      VersionsAgree apps requestType version := by
  have hsome : none ∉ requests.map fun app => some app.version := fun hin => by
    obtain ⟨app, -, happ⟩ := List.mem_map.mp hin
    cases happ
  unfold ParsedRequest.checkVersion VersionsAgree
  by_cases htype : requestType = .UPDATE
  · rw [if_pos htype, if_pos htype, check_ok_iff, map_version h]
    rw [map_version h] at hsome
    exact and_iff_right fun _ => hsome
  · rw [if_neg htype, if_neg htype, check_ok_iff, map_version h]
    exact and_iff_right fun hfalse => by cases hfalse

theorem exists_parseRequest_iff (hevents : ∀ app ∈ apps, EventOk app) :
    (∃ requests, parseRequest apps = .ok ⟨requestType, requests, version, track, board⟩) ↔
      Accepted apps requestType version track board := by
  constructor
  · rintro ⟨requests, h⟩
    obtain ⟨requestType', htype, h⟩ := bind_eq_ok h
    obtain ⟨requests', hrequests, h⟩ := bind_eq_ok h
    obtain ⟨version', hversion, h⟩ := bind_eq_ok h
    obtain ⟨track', htrack, h⟩ := bind_eq_ok h
    obtain ⟨board', hboard, h⟩ := bind_eq_ok h
    split at h
    · cases h
    · next hpresent =>
      cases h
      obtain ⟨hnamed, hparsed⟩ := ok_of_parseApps hrequests
      rw [map_track hparsed, check_ok_iff] at htrack
      rw [map_board hparsed, check_ok_iff] at hboard
      exact ⟨requestTypeOf_ok_iff.mp htype, fun app happ => (hnamed app happ).2,
        (checkVersion_ok_iff hparsed).mp hversion,
        ⟨fun hnone => hpresent (.inl hnone), htrack.2⟩, fun hnone =>
          hpresent (.inr hnone), hboard.2⟩
  · intro h
    obtain ⟨requests, hrequests⟩ :=
      exists_parseApps requestType fun app happ => ⟨hevents app happ, h.named app happ⟩
    have hparsed := (ok_of_parseApps hrequests).2
    have htrack : checkAttributesAndReturnIt "track" (requests.map ParsedApp.track) false none =
        .ok track := by
      rw [map_track hparsed, check_ok_iff]
      exact ⟨fun hfalse => (by cases hfalse), h.track.2⟩
    have hboard : checkAttributesAndReturnIt "board" (requests.map ParsedApp.board) false none =
        .ok board := by
      rw [map_board hparsed, check_ok_iff]
      exact ⟨fun hfalse => (by cases hfalse), h.board.2⟩
    have hpresent : ¬(track = none ∨ board = none) := fun hnone => hnone.elim h.track.1 h.board.1
    refine ⟨requests, ?_⟩
    simp only [parseRequest, requestTypeOf_ok_iff.mpr h.classified, hrequests,
      (checkVersion_ok_iff hparsed).mpr h.version, htrack,
      hboard, bind, Except.bind, if_neg hpresent]
    rfl

theorem Classified.perm (h : Classified apps requestType) (hperm : apps.Perm apps') :
    Classified apps' requestType := by
  cases requestType with
  | EVENT => exact fun app happ => h app (hperm.mem_iff.mpr happ)
  | INSTALL => exact ⟨hperm.length_eq ▸ h.1, (hperm.countP_eq _).symm.trans h.2⟩
  | UPDATE => exact ⟨hperm.length_eq ▸ h.1, fun app happ => h.2 app (hperm.mem_iff.mpr happ)⟩

theorem Accepted.perm (h : Accepted apps requestType version track board)
    (hperm : apps.Perm apps') :
    Accepted apps' requestType version track board where
  classified := h.classified.perm hperm
  named := fun app happ => h.named app (hperm.mem_iff.mpr happ)
  version := Common.perm h.version (hperm.map _)
  track := ⟨h.track.1, h.track.2.perm (hperm.map _)⟩
  board := ⟨h.board.1, h.board.2.perm (hperm.map _)⟩

/-- What a request is accepted as, in any order of its apps. -/
theorem parseRequest_accepts (hevents : ∀ app ∈ apps, EventOk app) :
    (∀ requestType version track board,
      (∃ requests, parseRequest apps = .ok ⟨requestType, requests, version, track, board⟩) ↔
        Accepted apps requestType version track board) ∧
    ∀ apps', apps.Perm apps' → ∀ requestType version track board,
      (∃ requests, parseRequest apps = .ok ⟨requestType, requests, version, track, board⟩) ↔
        ∃ requests, parseRequest apps' = .ok ⟨requestType, requests, version, track, board⟩ := by
  refine ⟨fun requestType version track board => exists_parseRequest_iff hevents, ?_⟩
  intro apps' hperm requestType version track board
  have hevents' : ∀ app ∈ apps', EventOk app := fun app happ => hevents app (hperm.mem_iff.mpr happ)
  rw [exists_parseRequest_iff hevents, exists_parseRequest_iff hevents']
  exact ⟨fun h => h.perm hperm, fun h => h.perm hperm.symm⟩

end

/-! ## Errors -/

theorem requestTypeOf_error {apps : List AppElement} {e : ParseError}
    (h : requestTypeOf apps = .error e) :
    ∃ message, e = .invalidRequestError message := by
  simp only [requestTypeOf] at h
  split at h
  · cases h
  · split at h
    · cases h
    · split at h
      · cases h
      · cases h
        exact ⟨_, rfl⟩

/-- No app with an ill-formed event comes first among those that cannot be parsed. -/
def EventsRead (apps : List AppElement) : Prop :=
  ∀ pre app post, apps = pre ++ app :: post → (∀ app ∈ pre, EventOk app ∧ Named app) → EventOk app

theorem parseRequest_error {apps : List AppElement} {e : ParseError}
    (h : parseRequest apps = .error e) :
    (∃ message, e = .invalidRequestError message) ↔
      ((∃ requestType, requestTypeOf apps = .ok requestType) → EventsRead apps) := by
  cases htype : requestTypeOf apps with
  | error e' =>
    simp only [parseRequest, htype] at h
    cases h
    exact iff_of_true (requestTypeOf_error htype) fun hok => by
      obtain ⟨_, hok⟩ := hok
      cases hok
  | ok requestType =>
    have htrue : (∃ requestType', (Except.ok requestType : Except ParseError RequestType) =
      .ok requestType') := ⟨requestType, rfl⟩
    rw [forall_prop_of_true htrue]
    cases hrequests : parseApps requestType apps with
    | error e' =>
      simp only [parseRequest, htype, hrequests, bind, Except.bind] at h
      cases h
      exact parseApps_error hrequests
    | ok requests =>
      -- all events have been read; what fails now fails in a check
      have hread : EventsRead apps := by
        intro pre app post happs _
        exact ((ok_of_parseApps hrequests).1 app
          (by rw [happs]; exact List.mem_append_right _ List.mem_cons_self)).1
      refine iff_of_true ?_ hread
      simp only [parseRequest, htype, hrequests, bind, Except.bind] at h
      cases hversion : ParsedRequest.checkVersion requestType requests with
      | error e' =>
        rw [hversion] at h
        cases h
        unfold ParsedRequest.checkVersion at hversion
        by_cases hupdate : requestType = .UPDATE
        · rw [if_pos hupdate] at hversion
          exact check_error hversion
        · rw [if_neg hupdate] at hversion
          exact check_error hversion
      | ok version =>
        rw [hversion] at h
        cases htrack : checkAttributesAndReturnIt "track"
            (requests.map ParsedApp.track) false none with
        | error e' =>
          rw [htrack] at h
          cases h
          exact check_error htrack
        | ok track =>
          rw [htrack] at h
          cases hboard : checkAttributesAndReturnIt "board"
              (requests.map ParsedApp.board) false none with
          | error e' =>
            rw [hboard] at h
            cases h
            exact check_error hboard
          | ok board =>
            rw [hboard] at h
            by_cases hnone : track = none ∨ board = none
            · simp only [if_pos hnone] at h
              cases h
              exact ⟨_, rfl⟩
            · simp only [if_neg hnone] at h
              cases h

/-- Nothing but `InvalidRequestError` is raised. -/
theorem init_raises_iff (fromstring : String → Except String (List AppElement))
    (requestStr : String) :
    (∀ e, requestInit fromstring requestStr = .error e →
      ∃ message, e = .invalidRequestError message) ↔
      ∀ apps, fromstring requestStr = .ok apps →
        (∃ requestType, requestTypeOf apps = .ok requestType) → EventsRead apps := by
  unfold requestInit
  cases htree : fromstring requestStr with
  | error err =>
    refine iff_of_true (fun e h => ?_) fun apps h => by cases h
    cases h
    exact ⟨_, rfl⟩
  | ok apps =>
    constructor
    · intro h apps' happs htype
      cases happs
      cases hparse : parseRequest apps with
      | error e => exact (parseRequest_error hparse).mp (h e hparse) htype
      | ok request =>
        intro pre app post happs _
        obtain ⟨requestType, _, hp⟩ := bind_eq_ok hparse
        obtain ⟨requests, hrequests, _⟩ := bind_eq_ok hp
        exact ((ok_of_parseApps hrequests).1 app
          (by rw [happs]; exact List.mem_append_right _ List.mem_cons_self)).1
    · intro h e hparse
      exact (parseRequest_error hparse).mpr (h apps rfl)

/-! ## A few apps -/

/-- A platform app with an updatecheck and this event. -/
def eventElement (event : Option EventTag) : AppElement :=
  ⟨some "platform", some "1.2.3", some "stable-channel", some "eve", none, some none, event, false⟩

/-- The platform reports an update, and asks for two more apps, one of which it has in no version
yet. -/
def installElements : List AppElement :=
  [{ eventElement (some ⟨some "3", some "1", some "1.2.0"⟩) with updatecheck := none,
                                                                 ping := true },
    { eventElement none with appid := some "dlc", version := some VERSION_ZERO },
    { eventElement (some ⟨some " 13 ", none, none⟩) with appid := some "minios" }]

theorem parseRequest_accepts_install :
    (∃ requests, parseRequest installElements =
      .ok ⟨.INSTALL, requests, some "1.2.3", some "stable-channel", some "eve"⟩) ∧
    ∃ requests, parseRequest installElements.reverse =
      .ok ⟨.INSTALL, requests, some "1.2.3", some "stable-channel", some "eve"⟩ := by
  have hevents : ∀ app ∈ installElements, EventOk app := by
    intro app happ event hevent
    simp only [installElements, List.mem_cons, List.not_mem_nil, or_false] at happ
    rcases happ with rfl | rfl | rfl <;> cases hevent
    · exact ⟨⟨_, rfl, by decide⟩, fun s hs => Option.some.inj hs ▸ by decide⟩
    · exact ⟨⟨_, rfl, by decide⟩, fun s hs => by cases hs⟩
  have haccepted : Accepted installElements .INSTALL (some "1.2.3") (some "stable-channel")
      (some "eve") := by
    refine ⟨⟨by decide, by decide⟩, ?_, ⟨by decide, by decide⟩, ⟨by decide, by decide, by decide⟩,
      ⟨by decide, by decide, by decide⟩⟩
    intro app happ
    simp only [installElements, List.mem_cons, List.not_mem_nil, or_false] at happ
    rcases happ with rfl | rfl | rfl <;> exact ⟨rfl, rfl⟩
  obtain ⟨hiff, hperm⟩ := parseRequest_accepts hevents
  have hinstall := (hiff _ _ _ _).mpr haccepted
  exact ⟨hinstall, (hperm _ (List.reverse_perm _).symm _ _ _ _).mp hinstall⟩

/-- An event without its type. -/
theorem init_raises_typeError :
    requestInit (fun _ => .ok [eventElement (some ⟨none, none, none⟩)]) "" = .error .typeError ∧
      requestInit (fun _ => .ok [eventElement (some ⟨some "one", none, none⟩)]) "" =
        .error .valueError :=
  ⟨rfl, by decide⟩

end Nebraska
