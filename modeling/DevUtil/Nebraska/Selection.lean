import DevUtil.Nebraska.AppIndex

/-!
# What the apps of one request are served

A payload is eligible for an app by its kind alone, and reaches it through one
of four tiers of App IDs.  The first tier with an eligible entry is the only one
that counts, whether or not its entries have been served before.

* `Selected`: what an app gets, in these terms.
* `served_selected`: every app of a request gets that, and no payload is served twice.

An install request is served full payloads only, whatever `full_payload` says.
-/

namespace Nebraska

open Lib

/-! ## Tiers -/

/-- The ways in which the App IDs may fit, the preferred one first. -/
inductive Tier
  | exactAppid
  | canaryAppid
  | partialAppid
  | anyAppid
deriving DecidableEq, Repr

def Tier.accepts (request : AppRequest) (d : AppData) : Tier → Bool
  | .exactAppid => d.appid == request.appid
  | .canaryAppid => d.canaryAppid == request.appid
  | .partialAppid => isSubstring d.appid request.appid
  | .anyAppid => true

/-- The eligible entries of a tier. -/
def AppIndex.tier (index : AppIndex) (request : AppRequest) (t : Tier) : List AppData :=
  index.entries.filter fun d => t.accepts request d && request.eligible d

/-- The tiers to try; any App ID only for updates, and only if `ignore_appid` is set. -/
def AppRequest.tiers (request : AppRequest) (ignoreAppid : Bool) : List Tier :=
  [.exactAppid, .canaryAppid, .partialAppid] ++
    if request.requestType = .UPDATE ∧ ignoreAppid then [.anyAppid] else []

/-- The first tier that is not empty. -/
def AppIndex.firstTier (index : AppIndex) (request : AppRequest) (ignoreAppid : Bool) :
    List AppData :=
  (((request.tiers ignoreAppid).map (index.tier request)).find? fun ms => !ms.isEmpty).getD []

/-! ## What an app may be served -/

def AppRequest.asks (request : AppRequest) : Bool :=
  match request.requestType with
  | .UPDATE => true
  | .INSTALL => request.hasUpdateCheck
  | .EVENT => false

/-- `full_payload` lets the app have a payload of this kind. -/
def AppRequest.allows (request : AppRequest) (fullPayload : Option Bool) (d : AppData) : Bool :=
  if d.isDelta then request.deltaOkay && fullPayload != some true
  else fullPayload != some false || request.requestType == .INSTALL

/-- What an app gets if `taken` has been served to the apps before it. -/
structure Selected (index : AppIndex) (ignoreAppid : Bool) (fullPayload : Option Bool)
    (request : AppRequest) (taken : List AppData) (served : Option AppData) : Prop where
  from_tier : ∀ d ∈ served, d ∈ index.firstTier request ignoreAppid
  delta_only : ∀ d ∈ served, d.isDelta = true →
    request.requestType = .UPDATE ∧ request.deltaOkay = true
  no_delta : fullPayload = some true → ∀ d ∈ served, d.isDelta = false
  no_full : fullPayload = some false → request.requestType = .UPDATE →
    ∀ d ∈ served, d.isDelta = true
  delta_preferred : fullPayload = none → request.requestType = .UPDATE → request.deltaOkay = true →
    (∃ d ∈ index.firstTier request ignoreAppid, d ∉ taken ∧ d.isDelta = true) →
      ∃ d ∈ served, d.isDelta = true
  none_only : request.asks = true → served = none →
    ∀ d ∈ index.firstTier request ignoreAppid, d ∉ taken → request.allows fullPayload d = false

/-- The index that a request is answered from. -/
def NebraskaProperties.appIndex (props : NebraskaProperties) : RequestType → AppIndex
  | .INSTALL => props.installAppIndex
  | _ => props.updateAppIndex

/-! ## Matches -/

theorem matchAppData_eq (request : AppRequest) (d : AppData)
    (partialMatch canary ignoreAppid : Bool) :
    request.matchAppData d partialMatch canary ignoreAppid =
      ((ignoreAppid || d.appid == request.appid ||
        (if partialMatch then isSubstring d.appid request.appid
          else canary && d.canaryAppid == request.appid)) && request.eligible d) := by
  unfold AppRequest.matchAppData
  by_cases h : d.appid = request.appid
  · simp [h]
  · have hne : (d.appid == request.appid) = false := beq_eq_false_iff_ne.mpr h
    have hne' : (request.appid == d.appid) = false := beq_eq_false_iff_ne.mpr fun he => h he.symm
    simp only [hne, hne', bne]
    generalize (d.canaryAppid == request.appid) = canaryFits
    cases canaryFits <;> cases ignoreAppid <;> cases partialMatch <;> cases canary <;> simp

theorem isSubstring_self (a : String) : isSubstring a a = true := decide_eq_true (List.infix_refl _)

theorem tier_exact (index : AppIndex) (request : AppRequest) :
    (index.entries.filter fun d => request.matchAppData d false false false) =
      index.tier request .exactAppid := by
  apply List.filter_congr
  intro d _
  simp [matchAppData_eq, Tier.accepts]

/-- When no eligible entry has the App ID itself, the canary tier is what the second pass finds. -/
theorem tier_canary (index : AppIndex) (request : AppRequest)
    (h : index.tier request .exactAppid = []) :
    (index.entries.filter fun d => request.matchAppData d false true false) =
      index.tier request .canaryAppid := by
  apply List.filter_congr
  intro d hd
  have hexact := List.filter_eq_nil_iff.mp h d hd
  rw [matchAppData_eq]
  by_cases he : d.appid = request.appid
  · have hno : request.eligible d = false := by simpa [Tier.accepts, he] using hexact
    simp [hno]
  · have hne : (d.appid == request.appid) = false := beq_eq_false_iff_ne.mpr he
    simp [Tier.accepts, hne]

theorem tier_partial (index : AppIndex) (request : AppRequest) :
    (index.entries.filter fun d => request.matchAppData d true false false) =
      index.tier request .partialAppid := by
  apply List.filter_congr
  intro d _
  rw [matchAppData_eq]
  by_cases he : d.appid = request.appid
  · simp [Tier.accepts, he, isSubstring_self]
  · have hne : (d.appid == request.appid) = false := beq_eq_false_iff_ne.mpr he
    simp [Tier.accepts, hne]

theorem tier_any (index : AppIndex) (request : AppRequest) :
    (index.entries.filter fun d => request.matchAppData d false false true) =
      index.tier request .anyAppid := by
  apply List.filter_congr
  intro d _
  simp [matchAppData_eq, Tier.accepts]

/-- The passes of `Find` stop at the first tier that is not empty. -/
theorem matches_eq (index : AppIndex) (request : AppRequest) (ignoreAppid : Bool)
    (h : request.requestType = .UPDATE ∨ ignoreAppid = false) :
    index.matches request ignoreAppid = index.firstTier request ignoreAppid := by
  unfold AppIndex.matches AppIndex.firstTier AppRequest.tiers
  simp only [tier_exact, tier_partial, tier_any]
  by_cases hexact : index.tier request .exactAppid = []
  · simp only [tier_canary index request hexact, hexact]
    by_cases hcanary : index.tier request .canaryAppid = []
    · by_cases hpartial : index.tier request .partialAppid = []
      · by_cases hignore : ignoreAppid = true
        · have htype : request.requestType = .UPDATE := h.resolve_right (by simp [hignore])
          by_cases hany : index.tier request .anyAppid = []
          · simp [hexact, hcanary, hpartial, hignore, htype, hany]
          · simp [hexact, hcanary, hpartial, hignore, htype, hany]
        · simp [hexact, hcanary, hpartial, hignore]
      · simp [hexact, hcanary, hpartial]
    · simp [hexact, hcanary]
  · simp [hexact]

theorem mem_firstTier {index : AppIndex} {request : AppRequest} {ignoreAppid : Bool} {d : AppData}
    (h : d ∈ index.firstTier request ignoreAppid) :
    d ∈ index.entries ∧ request.eligible d = true := by
  unfold AppIndex.firstTier at h
  cases hfind : ((request.tiers ignoreAppid).map (index.tier request)).find? fun ms =>
      !ms.isEmpty with
  | none =>
    rw [hfind] at h
    cases h
  | some ms =>
    rw [hfind] at h
    obtain ⟨t, -, rfl⟩ := List.mem_map.mp (List.mem_of_find?_eq_some hfind)
    obtain ⟨hd, hfits⟩ := List.mem_filter.mp h
    exact ⟨hd, (Bool.and_eq_true_iff.mp hfits).2⟩

theorem update_of_eligible {request : AppRequest} {d : AppData} (h : request.eligible d = true)
    (hdelta : d.isDelta = true) : request.requestType = .UPDATE ∧ request.deltaOkay = true := by
  unfold AppRequest.eligible at h
  cases htype : request.requestType with
  | UPDATE => simpa [htype, hdelta] using h
  | INSTALL => simp [htype, hdelta] at h
  | EVENT => simp [htype] at h

/-! ## Find -/

/-- The matches that have not been served. -/
def AppIndex.unserved (index : AppIndex) (request : AppRequest) (taken : List AppData)
    (ignoreAppid : Bool) :
    List AppData :=
  (index.matches request ignoreAppid).filter fun d => !(taken.map AppData.ref).contains d.ref

/-- `Find` case by case. -/
theorem find_eq (index : AppIndex) (request : AppRequest) (taken : List AppData)
    (fullPayload : Option Bool) (ignoreAppid : Bool) :
    index.find request taken fullPayload ignoreAppid =
      let ms := index.unserved request taken ignoreAppid
      match fullPayload, request.deltaOkay with
      | none, true => (ms.find? (·.isDelta)).or (ms.find? (!·.isDelta))
      | some false, true => ms.find? (·.isDelta)
      | some false, false => none
      | _, _ => ms.find? (!·.isDelta) := by
  unfold AppIndex.find AppIndex.unserved
  generalize (index.matches request ignoreAppid).filter _ = ms
  cases hokay : request.deltaOkay with
  | false => rcases fullPayload with _ | _ | _ <;> simp
  | true =>
    rcases fullPayload with _ | _ | _
    · cases hdelta : ms.find? (·.isDelta) <;> simp [hdelta]
    · simp
    · simp

section

variable {index : AppIndex} {request : AppRequest} {taken : List AppData} {ignoreAppid : Bool}

/-- Among entries of the index, not served means not yet one of those served. -/
theorem mem_unserved (htaken : ∀ d ∈ taken, d ∈ index.entries)
    (htype : request.requestType = .UPDATE ∨ ignoreAppid = false) {d : AppData} :
    d ∈ index.unserved request taken ignoreAppid ↔
      d ∈ index.firstTier request ignoreAppid ∧ d ∉ taken := by
  unfold AppIndex.unserved
  rw [List.mem_filter, matches_eq index request ignoreAppid htype]
  constructor
  · rintro ⟨hd, hnot⟩
    refine ⟨hd, fun hmem => ?_⟩
    simp only [Bool.not_eq_true', List.contains_eq_mem, decide_eq_false_iff_not] at hnot
    exact hnot (List.mem_map_of_mem hmem)
  · rintro ⟨hd, hnot⟩
    refine ⟨hd, ?_⟩
    simp only [Bool.not_eq_true', List.contains_eq_mem, decide_eq_false_iff_not]
    intro href
    obtain ⟨d', hd', heq⟩ := List.mem_map.mp href
    have hsame : d' = d :=
      List.inj_on_of_nodup_map index.nodup (htaken d' hd') (mem_firstTier hd).1 heq
    exact hnot (hsame ▸ hd')

theorem mem_of_find {fullPayload : Option Bool} {d : AppData}
    (h : index.find request taken fullPayload ignoreAppid = some d) :
    d ∈ index.unserved request taken ignoreAppid := by
  rw [find_eq] at h
  dsimp only at h
  split at h
  · rcases Option.or_eq_some_iff.mp h with h | ⟨-, h⟩
    · exact List.mem_of_find?_eq_some h
    · exact List.mem_of_find?_eq_some h
  · exact List.mem_of_find?_eq_some h
  · cases h
  · exact List.mem_of_find?_eq_some h

/-- `Find` finds an entry of the index that has not been served. -/
theorem new_of_find (htype : request.requestType = .UPDATE ∨ ignoreAppid = false)
    {fullPayload : Option Bool} {d : AppData}
    (h : index.find request taken fullPayload ignoreAppid = some d) :
    d ∈ index.entries ∧ d ∉ taken := by
  obtain ⟨hd, hnot⟩ := List.mem_filter.mp (mem_of_find h)
  rw [matches_eq index request ignoreAppid htype] at hd
  refine ⟨(mem_firstTier hd).1, fun hmem => ?_⟩
  simp only [Bool.not_eq_true', List.contains_eq_mem, decide_eq_false_iff_not] at hnot
  exact hnot (List.mem_map_of_mem hmem)

/-- Find for an update. -/
theorem find_selected (htaken : ∀ d ∈ taken, d ∈ index.entries)
    (htype : request.requestType = .UPDATE) (fullPayload : Option Bool) :
    Selected index ignoreAppid fullPayload request taken
      (index.find request taken fullPayload ignoreAppid) := by
  have hmem : ∀ d, d ∈ index.unserved request taken ignoreAppid ↔
      d ∈ index.firstTier request ignoreAppid ∧ d ∉ taken :=
        fun d => mem_unserved htaken (.inl htype)
  have htier : ∀ d ∈ index.find request taken fullPayload ignoreAppid,
      d ∈ index.firstTier request ignoreAppid := fun d hd => ((hmem d).mp (mem_of_find hd)).1
  refine ⟨htier, fun d hd => update_of_eligible (mem_firstTier (htier d hd)).2, ?_, ?_, ?_, ?_⟩
  · rintro rfl d hd
    rw [find_eq] at hd
    simpa using List.find?_some (Option.mem_def.mp hd)
  · rintro rfl - d hd
    rw [find_eq] at hd
    cases hokay : request.deltaOkay with
    | false => simp [hokay] at hd
    | true =>
      rw [hokay] at hd
      simpa using List.find?_some (Option.mem_def.mp hd)
  · rintro rfl - hokay ⟨d, hd, hnew, hdelta⟩
    rw [find_eq, hokay]
    cases hfind : (index.unserved request taken ignoreAppid).find? (·.isDelta) with
    | none => exact absurd hdelta (List.find?_eq_none.mp hfind d ((hmem d).mpr ⟨hd, hnew⟩))
    | some e => exact ⟨e, by simp [hfind], by simpa using List.find?_some hfind⟩
  · intro _ hnone d hd hnew
    have hunserved := (hmem d).mpr ⟨hd, hnew⟩
    rw [find_eq] at hnone
    have hno : ∀ p : AppData → Bool, (index.unserved request taken ignoreAppid).find? p = none →
        p d = false :=
      fun p hp => by simpa using List.find?_eq_none.mp hp d hunserved
    have hfull : (index.unserved request taken ignoreAppid).find? (!·.isDelta) = none →
        d.isDelta = true :=
      fun h => by simpa using hno _ h
    have hdelta : (index.unserved request taken ignoreAppid).find? (·.isDelta) = none →
        d.isDelta = false :=
      fun h => hno _ h
    unfold AppRequest.allows
    cases hokay : request.deltaOkay with
    | false =>
      rw [hokay] at hnone
      rcases fullPayload with _ | _ | _
      · simp [hfull hnone]
      · cases d.isDelta <;> simp [htype]
      · simp [hfull hnone]
    | true =>
      rw [hokay] at hnone
      rcases fullPayload with _ | _ | _
      · have hor := Option.or_eq_none_iff.mp hnone
        exact absurd (hfull hor.2) (by simp [hdelta hor.1])
      · simp [hdelta hnone, htype]
      · simp [hfull hnone]

/-- Find for an install: full payloads, whatever `full_payload` says. -/
theorem find_selected_install (htaken : ∀ d ∈ taken, d ∈ index.entries)
    (htype : request.requestType = .INSTALL) (fullPayload : Option Bool) (ignore : Bool) :
    Selected index ignore fullPayload request taken
      (index.find request taken (some true) false) := by
  have htiers : index.firstTier request ignore = index.firstTier request false := by
    unfold AppIndex.firstTier AppRequest.tiers
    simp [htype]
  have hmem : ∀ d, d ∈ index.unserved request taken false ↔
      d ∈ index.firstTier request false ∧ d ∉ taken := fun d => mem_unserved htaken (.inr rfl)
  have hfull : ∀ d ∈ index.firstTier request false, d.isDelta = false := by
    intro d hd
    have heligible := (mem_firstTier hd).2
    simpa [AppRequest.eligible, htype] using heligible
  have htier : ∀ d ∈ index.find request taken (some true) false,
      d ∈ index.firstTier request false :=
    fun d hd => ((hmem d).mp (mem_of_find hd)).1
  refine ⟨htiers ▸ htier, ?_, fun _ d hd => hfull d (htier d hd), ?_, ?_, ?_⟩
  · intro d hd hdelta
    exact absurd hdelta (by simp [hfull d (htier d hd)])
  · intro _ hupdate
    exact absurd hupdate (by simp [htype])
  · intro _ hupdate
    exact absurd hupdate (by simp [htype])
  · rw [htiers]
    intro _ hnone d hd hnew
    rw [find_eq] at hnone
    have hno := List.find?_eq_none.mp hnone d ((hmem d).mpr ⟨hd, hnew⟩)
    exact absurd (hfull d hd) (by simpa using hno)

end

/-- An app that asks for nothing gets nothing. -/
theorem selected_none {index : AppIndex} {ignoreAppid : Bool} {fullPayload : Option Bool}
    {request : AppRequest} {taken : List AppData} (h : request.asks = false) :
    Selected index ignoreAppid fullPayload request taken none where
  from_tier := by simp
  delta_only := by simp
  no_delta := by simp
  no_full := by simp
  delta_preferred _ htype := by simp [AppRequest.asks, htype] at h
  none_only hasks := by simp [h] at hasks

/-! ## A whole request -/

section

variable {props : NebraskaProperties} {resp : ResponseProperties}

theorem appData_selected (h : resp.noUpdate = false) (request : AppRequest) {taken : List AppData}
    (htaken : ∀ d ∈ taken, d ∈ (props.appIndex request.requestType).entries) :
    Selected (props.appIndex request.requestType) props.ignoreAppid resp.fullPayload request taken
      (appData props resp request taken) := by
  unfold appData
  rw [h]
  cases htype : request.requestType with
  | UPDATE =>
    rw [htype] at htaken
    exact find_selected htaken htype _
  | INSTALL =>
    rw [htype] at htaken
    cases hcheck : request.hasUpdateCheck with
    | true => exact find_selected_install htaken htype _ _
    | false => exact selected_none (by simp [AppRequest.asks, htype, hcheck])
  | EVENT => exact selected_none (by simp [AppRequest.asks, htype])

theorem appData_new {request : AppRequest} {taken : List AppData} {d : AppData}
    (h : appData props resp request taken = some d) :
    d ∈ (props.appIndex request.requestType).entries ∧ d ∉ taken := by
  unfold appData at h
  split at h
  · cases h
  · split at h
    · next htype =>
      rw [htype]
      split at h
      · exact new_of_find (.inr rfl) h
      · cases h
    · next htype =>
      rw [htype]
      exact new_of_find (.inl htype) h
    · cases h

/-- The payloads that a request is served, app by app: each is an entry of the index, none
is served twice, and each app gets what `Selected` says. -/
theorem served_selected (request : Request) (props : NebraskaProperties) (resp : ResponseProperties)
    (h : resp.noUpdate = false) :
    ((request.served props resp).reduceOption.map AppData.ref).Nodup ∧
    (∀ d ∈ (request.served props resp).reduceOption,
      d ∈ (props.appIndex request.requestType).entries) ∧
    ∀ i r, request.appRequests[i]? = some r →
      ∃ served, (request.served props resp)[i]? = some served ∧
      Selected (props.appIndex request.requestType) props.ignoreAppid resp.fullPayload r
        ((request.served props resp).take i).reduceOption served := by
  have hentries : ∀ d, some d ∈ request.served props resp →
      d ∈ (props.appIndex request.requestType).entries := by
    intro d hd
    obtain ⟨r, hr, taken, hpick⟩ := mem_serve hd
    rw [← request.sameType r hr]
    exact (appData_new hpick.symm).1
  have hnodup : (request.served props resp).reduceOption.Nodup :=
    nodup_serve (fun _ _ _ hpick => (appData_new hpick).2) List.nodup_nil request.appRequests
  refine ⟨?_, ?_, ?_⟩
  · apply hnodup.map_on
    intro d hd d' hd' href
    exact List.inj_on_of_nodup_map (props.appIndex request.requestType).nodup
      (hentries d (List.reduceOption_mem_iff.mp hd))
        (hentries d' (List.reduceOption_mem_iff.mp hd')) href
  · intro d hd
    exact hentries d (List.reduceOption_mem_iff.mp hd)
  · intro i r hr
    refine ⟨appData props resp r ((request.served props resp).take i).reduceOption, ?_, ?_⟩
    · have hget := serve_getElem? (appData props resp) [] request.appRequests i
      rw [hr] at hget
      exact hget
    · have htype := request.sameType r (List.mem_of_getElem? hr)
      rw [← htype]
      apply appData_selected h
      intro d hd
      rw [htype]
      exact hentries d (List.mem_of_mem_take (List.reduceOption_mem_iff.mp hd))

end

/-! ## Two requests -/

def platformAppid : String := "{11111111-2222-3333-4444-555555555555}"

/-- A full payload for the platform, and a delta and a full one without App ID. -/
def threePayloads : AppIndex where
  entries := [⟨0, platformAppid, false⟩, ⟨1, "", true⟩, ⟨2, "", false⟩]
  nodup := by decide

def threePayloadsProps : NebraskaProperties := ⟨threePayloads, threePayloads, false⟩

/-- The platform and two apps are updated. -/
def updateRequest : Request where
  requestType := .UPDATE
  appRequests :=
    [⟨.UPDATE, platformAppid, true, true⟩, ⟨.UPDATE, "dlc1", true, true⟩,
      ⟨.UPDATE, "dlc2", false, true⟩]
  sameType := by decide

/-- The platform sends no update check, and an app is to be installed. -/
def installRequest : Request where
  requestType := .INSTALL
  appRequests := [⟨.INSTALL, platformAppid, false, false⟩, ⟨.INSTALL, "dlc1", false, true⟩]
  sameType := by decide

example : updateRequest.served threePayloadsProps ⟨false, none⟩ =
    [some ⟨0, platformAppid, false⟩, some ⟨1, "", true⟩, some ⟨2, "", false⟩] := by decide

theorem served_selected_update :
    ((updateRequest.served threePayloadsProps ⟨false, none⟩).reduceOption.map AppData.ref).Nodup :=
  (served_selected updateRequest threePayloadsProps ⟨false, none⟩ rfl).1

/-- An install is served a full payload although `full_payload` is False. -/
theorem install_served_full :
    ¬ ∀ (request : Request) (props : NebraskaProperties) (resp : ResponseProperties),
    resp.noUpdate = false → resp.fullPayload = some false →
      ∀ d ∈ (request.served props resp).reduceOption, d.isDelta = true := by
  intro h
  have hdelta :=
    h installRequest threePayloadsProps ⟨false, some false⟩ rfl rfl ⟨2, "", false⟩ (by decide)
  exact absurd hdelta (by decide)

end Nebraska
