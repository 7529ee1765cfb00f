import DevUtil.Variant.Abort
import DevUtil.Variant.Resume

/-!
# What the steps look up

The steps after the commits look entries up in `status.commits`.  `Facts` says which
entries there are before a step of a board, and which of them have a CL; a board whose
lists fit its steps raises no `KeyError`.

    the facts hold where a step begins       (Knows, ensures_performStep_knows)
    exactly one board names what no step of it stores       (noKeyError_iff)
-/

namespace Variant

open Lib Prog

/-! ## Facts -/

/-- Entries that there are, and entries with a CL. -/
structure Facts where
  stored : List StepName
  withCl : List StepName

/-- What is known after the step `n`. -/
def Facts.after (b : Board) (f : Facts) (n : StepName) : Facts :=
  match commitKey n with
  | some key => ⟨key :: f.stored, f.withCl.filter (· ≠ key)⟩
  | none =>
    match n with
    | .push => ⟨f.stored, b.corebootPushList ++ f.withCl⟩
    | .upload => ⟨f.stored, b.repoUploadList ++ f.withCl⟩
    | .find => ⟨.find :: f.stored, .find :: f.withCl⟩
    | _ => f

/-- The step `n` finds what it looks up. -/
def Facts.suffice (b : Board) (f : Facts) : StepName → Bool
  | .push => b.corebootPushList.all fun key => decide (key ∈ f.stored) && decide (key ≠ .find)
  | .upload => b.repoUploadList.all fun key => decide (key ∈ f.stored) && decide (key ≠ .find)
  | .find => decide (.cbVariant ∈ f.withCl)
  | .calcCqDepend =>
    b.depends.items.all fun entry => (entry.1 :: entry.2).all fun key => decide (key ∈ f.stored)
  | .abort => false
  | _ => true

/-- All of the steps do, one after another. -/
def flows (b : Board) : Facts → List StepName → Bool
  | _, [] => true
  | f, n :: ns => f.suffice b n && flows b (f.after b n) ns

/-- A status of the board `b` at the step `n` of which `f` is true. -/
structure Knows (b : Board) (n : StepName) (f : Facts) (s : Status) : Prop where
  board : OfBoard b s
  step : s.step = some n
  shaped : Shaped s
  stored : ∀ key ∈ f.stored, key ∈ s.commits.keys
  withCl : ∀ key ∈ f.withCl, HasCl s key

section

variable {X : Type} {ext : Sem Call X} {b : Board} {n : StepName} {f : Facts} {s : Status}

theorem mem_keys_store {key k : StepName} {commit : Commit} (h : k ∈ s.commits.keys) :
    k ∈ (s.store key commit).commits.keys := by
  obtain ⟨c, hc⟩ := Dict.mem_keys.mp h
  apply Dict.mem_keys.mpr
  by_cases hk : k = key
  · subst hk
    exact ⟨commit, Dict.get?_set _ _ _⟩
  · exact ⟨c, (Dict.get?_set_of_ne _ hk _).trans hc⟩

theorem self_mem_keys_store {key : StepName} {commit : Commit} :
    key ∈ (s.store key commit).commits.keys :=
  Dict.mem_keys.mpr ⟨commit, Dict.get?_set _ _ _⟩

/-- An entry that keeps its CL. -/
theorem HasCl.store_of {key k : StepName} {commit : Commit} (h : HasCl s k)
    (hcl : ∀ c, s.commits.get? key = some c → c.hasCl = true → commit.hasCl = true) :
    HasCl (s.store key commit) k := by
  obtain ⟨c, hc, hhas⟩ := h
  by_cases hk : k = key
  · subst hk
    exact ⟨commit, Dict.get?_set _ _ _, hcl c hc hhas⟩
  · exact ⟨c, (Dict.get?_set_of_ne _ hk _).trans hc, hhas⟩

theorem Knows.dumped (h : Knows b n f s) : Knows b n f s.dumped where
  board := h.board.dumped
  step := h.step
  shaped := closed_shaped.dumped s h.shaped
  stored := fun key hk => Dict.mem_keys_sorted.mpr (h.stored key hk)
  withCl := by
    intro key hk
    obtain ⟨c, hc, hcl⟩ := h.withCl key hk
    exact ⟨c, (Status.dumped_commits s key).trans hc, hcl⟩

/-- An entry is replaced by one that keeps its CL. -/
theorem Knows.store (h : Knows b n f s) {key : StepName} {commit : Commit}
    (hshaped : Shaped (s.store key commit))
    (hcl : ∀ c, s.commits.get? key = some c → c.hasCl = true → commit.hasCl = true) :
    Knows b n f (s.store key commit) where
  board := ⟨h.board.stepList, h.board.repoUploadList, h.board.corebootPushList, h.board.depends⟩
  step := h.step
  shaped := hshaped
  stored := fun k hk => mem_keys_store (h.stored k hk)
  withCl := fun k hk => (h.withCl k hk).store_of hcl

theorem Knows.made (h : Knows b n f s) {key : StepName} (hkey : key ≠ .find) (branch : Branch)
    (c : ChangeId) (d : Dir) :
    Knows b n ⟨key :: f.stored, f.withCl.filter (· ≠ key)⟩
      (s.store key (Commit.made branch c d)) where
  board := ⟨h.board.stepList, h.board.repoUploadList, h.board.corebootPushList, h.board.depends⟩
  step := h.step
  shaped := closed_shaped.made s key branch c d h.shaped hkey
  stored := by
    intro k hk
    rcases List.mem_cons.mp hk with rfl | hk
    · exact self_mem_keys_store
    · exact mem_keys_store (h.stored k hk)
  withCl := by
    intro k hk
    obtain ⟨hk, hne⟩ := List.mem_filter.mp hk
    obtain ⟨c', hc', hcl⟩ := h.withCl k hk
    exact ⟨c', (Dict.get?_set_of_ne _ (of_decide_eq_true hne) _).trans hc', hcl⟩

theorem Knows.withCls (h : Knows b n f s) {keys : List StepName}
    (hkeys : ∀ key ∈ keys, HasCl s key) :
    Knows b n ⟨f.stored, keys ++ f.withCl⟩ s where
  board := h.board
  step := h.step
  shaped := h.shaped
  stored := h.stored
  withCl := by
    intro key hk
    rcases List.mem_append.mp hk with hk | hk
    · exact hkeys key hk
    · exact h.withCl key hk

/-! ## Steps -/

/-- The exceptions that are not about a key. -/
def NotKeyError (e : Exn) : Prop := e.isKeyError = false

theorem allows_notKeyError : Allows NotKeyError := fun _ h _ => h

theorem Knows.clLoop {keys : List StepName}
    (hkeys : (keys.all fun key => decide (key ∈ f.stored) && decide (key ≠ .find)) = true) :
    ClLoop (Knows b n f) (Knows b n f) NotKeyError keys := by
  have hkey : ∀ key ∈ keys, key ∈ f.stored ∧ key ≠ .find := by
    intro key hk
    simpa using List.all_eq_true.mp hkeys key hk
  have hmade : ∀ s key commit, Knows b n f s → key ∈ keys → s.commits.get? key = some commit →
      commit.IsMade :=
    fun s key commit hs hk hget => hs.shaped.made key commit hget (hkey key hk).2
  refine ⟨fun s hs => hs.dumped, ?_, ?_, ?_, ?_, ?_⟩
  · exact fun s key commit cl hs hget =>
      hs.store (closed_shaped.withCl s key commit cl hs.shaped hget) fun _ _ _ => rfl
  · exact fun s key hs hk hnone => absurd (hs.stored key (hkey key hk).1)
      (Dict.get?_eq_none.mp hnone)
  · exact fun s key commit hs hk hget hnone => absurd hnone (hmade s key commit hs hk hget).changeId
  · exact fun s key commit hs hk hget hnone =>
      absurd hnone (hmade s key commit hs hk hget).branchName
  · exact fun s key commit hs hk hget hnone => absurd hnone (hmade s key commit hs hk hget).dir

theorem after_of_commitKey {key : StepName} (hkey : commitKey n = some key) :
    f.after b n = ⟨key :: f.stored, f.withCl.filter (· ≠ key)⟩ := by
  unfold Facts.after
  rw [hkey]

theorem after_of_check (hn : onlyChecks n = true) : f.after b n = f := by
  cases n <;> first | rfl | cases hn

theorem ensures_push_knows (h : Knows b .push f s) (hsuffice : f.suffice b .push = true) :
    Ensures ext (Knows b .push f) NotKeyError (pushCoreboot s) fun r => r.1 = true →
      Knows b .push (f.after b .push) r.2 := by
  have hloop := @ensures_pushLoop X ext _ _ _ _ allows_notKeyError
    (Knows.clLoop (n := .push) hsuffice) true s h
  unfold pushCoreboot
  rw [h.board.corebootPushList]
  exact hloop.mono fun r hr hrc => hr.1.holds.withCls (hr.1.done hrc)

theorem ensures_upload_knows (h : Knows b .upload f s) (hsuffice : f.suffice b .upload = true) :
    Ensures ext (Knows b .upload f) NotKeyError (uploadCLs s)
      fun r => r.1 = true → Knows b .upload (f.after b .upload) r.2 := by
  have hloop := @ensures_uploadLoop X ext _ _ _ _ allows_notKeyError
    (Knows.clLoop (n := .upload) hsuffice) s h
  unfold uploadCLs
  rw [h.board.repoUploadList]
  exact hloop.mono fun r hr hrc => hr.holds.withCls (hr.done hrc)

theorem Knows.found (h : Knows b .find f s) (hfind : HasCl s .find) :
    Knows b .find (f.after b .find) s where
  board := h.board
  step := h.step
  shaped := h.shaped
  stored := by
    intro key hk
    rcases List.mem_cons.mp hk with rfl | hk
    · obtain ⟨commit, hcommit, -⟩ := hfind
      exact Dict.mem_keys.mpr ⟨commit, hcommit⟩
    · exact h.stored key hk
  withCl := by
    intro key hk
    rcases List.mem_cons.mp hk with rfl | hk
    · exact hfind
    · exact h.withCl key hk

theorem ensures_find_knows (h : Knows b .find f s) (hsuffice : f.suffice b .find = true) :
    Ensures ext (Knows b .find f) NotKeyError (findCorebootUpstream s)
      fun r => r.1 = true → Knows b .find (f.after b .find) r.2 := by
  refine ensures_findCorebootUpstream allows_notKeyError ?_ ?_ ?_ ?_
  · exact fun hfind _ => h.found hfind
  · intro cl _
    have hstore := h.store (closed_shaped.upstream s cl h.shaped) fun _ _ _ => rfl
    exact hstore.found ⟨Commit.upstream cl, Dict.get?_set _ _ _, rfl⟩
  · intro hrc
    cases hrc
  · intro commit hget hnone
    obtain ⟨c, hc, hcl⟩ := h.withCl .cbVariant (of_decide_eq_true hsuffice)
    rw [hget] at hc
    cases hc
    simp [Commit.hasCl, hnone] at hcl

theorem ensures_calc_knows (h : Knows b .calcCqDepend f s)
    (hsuffice : f.suffice b .calcCqDepend = true) :
    Ensures ext (Knows b .calcCqDepend f) NotKeyError (calcCqDepend s) fun r =>
        Knows b .calcCqDepend f r.2 := by
  apply ensures_calcLoop (P := Knows b .calcCqDepend f)
  · intro s key commit cq hs hget
    refine hs.store (closed_shaped.cqDepend s key commit cq hs.shaped hget) fun c hc hcl => ?_
    rw [hget] at hc
    cases hc
    exact hcl
  · intro s' entry hs hentry key hk hnone
    have hentry' : entry ∈ b.depends.items := by
      have hget : s.board.depends.get? entry.1 = some entry.2 := Dict.mem_items.mp hentry
      rw [h.board.depends] at hget
      exact Dict.mem_items.mpr hget
    have hstored := List.all_eq_true.mp (List.all_eq_true.mp hsuffice entry hentry') key hk
    exact absurd (hs.stored key (of_decide_eq_true hstored)) (Dict.get?_eq_none.mp hnone)
  · exact h

/-- The entries that there are when a loop over all of them begins. -/
theorem Knows.withKeys (h : Knows b n f s) :
    Knows b n ⟨s.commits.keys ++ f.stored, f.withCl⟩ s where
  board := h.board
  step := h.step
  shaped := h.shaped
  stored := by
    intro key hk
    rcases List.mem_append.mp hk with hk | hk
    · exact hk
    · exact h.stored key hk
  withCl := h.withCl

theorem Knows.withoutKeys {keys : List StepName} (h : Knows b n ⟨keys ++ f.stored, f.withCl⟩ s) :
    Knows b n f s where
  board := h.board
  step := h.step
  shaped := h.shaped
  stored := fun key hk => h.stored key (List.mem_append_right keys hk)
  withCl := h.withCl

theorem Knows.needs (h : Knows b n f s) {key : StepName} {commit : Commit} {needs : Bool}
    (hget : s.commits.get? key = some commit) (hid : needs = true → commit.changeId ≠ none) :
    Knows b n f (s.store key { commit with needsReUpload := needs }) := by
  refine h.store (closed_shaped.needsReUpload s key commit needs h.shaped hget hid)
    fun c hc hcl => ?_
  rw [hget] at hc
  cases hc
  exact hcl

theorem ensures_add_knows (h : Knows b n f s) :
    Ensures ext (Knows b n f) NotKeyError (addCqDepend s) fun r => Knows b n f r.2 := by
  have hloop :=
    @ensures_addLoop X ext (Knows b n f) _ (Knows b n ⟨s.commits.keys ++ f.stored, f.withCl⟩)
    s.commits.keys allows_notKeyError
    (fun s' key commit hs hget hid => hs.needs hget fun _ => hid)
    (fun s' key hs hk hnone => absurd (hs.stored key (List.mem_append_left _ hk))
      (Dict.get?_eq_none.mp hnone)) s
    h.withKeys
  exact hloop.mono fun r hr => hr.withoutKeys

theorem ensures_reUpload_knows (h : Knows b n f s) :
    Ensures ext (Knows b n f) NotKeyError (reUpload s) fun r => Knows b n f r.2 := by
  have hmade : ∀ s' key (commit : Commit), Knows b n ⟨s.commits.keys ++ f.stored, f.withCl⟩ s' →
      s'.commits.get? key = some commit → commit.needsReUpload = true → commit.IsMade := by
    intro s' key commit hs hget hneeds
    by_cases hfind : key = .find
    · subst hfind
      rw [(hs.shaped.upstream commit hget).needsReUpload] at hneeds
      cases hneeds
    · exact hs.shaped.made key commit hget hfind
  have hloop :=
    @ensures_reUploadLoop X ext (Knows b n f) _ (Knows b n ⟨s.commits.keys ++ f.stored, f.withCl⟩)
    s.commits.keys allows_notKeyError
    (fun s' key commit hs hget => hs.needs hget Bool.noConfusion)
    (fun s' key hs hk hnone => absurd (hs.stored key (List.mem_append_left _ hk))
      (Dict.get?_eq_none.mp hnone))
    (fun s' key commit hs hget hneeds hnone => absurd hnone
      (hmade s' key commit hs hget hneeds).branchName)
    (fun s' key commit hs hget hneeds hnone => absurd hnone
      (hmade s' key commit hs hget hneeds).dir) s h.withKeys
  exact hloop.mono fun r hr => hr.withoutKeys

/-- The status in the file keeps to what is known; after a success there is more. -/
theorem ensures_performStep_knows (h : Knows b n f s) (hsuffice : f.suffice b n = true)
    (hn : n ≠ .cleanUp) :
    Ensures ext (Knows b n f) NotKeyError (performStep s) fun r => r.1 = true →
      Knows b n (f.after b n) r.2 := by
  match hkey : commitKey n with
  | some key =>
    rw [after_of_commitKey hkey]
    refine ensures_commit hkey h.step allows_notKeyError (fun _ branch c d _ => ?_)
      (fun hrc => by cases hrc)
    exact h.made (commitKey_ne_find hkey) branch c d
  | none =>
    by_cases hcheck : onlyChecks n = true
    · rw [after_of_check hcheck]
      exact ensures_check hcheck h.step allows_notKeyError fun _ _ => h
    · unfold performStep
      rw [h.step]
      cases n with
      | push => exact ensures_push_knows h hsuffice
      | upload => exact ensures_upload_knows h hsuffice
      | find => exact ensures_find_knows h hsuffice
      | calcCqDepend => exact (ensures_calc_knows h hsuffice).mono fun _ hr _ => hr
      | addCqDepend => exact (ensures_add_knows h).mono fun _ hr _ => hr
      | reUpload => exact (ensures_reUpload_knows h).mono fun _ hr _ => hr
      | abort => cases hsuffice
      | cleanUp => exact absurd rfl hn
      | projectConfig | genFit | commitFit | ecBuildall | buildConfig | emerge =>
        exact absurd rfl hcheck
      | fwBuildConfig | cbVariant | cbConfig | crasConfig | addFit | ecImage | addPubYaml
      | addPrivYaml => cases hkey

/-! ## Runs -/

/-- New runs of the board `b`, and those that continue. -/
def Flags.resuming (b : Board) : Flags → Prop
  | newVariant board _ => board = b
  | continueFlag => True
  | abortFlag => False

/-- The step at `i` and those after it find what they look up. -/
def FlowsFrom (b : Board) (i : Nat) (s : Status) : Prop :=
  ∃ f, flows b f (b.stepList.drop i) = true ∧ ∀ n, s.step = some n → Knows b n f s

theorem Knows.move (h : Knows b n f s) (step : Option StepName) :
    ∀ n', ({ s with step := step } : Status).step = some n' →
      Knows b n' f { s with step := step } := by
  intro n' hstep
  refine ⟨⟨h.board.stepList, h.board.repoUploadList, h.board.corebootPushList, h.board.depends⟩,
    hstep, ?_, h.stored, ?_⟩
  · exact ⟨h.shaped.made, h.shaped.upstream⟩
  · exact h.withCl

theorem flows_at {i : Nat} (hn : b.stepList[i]? = some n)
    (h : flows b f (b.stepList.drop i) = true) :
    f.suffice b n = true ∧ flows b (f.after b n) (b.stepList.drop (i + 1)) = true := by
  obtain ⟨hi, hget⟩ := List.getElem?_eq_some_iff.mp hn
  rw [List.drop_eq_getElem_cons hi, hget, flows, Bool.and_eq_true] at h
  exact h

/-- A step that finds what it looks up leaves that to the next one. -/
theorem turnKeeps_flows (hsteps : ProperList b.stepList) :
    TurnKeeps ext (fun d => ∀ s, d.1.file = some s → ∃ i, s.step = b.stepList[i]? ∧ FlowsFrom b i s)
      (fun _ s _ => ∃ i, s.step = b.stepList[i]? ∧ FlowsFrom b i s)
        (fun r _ => ∀ e, r = .error e → NotKeyError e) := by
  rintro _ s n d ⟨i, hi, f, hflows, hknows⟩ hn
  have hknows := hknows n hn
  have hget : b.stepList[i]? = some n := hi ▸ hn
  obtain ⟨hsuffice, hrest⟩ := flows_at hget hflows
  have hfile : ∀ s', Knows b n f s' → ∃ i, s'.step = b.stepList[i]? ∧ FlowsFrom b i s' := by
    intro s' hs'
    refine ⟨i, hs'.step.trans hget.symm, f, hflows, fun n' hn' => ?_⟩
    rw [hs'.step] at hn'
    cases hn'
    exact hs'
  refine ⟨fun s' h => Option.some.inj h ▸ hfile _ hknows.dumped, fun a w' hexec => ?_⟩
  have hmove : ∀ s', Knows b n (f.after b n) s' →
      AfterStep (fun r => ∀ e, r = .error e → NotKeyError e)
        (fun s => ∃ i, s.step = b.stepList[i]? ∧ FlowsFrom b i s)
        (.ok (true, s')) := by
    intro s' hs'
    apply AfterStep.of_move (moveToNextStep_eq hsteps hget ⟨hs'.board.stepList, hs'.step⟩)
    exact ⟨i + 1, rfl, _, hrest, hs'.move _⟩
  by_cases hclean : n = .cleanUp
  · subst hclean
    rcases exec_cleanUp hn hexec with ⟨rfl, hgone, -⟩ | ⟨rfl, hsame, -⟩
    · refine ⟨fun s' h => ?_, hmove s hknows⟩
      have h : w'.file = some s' := h
      rw [hgone] at h
      cases h
    · refine ⟨fun s' h => ?_, fun e he => ?_⟩
      · have h : w'.file = some s' := h
        rw [hsame] at h
        exact Option.some.inj h ▸ hfile _ hknows.dumped
      · cases he
        rfl
  · have hin : InFile (Knows b n f) (Saved s d).1 := ⟨s.dumped, rfl, hknows.dumped⟩
    obtain ⟨⟨s₁, hs₁, hknows₁⟩, hout⟩ :=
      wp_exec (ensures_performStep_knows hknows hsuffice hclean _ hin) hexec
    refine ⟨fun s' h => ?_, ?_⟩
    · have h : w'.file = some s' := h
      rw [hs₁] at h
      exact Option.some.inj h ▸ hfile _ hknows₁
    · match a, hout with
      | .error e, hout =>
        intro e' he
        cases he
        exact hout
      | .ok (false, _), _ =>
        intro e he
        cases he
      | .ok (true, s'), hout => exact hmove s' (hout rfl)

/-- A run of a board whose steps find what they look up. -/
theorem wp_main_flows (hsteps : ProperList b.stepList)
    (hflows : flows b ⟨[], []⟩ b.stepList = true) {flags : Flags} (hflags : flags.resuming b)
    {w : World X} (hw : ∀ s, w.file = some s → ∃ i, s.step = b.stepList[i]? ∧ FlowsFrom b i s) :
    wp (opSem ext) (fun w => ∀ s, w.file = some s → ∃ i, s.step = b.stepList[i]? ∧ FlowsFrom b i s)
      (fun r _ => ∀ e, r = .error e → NotKeyError e) (main flags) w := by
  have hnone : ∀ rc : Bool, ∀ e : Exn, (Except.ok rc : Except Exn Bool) = .error e →
      NotKeyError e := by
    intro rc e h
    cases h
  apply wp_of_noted
  apply wp_main (turnKeeps_flows hsteps)
  · exact fun _ _ _ _ _ => hnone true
  · intro _ _ _ e he
    cases he
    rfl
  · exact hw
  · exact hnone false
  · intro _ _ _ _ e he
    cases he
    rfl
  · rintro board variant step rest rfl hlist -
    obtain rfl : board = b := hflags
    have hknows : Knows board step ⟨[], []⟩ (newStatus board variant step) := by
      refine ⟨.of_eq rfl, rfl, ⟨?_, ?_⟩, ?_, ?_⟩
      · intro key commit hget
        cases hget
      · intro commit hget
        cases hget
      · exact fun key hk => (List.not_mem_nil hk).elim
      · exact fun key hk => (List.not_mem_nil hk).elim
    have hstart : ∃ i, (newStatus board variant step).dumped.step = board.stepList[i]? ∧
        FlowsFrom board i (newStatus board variant step).dumped := by
      refine ⟨0, by rw [hlist]; rfl, _, hflows, fun n' hn' => ?_⟩
      cases hn'
      exact hknows.dumped
    exact ⟨fun s' h => Option.some.inj h ▸ hstart, hstart⟩
  · rintro s hs (rfl | rfl)
    · exact hw s hs
    · exact hflags.elim

/-- No run for the board raises a `KeyError`. -/
def NoKeyError (b : Board) : Prop :=
  ∀ (X : Type) (ext : Sem Call X) (w w' : World X) (flags : Flags) (e : Exn),
    Reaches ext (Flags.resuming b) w → flags.resuming b →
      Exec (opSem ext) (main flags) w (.error e) w' →
    NotKeyError e

theorem noKeyError_of_flows (hsteps : ProperList b.stepList)
    (hflows : flows b ⟨[], []⟩ b.stepList = true) :
    NoKeyError b := by
  intro X ext w w' flags e hreaches hflags hexec
  have hw : ∀ s, w.file = some s → ∃ i, s.step = b.stepList[i]? ∧ FlowsFrom b i s := by
    apply hreaches.invariant
      (I := fun w => ∀ s, w.file = some s → ∃ i, s.step = b.stepList[i]? ∧ FlowsFrom b i s)
    · intro x s h
      cases h
    · intro flags w hflags hw
      exact wp_mono (fun _ _ _ => trivial) (wp_main_flows hsteps hflows hflags hw)
  exact wp_exec (wp_main_flows hsteps hflows hflags hw) hexec e rfl

end

/-! ## The boards -/

/-- The entry that a step stores. -/
def storedBy : StepName → Option StepName
  | .find => some .find
  | n => commitKey n

/-- Whatever depends on something, or is depended on, is stored by a step of the board. -/
def DependsStored (b : Board) : Prop :=
  ∀ entry ∈ b.depends.items, ∀ key ∈ entry.1 :: entry.2, ∃ n ∈ b.stepList, storedBy n = some key

theorem boards_proper {b : Board} (hb : b ∈ boards) : ProperList b.stepList := by
  refine ⟨boards_nodup hb, boards_last hb, fun pre post h => ?_⟩
  have hmem : StepName.abort ∈ b.stepList := by
    rw [h]
    simp
  exact absurd hmem (boards_no_abort hb)

/-- The run of `trembyle` in which every step succeeds, as long as it can. -/
theorem trembyle_run : ∃ w, Exec (opSem (semOf (standIn true)))
    (main (.newVariant trembyle "variant")) ⟨none, 0⟩
    (.error (.noCommit .commitFit)) w := by
  have heval :
      ((main (.newVariant trembyle "variant")).eval (opEval (standIn true)) ⟨none, 0⟩).map
          Prod.fst =
        some (.error (.noCommit .commitFit)) := rfl
  obtain ⟨⟨r, w⟩, hrun, hr⟩ := Option.map_eq_some_iff.mp heval
  have hr : r = .error (.noCommit .commitFit) := hr
  subst hr
  exact ⟨w, exec_of_eval (opSem_of_opEval fun _ _ _ _ _ h => h) hrun⟩

theorem not_noKeyError_trembyle : ¬NoKeyError trembyle := by
  intro h
  obtain ⟨w, hexec⟩ := trembyle_run
  have hflags : Flags.resuming trembyle (.newVariant trembyle "variant") := rfl
  have hkey : Exn.isKeyError (.noCommit .commitFit) = false :=
    h Nat _ _ w _ _ (.start 0) hflags hexec
  cases hkey

theorem not_dependsStored_trembyle : ¬DependsStored trembyle := by
  intro h
  obtain ⟨n, hn, hkey⟩ :=
    h (.fwBuildConfig, [.find, .cbConfig, .crasConfig, .ecImage, .commitFit]) (by simp [trembyle])
    .commitFit (by simp)
  have hnone : trembyle.stepList.all fun n => decide (storedBy n ≠ some .commitFit) := rfl
  exact of_decide_eq_true (List.all_eq_true.mp hnone n hn) hkey

theorem dependsStored_of_all {b : Board}
    (h : (b.depends.items.all fun entry => (entry.1 :: entry.2).all fun key =>
      b.stepList.any fun n => decide (storedBy n = some key)) = true) :
    DependsStored b := by
  intro entry hentry key hkey
  obtain ⟨n, hn, hstored⟩ :=
    List.any_eq_true.mp (List.all_eq_true.mp (List.all_eq_true.mp h entry hentry) key hkey)
  exact ⟨n, hn, of_decide_eq_true hstored⟩

/-- A supported board's runs raise no `KeyError` exactly if its steps store what its map of
dependencies names. -/
theorem noKeyError_iff {b : Board} (hb : b ∈ boards) : NoKeyError b ↔ DependsStored b := by
  have hproper := boards_proper hb
  simp only [boards, List.mem_cons, List.not_mem_nil, or_false] at hb
  rcases hb with rfl | rfl | rfl | rfl | rfl | rfl
  · exact ⟨fun _ => dependsStored_of_all rfl, fun _ => noKeyError_of_flows hproper rfl⟩
  · exact ⟨fun _ => dependsStored_of_all rfl, fun _ => noKeyError_of_flows hproper rfl⟩
  · exact ⟨fun _ => dependsStored_of_all rfl, fun _ => noKeyError_of_flows hproper rfl⟩
  · exact ⟨fun h => absurd h not_noKeyError_trembyle, fun h => absurd h not_dependsStored_trembyle⟩
  · exact ⟨fun _ => dependsStored_of_all rfl, fun _ => noKeyError_of_flows hproper rfl⟩
  · exact ⟨fun _ => dependsStored_of_all rfl, fun _ => noKeyError_of_flows hproper rfl⟩

theorem noKeyError_hatch : NoKeyError hatch :=
  (noKeyError_iff (by simp [boards])).mpr (dependsStored_of_all rfl)

/-- `trembyle` has what depends on the image of `add_fit`, but not the step. -/
theorem not_noKeyError : ¬∀ b ∈ boards, NoKeyError b := by
  intro h
  exact not_noKeyError_trembyle (h trembyle (by simp [boards]))

end Variant
