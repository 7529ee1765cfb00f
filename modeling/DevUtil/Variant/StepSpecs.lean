import DevUtil.Variant.Main

/-!
# What the steps do to the status

One rule for each kind of step.  `Ensures ext R E p Q`: while `p` runs, every status in
the file has `R`; `p` raises only `E`, and what it returns has `Q`.

The exceptions that are no `KeyError` are always allowed.  A predicate that every change
to a status keeps is kept by every step (`ensures_performStep`).
-/

namespace Variant

open Lib Prog

def InFile {X : Type} (R : Status → Prop) (w : World X) : Prop := ∃ s, w.file = some s ∧ R s

/-- Outcomes: what is returned has `Q`, what is raised has `E`. -/
def Outcome {α : Type} (E : Exn → Prop) (Q : α → Prop) : Except Exn α → Prop
  | .ok a => Q a
  | .error e => E e

def Ensures {X α : Type} (ext : Sem Call X) (R : Status → Prop) (E : Exn → Prop)
    (p : Prog Call Exn α) (Q : α → Prop) : Prop :=
  ∀ w, InFile R w → wp (callSem ext) (InFile R) (fun r w' => InFile R w' ∧ Outcome E Q r) p w

/-- The call leaves the file alone. -/
def Call.leavesFile : {β : Type} → Call β → Prop
  | _, .save _ | _, .remove => False
  | _, _ => True

section

variable {X α β : Type} {ext : Sem Call X} {R : Status → Prop} {E : Exn → Prop}

theorem file_eq {c : Call β} (hc : c.leavesFile) {w w' : World X} {a : β}
    (h : callSem ext c w a w') :
    w'.file = w.file := by
  cases c with
  | save s => exact hc.elim
  | remove => exact hc.elim
  | runProcess | emergeWithWorkon | isfile | mentions | findGitTopLevel | getCurrentBranch
  | getChangeId | query
    | queryOriginal | gitLogGrep | gitLogMessage => exact h.2

/-! ## Rules -/

theorem ensures_ret {a : α} {Q : α → Prop} (h : Q a) : Ensures ext R E (ret a) Q :=
  fun _ hw => ⟨hw, h⟩

theorem ensures_raise {e : Exn} {Q : α → Prop} (h : E e) : Ensures ext R E (raise e) Q :=
  fun _ hw => ⟨hw, h⟩

theorem ensures_bind {p : Prog Call Exn α} {f : α → Prog Call Exn β} {Q : α → Prop}
    {Q' : β → Prop} (hp : Ensures ext R E p Q) (hf : ∀ a, Q a → Ensures ext R E (f a) Q') :
    Ensures ext R E (p >>= f) Q' := by
  intro w hw
  rw [wp_bind]
  refine wp_mono ?_ (hp w hw)
  intro r w' h
  cases r with
  | ok a => exact hf a h.2 w' h.1
  | error e => exact h

theorem Ensures.mono {p : Prog Call Exn α} {Q Q' : α → Prop} (h : Ensures ext R E p Q)
    (hQ : ∀ a, Q a → Q' a) :
    Ensures ext R E p Q' := by
  intro w hw
  refine wp_mono ?_ (h w hw)
  intro r w' hr
  cases r with
  | ok a => exact ⟨hr.1, hQ a hr.2⟩
  | error e => exact hr

/-- The exceptions of a step that are no `KeyError` are allowed. -/
def Allows (E : Exn → Prop) : Prop := ∀ e : Exn, e.isKeyError = false → e ≠ .outOfFuel → E e

theorem ensures_call {c : Call (Option α)} (hE : Allows E) (hc : c.leavesFile) :
    Ensures ext R E (call c) fun _ => True := by
  intro w hw a w' h
  have hw' : InFile R w' := by
    obtain ⟨s, hs, hR⟩ := hw
    exact ⟨s, (file_eq hc h).trans hs, hR⟩
  cases a with
  | none => exact ⟨hw', hw', hE _ rfl Exn.noConfusion⟩
  | some a => exact ⟨hw', hw', trivial⟩

theorem ensures_save {s : Status} (h : R s.dumped) :
    Ensures ext R E (perform (.save s)) fun _ => True := by
  intro w _ a w' hsave
  have hw' : w' = { w with file := some s.dumped } := hsave
  have hin : InFile R w' := ⟨s.dumped, by rw [hw'], h⟩
  exact ⟨hin, hin, trivial⟩

theorem ensures_getCommit {s : Status} {key : StepName}
    (h : s.commits.get? key = none → E (.noCommit key)) :
    Ensures ext R E (getCommit s key) fun commit => s.commits.get? key = some commit := by
  unfold getCommit
  split
  · next hnone => exact ensures_raise (h hnone)
  · next commit hsome => exact ensures_ret hsome

theorem ensures_getField {f : Field} {o : Option α} (h : o = none → E (.noField f)) :
    Ensures ext R E (getField f o) fun a => o = some a := by
  match o with
  | none => exact ensures_raise (h rfl)
  | some a => exact ensures_ret rfl

theorem ensures_getDir {dir : Option String} (hE : Allows E) :
    Ensures ext R E (getDir dir) fun _ => True := by
  match dir with
  | none => exact ensures_raise (hE _ rfl Exn.noConfusion)
  | some _ => exact ensures_ret trivial

theorem ensures_ite {c : Prop} [Decidable c] {p q : Prog Call Exn α} {Q : α → Prop}
    (hp : c → Ensures ext R E p Q) (hq : ¬c → Ensures ext R E q Q) :
    Ensures ext R E (if c then p else q) Q := by
  by_cases h : c
  · rw [if_pos h]
    exact hp h
  · rw [if_neg h]
    exact hq h

/-- A call and what follows it, whatever it answers. -/
theorem ensures_call_bind {c : Call (Option α)} {f : α → Prog Call Exn β} {Q : β → Prop}
    (hE : Allows E) (hc : c.leavesFile) (hf : ∀ a, Ensures ext R E (f a) Q) :
    Ensures ext R E (call c >>= f) Q :=
  ensures_bind (ensures_call hE hc) fun a _ => hf a

/-! ## Steps that make a commit -/

theorem ensures_getGitCommitData {cwd : String} (hE : Allows E) :
    Ensures ext R E (getGitCommitData cwd) fun commit => ∃ b c d, commit = Commit.made b c d := by
  refine ensures_call_bind hE trivial fun dir => ensures_call_bind hE trivial fun branch => ?_
  match branch with
  | none => exact ensures_raise (hE _ rfl Exn.noConfusion)
  | some branchName =>
    refine ensures_call_bind hE trivial fun changeId => ?_
    match changeId with
    | none => exact ensures_raise (hE _ rfl Exn.noConfusion)
    | some changeId => exact ensures_ret ⟨_, _, _, rfl⟩

/-- The step under whose name a step records a commit. -/
def commitKey : StepName → Option StepName
  | .fwBuildConfig => some .fwBuildConfig
  | .cbVariant => some .cbVariant
  | .cbConfig => some .cbConfig
  | .crasConfig => some .crasConfig
  | .addFit => some .commitFit
  | .ecImage => some .ecImage
  | .addPubYaml => some .addPubYaml
  | .addPrivYaml => some .addPrivYaml
  | _ => none

theorem ensures_commitStep {script cwd : String} {key : StepName} {s : Status}
    {Q : Bool × Status → Prop} (hE : Allows E)
    (hmade : ∀ b c d, Q (true, s.store key (Commit.made b c d))) (hfalse : Q (false, s)) :
    Ensures ext R E (commitStep script key cwd s) Q := by
  refine ensures_call_bind hE trivial fun rc =>
    ensures_ite (fun _ => ?_) (fun _ => ensures_ret hfalse)
  refine ensures_bind (ensures_getGitCommitData hE) ?_
  rintro commit ⟨b, c, d, rfl⟩
  exact ensures_ret (hmade b c d)

/-- A step that makes a commit records it, or leaves the status as it is. -/
theorem ensures_commit {n key : StepName} (hkey : commitKey n = some key) {s : Status}
    (hs : s.step = some n) {Q : Bool × Status → Prop} (hE : Allows E)
    (hmade : ∀ rc b c d, Q (rc, s.store key (Commit.made b c d))) (hfalse : Q (false, s)) :
    Ensures ext R E (performStep s) Q := by
  unfold performStep
  rw [hs]
  cases n with
  | fwBuildConfig | cbVariant | cbConfig | crasConfig | addPubYaml =>
    cases hkey
    exact ensures_commitStep hE (hmade true) hfalse
  | addFit | addPrivYaml =>
    cases hkey
    exact ensures_bind (ensures_getDir hE) fun _ _ => ensures_commitStep hE (hmade true) hfalse
  | ecImage =>
    cases hkey
    refine ensures_call_bind hE trivial fun rc =>
      ensures_ite (fun _ => ?_) (fun _ => ensures_ret hfalse)
    refine ensures_bind (ensures_getGitCommitData hE) ?_
    rintro commit ⟨b, c, d, rfl⟩
    exact ensures_call_bind hE trivial fun found => ensures_ret (hmade found b c d)
  | projectConfig | genFit | commitFit | ecBuildall | buildConfig | emerge | push | upload | find
  | calcCqDepend
    | addCqDepend | reUpload | cleanUp | abort => cases hkey

/-! ## Steps that only build or check -/

def onlyChecks : StepName → Bool
  | .projectConfig | .buildConfig | .emerge | .genFit | .commitFit | .ecBuildall => true
  | _ => false

theorem ensures_emergeConfig {file : String} {s : Status} {Q : Bool × Status → Prop} (hE : Allows E)
    (h : ∀ rc, Q (rc, s)) : Ensures ext R E (emergeConfig file s) Q := by
  refine ensures_call_bind hE trivial fun rc =>
    ensures_ite (fun _ => ?_) (fun _ => ensures_ret (h false))
  refine ensures_call_bind hE trivial fun rc =>
    ensures_ite (fun _ => ?_) (fun _ => ensures_ret (h false))
  exact ensures_call_bind hE trivial fun found => ensures_ret (h found)

theorem ensures_check {n : StepName} (hn : onlyChecks n = true) {s : Status}
    (hs : s.step = some n) {Q : Bool × Status → Prop} (hE : Allows E) (h : ∀ rc, Q (rc, s)) :
    Ensures ext R E (performStep s) Q := by
  unfold performStep
  rw [hs]
  cases n with
  | projectConfig | buildConfig => exact ensures_emergeConfig hE h
  | emerge =>
    refine ensures_call_bind hE trivial fun rc =>
      ensures_ite (fun _ => ?_) (fun _ => ensures_ret (h false))
    refine ensures_call_bind hE trivial fun rc =>
      ensures_ite (fun _ => ?_) (fun _ => ensures_ret (h false))
    exact ensures_call_bind hE trivial fun found => ensures_ret (h found)
  | genFit =>
    refine ensures_bind (ensures_getDir hE) fun _ _ =>
      ensures_bind (ensures_getDir hE) fun _ _ => ?_
    refine ensures_call_bind hE trivial fun bin => ensures_call_bind hE trivial fun versions => ?_
    exact ensures_ret (h _)
  | commitFit =>
    refine ensures_bind (ensures_getDir hE) fun _ _ => ?_
    exact ensures_call_bind hE trivial fun rc => ensures_ret (h rc)
  | ecBuildall => exact ensures_ret (h true)
  | fwBuildConfig | cbVariant | cbConfig | crasConfig | addFit | ecImage | addPubYaml | addPrivYaml
  | push | upload
    | find | calcCqDepend | addCqDepend | reUpload | cleanUp | abort => cases hn

/-! ## Steps that find or make CLs -/

def HasCl (s : Status) (key : StepName) : Prop :=
  ∃ commit, s.commits.get? key = some commit ∧ commit.hasCl = true

theorem hasCl_store_withCl {s : Status} {key : StepName} {commit : Commit} {cl : Instance × Nat} :
    HasCl (s.store key (commit.withCl cl)) key :=
  ⟨commit.withCl cl, Dict.get?_set _ _ _, rfl⟩

theorem HasCl.store {s : Status} {key key' : StepName} {commit : Commit} {cl : Instance × Nat}
    (h : HasCl s key) :
    HasCl (s.store key' (commit.withCl cl)) key := by
  by_cases hk : key = key'
  · subst hk
    exact hasCl_store_withCl
  · obtain ⟨c, hc, hcl⟩ := h
    exact ⟨c, (Dict.get?_set_of_ne _ hk _).trans hc, hcl⟩

theorem ensures_findChangeId {changeId : ChangeId} (hE : Allows E) :
    Ensures ext R E (findChangeId changeId) fun _ => True := by
  refine ensures_call_bind hE trivial fun number => ?_
  cases number with
  | some number => exact ensures_ret trivial
  | none =>
    refine ensures_call_bind hE trivial fun number => ?_
    cases number with
    | some number => exact ensures_ret trivial
    | none =>
      refine ensures_call_bind hE trivial fun number => ?_
      cases number with
      | some number => exact ensures_ret trivial
      | none => exact ensures_ret trivial

/-- What a loop over `keys` needs that saves a CL for each of them: the statuses with `P` may be
saved, and what the loop looks up is there, or the exception is allowed. -/
structure ClLoop (R P : Status → Prop) (E : Exn → Prop) (keys : List StepName) : Prop where
  saved : ∀ s, P s → R s.dumped
  withCl : ∀ s key commit cl, P s → s.commits.get? key = some commit →
    P (s.store key (commit.withCl cl))
  commit : ∀ s key, P s → key ∈ keys → s.commits.get? key = none → E (.noCommit key)
  changeId : ∀ s key commit, P s → key ∈ keys → s.commits.get? key = some commit →
    commit.changeId = none →
    E (.noField .changeId)
  branchName : ∀ s key commit, P s → key ∈ keys → s.commits.get? key = some commit →
    commit.branchName = none →
    E (.noField .branchName)
  dir : ∀ s key commit, P s → key ∈ keys → s.commits.get? key = some commit → commit.dir = none →
    E (.noField .dir)

variable {P : Status → Prop}

theorem ClLoop.tail {key : StepName} {keys : List StepName} (h : ClLoop R P E (key :: keys)) :
    ClLoop R P E keys where
  saved := h.saved
  withCl := h.withCl
  commit := fun s k hs hk => h.commit s k hs (List.mem_cons_of_mem key hk)
  changeId := fun s k c hs hk => h.changeId s k c hs (List.mem_cons_of_mem key hk)
  branchName := fun s k c hs hk => h.branchName s k c hs (List.mem_cons_of_mem key hk)
  dir := fun s k c hs hk => h.dir s k c hs (List.mem_cons_of_mem key hk)

theorem ensures_saveClData {s : Status} {key : StepName} {cl : Instance × Nat} {commit : Commit}
    (hcommit : s.commits.get? key = some commit) (hR : R (s.store key (commit.withCl cl)).dumped) :
    Ensures ext R E (saveClData s key cl) fun s' => s' = s.store key (commit.withCl cl) := by
  refine ensures_bind (ensures_getCommit fun h => ?_) ?_
  · rw [hcommit] at h
    cases h
  · intro commit' hcommit'
    rw [hcommit] at hcommit'
    cases hcommit'
    exact ensures_bind (ensures_save hR) fun _ _ => ensures_ret rfl

/-- What a loop over `keys` has done when it returns `s'`. -/
structure ClsSaved (P : Status → Prop) (keys : List StepName) (s : Status) (rc : Bool)
    (s' : Status) : Prop where
  holds : P s'
  kept : ∀ key, HasCl s key → HasCl s' key
  done : rc = true → ∀ key ∈ keys, HasCl s' key

theorem ClsSaved.cons {key : StepName} {keys : List StepName} {s s₁ s' : Status} {rc : Bool}
    (h : ClsSaved P keys s₁ rc s') (hkept : ∀ k, HasCl s k → HasCl s₁ k) (hkey : HasCl s₁ key) :
    ClsSaved P (key :: keys) s rc s' where
  holds := h.holds
  kept := fun k hk => h.kept k (hkept k hk)
  done := by
    intro hrc k hk
    rcases List.mem_cons.mp hk with rfl | hk
    · exact h.kept k hkey
    · exact h.done hrc k hk

theorem ClsSaved.refused {keys : List StepName} {s : Status} (hs : P s) :
    ClsSaved P keys s false s :=
  ⟨hs, fun _ h => h, Bool.noConfusion⟩

theorem ensures_pushLoop {keys : List StepName} (hE : Allows E) (h : ClLoop R P E keys) :
    ∀ (rc : Bool) (s : Status), P s → Ensures ext R E (pushLoop keys rc s)
      fun r => ClsSaved P keys s r.1 r.2 ∧ (r.1 = true → rc = true) := by
  induction keys with
  | nil =>
    exact fun rc s hs =>
      ensures_ret ⟨⟨hs, fun _ h => h, fun _ _ hk => (List.not_mem_nil hk).elim⟩, fun h => h⟩
  | cons key keys ih =>
    intro rc s hs
    have ih := ih h.tail
    refine ensures_bind (ensures_getCommit (h.commit s key hs List.mem_cons_self))
      fun commit hcommit => ?_
    refine ensures_ite (fun hcl => ?_) (fun _ => ?_)
    · exact (ih rc s hs).mono fun r hr => ⟨hr.1.cons (fun _ h => h) ⟨commit, hcommit, hcl⟩, hr.2⟩
    · refine ensures_bind (ensures_getField (h.changeId s key commit hs List.mem_cons_self hcommit))
        fun _ _ => ?_
      refine ensures_bind (ensures_findChangeId hE) fun cl _ => ?_
      cases cl with
      | some cl =>
        have hs' := h.withCl s key commit cl hs hcommit
        refine ensures_bind (ensures_saveClData hcommit (h.saved _ hs')) ?_
        rintro _ rfl
        exact (ih rc _ hs').mono fun r hr =>
          ⟨hr.1.cons (fun _ h => h.store) hasCl_store_withCl, hr.2⟩
      | none =>
        refine ensures_bind
          (ensures_getField (h.branchName s key commit hs List.mem_cons_self hcommit)) fun _ _ => ?_
        refine ensures_bind (ensures_getField (h.dir s key commit hs List.mem_cons_self hcommit))
          fun _ _ => ?_
        refine (ih false s hs).mono fun r hr =>
          ⟨⟨hr.1.holds, hr.1.kept, fun hrc => ?_⟩, fun hrc => ?_⟩
        · cases hr.2 hrc
        · cases hr.2 hrc

theorem ensures_uploadLoop {keys : List StepName} (hE : Allows E) (h : ClLoop R P E keys) :
    ∀ s : Status, P s → Ensures ext R E (uploadLoop keys s) fun r => ClsSaved P keys s r.1 r.2 := by
  induction keys with
  | nil =>
    exact fun s hs => ensures_ret ⟨hs, fun _ h => h, fun _ _ hk => (List.not_mem_nil hk).elim⟩
  | cons key keys ih =>
    intro s hs
    have ih := ih h.tail
    refine ensures_bind (ensures_getCommit (h.commit s key hs List.mem_cons_self))
      fun commit hcommit => ?_
    have hsave : ∀ cl, Ensures ext R E (saveClData s key cl >>= fun s => uploadLoop keys s)
        fun r => ClsSaved P (key :: keys) s r.1 r.2 := by
      intro cl
      have hs' := h.withCl s key commit cl hs hcommit
      refine ensures_bind (ensures_saveClData hcommit (h.saved _ hs')) ?_
      rintro _ rfl
      exact (ih _ hs').mono fun r hr => hr.cons (fun _ h => h.store) hasCl_store_withCl
    refine ensures_ite (fun hcl => ?_) (fun _ => ?_)
    · exact (ih s hs).mono fun r hr => hr.cons (fun _ h => h) ⟨commit, hcommit, hcl⟩
    · refine ensures_bind (ensures_getField (h.changeId s key commit hs List.mem_cons_self hcommit))
        fun _ _ => ?_
      refine ensures_bind (ensures_findChangeId hE) fun cl _ => ?_
      cases cl with
      | some cl => exact hsave cl
      | none =>
        refine ensures_bind
          (ensures_getField (h.branchName s key commit hs List.mem_cons_self hcommit)) fun _ _ => ?_
        refine ensures_bind (ensures_getField (h.dir s key commit hs List.mem_cons_self hcommit))
          fun _ _ => ?_
        refine ensures_call_bind hE trivial fun rc =>
          ensures_ite (fun _ => ?_) (fun _ => ensures_ret (.refused hs))
        refine ensures_bind (ensures_findChangeId hE) fun cl _ => ?_
        cases cl with
        | some cl => exact hsave cl
        | none => exact ensures_ret (.refused hs)

theorem ensures_findCorebootUpstream {s : Status} {Q : Bool × Status → Prop} (hE : Allows E)
    (hfound : HasCl s .find → Q (true, s))
    (hnew : ∀ cl, Q (true, s.store .find (Commit.upstream cl))) (hfalse : Q (false, s))
    (hcl : ∀ commit, s.commits.get? .cbVariant = some commit → commit.clNumber = none →
      E (.noField .clNumber)) :
    Ensures ext R E (findCorebootUpstream s) Q := by
  refine ensures_ite (fun h => ?_) (fun _ => ?_)
  · obtain ⟨commit, hcommit, h⟩ := (Option.any_eq_true _ _).mp h
    exact ensures_ret (hfound ⟨commit, hcommit, h⟩)
  · split
    · exact ensures_ret hfalse
    · next commit hcommit =>
      split
      · exact ensures_ret hfalse
      · refine ensures_call_bind hE trivial fun upstream => ?_
        match upstream with
        | [] =>
          exact ensures_bind (ensures_getField (hcl commit hcommit)) fun _ _ => ensures_ret hfalse
        | [cl] => exact ensures_ret (hnew cl)
        | _ :: _ :: _ => exact ensures_ret hfalse

/-! ## Steps that amend commits -/

theorem ensures_dependLoop {s : Status} {keys : List StepName}
    (hcommit : ∀ key ∈ keys, s.commits.get? key = none → E (.noCommit key)) :
    Ensures ext R E (dependLoop s keys) fun _ => True := by
  induction keys with
  | nil => exact ensures_ret trivial
  | cons key keys ih =>
    have ih := ih fun k hk => hcommit k (List.mem_cons_of_mem key hk)
    refine ensures_bind (ensures_getCommit (hcommit key List.mem_cons_self)) fun commit _ => ?_
    split
    · exact ensures_bind ih fun _ _ => ensures_ret trivial
    · exact ensures_ret trivial

theorem ensures_calcLoop {depends : List (StepName × List StepName)}
    (hcq : ∀ s key commit cq, P s → s.commits.get? key = some commit →
      P (s.store key { commit with cqDepend := some cq }))
    (hcommit : ∀ s entry, P s → entry ∈ depends → ∀ key ∈ entry.1 :: entry.2,
      s.commits.get? key = none → E (.noCommit key)) :
    ∀ s : Status, P s → Ensures ext R E (calcLoop depends s) fun r => P r.2 := by
  induction depends with
  | nil => exact fun s hs => ensures_ret hs
  | cons entry depends ih =>
    intro s hs
    have ih := ih fun s e hs he => hcommit s e hs (List.mem_cons_of_mem entry he)
    have hentry := hcommit s entry hs List.mem_cons_self
    refine ensures_bind (ensures_dependLoop fun key hk => hentry key (List.mem_cons_of_mem _ hk))
      fun cls _ => ?_
    cases cls with
    | none => exact ensures_ret hs
    | some cls =>
      refine ensures_bind (ensures_getCommit (hentry entry.1 List.mem_cons_self))
        fun commit hcommit => ?_
      exact ih _ (hcq s entry.1 commit _ hs hcommit)

theorem ensures_addCqDependToCommitMsg {dir : Dir} {changeId : ChangeId} {cq : String}
    (hE : Allows E) :
    Ensures ext R E (addCqDependToCommitMsg dir changeId cq) fun _ => True := by
  refine ensures_bind (Q := fun _ => True) ?_ fun sha _ => ?_
  · refine ensures_call_bind hE trivial fun shas => ?_
    match shas with
    | [] => exact ensures_ret trivial
    | [_] => exact ensures_ret trivial
    | _ :: _ :: _ => exact ensures_raise (hE _ rfl Exn.noConfusion)
  · cases sha with
    | none => exact ensures_ret trivial
    | some sha =>
      refine ensures_call_bind hE trivial fun msg =>
        ensures_ite (fun _ => ensures_ret trivial) (fun _ => ?_)
      exact ensures_call hE trivial

theorem ensures_addLoop {keys : List StepName} (hE : Allows E)
    (hneeds : ∀ s key commit, P s → s.commits.get? key = some commit → commit.changeId ≠ none →
      P (s.store key { commit with needsReUpload := true }))
    (hcommit : ∀ s key, P s → key ∈ keys → s.commits.get? key = none → E (.noCommit key)) :
    ∀ s : Status, P s → Ensures ext R E (addLoop keys s) fun r => P r.2 := by
  induction keys with
  | nil => exact fun s hs => ensures_ret hs
  | cons key keys ih =>
    intro s hs
    have ih := ih fun s k hs hk => hcommit s k hs (List.mem_cons_of_mem key hk)
    refine ensures_bind (ensures_getCommit (hcommit s key hs List.mem_cons_self))
      fun commit hget => ?_
    split
    · exact ih s hs
    · split
      · next hid =>
        refine ensures_bind (ensures_addCqDependToCommitMsg hE) fun rc _ => ?_
        refine ensures_ite (fun _ => ?_) (fun _ => ensures_ret hs)
        exact ih _ (hneeds s key commit hs hget (by rw [hid]; simp))
      · exact ensures_ret hs

theorem ensures_reUploadLoop {keys : List StepName} (hE : Allows E)
    (hneeds : ∀ s key commit, P s → s.commits.get? key = some commit →
      P (s.store key { commit with needsReUpload := false }))
    (hcommit : ∀ s key, P s → key ∈ keys → s.commits.get? key = none → E (.noCommit key))
    (hbranch : ∀ s key commit, P s → s.commits.get? key = some commit →
      commit.needsReUpload = true →
      commit.branchName = none → E (.noField .branchName))
    (hdir : ∀ s key commit, P s → s.commits.get? key = some commit → commit.needsReUpload = true →
      commit.dir = none → E (.noField .dir)) :
    ∀ s : Status, P s → Ensures ext R E (reUploadLoop keys s) fun r => P r.2 := by
  induction keys with
  | nil => exact fun s hs => ensures_ret hs
  | cons key keys ih =>
    intro s hs
    have ih := ih fun s k hs hk => hcommit s k hs (List.mem_cons_of_mem key hk)
    refine ensures_bind (ensures_getCommit (hcommit s key hs List.mem_cons_self))
      fun commit hget => ?_
    refine ensures_ite (fun hn => ?_) (fun _ => ih s hs)
    refine ensures_bind (ensures_getField (hbranch s key commit hs hget hn)) fun _ _ => ?_
    refine ensures_bind (ensures_getField (hdir s key commit hs hget hn)) fun _ _ => ?_
    refine ensures_call_bind hE trivial fun rc =>
      ensures_ite (fun _ => ?_) (fun _ => ensures_ret hs)
    exact ih _ (hneeds s key commit hs hget)

/-! ## Abort -/

theorem ensures_abortLoop {keys : List StepName} {s : Status} {Q : Bool × Status → Prop}
    (hE : ∀ e, e ≠ .outOfFuel → E e) (h : ∀ rc, Q (rc, s)) :
    ∀ abandoned, Ensures ext R E (abortLoop keys abandoned s) Q := by
  have hallows : Allows E := fun e _ => hE e
  induction keys with
  | nil => exact fun _ => ensures_ret (h true)
  | cons key keys ih =>
    intro abandoned
    refine ensures_bind (ensures_getCommit fun _ => hE _ Exn.noConfusion) fun commit _ => ?_
    refine ensures_bind (ensures_getField fun _ => hE _ Exn.noConfusion) fun branch _ => ?_
    refine ensures_bind (ensures_getField fun _ => hE _ Exn.noConfusion) fun cwd _ => ?_
    refine ensures_ite (fun _ => ih _) (fun _ => ?_)
    refine ensures_call_bind hallows trivial fun rc => ?_
    exact ensures_ite (fun _ => ih _) (fun _ => ensures_ret (h false))

/-! ## The end -/

/-- `clean_up` removes the file, or raises what `os.remove` does. -/
theorem exec_cleanUp {s : Status} (hs : s.step = some .cleanUp) {w w' : World X}
    {a : Except Exn (Bool × Status)} (h : Exec (callSem ext) (performStep s) w a w') :
    a = .ok (true, s) ∧ w'.file = none ∧ ext .remove w.outside (some ()) w'.outside ∨
      a = .error .outside ∧ w'.file = w.file ∧ ext .remove w.outside none w'.outside := by
  have hwp : wp (callSem ext) (fun _ => True) (fun a w' =>
      a = .ok (true, s) ∧ w'.file = none ∧ ext .remove w.outside (some ()) w'.outside ∨
        a = .error .outside ∧ w'.file = w.file ∧ ext .remove w.outside none w'.outside)
            (performStep s) w := by
    unfold performStep
    rw [hs]
    rintro (_ | _) w₁ ⟨hremove, hfile⟩
    · exact ⟨trivial, .inr ⟨rfl, hfile, hremove⟩⟩
    · exact ⟨trivial, .inl ⟨rfl, hfile, hremove⟩⟩
  exact wp_exec hwp h

/-! ## All steps -/

/-- Every change that a step makes to a status keeps `P`. -/
structure Closed (P : Status → Prop) : Prop where
  dumped : ∀ s, P s → P s.dumped
  made : ∀ s key b c d, P s → key ≠ .find → P (s.store key (Commit.made b c d))
  upstream : ∀ s cl, P s → P (s.store .find (Commit.upstream cl))
  withCl : ∀ s key commit cl, P s → s.commits.get? key = some commit →
    P (s.store key (commit.withCl cl))
  cqDepend : ∀ s key commit cq, P s → s.commits.get? key = some commit →
    P (s.store key { commit with cqDepend := some cq })
  needsReUpload : ∀ s key commit needs, P s → s.commits.get? key = some commit →
    (needs = true → commit.changeId ≠ none) → P (s.store key { commit with needsReUpload := needs })

theorem Closed.clLoop (hP : Closed P) (hE : ∀ e, e ≠ .outOfFuel → E e) (keys : List StepName) :
    ClLoop P P E keys where
  saved := hP.dumped
  withCl := hP.withCl
  commit := fun _ _ _ _ _ => hE _ Exn.noConfusion
  changeId := fun _ _ _ _ _ _ _ => hE _ Exn.noConfusion
  branchName := fun _ _ _ _ _ _ _ => hE _ Exn.noConfusion
  dir := fun _ _ _ _ _ _ _ => hE _ Exn.noConfusion

theorem commitKey_ne_find {n key : StepName} (h : commitKey n = some key) : key ≠ .find := by
  cases n <;> cases h <;> decide

theorem ensures_performStep (hP : Closed P) (hE : ∀ e, e ≠ .outOfFuel → E e) {s : Status} (hs : P s)
    (hstep : s.step ≠ some .cleanUp) : Ensures ext P E (performStep s) fun r => P r.2 := by
  have hallows : Allows E := fun e _ => hE e
  match hn : s.step with
  | none =>
    unfold performStep
    rw [hn]
    exact ensures_raise (hE _ Exn.noConfusion)
  | some n =>
    match hkey : commitKey n with
    | some key =>
      exact ensures_commit hkey hn hallows
        (fun _ b c d => hP.made s key b c d hs (commitKey_ne_find hkey)) hs
    | none =>
      by_cases hcheck : onlyChecks n = true
      · exact ensures_check hcheck hn hallows fun _ => hs
      · unfold performStep
        rw [hn]
        cases n with
        | push =>
          exact (ensures_pushLoop hallows (hP.clLoop hE _) true s hs).mono fun r hr => hr.1.holds
        | upload =>
          exact (ensures_uploadLoop hallows (hP.clLoop hE _) s hs).mono fun r hr => hr.holds
        | find =>
          have hnew := fun cl => hP.upstream s cl hs
          have hcl : ∀ commit : Commit, s.commits.get? .cbVariant = some commit →
            commit.clNumber = none →
            E (.noField .clNumber) := fun _ _ _ => hE _ Exn.noConfusion
          exact @ensures_findCorebootUpstream X ext P E s (fun r => P r.2) hallows
            (fun _ => hs) hnew hs hcl
        | calcCqDepend =>
          exact ensures_calcLoop hP.cqDepend (fun _ _ _ _ _ _ _ => hE _ Exn.noConfusion) s hs
        | addCqDepend =>
          exact ensures_addLoop hallows
            (fun s key commit hs hget hid => hP.needsReUpload s key commit true hs hget
            fun _ => hid) (fun _ _ _ _ _ => hE _ Exn.noConfusion) s hs
        | reUpload =>
          exact ensures_reUploadLoop hallows
            (fun s key commit hs hget => hP.needsReUpload s key commit false hs hget
            Bool.noConfusion) (fun _ _ _ _ _ => hE _ Exn.noConfusion)
              (fun _ _ _ _ _ _ _ => hE _ Exn.noConfusion)
            (fun _ _ _ _ _ _ _ => hE _ Exn.noConfusion) s hs
        | abort => exact ensures_abortLoop hE (fun _ => hs) []
        | cleanUp => exact absurd hn hstep
        | projectConfig | genFit | commitFit | ecBuildall | buildConfig | emerge =>
          exact absurd rfl hcheck
        | fwBuildConfig | cbVariant | cbConfig | crasConfig | addFit | ecImage | addPubYaml
        | addPrivYaml => cases hkey

end

end Variant
