import Mathlib.Logic.Function.Basic
import DevUtil.Variant.Amending
import DevUtil.Variant.Resume

/-!
# The pipeline of `Cq-Depend` lines

`calc_cq_depend`, `add_cq_depend` and `re_upload` over all runs that it takes to get them
done: what each has established when the status is at the next one.

    calc_cq_depend    nothing is amended
    add_cq_depend     each text is calculated; any of them may be there already
    re_upload         every text is there; any branch may be uploaded already
    after that        every text is there, and uploaded                          (AtPhase)
-/

namespace Variant

open Lib Prog

/-! ## What is calculated -/

/-- The CL of an entry. -/
def clOf (s : Status) (key : StepName) : Option (Instance × Nat) :=
  (s.commits.get? key).bind fun commit => commit.gerrit.bind fun i =>
    commit.clNumber.map fun n => (i, n)

/-- The CLs of the entries, if each has one. -/
def clsOf (s : Status) : List StepName → Option (List (Instance × Nat))
  | [] => some []
  | key :: keys => (clOf s key).bind fun cl => (clsOf s keys).map (cl :: ·)

/-- The text for an entry that depends on others. -/
def planned (s : Status) (key : StepName) : Option String :=
  (s.board.depends.get? key).bind fun deps => (clsOf s deps).map cqDependStr

theorem clsOf_eq_some {s : Status} {keys : List StepName} {cls : List (Instance × Nat)} :
    clsOf s keys = some cls ↔ keys.map (clOf s) = cls.map some := by
  induction keys generalizing cls with
  | nil =>
    cases cls with
    | nil => simp [clsOf]
    | cons cl cls => simp [clsOf]
  | cons key keys ih =>
    cases cls with
    | nil => simp [clsOf, Option.bind_eq_some_iff]
    | cons cl cls =>
      simp only [clsOf, List.map_cons, List.cons.injEq, Option.bind_eq_some_iff,
        Option.map_eq_some_iff]
      constructor
      · rintro ⟨cl', hcl, cls', hcls, rfl, rfl⟩
        exact ⟨hcl, ih.mp hcls⟩
      · rintro ⟨hcl, hcls⟩
        exact ⟨cl, hcl, cls, ih.mpr hcls, rfl, rfl⟩

/-! ## Statuses -/

/-- `s` is `s₀` with other texts and marks for the upload. -/
structure Marked (s₀ : Status) (cq : StepName → Option String) (needs : StepName → Bool)
    (s : Status) : Prop where
  stepList : s.board.stepList = s₀.board.stepList
  depends : ∀ key, s.board.depends.get? key = s₀.board.depends.get? key
  commits : ∀ key, s.commits.get? key =
    (s₀.commits.get? key).map fun commit => { commit with cqDepend := cq key,
                                                          needsReUpload := needs key }

section

variable {s₀ s : Status} {cq : StepName → Option String} {needs : StepName → Bool}

theorem Marked.dumped (h : Marked s₀ cq needs s) : Marked s₀ cq needs s.dumped where
  stepList := h.stepList
  depends := fun key => (Status.dumped_depends s key).trans (h.depends key)
  commits := fun key => (Status.dumped_commits s key).trans (h.commits key)

theorem Marked.congr (h : Marked s₀ cq needs s) {cq' : StepName → Option String}
    {needs' : StepName → Bool}
    (hsame : ∀ key commit, s₀.commits.get? key = some commit →
      cq key = cq' key ∧ needs key = needs' key) :
    Marked s₀ cq' needs' s where
  stepList := h.stepList
  depends := h.depends
  commits := by
    intro key
    rw [h.commits key]
    cases hget : s₀.commits.get? key with
    | none => rfl
    | some commit =>
      obtain ⟨hcq, hneeds⟩ := hsame key commit hget
      simp only [Option.map_some, hcq, hneeds]

theorem Marked.get (h : Marked s₀ cq needs s) {key : StepName} {commit : Commit}
    (hget : s₀.commits.get? key = some commit) :
    s.commits.get? key = some { commit with cqDepend := cq key, needsReUpload := needs key } := by
  rw [h.commits key, hget]
  rfl

theorem Marked.mem_keys (h : Marked s₀ cq needs s) {key : StepName} :
    key ∈ s.commits.keys ↔ key ∈ s₀.commits.keys := by
  rw [Dict.mem_keys, Dict.mem_keys, h.commits key]
  cases s₀.commits.get? key <;> simp

theorem Marked.clOf (h : Marked s₀ cq needs s) (key : StepName) : clOf s key = clOf s₀ key := by
  unfold Variant.clOf
  rw [h.commits key]
  cases s₀.commits.get? key <;> rfl

theorem Marked.store (h : Marked s₀ cq needs s) {key : StepName} {commit : Commit}
    (hget : s₀.commits.get? key = some commit) (text : Option String) (mark : Bool) :
    Marked s₀ (Function.update cq key text) (Function.update needs key mark)
      (s.store key { commit with cqDepend := text, needsReUpload := mark }) where
  stepList := h.stepList
  depends := h.depends
  commits := by
    intro k
    by_cases hk : k = key
    · subst hk
      rw [Status.store_commits, Dict.get?_set, hget, Function.update_self, Function.update_self]
      rfl
    · rw [Status.store_commits, Dict.get?_set_of_ne _ hk, h.commits k, Function.update_of_ne hk,
        Function.update_of_ne hk]

/-! ## `calc_cq_depend` -/

theorem dependLoop_eq {keys : List StepName} (hkeys : ∀ key ∈ keys, s.commits.get? key ≠ none) :
    dependLoop s keys = .ret (clsOf s keys) := by
  induction keys with
  | nil => rfl
  | cons key keys ih =>
    have ih := ih fun k hk => hkeys k (List.mem_cons_of_mem key hk)
    obtain ⟨commit, hcommit⟩ := Option.ne_none_iff_exists'.mp (hkeys key List.mem_cons_self)
    rw [dependLoop, getCommit, hcommit, clsOf, clOf, hcommit, ih]
    cases hgerrit : commit.gerrit with
    | none => simp only [ret_bind, hgerrit, Option.bind_some, Option.bind_none]; rfl
    | some i =>
      cases hnumber : commit.clNumber with
      | none =>
        simp only [ret_bind, hgerrit, hnumber, Option.bind_some, Option.map_none,
          Option.bind_none]; rfl
      | some n => simp only [ret_bind, hgerrit, hnumber, Option.bind_some, Option.map_some]; rfl

theorem Marked.clsOf (h : Marked s₀ cq needs s) (keys : List StepName) :
    clsOf s keys = clsOf s₀ keys := by
  induction keys with
  | nil => rfl
  | cons key keys ih => rw [Variant.clsOf, Variant.clsOf, h.clOf, ih]

/-- The texts while `entries` are still to come. -/
def textsBefore (s₀ : Status) (entries : List (StepName × List StepName)) (key : StepName) :
    Option String :=
  if key ∈ entries.map Prod.fst then none else planned s₀ key

/-- What `calc_cq_depend` returns. -/
theorem calcLoop_ends
    (hexist : ∀ key deps, s₀.board.depends.get? key = some deps →
      ∀ k ∈ key :: deps, s₀.commits.get? k ≠ none) :
    ∀ (entries : List (StepName × List StepName)) (s : Status), (entries.map Prod.fst).Nodup →
      (∀ entry ∈ entries, s₀.board.depends.get? entry.1 = some entry.2) →
      Marked s₀ (textsBefore s₀ entries) (fun _ => false) s →
      ∃ rc s', calcLoop entries s = .ret (rc, s') ∧ (rc = true → s'.step = s.step ∧
        Marked s₀ (planned s₀) (fun _ => false) s' ∧
          ∀ entry ∈ entries, planned s₀ entry.1 ≠ none) := by
  intro entries
  induction entries with
  | nil =>
    exact fun s _ _ hs => ⟨true, s, rfl, fun _ => ⟨rfl, hs, fun _ h => (List.not_mem_nil h).elim⟩⟩
  | cons entry entries ih =>
    obtain ⟨key, deps⟩ := entry
    intro s hnodup hentries hs
    obtain ⟨hkey, hnodup⟩ := List.nodup_cons.mp hnodup
    have hdeps : s₀.board.depends.get? key = some deps := hentries _ List.mem_cons_self
    have hstored : ∀ k ∈ deps, s.commits.get? k ≠ none := by
      intro k hk
      rw [hs.commits k]
      simpa using hexist key deps hdeps k (List.mem_cons_of_mem key hk)
    rw [calcLoop, dependLoop_eq hstored, hs.clsOf]
    cases hcls : clsOf s₀ deps with
    | none => exact ⟨false, s, rfl, fun h => by cases h⟩
    | some cls =>
      have hplanned : planned s₀ key = some (cqDependStr cls) := by
        rw [planned, hdeps, Option.bind_some, hcls]
        rfl
      obtain ⟨commit, hcommit⟩ :=
        Option.ne_none_iff_exists'.mp (hexist key deps hdeps key List.mem_cons_self)
      simp only [ret_bind]
      rw [getCommit, hs.get hcommit]
      have hnext := hs.store hcommit (some (cqDependStr cls)) false
      have hnext : Marked s₀ (textsBefore s₀ entries) (fun _ => false) _ :=
        hnext.congr fun k c _ => by
        refine ⟨?_, ?_⟩
        · by_cases hk : k = key
          · subst hk
            rw [Function.update_self, textsBefore, if_neg hkey, hplanned]
          · rw [Function.update_of_ne hk]
            simp only [textsBefore, List.map_cons, List.mem_cons, hk, false_or]
        · by_cases hk : k = key
          · subst hk
            rw [Function.update_self]
          · rw [Function.update_of_ne hk]
      obtain ⟨rc, s', heq, hends⟩ :=
        ih _ hnodup (fun e he => hentries e (List.mem_cons_of_mem _ he)) hnext
      refine ⟨rc, s', heq, fun hrc => ?_⟩
      obtain ⟨hstep, hmarked, hsome⟩ := hends hrc
      refine ⟨hstep, hmarked, fun e he => ?_⟩
      rcases List.mem_cons.mp he with rfl | he
      · rw [hplanned]
        exact Option.some_ne_none _
      · exact hsome e he

/-! ## `add_cq_depend` -/

def amendmentOf (s : Status) (key : StepName) : Option Amendment :=
  (s.commits.get? key).bind fun commit => commit.dir.bind fun dir =>
      commit.changeId.bind fun changeId =>
    (planned s key).map fun text => ⟨dir, changeId, text⟩

/-- The amendments for the keys with `P`. -/
def planOf (s : Status) (P : StepName → Prop) (a : Amendment) : Prop :=
  ∃ key, P key ∧ amendmentOf s key = some a

def plan (s : Status) : Amendment → Prop := planOf s fun _ => True

/-- The marks when `todo` is still to come. -/
def marksOutside (s₀ : Status) (todo : List StepName) (key : StepName) : Bool :=
  decide (key ∉ todo) && (planned s₀ key).isSome

variable {g₀ : Repos} {key : StepName} {todo : List StepName}

theorem planOf_tail {a : Amendment} (h : planOf s₀ (· ∉ todo) a) :
    planOf s₀ (· ∉ key :: todo) a ∨ amendmentOf s₀ key = some a := by
  obtain ⟨k, hk, ha⟩ := h
  by_cases hkey : k = key
  · exact .inr (hkey ▸ ha)
  · exact .inl ⟨k, fun hin => (List.mem_cons.mp hin).elim hkey hk, ha⟩

/-- How the loop of `add_cq_depend` ends. -/
structure AddLoopEnds (s₀ : Status) (g₀ : Repos) (s : Status) (w : World Repos)
    (r : Except Exn (Bool × Status)) (w' : World Repos) : Prop where
  file : w'.file = w.file
  amending : Amending (plan s₀) g₀ (fun _ => False) w'.outside
  done : ∀ s', r = .ok (true, s') → s'.step = s.step ∧
    Marked s₀ (planned s₀) (fun key => (planned s₀ key).isSome) s' ∧
      Amending (plan s₀) g₀ (plan s₀) w'.outside

theorem wp_addLoop (hfits : Fits (plan s₀) g₀.messages) :
    ∀ (todo : List StepName) (s : Status) (w : World Repos), todo.Nodup →
      (∀ key ∈ todo, s₀.commits.get? key ≠ none) → Marked s₀ (planned s₀) (marksOutside s₀ todo) s →
      Amending (plan s₀) g₀ (planOf s₀ (· ∉ todo)) w.outside →
      wp (callSem gitSem) (fun _ => True) (AddLoopEnds s₀ g₀ s w) (addLoop todo s) w := by
  intro todo
  induction todo with
  | nil =>
    intro s w _ _ hs hg
    refine ⟨rfl, hg.weaken fun _ h => h.elim, ?_⟩
    intro s' h
    cases h
    refine ⟨rfl, hs.congr fun key _ _ => ⟨rfl, by simp [marksOutside]⟩, hg.weaken ?_⟩
    rintro a ⟨key, -, ha⟩
    exact ⟨key, List.not_mem_nil, ha⟩
  | cons key todo ih =>
    intro s w hnodup hstored hs hg
    obtain ⟨hkey, hnodup⟩ := List.nodup_cons.mp hnodup
    obtain ⟨commit, hcommit⟩ := Option.ne_none_iff_exists'.mp (hstored key List.mem_cons_self)
    have hstored := fun k hk => hstored k (List.mem_cons_of_mem key hk)
    have hfailed : ∀ (r : Except Exn (Bool × Status)) (w' : World Repos),
      (∀ s', r ≠ .ok (true, s')) → w'.file = w.file →
        Amending (plan s₀) g₀ (planOf s₀ (· ∉ key :: todo)) w'.outside →
            AddLoopEnds s₀ g₀ s w r w' :=
      fun r w' hr hfile h => ⟨hfile, h.weaken fun _ h => h.elim, fun s' hr' => absurd hr' (hr s')⟩
    have hmark : ∀ k, marksOutside s₀ todo k = if k = key then (planned s₀ key).isSome
      else marksOutside s₀ (key :: todo) k := by
      intro k
      by_cases hk : k = key
      · subst hk
        simp [marksOutside, hkey]
      · simp [marksOutside, hk]
    rw [addLoop, getCommit, hs.get hcommit]
    cases htext : planned s₀ key with
    | none =>
      simp only [ret_bind]
      refine ih s w hnodup hstored (hs.congr fun k _ _ => ⟨rfl, ?_⟩) (hg.weaken fun a ha => ?_)
      · rw [hmark]
        by_cases hk : k = key
        · subst hk
          simp [marksOutside, htext]
        · rw [if_neg hk]
      · rcases planOf_tail ha with ha | ha
        · exact ha
        · simp [amendmentOf, htext] at ha
    | some text =>
      simp only [ret_bind]
      cases hdir : commit.dir with
      | none => exact hfailed _ _ (fun s' h => by cases h) rfl hg
      | some dir =>
        cases hid : commit.changeId with
        | none => exact hfailed _ _ (fun s' h => by cases h) rfl hg
        | some changeId =>
          have hamend : amendmentOf s₀ key = some ⟨dir, changeId, text⟩ := by
            simp [amendmentOf, hcommit, hdir, hid, htext]
          have hadd :=
            wp_addCqDependToCommitMsg hfits (a := ⟨dir, changeId, text⟩) ⟨key, trivial, hamend⟩ hg
          show wp _ _ _ (addCqDependToCommitMsg dir changeId text >>= _) w
          rw [wp_bind]
          refine wp_mono (fun r w' hr => ?_) hadd
          cases r with
          | error e => exact hfailed _ _ (fun s' h => by cases h) hr.file hr.amending
          | ok done =>
            cases done with
            | false => exact hfailed _ _ (fun s' h => by cases h) hr.file hr.amending
            | true =>
              have hnext := hs.store hcommit (planned s₀ key) true
              have hnext : Marked s₀ (planned s₀) (marksOutside s₀ todo) _ :=
                hnext.congr fun k _ _ => by
                rw [hmark]
                by_cases hk : k = key
                · subst hk
                  simp [htext]
                · simp [hk]
              have hg' : Amending (plan s₀) g₀ (planOf s₀ (· ∉ todo)) w'.outside := by
                refine (hr.done rfl).weaken fun a ha => ?_
                rcases planOf_tail ha with ha | ha
                · exact .inl ha
                · rw [hamend] at ha
                  exact .inr (Option.some.inj ha).symm
              rw [htext, hdir, hid] at hnext
              refine wp_mono (fun r w'' hends => ?_) (ih _ w' hnodup hstored hnext hg')
              exact ⟨hends.file.trans hr.file, hends.amending, hends.done⟩

/-! ## `re_upload` -/

/-- The marks when only `todo` is still to come. -/
def marksWithin (s₀ : Status) (todo : List StepName) (key : StepName) : Bool :=
  decide (key ∈ todo) && (planned s₀ key).isSome

/-- The branches of the planned commits with `P` are uploaded as they are. -/
def UploadedAt (s₀ : Status) (P : StepName → Prop) (g : Repos) : Prop :=
  ∀ key commit branch dir, P key → planned s₀ key ≠ none → s₀.commits.get? key = some commit →
    commit.branchName = some branch → commit.dir = some dir →
      g.uploaded dir branch = some (g.history dir branch)

/-- Everything is uploaded. -/
def Uploaded (s₀ : Status) (g : Repos) : Prop := UploadedAt s₀ (fun _ => True) g

/-- An upload does not make any branch less uploaded. -/
theorem uploaded_upload (g : Repos) {dir d : Dir} {branch b : Branch}
    (h : (d = dir ∧ b = branch) ∨ g.uploaded d b = some (g.history d b)) :
    (g.upload dir branch).uploaded d b = some ((g.upload dir branch).history d b) := by
  show (if d = dir ∧ b = branch then some (g.history dir branch) else g.uploaded d b) =
    some (g.history d b)
  by_cases hsame : d = dir ∧ b = branch
  · rw [if_pos hsame, hsame.1, hsame.2]
  · rw [if_neg hsame]
    exact h.resolve_left hsame

theorem UploadedAt.upload {P : StepName → Prop} {g : Repos} (h : UploadedAt s₀ P g) (dir : Dir)
    (branch : Branch) :
    UploadedAt s₀ P (g.upload dir branch) :=
  fun key commit b d hP hplanned hget hb hd =>
    uploaded_upload g (.inr (h key commit b d hP hplanned hget hb hd))

theorem Amending.upload {P Q : Amendment → Prop} {g₀ g : Repos} (h : Amending P g₀ Q g)
    (dir : Dir) (branch : Branch) :
    Amending P g₀ Q (g.upload dir branch) := ⟨h.length, h.messages, h.others, h.head, h.shas⟩

/-- How the loop of `re_upload` ends. -/
structure UploadLoopEnds (s₀ : Status) (g₀ : Repos) (s : Status) (w : World Repos)
    (r : Except Exn (Bool × Status)) (w' : World Repos) : Prop where
  file : w'.file = w.file
  amending : Amending (plan s₀) g₀ (plan s₀) w'.outside
  stable : Uploaded s₀ w.outside → Uploaded s₀ w'.outside
  done : ∀ s', r = .ok (true, s') → s'.step = s.step ∧ s'.board = s.board ∧ Uploaded s₀ w'.outside

theorem wp_reUploadLoop :
    ∀ (todo : List StepName) (s : Status) (w : World Repos), todo.Nodup →
      (∀ key ∈ todo, s₀.commits.get? key ≠ none) → Marked s₀ (planned s₀) (marksWithin s₀ todo) s →
      Amending (plan s₀) g₀ (plan s₀) w.outside → UploadedAt s₀ (· ∉ todo) w.outside →
      wp (callSem gitSem) (fun _ => True) (UploadLoopEnds s₀ g₀ s w) (reUploadLoop todo s) w := by
  intro todo
  induction todo with
  | nil =>
    intro s w _ _ _ hg hup
    have hall : Uploaded s₀ w.outside := fun key commit b d _ => hup key commit b d List.not_mem_nil
    refine ⟨rfl, hg, id, ?_⟩
    intro s' h
    cases h
    exact ⟨rfl, rfl, hall⟩
  | cons key todo ih =>
    intro s w hnodup hstored hs hg hup
    obtain ⟨hkey, hnodup⟩ := List.nodup_cons.mp hnodup
    obtain ⟨commit, hcommit⟩ := Option.ne_none_iff_exists'.mp (hstored key List.mem_cons_self)
    have hstored := fun k hk => hstored k (List.mem_cons_of_mem key hk)
    have hmark : marksWithin s₀ (key :: todo) key = (planned s₀ key).isSome := by simp [marksWithin]
    have hmarks : ∀ k, k ≠ key → marksWithin s₀ (key :: todo) k = marksWithin s₀ todo k := by
      intro k hk
      simp [marksWithin, hk]
    rw [reUploadLoop, getCommit, hs.get hcommit]
    cases hplanned : planned s₀ key with
    | none =>
      have hskip : marksWithin s₀ (key :: todo) key = false := by rw [hmark, hplanned]; rfl
      simp only [ret_bind, hskip, Bool.false_eq_true, if_false]
      refine ih s w hnodup hstored (hs.congr fun k _ _ => ⟨rfl, ?_⟩) hg fun k c b d hk hp => ?_
      · by_cases hk : k = key
        · subst hk
          rw [hskip]
          simp [marksWithin, hplanned]
        · exact hmarks k hk
      · refine hup k c b d (fun hin => ?_) hp
        rcases List.mem_cons.mp hin with rfl | hin
        · exact hp hplanned
        · exact hk hin
    | some text =>
      have hneeds : marksWithin s₀ (key :: todo) key = true := by rw [hmark, hplanned]; rfl
      simp only [ret_bind, hneeds, if_true]
      have hfailed : ∀ (r : Except Exn (Bool × Status)) (w' : World Repos),
        (∀ s', r ≠ .ok (true, s')) →
          w'.file = w.file →
            (w'.outside = w.outside ∨ ∃ dir branch, w'.outside = w.outside.upload dir branch) →
          UploadLoopEnds s₀ g₀ s w r w' := by
        rintro r w' hr hfile (hsame | ⟨dir, branch, hsame⟩)
        · refine ⟨hfile, ?_, ?_, fun s' hr' => absurd hr' (hr s')⟩
          · rw [hsame]
            exact hg
          · rw [hsame]
            exact id
        · refine ⟨hfile, ?_, ?_, fun s' hr' => absurd hr' (hr s')⟩
          · rw [hsame]
            exact hg.upload dir branch
          · rw [hsame]
            exact fun h => UploadedAt.upload h dir branch
      cases hbranch : commit.branchName with
      | none => exact hfailed _ _ (fun s' h => by cases h) rfl (.inl rfl)
      | some branch =>
        cases hdir : commit.dir with
        | none => exact hfailed _ _ (fun s' h => by cases h) rfl (.inl rfl)
        | some dir =>
          rintro rc w' ⟨hrun, hfile⟩
          refine ⟨trivial, ?_⟩
          have hsame : w'.outside = w.outside ∨
              ∃ dir branch, w'.outside = w.outside.upload dir branch :=
            hrun.imp And.right fun h => ⟨dir, branch, h⟩
          match rc, hrun with
          | none, _ => exact hfailed _ _ (fun s' h => by cases h) hfile hsame
          | some false, _ => exact hfailed _ _ (fun s' h => by cases h) hfile hsame
          | some true, .inl h => exact absurd rfl h.1
          | some true, .inr h =>
            have hnext := hs.store hcommit (planned s₀ key) false
            have hnext : Marked s₀ (planned s₀) (marksWithin s₀ todo) _ :=
              hnext.congr fun k _ _ => by
              by_cases hk : k = key
              · subst hk
                simp [marksWithin, hkey]
              · simp [hk, hmarks k hk]
            have hg' : Amending (plan s₀) g₀ (plan s₀) w'.outside := by
              rw [h]
              exact hg.upload dir branch
            have hup' : UploadedAt s₀ (· ∉ todo) w'.outside := by
              intro k c b d hk hp hget hb hd
              rw [h]
              apply uploaded_upload
              by_cases hkk : k = key
              · subst hkk
                rw [hcommit] at hget
                cases hget
                rw [hbranch] at hb
                rw [hdir] at hd
                cases hb
                cases hd
                exact .inl ⟨rfl, rfl⟩
              · refine .inr (hup k c b d (fun hin => ?_) hp hget hb hd)
                rcases List.mem_cons.mp hin with heq | hin
                · exact hkk heq
                · exact hk hin
            rw [hplanned, hbranch, hdir] at hnext
            refine wp_mono (fun r w'' hends => ?_) (ih _ w' hnodup hstored hnext hg' hup')
            refine ⟨hends.file.trans hfile, hends.amending, fun hall => hends.stable ?_, hends.done⟩
            rw [h]
            exact UploadedAt.upload hall dir branch

end

end Variant
