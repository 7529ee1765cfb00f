import DevUtil.Variant.CqDepend

/-!
# Runs through the pipeline

`calc_cq_depend`, `add_cq_depend` and `re_upload` over all runs of `main` that it takes to
get them done: `AtPhase` says what there is when the status is at one of them.

    every run keeps it, wherever it is cut off                (turnKeeps_phase)
    once `re_upload` has succeeded: all is as it should be
      ↔ the branch of every commit that depends on others
        is the one that is checked out                        (pipelineDone_iff)

`git filter-branch` rewrites the branch that is checked out, and `repo upload` sends the
branch that is recorded for the commit.
-/

namespace Variant

open Lib Prog

/-! ## What there is at the start -/

/-- The commit of an entry: it is the `i`-th of its branch. -/
structure CommitOf (s₀ : Status) (g₀ : Repos) (key : StepName) (dir : Dir) (branch : Branch)
    (changeId : ChangeId) (i : Nat) (m : List String) : Prop where
  entry : ∃ commit, s₀.commits.get? key = some commit ∧ commit.dir = some dir ∧
    commit.branchName = some branch ∧
    commit.changeId = some changeId
  newest : Newest (changeIdLine changeId) (g₀.messagesOf dir branch) i
  message : (g₀.messagesOf dir branch)[i]? = some m

/-- The status at `calc_cq_depend`, before any attempt at it, and the repositories. -/
structure Prepared (s₀ : Status) (g₀ : Repos) : Prop where
  steps : ∃ before, s₀.board.stepList = before ++ [.calcCqDepend, .addCqDepend, .reUpload, .cleanUp]
  nodup : s₀.board.stepList.Nodup
  step : s₀.step = some .calcCqDepend
  fresh : ∀ key commit, s₀.commits.get? key = some commit →
    commit.cqDepend = none ∧ commit.needsReUpload = false
  exist : ∀ key deps, s₀.board.depends.get? key = some deps →
    ∀ k ∈ key :: deps, s₀.commits.get? k ≠ none
  commit : ∀ key deps, s₀.board.depends.get? key = some deps →
    ∃ dir branch changeId i m, CommitOf s₀ g₀ key dir branch changeId i m
  message : ∀ key deps dir branch changeId i m, s₀.board.depends.get? key = some deps →
    CommitOf s₀ g₀ key dir branch changeId i m →
      m.countP isChangeIdLine = 1 ∧ ∀ l ∈ m, mentionsCqDepend l = false
  distinct : ∀ key key' deps deps' dir branch changeId i m, s₀.board.depends.get? key = some deps →
    s₀.board.depends.get? key' = some deps' → CommitOf s₀ g₀ key dir branch changeId i m →
    CommitOf s₀ g₀ key' dir branch changeId i m → key = key'
  shas : ∀ dir branch, ((g₀.history dir branch).map GitCommit.sha).Nodup

/-- The commits that depend on others are on the branches that are checked out. -/
def OnHead (s₀ : Status) (g₀ : Repos) : Prop := ∀ key deps dir branch changeId i m,
  s₀.board.depends.get? key = some deps → CommitOf s₀ g₀ key dir branch changeId i m →
    g₀.head dir = branch

/-! ## What there is at the end -/

/-- The message `m` with the line that names the CLs of `deps` before the `Change-Id` line. -/
def WithCqDepend (s₀ : Status) (deps : List StepName) (changeId : ChangeId) (m m' : List String) :
    Prop :=
  ∃ cls before after, deps.map (clOf s₀) = cls.map some ∧
    m = before ++ changeIdLine changeId :: after ∧
    m' = before ++ cqDependStr cls :: changeIdLine changeId :: after ∧
      m'.filter mentionsCqDepend = [cqDependStr cls]

/-- The commit in the map is amended, and its branch is uploaded as it is now. -/
def Delivered (s₀ : Status) (g : Repos) (deps : List StepName) (dir : Dir) (branch : Branch)
    (changeId : ChangeId) (i : Nat) (m : List String) : Prop :=
  (∃ m', (g.messagesOf dir branch)[i]? = some m' ∧ WithCqDepend s₀ deps changeId m m') ∧
    g.uploaded dir branch = some (g.history dir branch)

/-- Every commit in the map is delivered, and any other commit, on any branch, is as it was. -/
structure PipelineDone (s₀ : Status) (g₀ g : Repos) : Prop where
  commits : ∀ key deps dir branch changeId i m, s₀.board.depends.get? key = some deps →
    CommitOf s₀ g₀ key dir branch changeId i m → Delivered s₀ g deps dir branch changeId i m
  others : ∀ (dir : Dir) (branch : Branch) (i : Nat) (c : GitCommit),
    (g₀.history dir branch)[i]? = some c →
    (∀ key deps branch' changeId j m, s₀.board.depends.get? key = some deps →
      CommitOf s₀ g₀ key dir branch' changeId j m →
        (g₀.history dir branch')[j]?.map GitCommit.sha ≠ some c.sha) →
    (g.messagesOf dir branch)[i]? = some c.message
  length : ∀ dir branch, (g.history dir branch).length = (g₀.history dir branch).length

/-! ## The plan fits -/

section

variable {s₀ : Status} {g₀ g : Repos}

theorem cqDependStr_mentions (cls : List (Instance × Nat)) :
    mentionsCqDepend (cqDependStr cls) = true := by
  apply decide_eq_true
  rw [cqDependStr, String.toList_append]
  refine ⟨[], [':', ' '] ++ (String.intercalate ", " (cls.map showCl)).toList, ?_⟩
  rw [← List.append_assoc]
  rfl

theorem cqDependStr_not_changeIdLine (cls : List (Instance × Nat)) :
    isChangeIdLine (cqDependStr cls) = false := by
  apply decide_eq_false
  rw [cqDependStr, String.toList_append]
  rintro ⟨rest, h⟩
  have h : 'C' :: 'h' :: _ = 'C' :: 'q' :: _ := h
  simp at h

/-- Where an amendment of the plan comes from. -/
theorem plan_cases {a : Amendment} (h : plan s₀ a) :
    ∃ key deps cls commit, s₀.board.depends.get? key = some deps ∧
    clsOf s₀ deps = some cls ∧ planned s₀ key = some a.text ∧ a.text = cqDependStr cls ∧
    s₀.commits.get? key = some commit ∧ commit.dir = some a.dir ∧
      commit.changeId = some a.changeId := by
  obtain ⟨key, -, ha⟩ := h
  simp only [amendmentOf, Option.bind_eq_some_iff, Option.map_eq_some_iff] at ha
  obtain ⟨commit, hcommit, dir, hdir, changeId, hid, text, htext, rfl⟩ := ha
  have hplanned := htext
  simp only [planned, Option.bind_eq_some_iff, Option.map_eq_some_iff] at htext
  obtain ⟨deps, hdeps, cls, hcls, rfl⟩ := htext
  exact ⟨key, deps, cls, commit, hdeps, hcls, hplanned, rfl, hcommit, hdir, hid⟩

/-- The commit of an amendment is the one of its key. -/
theorem Prepared.commitOf (h : Prepared s₀ g₀) {key : StepName} {deps : List StepName}
    {commit : Commit} {dir : Dir} {changeId : ChangeId}
    (hdeps : s₀.board.depends.get? key = some deps) (hcommit : s₀.commits.get? key = some commit)
    (hdir : commit.dir = some dir) (hid : commit.changeId = some changeId) :
    ∃ branch i m, CommitOf s₀ g₀ key dir branch changeId i m := by
  obtain ⟨dir', branch, changeId', i, m, hof⟩ := h.commit key deps hdeps
  obtain ⟨commit', hcommit', hdir', hbranch, hid'⟩ := hof.entry
  rw [hcommit] at hcommit'
  cases hcommit'
  rw [hdir] at hdir'
  rw [hid] at hid'
  cases hdir'
  cases hid'
  exact ⟨branch, i, m, hof⟩

/-- What is found on the branch that is checked out. -/
theorem OnHead.messages (hhead : OnHead s₀ g₀) {key : StepName} {deps : List StepName} {dir : Dir}
    {branch : Branch} {changeId : ChangeId} {i : Nat} {m : List String}
    (hdeps : s₀.board.depends.get? key = some deps)
    (hof : CommitOf s₀ g₀ key dir branch changeId i m) :
    g₀.messages dir = g₀.messagesOf dir branch := by
  rw [Repos.messagesOf, ← hhead key deps dir branch changeId i m hdeps hof]
  rfl

theorem Prepared.fits (h : Prepared s₀ g₀) (hhead : OnHead s₀ g₀) : Fits (plan s₀) g₀.messages where
  message := by
    intro a i m ha hnew hm
    obtain ⟨key, deps, cls, commit, hdeps, -, -, -, hcommit, hdir, hid⟩ := plan_cases ha
    obtain ⟨branch, j, m', hof⟩ := h.commitOf hdeps hcommit hdir hid
    rw [hhead.messages hdeps hof] at hnew hm
    obtain rfl : j = i := hof.newest.unique hnew
    have hmm : m' = m := Option.some.inj (hof.message.symm.trans hm)
    subst hmm
    exact h.message key deps _ branch _ j m' hdeps hof
  distinct := by
    intro a a' ha ha' hdirs hids
    obtain ⟨key, deps, cls, commit, hdeps, hcls, -, htext, hcommit, hdir, hid⟩ := plan_cases ha
    obtain ⟨key', deps', cls', commit', hdeps', hcls', -, htext', hcommit', hdir', hid'⟩ :=
      plan_cases ha'
    obtain ⟨branch, i, m, hof⟩ := h.commitOf hdeps hcommit hdir hid
    obtain ⟨branch', i', m', hof'⟩ := h.commitOf hdeps' hcommit' hdir' hid'
    rw [← hdirs, ← hids] at hof'
    obtain rfl : branch' = branch :=
      (hhead _ _ _ _ _ _ _ hdeps' hof').symm.trans (hhead _ _ _ _ _ _ _ hdeps hof)
    obtain rfl : i' = i := hof'.newest.unique hof.newest
    have hmm : m' = m := Option.some.inj (hof'.message.symm.trans hof.message)
    subst hmm
    obtain rfl := h.distinct key key' deps deps' _ _ _ _ _ hdeps hdeps' hof hof'
    rw [hdeps] at hdeps'
    cases hdeps'
    rw [hcls] at hcls'
    cases hcls'
    obtain ⟨dir, changeId, text⟩ := a
    obtain ⟨dir', changeId', text'⟩ := a'
    simp only at hdirs hids htext htext'
    rw [hdirs, hids, htext, htext']
  text := by
    intro a ha
    obtain ⟨key, deps, cls, commit, -, -, -, htext, -, -, -⟩ := plan_cases ha
    rw [htext]
    exact ⟨cqDependStr_mentions cls, cqDependStr_not_changeIdLine cls⟩

/-! ## All is done -/

/-- A message with the text before its `Change-Id` line. -/
theorem withCqDepend {deps : List StepName} {cls : List (Instance × Nat)} {changeId : ChangeId}
    {m : List String} (hcls : clsOf s₀ deps = some cls) (hone : m.countP isChangeIdLine = 1)
    (hnot : ∀ l ∈ m, mentionsCqDepend l = false) (hline : changeIdLine changeId ∈ m) :
    WithCqDepend s₀ deps changeId m (insertBefore (changeIdLine changeId) (cqDependStr cls) m) := by
  obtain ⟨before, after, rfl, hbefore, hafter⟩ := split_changeIdLine hone hline
  have hid := isChangeIdLine_changeIdLine changeId
  have hb : changeIdLine changeId ∉ before := fun h => by
    rw [hbefore _ h] at hid
    cases hid
  have ha : changeIdLine changeId ∉ after := fun h => by
    rw [hafter _ h] at hid
    cases hid
  refine ⟨cls, before, after, clsOf_eq_some.mp hcls, rfl, insertBefore_split hb ha, ?_⟩
  have hfilter : ∀ ls : List String, (∀ l ∈ ls, l ∈ before ++ changeIdLine changeId :: after) →
      ls.filter mentionsCqDepend = [] := by
    intro ls hls
    apply List.filter_eq_nil_iff.mpr
    intro l hl
    rw [hnot l (hls l hl)]
    exact Bool.false_ne_true
  rw [insertBefore_split hb ha, List.filter_append,
    List.filter_cons_of_pos (cqDependStr_mentions cls),
    hfilter before (fun l hl => List.mem_append_left _ hl),
    hfilter (changeIdLine changeId :: after) (fun l hl => List.mem_append_right _ hl)]
  rfl

theorem PipelineDone.of_amending (h : Prepared s₀ g₀) (hhead : OnHead s₀ g₀)
    (hplanned : ∀ key deps, s₀.board.depends.get? key = some deps → planned s₀ key ≠ none)
    (hg : Amending (plan s₀) g₀ (plan s₀) g) (hup : Uploaded s₀ g) : PipelineDone s₀ g₀ g where
  commits := by
    intro key deps dir branch changeId i m hdeps hof
    have hmessages := hhead.messages hdeps hof
    have hnow : g.messages dir = g.messagesOf dir branch := by
      rw [Repos.messagesOf, ← hhead key deps dir branch changeId i m hdeps hof, ← hg.head]
      rfl
    obtain ⟨commit, hcommit, hdir, hbranch, hid⟩ := hof.entry
    obtain ⟨text, htext⟩ := Option.ne_none_iff_exists'.mp (hplanned key deps hdeps)
    have hcls := htext
    simp only [planned, hdeps, Option.bind_some, Option.map_eq_some_iff] at hcls
    obtain ⟨cls, hcls, rfl⟩ := hcls
    have ha : plan s₀ ⟨dir, changeId, cqDependStr cls⟩ :=
      ⟨key, trivial, by simp [amendmentOf, hcommit, hdir, hid, htext]⟩
    obtain ⟨hone, hnot⟩ := h.message key deps dir branch changeId i m hdeps hof
    obtain ⟨m₀, hm₀, hline⟩ := hof.newest.mem
    obtain rfl : m₀ = m := Option.some.inj (hm₀.symm.trans hof.message)
    refine ⟨?_, hup key commit branch dir trivial (hplanned key deps hdeps) hcommit hbranch hdir⟩
    have hnewest : Newest (changeIdLine changeId) (g₀.messages dir) i := hmessages ▸ hof.newest
    obtain ⟨m', hm', hor⟩ := hg.current (hmessages ▸ hof.message)
    rw [hnow] at hm'
    refine ⟨m', hm', ?_⟩
    rcases hor with ⟨a, ha', hdir', hnew', rfl⟩ | ⟨-, hundone⟩
    · obtain rfl := (h.fits hhead).eq_of_newest ha ha' hdir' hnewest hnew'
      exact withCqDepend hcls hone hnot hline
    · exact absurd hnewest (hundone _ ha rfl)
  others := by
    intro dir branch i c hc hnot
    by_cases hb : branch = g₀.head dir
    · subst hb
      have hm₀ : (g₀.messages dir)[i]? = some c.message := by
        rw [Repos.messages, List.getElem?_map, Repos.checkedOut, hc]
        rfl
      obtain ⟨m, hm, hor⟩ := hg.current hm₀
      have hnow : g.messagesOf dir (g₀.head dir) = g.messages dir := by
        rw [← hg.head]
        rfl
      rw [hnow, hm]
      rcases hor with ⟨a, ha, rfl, hnew, -⟩ | ⟨rfl, -⟩
      · obtain ⟨key, deps, cls, commit, hdeps, -, -, -, hcommit, hdir, hid⟩ := plan_cases ha
        obtain ⟨branch, j, m', hof⟩ := h.commitOf hdeps hcommit hdir hid
        rw [hhead.messages hdeps hof] at hnew
        obtain rfl : j = i := hof.newest.unique hnew
        refine absurd ?_ (hnot key deps branch _ j m' hdeps hof)
        rw [← hhead _ _ _ _ _ _ _ hdeps hof, hc]
        rfl
      · rfl
    · rw [Repos.messagesOf, hg.others dir branch hb, List.getElem?_map, hc]
      rfl
  length := by
    intro dir branch
    by_cases hb : branch = g₀.head dir
    · have hlength := hg.length dir
      rw [Repos.messages, Repos.messages, List.length_map, List.length_map, Repos.checkedOut,
        Repos.checkedOut,
        hg.head] at hlength
      rw [hb]
      exact hlength
    · rw [hg.others dir branch hb]

/-! ## Phases -/

/-- Each text can be calculated. -/
def Calculated (s₀ : Status) : Prop :=
  ∀ key deps, s₀.board.depends.get? key = some deps → planned s₀ key ≠ none

/-- No attempt at `re_upload` has succeeded. -/
def NotUploaded (log : Log) : Prop := (StepName.reUpload, true) ∉ log

/-- What there is when the status is at a step of the pipeline. -/
inductive AtPhase (s₀ : Status) (g₀ : Repos) : Status → Repos → Log → Prop
  | calculating {s : Status} {log : Log} : s.step = some .calcCqDepend →
    Marked s₀ (fun _ => none) (fun _ => false) s →
      NotUploaded log → AtPhase s₀ g₀ s g₀ log
  | add {s : Status} {g : Repos} {log : Log} : s.step = some .addCqDepend → Calculated s₀ →
      Marked s₀ (planned s₀) (fun _ => false) s → Amending (plan s₀) g₀ (fun _ => False) g →
        NotUploaded log →
      AtPhase s₀ g₀ s g log
  | reUpload {s : Status} {g : Repos} {log : Log} : s.step = some .reUpload → Calculated s₀ →
      Marked s₀ (planned s₀) (fun key => (planned s₀ key).isSome) s →
        Amending (plan s₀) g₀ (plan s₀) g →
      ((StepName.reUpload, true) ∈ log → Uploaded s₀ g) → AtPhase s₀ g₀ s g log
  | done {s : Status} {g : Repos} {log : Log} : s.step = some .cleanUp ∨ s.step = none →
      Calculated s₀ →
      s.board.stepList = s₀.board.stepList → Amending (plan s₀) g₀ (plan s₀) g → Uploaded s₀ g →
        AtPhase s₀ g₀ s g log

theorem AtPhase.dumped {s : Status} {log : Log} (h : AtPhase s₀ g₀ s g log) :
    AtPhase s₀ g₀ s.dumped g log := by
  cases h with
  | calculating hstep hs hlog => exact .calculating hstep hs.dumped hlog
  | add hstep hcalc hs hg hlog => exact .add hstep hcalc hs.dumped hg hlog
  | reUpload hstep hcalc hs hg hup => exact .reUpload hstep hcalc hs.dumped hg hup
  | done hstep hcalc hs hg hup => exact .done hstep hcalc hs hg hup

/-- Once `re_upload` has succeeded, all is done. -/
theorem AtPhase.pipelineDone (hpre : Prepared s₀ g₀) (hhead : OnHead s₀ g₀) {s : Status}
    {log : Log} (h : AtPhase s₀ g₀ s g log) (hlog : (StepName.reUpload, true) ∈ log) :
    PipelineDone s₀ g₀ g := by
  cases h with
  | calculating _ _ hnot => exact absurd hlog hnot
  | add _ _ _ _ hnot => exact absurd hlog hnot
  | reUpload _ hcalc _ hg hup => exact .of_amending hpre hhead hcalc hg (hup hlog)
  | done _ hcalc _ hg hup => exact .of_amending hpre hhead hcalc hg hup

/-- The file and the repositories, at any time: there is no file when all is done. -/
def FileAtPhase (s₀ : Status) (g₀ : Repos) (d : World Repos × Log) : Prop :=
  match d.1.file with
  | none => PipelineDone s₀ g₀ d.1.outside
  | some s => AtPhase s₀ g₀ s d.1.outside d.2

theorem FileAtPhase.of_some {d : World Repos × Log} {s : Status} (hfile : d.1.file = some s)
    (h : AtPhase s₀ g₀ s d.1.outside d.2) : FileAtPhase s₀ g₀ d := by
  unfold FileAtPhase
  rw [hfile]
  exact h

theorem FileAtPhase.of_none {d : World Repos × Log} (hfile : d.1.file = none)
    (h : PipelineDone s₀ g₀ d.1.outside) : FileAtPhase s₀ g₀ d := by
  unfold FileAtPhase
  rw [hfile]
  exact h

theorem FileAtPhase.pipelineDone (hpre : Prepared s₀ g₀) (hhead : OnHead s₀ g₀)
    {d : World Repos × Log} (h : FileAtPhase s₀ g₀ d) (hlog : (StepName.reUpload, true) ∈ d.2) :
    PipelineDone s₀ g₀ d.1.outside := by
  unfold FileAtPhase at h
  cases hfile : d.1.file with
  | none =>
    rw [hfile] at h
    exact h
  | some s =>
    rw [hfile] at h
    exact h.pipelineDone hpre hhead hlog

/-! ## The next step -/

/-- The steps of the pipeline follow one another. -/
theorem Prepared.next (hpre : Prepared s₀ g₀) {s : Status}
    (hlist : s.board.stepList = s₀.board.stepList) {n next : StepName} {k : Nat}
    (hstep : s.step = some n) (habort : n ≠ .abort)
    (hn : [StepName.calcCqDepend, .addCqDepend, .reUpload, .cleanUp][k]? = some n)
    (hnext : [StepName.calcCqDepend, .addCqDepend, .reUpload, .cleanUp][k + 1]? = some next) :
    moveToNextStep s = some { s with step := some next } := by
  obtain ⟨before, hsteps⟩ := hpre.steps
  have hget : ∀ j, s.board.stepList[before.length + j]? =
      [StepName.calcCqDepend, .addCqDepend, .reUpload, .cleanUp][j]? := by
    intro j
    rw [hlist, hsteps, List.getElem?_append_right (by omega)]
    congr 1
    omega
  have hmove := moveToNextStep_after hstep habort (hlist ▸ hpre.nodup) ((hget k).trans hn)
  rw [hmove]
  congr 2
  exact (hget (k + 1)).trans hnext

theorem Prepared.next_cleanUp (hpre : Prepared s₀ g₀) {s : Status}
    (hlist : s.board.stepList = s₀.board.stepList) (hstep : s.step = some .cleanUp) :
    moveToNextStep s = some { s with step := none } := by
  obtain ⟨before, hsteps⟩ := hpre.steps
  have hn : s.board.stepList[before.length + 3]? = some .cleanUp := by
    rw [hlist, hsteps, List.getElem?_append_right (by omega)]
    simp
  have hmove := moveToNextStep_after hstep (by decide) (hlist ▸ hpre.nodup) hn
  rw [hmove]
  congr 2
  apply List.getElem?_eq_none
  rw [hlist, hsteps, List.length_append]
  exact Nat.le_refl _

/-! ## Turns -/

/-- What a turn has to establish, for the outcome `a` of its step. -/
def TurnEnds (s₀ : Status) (g₀ : Repos) (n : StepName) (log : Log) (a : Except Exn (Bool × Status))
    (w : World Repos) : Prop :=
  FileAtPhase s₀ g₀ (w, log ++ [(n, Succeeds a)]) ∧
    AfterStep (fun _ => True) (AtPhase s₀ g₀ · w.outside (log ++ [(n, Succeeds a)])) a

theorem afterStep_of_failed {next : Status → Prop} {a : Except Exn (Bool × Status)}
    (ha : ∀ s, a ≠ .ok (true, s)) :
    AfterStep (fun _ => True) next a := by
  match a, ha with
  | .error _, _ => trivial
  | .ok (false, _), _ => trivial
  | .ok (true, s), ha => exact absurd rfl (ha s)

theorem notUploaded_append {log : Log} {n : StepName} {b : Bool} (h : NotUploaded log)
    (hn : n ≠ .reUpload) :
    NotUploaded (log ++ [(n, b)]) := by
  intro hin
  rcases List.mem_append.mp hin with hin | hin
  · exact h hin
  · cases List.mem_singleton.mp hin
    exact hn rfl

theorem Marked.stored {cq : StepName → Option String} {needs : StepName → Bool} {s : Status}
    (h : Marked s₀ cq needs s) : ∀ key ∈ s.commits.keys, s₀.commits.get? key ≠ none := by
  intro key hkey
  obtain ⟨commit, hcommit⟩ := Dict.mem_keys.mp (h.mem_keys.mp hkey)
  rw [hcommit]
  exact Option.some_ne_none _

/-- A key that is not in the status has no entry to mark. -/
theorem Marked.of_keys {cq : StepName → Option String} {needs needs' : StepName → Bool}
    {s : Status} (h : Marked s₀ cq needs s)
    (hsame : ∀ key ∈ s.commits.keys, needs key = needs' key) : Marked s₀ cq needs' s :=
  h.congr fun key commit hget =>
    ⟨rfl, hsame key (h.mem_keys.mpr (Dict.mem_keys.mpr ⟨commit, hget⟩))⟩

theorem turn_calc (hpre : Prepared s₀ g₀) {s : Status} {log : Log}
    (hstep : s.step = some .calcCqDepend) (hs : Marked s₀ (fun _ => none) (fun _ => false) s)
    (hlog : NotUploaded log) {a : Except Exn (Bool × Status)} {w : World Repos}
    (hexec : Exec (callSem gitSem) (performStep s) ⟨some s.dumped, g₀⟩ a w) :
    TurnEnds s₀ g₀ .calcCqDepend log a w := by
  have hentries : ∀ entry ∈ s.board.depends.items, s₀.board.depends.get? entry.1 =
      some entry.2 := by
    intro entry hentry
    rw [← hs.depends entry.1]
    exact Dict.mem_items.mp hentry
  have hnone : ∀ key, textsBefore s₀ s.board.depends.items key = none := by
    intro key
    by_cases hkey : key ∈ s.board.depends.items.map Prod.fst
    · rw [textsBefore, if_pos hkey]
    · rw [textsBefore, if_neg hkey, planned, ← hs.depends key, Dict.get?_eq_none.mpr hkey]
      rfl
  have hmarked : Marked s₀ (textsBefore s₀ s.board.depends.items) (fun _ => false) s :=
    hs.congr fun key _ _ => ⟨(hnone key).symm, rfl⟩
  obtain ⟨rc, s', hret, hends⟩ :=
    calcLoop_ends hpre.exist _ s s.board.depends.nodup hentries hmarked
  have hperform : performStep s = .ret (rc, s') := by
    rw [performStep, hstep]
    exact hret
  rw [hperform] at hexec
  cases hexec
  have hlog' := @notUploaded_append log .calcCqDepend (Succeeds (.ok (rc, s'))) hlog (by decide)
  refine ⟨.of_some rfl (AtPhase.calculating hstep hs hlog').dumped, ?_⟩
  cases rc with
  | false => exact afterStep_of_failed fun s h => by cases h
  | true =>
    obtain ⟨hsame, hs', hsome⟩ := hends rfl
    have hmove := hpre.next hs'.stepList (k := 0) (hsame.trans hstep) (by decide) rfl rfl
    refine .of_move hmove (.add rfl ?_ ⟨hs'.stepList, hs'.depends, hs'.commits⟩ ?_ hlog')
    · intro key deps hdeps
      rw [← hs.depends key] at hdeps
      exact hsome (key, deps) (Dict.mem_items.mpr hdeps)
    · refine ⟨fun _ => rfl, fun dir i m₀ m hm₀ hm => ?_,
        fun _ _ _ => rfl, rfl, fun dir => hpre.shas dir (g₀.head dir)⟩
      exact .inr ⟨Option.some.inj (hm.symm.trans hm₀), fun _ h => h.elim⟩

theorem turn_add (hpre : Prepared s₀ g₀) (hhead : OnHead s₀ g₀) {s : Status} {log : Log}
    (hstep : s.step = some .addCqDepend) (hcalc : Calculated s₀)
    (hs : Marked s₀ (planned s₀) (fun _ => false) s)
    (hg : Amending (plan s₀) g₀ (fun _ => False) g) (hlog : NotUploaded log)
    {a : Except Exn (Bool × Status)} {w : World Repos}
    (hexec : Exec (callSem gitSem) (performStep s) ⟨some s.dumped, g⟩ a w) :
    TurnEnds s₀ g₀ .addCqDepend log a w := by
  have hmarked : Marked s₀ (planned s₀) (marksOutside s₀ s.commits.keys) s :=
    hs.of_keys fun key hkey => by simp [marksOutside, hkey]
  have hg : Amending (plan s₀) g₀ (planOf s₀ (· ∉ s.commits.keys)) g := by
    refine hg.weaken ?_
    rintro b ⟨key, hkey, hb⟩
    simp only [amendmentOf, Option.bind_eq_some_iff] at hb
    obtain ⟨commit, hcommit, -⟩ := hb
    exact hkey (hs.mem_keys.mpr (Dict.mem_keys.mpr ⟨commit, hcommit⟩))
  have hloop := wp_addLoop (hpre.fits hhead) s.commits.keys s
    ⟨some s.dumped, g⟩ s.commits.nodup hs.stored hmarked hg
  have hperform : performStep s = addLoop s.commits.keys s := by
    rw [performStep, hstep]
    rfl
  rw [hperform] at hexec
  have hends := wp_exec hloop hexec
  have hlog' := @notUploaded_append log .addCqDepend (Succeeds a) hlog (by decide)
  refine ⟨.of_some hends.file (AtPhase.add hstep hcalc hs hends.amending hlog').dumped, ?_⟩
  by_cases ha : ∃ s', a = .ok (true, s')
  · obtain ⟨s', rfl⟩ := ha
    obtain ⟨hsame, hs', hg'⟩ := hends.done s' rfl
    have hmove := hpre.next hs'.stepList (k := 1) (hsame.trans hstep) (by decide) rfl rfl
    exact .of_move hmove
      (.reUpload rfl hcalc ⟨hs'.stepList, hs'.depends, hs'.commits⟩ hg' fun h => absurd h hlog')
  · exact afterStep_of_failed fun s' h => ha ⟨s', h⟩

theorem turn_reUpload (hpre : Prepared s₀ g₀) {s : Status} {log : Log}
    (hstep : s.step = some .reUpload) (hcalc : Calculated s₀)
    (hs : Marked s₀ (planned s₀) (fun key => (planned s₀ key).isSome) s)
    (hg : Amending (plan s₀) g₀ (plan s₀) g)
    (hup : (StepName.reUpload, true) ∈ log → Uploaded s₀ g) {a : Except Exn (Bool × Status)}
    {w : World Repos} (hexec : Exec (callSem gitSem) (performStep s) ⟨some s.dumped, g⟩ a w) :
    TurnEnds s₀ g₀ .reUpload log a w := by
  have hmarked : Marked s₀ (planned s₀) (marksWithin s₀ s.commits.keys) s :=
    hs.of_keys fun key hkey => by simp [marksWithin, hkey]
  have hnone : UploadedAt s₀ (· ∉ s.commits.keys) g := fun key commit _ _ hkey _ hget =>
    absurd (hs.mem_keys.mpr (Dict.mem_keys.mpr ⟨commit, hget⟩)) hkey
  have hloop :=
    wp_reUploadLoop s.commits.keys s ⟨some s.dumped, g⟩ s.commits.nodup hs.stored hmarked hg hnone
  have hperform : performStep s = reUploadLoop s.commits.keys s := by
    rw [performStep, hstep]
    rfl
  rw [hperform] at hexec
  have hends := wp_exec hloop hexec
  by_cases ha : ∃ s', a = .ok (true, s')
  · obtain ⟨s', rfl⟩ := ha
    obtain ⟨hsame, hboard, hall⟩ := hends.done s' rfl
    refine ⟨.of_some hends.file
      (AtPhase.reUpload hstep hcalc hs hends.amending fun _ => hall).dumped, ?_⟩
    have hlist : s'.board.stepList = s₀.board.stepList := by rw [hboard, hs.stepList]
    have hmove := hpre.next hlist (k := 2) (hsame.trans hstep) (by decide) rfl rfl
    exact .of_move hmove (.done (.inl rfl) hcalc hlist hends.amending hall)
  · have hfailed : Succeeds a = false := by
      cases a with
      | error _ => rfl
      | ok out =>
        obtain ⟨ok, s'⟩ := out
        cases ok with
        | false => rfl
        | true => exact absurd ⟨s', rfl⟩ ha
    refine ⟨.of_some hends.file (AtPhase.reUpload hstep hcalc hs hends.amending ?_).dumped, ?_⟩
    · intro hin
      rcases List.mem_append.mp hin with hin | hin
      · exact hends.stable (hup hin)
      · rw [hfailed] at hin
        cases List.mem_singleton.mp hin
    · exact afterStep_of_failed fun s' h => ha ⟨s', h⟩

theorem turn_cleanUp (hpre : Prepared s₀ g₀) (hhead : OnHead s₀ g₀) {s : Status} {log : Log}
    (hstep : s.step = some .cleanUp) (hcalc : Calculated s₀)
    (hlist : s.board.stepList = s₀.board.stepList) (hg : Amending (plan s₀) g₀ (plan s₀) g)
    (hup : Uploaded s₀ g) {a : Except Exn (Bool × Status)} {w : World Repos}
    (hexec : Exec (callSem gitSem) (performStep s) ⟨some s.dumped, g⟩ a w) :
    TurnEnds s₀ g₀ .cleanUp log a w := by
  rcases exec_cleanUp hstep hexec with ⟨rfl, hfile, hout⟩ | ⟨rfl, hfile, hout⟩
  · have hout : w.outside = g := hout
    refine ⟨.of_none hfile ?_, .of_move (hpre.next_cleanUp hlist hstep) ?_⟩
    · rw [hout]
      exact .of_amending hpre hhead hcalc hg hup
    · rw [hout]
      exact .done (.inr rfl) hcalc hlist hg hup
  · have hout : w.outside = g := hout
    refine ⟨.of_some hfile ?_, trivial⟩
    rw [hout]
    exact (AtPhase.done (.inl hstep) hcalc hlist hg hup).dumped

theorem turnKeeps_phase (hpre : Prepared s₀ g₀) (hhead : OnHead s₀ g₀) :
    TurnKeeps gitSem (FileAtPhase s₀ g₀) (fun _ s d => AtPhase s₀ g₀ s d.1.outside d.2)
      (fun _ _ => True) := by
  rintro fuel s n ⟨⟨file, g⟩, log⟩ hphase hn
  refine ⟨.of_some rfl hphase.dumped, fun a w hexec => ?_⟩
  show TurnEnds s₀ g₀ n log a w
  cases hphase with
  | calculating hstep hs hlog =>
    cases hn.symm.trans hstep
    exact turn_calc hpre hstep hs hlog hexec
  | add hstep hcalc hs hg hlog =>
    cases hn.symm.trans hstep
    exact turn_add hpre hhead hstep hcalc hs hg hlog hexec
  | reUpload hstep hcalc hs hg hup =>
    cases hn.symm.trans hstep
    exact turn_reUpload hpre hstep hcalc hs hg hup hexec
  | done hstep hcalc hs hg hup =>
    rcases hstep with hstep | hnone
    · cases hn.symm.trans hstep
      exact turn_cleanUp hpre hhead hstep hcalc hs hg hup hexec
    · cases hn.symm.trans hnone

/-! ## Runs -/

/-- What runs with `--continue` leave behind, each possibly cut off between two operations. -/
inductive Continues {X : Type} (ext : Sem Call X) (d₀ : World X × Log) : World X × Log → Prop
  | start : Continues ext d₀ d₀
  | run {d d' : World X × Log} {p : Prog Op Exn Bool} : Continues ext d₀ d →
      Steps ((opSem ext).noting noteStep) (main .continueFlag) d p d' → Continues ext d₀ d'

theorem continues_phase (hpre : Prepared s₀ g₀) (hhead : OnHead s₀ g₀) {d : World Repos × Log}
    (h : Continues gitSem (⟨some s₀, g₀⟩, []) d) : FileAtPhase s₀ g₀ d := by
  induction h with
  | start =>
    refine .of_some rfl (.calculating hpre.step ⟨rfl, fun _ => rfl, fun key => ?_⟩ List.not_mem_nil)
    cases hget : s₀.commits.get? key with
    | none => rfl
    | some commit =>
      obtain ⟨hcq, hneeds⟩ := hpre.fresh key commit hget
      rw [Option.map_some, ← hcq, ← hneeds]
  | run _ hsteps ih =>
    have hloop :=
      wp_mainLoop (turnKeeps_phase hpre hhead) (fun _ _ _ _ _ => trivial) (fun _ _ _ => trivial)
    refine wp_steps (wp_main_old rfl ih (fun _ => trivial) fun s hs => hloop _ _ _ ?_) ih hsteps
    unfold FileAtPhase at ih
    rw [hs] at ih
    exact ih

/-! ## The branches that are not checked out -/

/-- They are as they were. -/
structure OnlyHead (g₀ g : Repos) : Prop where
  head : g.head = g₀.head
  others : ∀ dir branch, branch ≠ g₀.head dir → g.history dir branch = g₀.history dir branch

theorem OnlyHead.call {β : Type} {c : Call β} {a : β} {g' : Repos} (h : gitSem c g a g')
    (hg : OnlyHead g₀ g) :
    OnlyHead g₀ g' := by
  cases c with
  | gitLogGrep => exact h.1 ▸ hg
  | gitLogMessage => exact h.1 ▸ hg
  | runProcess cmd =>
    cases cmd with
    | filterBranch dir changeId text sha =>
      obtain ⟨-, hsame⟩ | hfiltered := h
      · exact hsame ▸ hg
      · obtain ⟨hhead, hothers⟩ := hfiltered.frame
        refine ⟨hhead.trans hg.head, fun d b hb => ?_⟩
        rw [hothers d b (.inr (hg.head ▸ hb)), hg.others d b hb]
    | repoUpload branch dir =>
      obtain ⟨-, hsame⟩ | rfl := h
      · exact hsame ▸ hg
      · exact ⟨hg.head, hg.others⟩
    | _ =>
      obtain rfl : g' = g := h
      exact hg
  | _ =>
    obtain rfl : g' = g := h
    exact hg

theorem OnlyHead.operation {β : Type} {o : Op β} {a : β} {w w' : World Repos}
    (h : opSem gitSem o w a w') (hg : OnlyHead g₀ w.outside) : OnlyHead g₀ w'.outside := by
  cases o with
  | yamlFileExists =>
    obtain rfl : w' = w := h.2
    exact hg
  | save s =>
    obtain rfl : w' = { w with file := some s.dumped } := h
    exact hg
  | load =>
    obtain rfl : w' = w := h.2
    exact hg
  | performStep s =>
    refine Exec.invariant (I := fun w : World Repos => OnlyHead g₀ w.outside)
      (fun β c w b w' hc hw => ?_) h hg
    cases c with
    | save s =>
      obtain rfl : w' = { w with file := some s.dumped } := hc
      exact hw
    | _ => exact hw.call hc.1

theorem continues_onlyHead {d : World Repos × Log} (h : Continues gitSem (⟨some s₀, g₀⟩, []) d) :
    OnlyHead g₀ d.1.outside := by
  induction h with
  | start => exact ⟨rfl, fun _ _ _ => rfl⟩
  | run _ hsteps ih =>
    exact Steps.invariant (I := fun d : World Repos × Log => OnlyHead g₀ d.1.outside)
      (fun _ _ _ _ _ ho hd => hd.operation ho.1) hsteps ih

/-- A commit without the line is not delivered as long as its branch is as it was. -/
theorem not_delivered {deps : List StepName} {dir : Dir} {branch : Branch} {changeId : ChangeId}
    {i : Nat} {m : List String} (hm : (g₀.messagesOf dir branch)[i]? = some m)
    (hnot : ∀ l ∈ m, mentionsCqDepend l = false)
    (hsame : g.history dir branch = g₀.history dir branch) :
    ¬Delivered s₀ g deps dir branch changeId i m := by
  rintro ⟨⟨m', hm', cls, before, after, -, -, -, hlines⟩, -⟩
  rw [Repos.messagesOf, hsame] at hm'
  obtain rfl : m' = m := Option.some.inj (hm'.symm.trans hm)
  have hnil : m'.filter mentionsCqDepend = [] := by
    refine List.filter_eq_nil_iff.mpr fun l hl => ?_
    rw [hnot l hl]
    exact Bool.false_ne_true
  rw [hnil] at hlines
  cases hlines

/-- **Wherever the runs are when `re_upload` has succeeded: every commit in the map carries the line
that names its dependencies, directly before its Change-Id, its branch is uploaded with it, and
nothing else has changed, exactly if the branches of these commits are checked out.** -/
theorem pipelineDone_iff (hpre : Prepared s₀ g₀) {d : World Repos × Log}
    (hruns : Continues gitSem (⟨some s₀, g₀⟩, []) d) (hup : (StepName.reUpload, true) ∈ d.2) :
    PipelineDone s₀ g₀ d.1.outside ↔ OnHead s₀ g₀ := by
  constructor
  · intro hdone key deps dir branch changeId i m hdeps hof
    by_contra hne
    have hsame := (continues_onlyHead hruns).others dir branch (Ne.symm hne)
    exact not_delivered hof.message
      (hpre.message key deps dir branch changeId i m hdeps hof).2 hsame
      (hdone.commits key deps dir branch changeId i m hdeps hof)
  · exact fun hhead => (continues_phase hpre hhead hruns).pipelineDone hpre hhead hup

end

/-! ## A run after an upload that failed -/

/-- `git filter-branch`, if there is such a commit and the names for the new ones are free. -/
def runFilterBranch (g : Repos) (dir : Dir) (changeId : ChangeId) (text : String) (sha : Sha) :
    Option Bool × Repos :=
  let before := (g.checkedOut dir).takeWhile fun c => decide (c.sha ≠ sha)
  let commits := ((g.checkedOut dir).dropWhile fun c => decide (c.sha ≠ sha)).map fun c =>
    (⟨c.sha + 100, insertBefore (changeIdLine changeId) text c.message⟩ : GitCommit)
  if before.isEmpty = false ∧ commits.isEmpty = false ∧
    ((before ++ commits).map GitCommit.sha).Nodup then
    (some true, g.rewrite dir (before ++ commits))
  else (some false, g)

/-- Git, with or without a server to upload to. -/
def gitEval (uploads : Bool) : ∀ ⦃β : Type⦄, Call β → Repos → Option (β × Repos)
  | _, .gitLogGrep dir changeId, g => some (some (logGrep g dir (changeIdLine changeId)), g)
  | _, .gitLogMessage dir sha, g =>
    some (((g.checkedOut dir).find? fun c => decide (c.sha = sha)).map GitCommit.message, g)
  | _, .runProcess (.filterBranch dir changeId text sha), g =>
    some (runFilterBranch g dir changeId text sha)
  | _, .runProcess (.repoUpload branch dir), g =>
    some (if uploads then (some true, g.upload dir branch) else (some false, g))
  | _, .remove, g => some (some (), g)
  | _, _, _ => none

theorem filtered_runFilterBranch (g : Repos) (dir : Dir) (changeId : ChangeId) (text : String)
    (sha : Sha) :
    (runFilterBranch g dir changeId text sha).1 ≠ some true ∧
      (runFilterBranch g dir changeId text sha).2 = g ∨
      Filtered g dir changeId text sha (runFilterBranch g dir changeId text sha).2 := by
  unfold runFilterBranch
  simp only
  split
  · next h =>
    obtain ⟨hbefore, hcommits, hnodup⟩ := h
    right
    cases hrest : (g.checkedOut dir).dropWhile fun c => decide (c.sha ≠ sha) with
    | nil =>
      rw [hrest] at hcommits
      cases hcommits
    | cons c after =>
      rw [hrest] at hnodup
      refine ⟨_, c, after, _, ?_, ?_, ?_, ?_, hnodup, rfl⟩
      · rw [← hrest, List.takeWhile_append_dropWhile]
      · have hhead :=
          List.head?_dropWhile_not (fun c : GitCommit => decide (c.sha ≠ sha)) (g.checkedOut dir)
        rw [hrest] at hhead
        simpa using hhead
      · intro hnil
        rw [hnil] at hbefore
        cases hbefore
      · simp
  · exact .inl ⟨fun h => (by cases h), rfl⟩

theorem gitSem_of_gitEval {uploads : Bool} ⦃β : Type⦄ (c : Call β) (g : Repos) (a : β) (g' : Repos)
    (h : gitEval uploads c g = some (a, g')) : gitSem c g a g' := by
  cases c with
  | gitLogGrep dir changeId =>
    cases h
    exact ⟨rfl, .inr rfl⟩
  | gitLogMessage dir sha =>
    cases h
    refine ⟨rfl, ?_⟩
    cases hfind : (g.checkedOut dir).find? fun c => decide (c.sha = sha) with
    | none => exact .inl rfl
    | some c =>
      exact .inr ⟨c, List.mem_of_find?_eq_some hfind, by simpa using List.find?_some hfind, rfl⟩
  | runProcess cmd =>
    cases cmd with
    | filterBranch dir changeId text sha =>
      have hrun : runFilterBranch g dir changeId text sha = (a, g') := Option.some.inj h
      have hfiltered := filtered_runFilterBranch g dir changeId text sha
      rw [hrun] at hfiltered
      exact hfiltered
    | repoUpload branch dir =>
      cases uploads with
      | true =>
        cases h
        exact .inr rfl
      | false =>
        cases h
        exact .inl ⟨by simp, rfl⟩
    | _ => cases h
  | remove =>
    cases h
    rfl
  | _ => cases h

/-- Three commits of a branch. -/
def threeCommits : List GitCommit :=
  [⟨1, ["base"]⟩, ⟨2, ["cras", "", "Change-Id: I1", "Signed-off-by: me"]⟩,
    ⟨3, ["yaml", "", "Change-Id: I2"]⟩]

/-- Both commits are on one branch. -/
def oneBranch : Repos where
  history _ branch := if branch = "cras" then threeCommits else []
  head _ := "cras"
  uploaded _ _ := none

/-- The second branch starts at the first one. -/
def stacked : Repos where
  history _ branch := if branch = "cras" then threeCommits.take 2
    else if branch = "yaml" then threeCommits else []
  head _ := "yaml"
  uploaded _ _ := none

/-- The first commit depends on an upstream CL, the second one on that and on the first. `branch` is
that of the second. -/
def twoEntries (branch : Branch) : Status where
  board := { threeSteps [.calcCqDepend, .addCqDepend, .reUpload, .cleanUp] with
    depends := ⟨[(.crasConfig, [.find]), (.addPubYaml, [.find, .crasConfig])], by decide⟩ }
  variant := "variant"
  step := some .calcCqDepend
  commits := ⟨[
    (.addPubYaml, { Commit.made branch "I2" "overlays" with gerrit := some .chromium,
                                                            clNumber := some 6 }),
    (.crasConfig, { Commit.made "cras" "I1" "overlays" with gerrit := some .chromium,
                                                            clNumber := some 5 }),
    (.find, Commit.upstream (.coreboot, 7))], (by
      decide : [StepName.addPubYaml, .crasConfig, .find].Nodup)⟩

/-- The state after a run with `--continue`. -/
def afterContinue (uploads : Bool) (d : World Repos × Log) : World Repos × Log :=
  (main .continueFlag).evalState (noted (opEval (gitEval uploads)) noteStep) d

theorem continues_afterContinue (uploads : Bool) {d₀ d : World Repos × Log}
    (h : Continues gitSem d₀ d) :
    Continues gitSem d₀ (afterContinue uploads d) := by
  obtain ⟨p, hp⟩ :=
    steps_evalState (noting_of_noted (opSem_of_opEval gitSem_of_gitEval)) (main .continueFlag) d
  exact .run h hp

/-- There are no other entries. -/
theorem twoEntries_cases {branch : Branch} {key : StepName} {deps : List StepName}
    (h : (twoEntries branch).board.depends.get? key = some deps) :
    key = .crasConfig ∧ deps = [.find] ∨ key = .addPubYaml ∧ deps = [.find, .crasConfig] := by
  have hmem : (key, deps) ∈ [(StepName.crasConfig, [StepName.find]),
      (.addPubYaml, [.find, .crasConfig])] :=
    Dict.mem_items.mpr h
  rcases List.mem_cons.mp hmem with heq | hmem
  · cases heq
    exact .inl ⟨rfl, rfl⟩
  · cases List.mem_singleton.mp hmem
    exact .inr ⟨rfl, rfl⟩

section

variable {branch : Branch} {g₀ : Repos}

/-- What the entries stand for. -/
structure OfTwo (branch : Branch) (g₀ : Repos) : Prop where
  cras : g₀.messagesOf "overlays" "cras" = (threeCommits.take 2).map GitCommit.message ∨
    g₀.messagesOf "overlays" "cras" = threeCommits.map GitCommit.message
  yaml : g₀.messagesOf "overlays" branch = threeCommits.map GitCommit.message

theorem OfTwo.commitOf_cras (h : OfTwo branch g₀) :
    CommitOf (twoEntries branch) g₀ .crasConfig "overlays" "cras" "I1" 1
    ["cras", "", "Change-Id: I1", "Signed-off-by: me"] := by
  refine ⟨⟨_, rfl, rfl, rfl, rfl⟩, ?_, ?_⟩
  · rcases h.cras with heq | heq
    · rw [heq]
      exact @newest_append _ [["base"]] [] _ (by decide) (by decide)
    · rw [heq]
      exact @newest_append _ [["base"]] [["yaml", "", "Change-Id: I2"]] _ (by decide) (by decide)
  · rcases h.cras with heq | heq <;> rw [heq] <;> rfl

theorem OfTwo.commitOf_yaml (h : OfTwo branch g₀) :
    CommitOf (twoEntries branch) g₀ .addPubYaml "overlays" branch "I2" 2
    ["yaml", "", "Change-Id: I2"] := by
  refine ⟨⟨_, rfl, rfl, rfl, rfl⟩, ?_, ?_⟩
  · rw [h.yaml]
    exact @newest_append _ [["base"], ["cras", "", "Change-Id: I1", "Signed-off-by: me"]]
      [] _ (by decide) (by decide)
  · rw [h.yaml]
    rfl

/-- The commit of an entry is that of the other one in no directory and on no branch. -/
theorem OfTwo.cases (h : OfTwo branch g₀) {key : StepName} {deps : List StepName} {dir : Dir}
    {b : Branch} {changeId : ChangeId} {i : Nat} {m : List String}
    (hdeps : (twoEntries branch).board.depends.get? key = some deps)
    (hof : CommitOf (twoEntries branch) g₀ key dir b changeId i m) :
    key = .crasConfig ∧ b = "cras" ∧ changeId = "I1" ∧
      m = ["cras", "", "Change-Id: I1", "Signed-off-by: me"] ∨
      key = .addPubYaml ∧ b = branch ∧ changeId = "I2" ∧ m = ["yaml", "", "Change-Id: I2"] := by
  obtain ⟨commit, hcommit, hdir, hbranch, hid⟩ := hof.entry
  rcases twoEntries_cases hdeps with ⟨rfl, -⟩ | ⟨rfl, -⟩
  · cases hcommit
    cases hdir
    cases hbranch
    cases hid
    have hi := hof.newest.unique h.commitOf_cras.newest
    have hm := hof.message
    rw [hi, h.commitOf_cras.message] at hm
    exact .inl ⟨rfl, rfl, rfl, (Option.some.inj hm).symm⟩
  · cases hcommit
    cases hdir
    cases hbranch
    cases hid
    have hi := hof.newest.unique h.commitOf_yaml.newest
    have hm := hof.message
    rw [hi, h.commitOf_yaml.message] at hm
    exact .inr ⟨rfl, rfl, rfl, (Option.some.inj hm).symm⟩

theorem OfTwo.prepared (h : OfTwo branch g₀)
    (hshas : ∀ dir branch, ((g₀.history dir branch).map GitCommit.sha).Nodup) :
    Prepared (twoEntries branch) g₀ where
  steps := ⟨[], rfl⟩
  nodup := (by decide : [StepName.calcCqDepend, .addCqDepend, .reUpload, .cleanUp].Nodup)
  step := rfl
  fresh := by
    intro key commit hget
    have hmem := Dict.mem_items.mpr hget
    rcases List.mem_cons.mp hmem with heq | hmem
    · cases heq
      exact ⟨rfl, rfl⟩
    · rcases List.mem_cons.mp hmem with heq | hmem
      · cases heq
        exact ⟨rfl, rfl⟩
      · cases List.mem_singleton.mp hmem
        exact ⟨rfl, rfl⟩
  exist := by
    intro key deps hdeps k hk
    have hall : ∀ k ∈ [StepName.crasConfig, .find, .addPubYaml],
        (twoEntries branch).commits.get? k ≠ none := by
      intro k hk
      rcases List.mem_cons.mp hk with rfl | hk
      · exact Option.some_ne_none _
      · rcases List.mem_cons.mp hk with rfl | hk
        · exact Option.some_ne_none _
        · obtain rfl := List.mem_singleton.mp hk
          exact Option.some_ne_none _
    rcases twoEntries_cases hdeps with ⟨rfl, rfl⟩ | ⟨rfl, rfl⟩ <;> exact hall k
      (by simp at hk ⊢; tauto)
  commit := by
    intro key deps hdeps
    rcases twoEntries_cases hdeps with ⟨rfl, rfl⟩ | ⟨rfl, rfl⟩
    · exact ⟨_, _, _, _, _, h.commitOf_cras⟩
    · exact ⟨_, _, _, _, _, h.commitOf_yaml⟩
  message := by
    intro key deps dir b changeId i m hdeps hof
    obtain ⟨-, -, -, rfl⟩ | ⟨-, -, -, rfl⟩ := h.cases hdeps hof
    · decide
    · decide
  distinct := by
    intro key key' deps deps' dir b changeId i m hdeps hdeps' hof hof'
    obtain ⟨rfl, -, rfl, -⟩ | ⟨rfl, -, rfl, -⟩ := h.cases hdeps hof <;>
      obtain ⟨rfl, -, hid, -⟩ | ⟨rfl, -, hid, -⟩ := h.cases hdeps' hof'
    · rfl
    · exact absurd hid (by decide)
    · exact absurd hid (by decide)
    · rfl
  shas := hshas

end

theorem ofTwo_oneBranch : OfTwo "cras" oneBranch := ⟨.inr rfl, rfl⟩

theorem ofTwo_stacked : OfTwo "yaml" stacked := ⟨.inl rfl, rfl⟩

theorem prepared_oneBranch : Prepared (twoEntries "cras") oneBranch := by
  refine ofTwo_oneBranch.prepared fun dir branch => ?_
  show ((if branch = "cras" then threeCommits else []).map GitCommit.sha).Nodup
  split <;> decide

theorem prepared_stacked : Prepared (twoEntries "yaml") stacked := by
  refine ofTwo_stacked.prepared fun dir branch => ?_
  show ((if branch = "cras" then threeCommits.take 2 else if branch = "yaml" then
    threeCommits else []).map
    GitCommit.sha).Nodup
  split
  · decide
  · split <;> decide

/-- Uploading fails in the first run, and succeeds in the second. -/
def afterBoth (s₀ : Status) (g₀ : Repos) : World Repos × Log :=
  afterContinue true (afterContinue false (⟨some s₀, g₀⟩, []))

theorem continues_afterBoth (s₀ : Status) (g₀ : Repos) :
    Continues gitSem (⟨some s₀, g₀⟩, []) (afterBoth s₀ g₀) :=
  continues_afterContinue true (continues_afterContinue false .start)

theorem pipelineDone_iff_oneBranch : PipelineDone (twoEntries "cras") oneBranch
    (afterBoth (twoEntries "cras") oneBranch).1.outside := by
  refine (pipelineDone_iff prepared_oneBranch (continues_afterBoth _ _) (by decide)).mpr ?_
  intro key deps dir branch changeId i m hdeps hof
  obtain ⟨-, rfl, -, -⟩ | ⟨-, rfl, -, -⟩ := ofTwo_oneBranch.cases hdeps hof <;> rfl

/-- The first branch is uploaded as it was. -/
theorem not_pipelineDone : ¬∀ s₀ g₀ d, Prepared s₀ g₀ → Continues gitSem (⟨some s₀, g₀⟩, []) d →
    (StepName.reUpload, true) ∈ d.2 → PipelineDone s₀ g₀ d.1.outside := by
  intro h
  have hdone :=
    h _ _ _ prepared_stacked (continues_afterBoth (twoEntries "yaml") stacked) (by decide)
  have hdelivered := hdone.commits .crasConfig [.find] _ _ _ _ _ rfl ofTwo_stacked.commitOf_cras
  exact not_delivered ofTwo_stacked.commitOf_cras.message (by decide) (by decide) hdelivered

end Variant
