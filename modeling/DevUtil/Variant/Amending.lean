import Mathlib.Data.List.Count
import Mathlib.Data.List.Nodup
import DevUtil.Variant.Main

/-!
# Amending commit messages

The repositories that `add_cq_depend` and `re_upload` work on, and the messages of their
commits.  A plan says which texts are to be put before which `Change-Id` lines.

    the commit that a text is for: the newest with the line       (Newest)
    a message so far: amended, or as it was                       (AmendedOrNot)
    one more text, whatever comes of it                           (wp_addCqDependToCommitMsg)
-/

namespace Variant

open Lib Prog

/-! ## Repositories -/

/-- A commit: its name and the lines of its message. -/
structure GitCommit where
  sha : Sha
  message : List String
deriving DecidableEq

/-- What there is of git, and what gerrit was sent. -/
structure Repos where
  /-- the commits of a branch, oldest first -/
  history : Dir → Branch → List GitCommit
  /-- the branch that is checked out -/
  head : Dir → Branch
  /-- the commits of a branch when it was last uploaded -/
  uploaded : Dir → Branch → Option (List GitCommit)

def Repos.checkedOut (g : Repos) (dir : Dir) : List GitCommit := g.history dir (g.head dir)

def Repos.messages (g : Repos) (dir : Dir) : List (List String) :=
  (g.checkedOut dir).map GitCommit.message

def Repos.messagesOf (g : Repos) (dir : Dir) (branch : Branch) : List (List String) :=
  (g.history dir branch).map GitCommit.message

/-- With another history of what is checked out. -/
def Repos.rewrite (g : Repos) (dir : Dir) (commits : List GitCommit) : Repos :=
  { g with history := fun d b => if d = dir ∧ b = g.head dir then commits else g.history d b }

def Repos.upload (g : Repos) (dir : Dir) (branch : Branch) : Repos :=
  { g with
    uploaded := fun d b => if d = dir ∧ b = branch then some (g.history dir branch)
      else g.uploaded d b }

theorem checkedOut_rewrite (g : Repos) (dir : Dir) (commits : List GitCommit) :
    (g.rewrite dir commits).checkedOut dir = commits := if_pos ⟨rfl, rfl⟩

theorem history_rewrite_of_ne {g : Repos} {dir d : Dir} {b : Branch} (commits : List GitCommit)
    (h : d ≠ dir ∨ b ≠ g.head dir) : (g.rewrite dir commits).history d b = g.history d b := by
  apply if_neg
  rintro ⟨rfl, rfl⟩
  simp at h

def changeIdLine (changeId : ChangeId) : String := "Change-Id: " ++ changeId

/-- `sed -E "s/^({line})$/{text}\\n\\1/"` on the lines of a message. -/
def insertBefore (line text : String) (message : List String) : List String :=
  message.flatMap fun l => if l = line then [text, l] else [l]

/-- `git filter-branch` has rewritten the commits from `sha` on, with new names. -/
def Filtered (g : Repos) (dir : Dir) (changeId : ChangeId) (text : String) (sha : Sha)
    (g' : Repos) : Prop :=
  ∃ before c after commits, g.checkedOut dir = before ++ c :: after ∧ c.sha = sha ∧ before ≠ [] ∧
    commits.map GitCommit.message =
      (c :: after).map (fun c => insertBefore (changeIdLine changeId) text c.message) ∧
    ((before ++ commits).map GitCommit.sha).Nodup ∧ g' = g.rewrite dir (before ++ commits)

/-- The newest commit with this line. -/
def logGrep (g : Repos) (dir : Dir) (line : String) : List Sha :=
  (((g.checkedOut dir).reverse.find? fun c => decide (line ∈ c.message)).map GitCommit.sha).toList

/-- Git and gerrit. A process that fails may have done its work or not; any other call raises or
answers, and has no effect here. -/
def gitSem : Sem Call Repos
  | _, .gitLogGrep dir changeId, g, a, g' =>
    g' = g ∧ (a = none ∨ a = some (logGrep g dir (changeIdLine changeId)))
  | _, .gitLogMessage dir sha, g, a, g' =>
    g' = g ∧ (a = none ∨ ∃ c ∈ g.checkedOut dir, c.sha = sha ∧ a = some c.message)
  | _, .runProcess (.filterBranch dir changeId text sha), g, a, g' =>
    a ≠ some true ∧ g' = g ∨ Filtered g dir changeId text sha g'
  | _, .runProcess (.repoUpload branch dir), g, a, g' =>
    a ≠ some true ∧ g' = g ∨ g' = g.upload dir branch
  | _, _, g, _, g' => g' = g

/-! ## Lines -/

theorem mem_insertBefore {line text l : String} {message : List String} :
    l ∈ insertBefore line text message ↔ l ∈ message ∨ l = text ∧ line ∈ message := by
  simp only [insertBefore, List.mem_flatMap]
  constructor
  · rintro ⟨x, hx, hl⟩
    by_cases hline : x = line
    · rw [if_pos hline] at hl
      rcases List.mem_cons.mp hl with rfl | hl
      · exact .inr ⟨rfl, hline ▸ hx⟩
      · exact .inl (List.mem_singleton.mp hl ▸ hx)
    · rw [if_neg hline] at hl
      exact .inl (List.mem_singleton.mp hl ▸ hx)
  · rintro (hl | ⟨rfl, hline⟩)
    · refine ⟨l, hl, ?_⟩
      by_cases h : l = line
      · rw [if_pos h]
        exact List.mem_cons_of_mem _ List.mem_cons_self
      · rw [if_neg h]
        exact List.mem_cons_self
    · refine ⟨line, hline, ?_⟩
      rw [if_pos rfl]
      exact List.mem_cons_self

theorem insertBefore_of_notMem {line text : String} {message : List String} (h : line ∉ message) :
    insertBefore line text message = message := by
  induction message with
  | nil => rfl
  | cons l message ih =>
    have hl : l ≠ line := fun heq => h (heq ▸ List.mem_cons_self)
    have ih := ih fun hm => h (List.mem_cons_of_mem l hm)
    show (if l = line then [text, l] else [l]) ++ insertBefore line text message = l :: message
    rw [if_neg hl, ih]
    rfl

/-- The text stands directly before the line. -/
theorem insertBefore_split {line text : String} {pre post : List String} (hpre : line ∉ pre)
    (hpost : line ∉ post) :
    insertBefore line text (pre ++ line :: post) = pre ++ text :: line :: post := by
  have happend : insertBefore line text (pre ++ line :: post) =
      insertBefore line text pre ++ ([text, line] ++ insertBefore line text post) := by
    simp [insertBefore]
  rw [happend, insertBefore_of_notMem hpre, insertBefore_of_notMem hpost]
  rfl

def isChangeIdLine (line : String) : Bool := decide ("Change-Id: ".toList <+: line.toList)

theorem isChangeIdLine_changeIdLine (changeId : ChangeId) :
    isChangeIdLine (changeIdLine changeId) = true := by
  apply decide_eq_true
  rw [changeIdLine, String.toList_append]
  exact List.prefix_append _ _

/-! ## The newest commit with a line -/

/-- The commit at `i` has the line, and no newer one does. -/
structure Newest (line : String) (messages : List (List String)) (i : Nat) : Prop where
  mem : ∃ m, messages[i]? = some m ∧ line ∈ m
  last : ∀ j m, i < j → messages[j]? = some m → line ∉ m

theorem Newest.unique {line : String} {messages : List (List String)} {i j : Nat}
    (h : Newest line messages i) (h' : Newest line messages j) : i = j := by
  obtain ⟨m, hm, hline⟩ := h.mem
  obtain ⟨m', hm', hline'⟩ := h'.mem
  rcases Nat.lt_trichotomy i j with hlt | heq | hlt
  · exact absurd hline' (h.last j m' hlt hm')
  · exact heq
  · exact absurd hline (h'.last i m hlt hm)

theorem newest_append {line : String} {before after : List (List String)} {m : List String}
    (hline : line ∈ m) (hnot : ∀ m' ∈ after, line ∉ m') :
    Newest line (before ++ m :: after) before.length := by
  refine ⟨⟨m, by simp, hline⟩, fun j m' hj hm' => hnot m' ?_⟩
  rw [List.getElem?_append_right (by omega), List.getElem?_cons, if_neg (by omega)] at hm'
  exact List.mem_of_getElem? hm'

/-- It is the one that `git log` finds. -/
theorem logGrep_cases (g : Repos) (dir : Dir) (line : String) :
    logGrep g dir line = [] ∨ ∃ i c, (g.checkedOut dir)[i]? = some c ∧
      Newest line (g.messages dir) i ∧
      logGrep g dir line = [c.sha] := by
  unfold logGrep
  cases hfind : (g.checkedOut dir).reverse.find? fun c => decide (line ∈ c.message) with
  | none => exact .inl rfl
  | some c =>
    right
    obtain ⟨hline, after, before, hsplit, hnot⟩ := List.find?_eq_some_iff_append.mp hfind
    have hcommits : g.checkedOut dir = before.reverse ++ c :: after.reverse := by
      rw [← List.reverse_reverse (g.checkedOut dir), hsplit]
      simp
    have hmessages : g.messages dir =
        before.reverse.map GitCommit.message ++
            c.message :: after.reverse.map GitCommit.message := by
      rw [Repos.messages, hcommits, List.map_append, List.map_cons]
    have hc : (g.checkedOut dir)[before.length]? = some c := by simp [hcommits]
    have hnewest := @newest_append line (before.reverse.map GitCommit.message)
      (after.reverse.map GitCommit.message)
      c.message (of_decide_eq_true hline) fun m hm => by
        obtain ⟨c', hc', rfl⟩ := List.mem_map.mp hm
        simpa using hnot c' (List.mem_reverse.mp hc')
    rw [List.length_map, List.length_reverse, ← hmessages] at hnewest
    exact ⟨before.length, c, hc, hnewest, rfl⟩

/-! ## Plans -/

/-- A text that is to stand before a `Change-Id` line. -/
structure Amendment where
  dir : Dir
  changeId : ChangeId
  text : String

def Amendment.line (a : Amendment) : String := changeIdLine a.changeId

/-- What is planned fits the messages: the commit of an amendment has no other `Change-Id` line,
does not mention `Cq-Depend`, and is that of no other amendment. -/
structure Fits (plan : Amendment → Prop) (original : Dir → List (List String)) : Prop where
  message : ∀ a i m, plan a → Newest a.line (original a.dir) i → (original a.dir)[i]? = some m →
    m.countP isChangeIdLine = 1 ∧ ∀ l ∈ m, mentionsCqDepend l = false
  distinct : ∀ a a', plan a → plan a' → a.dir = a'.dir → a.changeId = a'.changeId → a = a'
  text : ∀ a, plan a → mentionsCqDepend a.text = true ∧ isChangeIdLine a.text = false

/-- A message with one `Change-Id` line is split there. -/
theorem split_changeIdLine {m : List String} {changeId : ChangeId}
    (hcount : m.countP isChangeIdLine = 1) (hline : changeIdLine changeId ∈ m) :
    ∃ pre post, m = pre ++ changeIdLine changeId :: post ∧
      (∀ l ∈ pre, isChangeIdLine l = false) ∧ ∀ l ∈ post, isChangeIdLine l = false := by
  obtain ⟨pre, post, rfl⟩ := List.append_of_mem hline
  rw [List.countP_append, List.countP_cons_of_pos (isChangeIdLine_changeIdLine changeId)] at hcount
  have hpre : pre.countP isChangeIdLine = 0 := by omega
  have hpost : post.countP isChangeIdLine = 0 := by omega
  refine ⟨pre, post, rfl, fun l hl => ?_, fun l hl => ?_⟩
  · simpa using List.countP_eq_zero.mp hpre l hl
  · simpa using List.countP_eq_zero.mp hpost l hl

/-- Such a message has one Change-Id. -/
theorem changeId_unique {m : List String} {changeId changeId' : ChangeId}
    (hcount : m.countP isChangeIdLine = 1) (hline : changeIdLine changeId ∈ m)
    (hline' : changeIdLine changeId' ∈ m) : changeId = changeId' := by
  obtain ⟨pre, post, rfl, hpre, hpost⟩ := split_changeIdLine hcount hline
  have hid := isChangeIdLine_changeIdLine changeId'
  have heq : changeIdLine changeId' = changeIdLine changeId := by
    rcases List.mem_append.mp hline' with hin | hin
    · rw [hpre _ hin] at hid
      cases hid
    · rcases List.mem_cons.mp hin with heq | hin
      · exact heq
      · rw [hpost _ hin] at hid
        cases hid
  exact (String.append_right_inj _).mp heq.symm

section

variable {plan : Amendment → Prop} {original : Dir → List (List String)}

/-- A commit is for one amendment. -/
theorem Fits.eq_of_newest (h : Fits plan original) {a a' : Amendment} (ha : plan a) (ha' : plan a')
    (hdir : a'.dir = a.dir) {i : Nat} (hnew : Newest a.line (original a.dir) i)
    (hnew' : Newest a'.line (original a.dir) i) : a' = a := by
  obtain ⟨m, hm, hline⟩ := hnew.mem
  obtain ⟨m', hm', hline'⟩ := hnew'.mem
  rw [hm] at hm'
  cases hm'
  have hid : a'.changeId = a.changeId := changeId_unique (h.message a i m ha hnew hm).1 hline' hline
  exact h.distinct a' a ha' ha hdir hid

/-- A message so far: amended, or as it was and none of those that are done. -/
def AmendedOrNot (plan done : Amendment → Prop) (original : Dir → List (List String)) (dir : Dir)
    (i : Nat) (m₀ m : List String) : Prop :=
  (∃ a, plan a ∧ a.dir = dir ∧ Newest a.line (original dir) i ∧ m = insertBefore a.line a.text m₀) ∨
    m = m₀ ∧ ∀ a, done a → a.dir = dir → ¬Newest a.line (original dir) i

variable {done : Amendment → Prop} {dir : Dir} {i : Nat} {m₀ m : List String}

theorem AmendedOrNot.weaken {done' : Amendment → Prop} (h : ∀ a, done' a → done a)
    (hm : AmendedOrNot plan done original dir i m₀ m) :
    AmendedOrNot plan done' original dir i m₀ m := by
  rcases hm with hm | ⟨hm, hnot⟩
  · exact .inl hm
  · exact .inr ⟨hm, fun a ha => hnot a (h a ha)⟩

theorem AmendedOrNot.line_mem_iff (hfits : Fits plan original)
    (hm : AmendedOrNot plan done original dir i m₀ m) (changeId : ChangeId) :
    changeIdLine changeId ∈ m ↔ changeIdLine changeId ∈ m₀ := by
  rcases hm with ⟨a, ha, -, -, rfl⟩ | ⟨rfl, -⟩
  · rw [mem_insertBefore]
    constructor
    · rintro (h | ⟨h, -⟩)
      · exact h
      · have hid := isChangeIdLine_changeIdLine changeId
        rw [h, (hfits.text a ha).2] at hid
        cases hid
    · exact .inl
  · exact Iff.rfl

/-- The message of a planned commit mentions `Cq-Depend` once it has been amended. -/
theorem AmendedOrNot.mention_iff (hfits : Fits plan original) {a : Amendment} (ha : plan a)
    (hm : AmendedOrNot plan done original a.dir i m₀ m) (hm₀ : (original a.dir)[i]? = some m₀)
    (hnew : Newest a.line (original a.dir) i) :
    (m.any mentionsCqDepend = true → m = insertBefore a.line a.text m₀) ∧
      (m.any mentionsCqDepend = false → m = m₀) := by
  rcases hm with ⟨a', ha', hdir, hnew', rfl⟩ | ⟨rfl, -⟩
  · obtain rfl := hfits.eq_of_newest ha ha' hdir hnew hnew'
    refine ⟨fun _ => rfl, fun hnone => ?_⟩
    obtain ⟨m', hm', hline⟩ := hnew.mem
    rw [hm₀] at hm'
    cases hm'
    have htext : a'.text ∈ insertBefore a'.line a'.text m₀ :=
      mem_insertBefore.mpr (.inr ⟨rfl, hline⟩)
    have hnot := List.any_eq_false.mp hnone _ htext
    exact absurd (hfits.text a' ha).1 hnot
  · refine ⟨fun hsome => ?_, fun _ => rfl⟩
    obtain ⟨l, hl, hmention⟩ := List.any_eq_true.mp hsome
    rw [(hfits.message a i _ ha hnew hm₀).2 l hl] at hmention
    cases hmention

/-! ## Repositories under a plan -/

/-- `g` is `g₀` with some messages amended, those of `done` for sure. -/
structure Amending (plan : Amendment → Prop) (g₀ : Repos) (done : Amendment → Prop) (g : Repos) :
    Prop where
  length : ∀ dir, (g.messages dir).length = (g₀.messages dir).length
  messages : ∀ dir i m₀ m, (g₀.messages dir)[i]? = some m₀ → (g.messages dir)[i]? = some m →
    AmendedOrNot plan done g₀.messages dir i m₀ m
  others : ∀ dir branch, branch ≠ g₀.head dir → g.history dir branch = g₀.history dir branch
  head : g.head = g₀.head
  shas : ∀ dir, ((g.checkedOut dir).map GitCommit.sha).Nodup

variable {g₀ g g' : Repos}

theorem Amending.weaken {done' : Amendment → Prop} (h : Amending plan g₀ done g)
    (hdone : ∀ a, done' a → done a) :
    Amending plan g₀ done' g where
  length := h.length
  messages := fun dir i m₀ m hm₀ hm => (h.messages dir i m₀ m hm₀ hm).weaken hdone
  others := h.others
  head := h.head
  shas := h.shas

theorem Amending.before (h : Amending plan g₀ done g) (hm : (g.messages dir)[i]? = some m) :
    ∃ m₀, (g₀.messages dir)[i]? = some m₀ ∧ AmendedOrNot plan done g₀.messages dir i m₀ m := by
  obtain ⟨hi, -⟩ := List.getElem?_eq_some_iff.mp hm
  rw [h.length dir] at hi
  have hm₀ := List.getElem?_eq_getElem hi
  exact ⟨_, hm₀, h.messages dir i _ m hm₀ hm⟩

theorem Amending.current (h : Amending plan g₀ done g) (hm₀ : (g₀.messages dir)[i]? = some m₀) :
    ∃ m, (g.messages dir)[i]? = some m ∧ AmendedOrNot plan done g₀.messages dir i m₀ m := by
  obtain ⟨hi, -⟩ := List.getElem?_eq_some_iff.mp hm₀
  rw [← h.length dir] at hi
  have hm := List.getElem?_eq_getElem hi
  exact ⟨_, hm, h.messages dir i m₀ _ hm₀ hm⟩

/-- Amending does not change which commit is found. -/
theorem Amending.newest (hfits : Fits plan g₀.messages) (h : Amending plan g₀ done g)
    {changeId : ChangeId} (hnew : Newest (changeIdLine changeId) (g.messages dir) i) :
    Newest (changeIdLine changeId) (g₀.messages dir) i := by
  refine ⟨?_, fun j m₀ hj hm₀ hline => ?_⟩
  · obtain ⟨m, hm, hline⟩ := hnew.mem
    obtain ⟨m₀, hm₀, hor⟩ := h.before hm
    exact ⟨m₀, hm₀, (hor.line_mem_iff hfits changeId).mp hline⟩
  · obtain ⟨m, hm, hor⟩ := h.current hm₀
    exact hnew.last j m hj hm ((hor.line_mem_iff hfits changeId).mpr hline)

/-- One more is done if the message at its commit is the amended one and the rest is as before. -/
theorem Amending.one_more (h : Amending plan g₀ done g) {a : Amendment} (ha : plan a)
    (hnew : Newest a.line (g₀.messages a.dir) i) (hm₀ : (g₀.messages a.dir)[i]? = some m₀)
    (hg' : g'.messages a.dir = (g.messages a.dir).set i (insertBefore a.line a.text m₀))
    (hothers : ∀ dir branch, (dir ≠ a.dir ∨ branch ≠ g.head dir) →
      g'.history dir branch = g.history dir branch)
    (hhead : g'.head = g.head) (hshas : ((g'.checkedOut a.dir).map GitCommit.sha).Nodup) :
    Amending plan g₀ (fun a' => done a' ∨ a' = a) g' := by
  have hsame : ∀ dir, dir ≠ a.dir → g'.checkedOut dir = g.checkedOut dir := by
    intro dir hdir
    show g'.history dir (g'.head dir) = g.history dir (g.head dir)
    rw [hhead]
    exact hothers dir _ (.inl hdir)
  have hkeep : ∀ dir j n₀ n, (g₀.messages dir)[j]? = some n₀ → (g.messages dir)[j]? = some n →
      (dir = a.dir → j ≠ i) →
          AmendedOrNot plan (fun a' => done a' ∨ a' = a) g₀.messages dir j n₀ n := by
    intro dir j n₀ n hn₀ hn hne
    rcases h.messages dir j n₀ n hn₀ hn with hn | ⟨hn, hdone⟩
    · exact .inl hn
    · refine .inr ⟨hn, ?_⟩
      rintro a' (ha' | rfl) hdir
      · exact hdone a' ha' hdir
      · subst hdir
        exact fun hj => hne rfl (hj.unique hnew)
  refine ⟨fun dir => ?_, fun dir j n₀ n hn₀ hn => ?_,
    fun dir branch hb => ?_, hhead.trans h.head, fun dir => ?_⟩
  · by_cases hdir : dir = a.dir
    · subst hdir
      rw [hg', List.length_set, h.length]
    · rw [Repos.messages, hsame dir hdir]
      exact h.length dir
  · by_cases hdir : dir = a.dir
    · subst hdir
      by_cases hj : j = i
      · subst hj
        rw [hm₀] at hn₀
        cases hn₀
        obtain ⟨hlt, -⟩ := List.getElem?_eq_some_iff.mp hm₀
        rw [hg', List.getElem?_set_self (by rw [h.length]; exact hlt)] at hn
        exact .inl ⟨a, ha, rfl, hnew, (Option.some.inj hn).symm⟩
      · rw [hg', List.getElem?_set_ne (fun heq => hj heq.symm)] at hn
        exact hkeep _ j n₀ n hn₀ hn fun _ => hj
    · rw [Repos.messages, hsame dir hdir] at hn
      exact hkeep dir j n₀ n hn₀ hn fun heq => absurd heq hdir
  · rw [hothers dir branch (.inr (by rw [h.head]; exact hb)), h.others dir branch hb]
  · by_cases hdir : dir = a.dir
    · exact hdir ▸ hshas
    · rw [hsame dir hdir]
      exact h.shas dir

/-! ## One commit -/

/-- Where a commit stands is known from its name. -/
theorem index_of_sha {commits : List GitCommit} {j : Nat} {c c' : GitCommit}
    (hshas : (commits.map GitCommit.sha).Nodup) (h : commits[i]? = some c)
    (h' : commits[j]? = some c') (hsha : c'.sha = c.sha) : j = i ∧ c' = c := by
  have hget : (commits.map GitCommit.sha)[i]? = some c.sha := by simp [h]
  have hget' : (commits.map GitCommit.sha)[j]? = some c.sha := by simp [h', hsha]
  obtain ⟨hlt, hval⟩ := List.getElem?_eq_some_iff.mp hget
  obtain ⟨hlt', hval'⟩ := List.getElem?_eq_some_iff.mp hget'
  have hj : j = i := hshas.getElem_inj_iff.mp (hval'.trans hval.symm)
  subst hj
  rw [h] at h'
  exact ⟨rfl, (Option.some.inj h').symm⟩

/-- `git filter-branch` amends the commit at which it starts, and no other. -/
theorem Filtered.messages {changeId : ChangeId} {text : String} {c : GitCommit}
    (h : Filtered g dir changeId text c.sha g')
    (hshas : ((g.checkedOut dir).map GitCommit.sha).Nodup) (hc : (g.checkedOut dir)[i]? = some c)
    (hnew : Newest (changeIdLine changeId) (g.messages dir) i) :
    g'.messages dir = (g.messages dir).set i (insertBefore (changeIdLine changeId) text c.message) ∧
      ((g'.checkedOut dir).map GitCommit.sha).Nodup := by
  obtain ⟨before, c', after, commits, hsplit, hsha, -, hmessages, hnodup, rfl⟩ := h
  have hc' : (g.checkedOut dir)[before.length]? = some c' := by simp [hsplit]
  obtain ⟨rfl, rfl⟩ := index_of_sha hshas hc hc' hsha
  refine ⟨?_, by rw [checkedOut_rewrite]; exact hnodup⟩
  have hafter : after.map (fun c => insertBefore (changeIdLine changeId) text c.message) =
      after.map GitCommit.message := by
    apply List.map_congr_left
    intro d hd
    obtain ⟨k, hk, rfl⟩ := List.getElem_of_mem hd
    apply insertBefore_of_notMem
    apply hnew.last (before.length + 1 + k) _ (by omega)
    rw [Repos.messages, hsplit, List.getElem?_map, List.getElem?_append_right (by omega)]
    simp [show before.length + 1 + k - before.length = k + 1 by omega, hk]
  have hold : g.messages dir = before.map GitCommit.message ++
      c'.message :: after.map GitCommit.message := by
    rw [Repos.messages, hsplit, List.map_append, List.map_cons]
  have hlen : (before.map GitCommit.message).length = before.length := List.length_map _
  rw [Repos.messages, checkedOut_rewrite, List.map_append, hmessages, List.map_cons, hafter,
    hold, ← hlen]
  simp

theorem Filtered.frame {changeId : ChangeId} {text : String} {sha : Sha}
    (h : Filtered g dir changeId text sha g') : g'.head = g.head ∧
      ∀ d b, (d ≠ dir ∨ b ≠ g.head d) → g'.history d b = g.history d b := by
  obtain ⟨before, c, after, commits, -, -, -, -, -, rfl⟩ := h
  refine ⟨rfl, fun d b hne => history_rewrite_of_ne _ ?_⟩
  by_cases hd : d = dir
  · subst hd
    exact hne
  · exact .inl hd

/-- How `add_cq_depend_to_commit_msg` leaves the repositories. -/
structure AddEnds (plan : Amendment → Prop) (g₀ : Repos) (done : Amendment → Prop) (a : Amendment)
    (file : Option Status) (r : Except Exn Bool) (w : World Repos) : Prop where
  file : w.file = file
  amending : Amending plan g₀ done w.outside
  done : r = .ok true → Amending plan g₀ (fun a' => done a' ∨ a' = a) w.outside

theorem AddEnds.failed {a : Amendment} {file : Option Status} {r : Except Exn Bool}
    {w : World Repos} (hfile : w.file = file) (h : Amending plan g₀ done w.outside)
    (hr : r ≠ .ok true) :
    AddEnds plan g₀ done a file r w :=
  ⟨hfile, h, fun heq => absurd heq hr⟩

theorem AddEnds.amended {a : Amendment} {file : Option Status} {r : Except Exn Bool}
    {w : World Repos} (hfile : w.file = file)
    (h : Amending plan g₀ (fun a' => done a' ∨ a' = a) w.outside) :
    AddEnds plan g₀ done a file r w :=
  ⟨hfile, h.weaken fun _ => .inl, fun _ => h⟩

/-- A call that only looks. -/
theorem world_eq {w w' : World Repos} (houtside : w'.outside = w.outside)
    (hfile : w'.file = w.file) : w' = w := by
  obtain ⟨file, g⟩ := w
  obtain ⟨file', g'⟩ := w'
  rw [show file' = file from hfile, show g' = g from houtside]

/-- What there is to know when a commit has been found. -/
theorem wp_filterBranch (hfits : Fits plan g₀.messages) {a : Amendment} (ha : plan a)
    {w : World Repos} (h : Amending plan g₀ done w.outside) {c : GitCommit}
    (hc : (w.outside.checkedOut a.dir)[i]? = some c)
    (hnew : Newest a.line (w.outside.messages a.dir) i) :
    wp (callSem gitSem) (fun _ => True) (AddEnds plan g₀ done a w.file)
      (if c.message.any mentionsCqDepend then ret true
        else call (.runProcess (.filterBranch a.dir a.changeId a.text c.sha))) w := by
  have hm : (w.outside.messages a.dir)[i]? = some c.message := by
    rw [Repos.messages, List.getElem?_map, hc]
    rfl
  obtain ⟨m₀, hm₀, hor⟩ := h.before hm
  have hnew₀ := h.newest hfits hnew
  have hmention := hor.mention_iff hfits ha hm₀ hnew₀
  by_cases hany : c.message.any mentionsCqDepend = true
  · -- it was amended in an earlier attempt
    rw [if_pos hany]
    refine .amended rfl (h.one_more ha hnew₀ hm₀ ?_ (fun _ _ _ => rfl) rfl (h.shas a.dir))
    obtain ⟨hlt, hval⟩ := List.getElem?_eq_some_iff.mp hm
    rw [← hmention.1 hany, ← hval, List.set_getElem_self]
  · rw [if_neg hany]
    have horiginal : c.message = m₀ := hmention.2 (by simpa using hany)
    rintro rc w' ⟨hrun, hfile⟩
    refine ⟨trivial, ?_⟩
    rcases hrun with ⟨hrc, hg⟩ | hfiltered
    · have h' : Amending plan g₀ done w'.outside := by
        rw [hg]
        exact h
      cases rc with
      | none => exact .failed hfile h' fun h => by cases h
      | some rc => exact .failed hfile h' fun h => hrc (by cases h; rfl)
    · obtain ⟨hmessages, hnodup⟩ := hfiltered.messages (h.shas a.dir) hc hnew
      obtain ⟨hhead, hothers⟩ := hfiltered.frame
      rw [horiginal] at hmessages
      have h' := h.one_more ha hnew₀ hm₀ hmessages (fun d b hne => hothers d b hne) hhead hnodup
      cases rc with
      | none => exact .amended hfile h'
      | some rc => exact .amended hfile h'

theorem wp_addCqDependToCommitMsg (hfits : Fits plan g₀.messages) {a : Amendment} (ha : plan a)
    {w : World Repos} (h : Amending plan g₀ done w.outside) :
    wp (callSem gitSem) (fun _ => True) (AddEnds plan g₀ done a w.file)
      (addCqDependToCommitMsg a.dir a.changeId a.text) w := by
  rintro shas w₁ ⟨⟨hg₁, hshas⟩, hfile₁⟩
  refine ⟨trivial, ?_⟩
  obtain rfl := world_eq hg₁ hfile₁
  rcases hshas with rfl | rfl
  · exact .failed rfl h fun h => by cases h
  · rcases logGrep_cases w₁.outside a.dir
      (changeIdLine a.changeId) with hnone | ⟨i, c, hc, hnew, hsome⟩
    · rw [hnone]
      exact .failed rfl h fun h => by cases h
    · rw [hsome]
      rintro msg w₂ ⟨⟨hg₂, hmsg⟩, hfile₂⟩
      refine ⟨trivial, ?_⟩
      obtain rfl := world_eq hg₂ hfile₂
      rcases hmsg with rfl | ⟨c', hc', hsha, rfl⟩
      · exact .failed rfl h fun h => by cases h
      · -- the message is that of the commit found
        obtain ⟨j, hlt, hj⟩ := List.getElem_of_mem hc'
        have hj := (List.getElem?_eq_getElem hlt).trans (congrArg some hj)
        obtain ⟨-, rfl⟩ := index_of_sha (h.shas a.dir) hc hj hsha
        exact wp_filterBranch hfits ha h hc hnew

end

end Variant
