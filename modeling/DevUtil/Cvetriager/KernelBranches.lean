import DevUtil.Cvetriager.PatchApplier
import DevUtil.Lib.Guarantee
import Mathlib.Logic.Function.Basic

/-!
# Branches of the kernel repositories

What git may do to the repositories, and what each part of `apply_patch` makes of them. Git may fail
at every call, and a pick may conflict. `Via` holds between the start of a run and every state it
reaches.

    the branch of the bug begins where Chrome OS is, or is what it was     (does_createBranch)
    a pick is on the branch, with its message, or the branch is as before  (does_cherryPick)
-/

namespace Cvetriager

open Lib Prog PosixPath

/-! ## Repositories -/

structure Commit where
  /-- the commit that it is a pick of -/
  origin : Option Sha
  message : Text

/-- The oldest commit first. -/
abbrev History := List Commit

inductive Head
  | branch (name : Text)
  | detached (history : History)

structure Repo where
  branches : Dict Text History
  /-- remote-tracking branches, as `cros/chromeos-5.4` -/
  remotes : Dict Text History
  head : Head
  /-- a cherry-pick is not done -/
  picking : Bool

def Repo.history (r : Repo) : History :=
  match r.head with
  | .branch name => (r.branches.get? name).getD []
  | .detached history => history

def Repo.setHistory (r : Repo) (history : History) : Repo :=
  match r.head with
  | .branch name => { r with branches := r.branches.set name history }
  | .detached _ => { r with head := .detached history }

structure Push where
  cwd : Text
  args : List Text
  history : History

/-- The repositories, by their paths, and what was pushed. -/
structure World where
  repos : Text → Repo
  pushed : List Push

def World.setRepo (w : World) (path : Text) (r : Repo) : World :=
  { w with repos := Function.update w.repos path r }

@[simp] theorem World.repos_setRepo (w : World) (path : Text) (r : Repo) :
    (w.setRepo path r).repos path = r :=
  Function.update_self ..

theorem World.repos_setRepo_of_ne (w : World) {path path' : Text} (h : path' ≠ path) (r : Repo) :
    (w.setRepo path r).repos path' = w.repos path' :=
  Function.update_of_ne h ..

/-- The commits of linux, and what `git commit` may make of a message: it signs off, and the hook
adds a `Change-Id`, which the tree and the time go into. -/
structure Linux where
  message : Sha → Option Text
  hook : Text → Text → Prop

/-! ## What git does -/

/-- The last commit of a history gets another message. -/
def amend (message : Text) (history : History) : History :=
  match history.getLast? with
  | some commit => history.dropLast ++ [{ commit with message := message }]
  | none => []

def gitSem (linux : Linux) : ∀ ⦃β : Type⦄, GitOp β → World → β → World → Prop
  | _, .fetch _ _, w, _, w' => w' = w
  | _, .checkoutNew path branch, w, answer, w' =>
    (answer = none ∧ (w.repos path).branches.get? branch = none ∧ w' = w.setRepo path
      { w.repos path with branches := (w.repos path).branches.set branch (w.repos path).history,
                          head := .branch branch }) ∨
    answer ≠ none ∧ w' = w
  | _, .cherryPick path sha, w, answer, w' =>
    (answer = none ∧ (w.repos path).picking = false ∧
      ∃ message, w' = w.setRepo path
        ((w.repos path).setHistory ((w.repos path).history ++ [⟨some sha, message⟩]))) ∨
    (answer ≠ none ∧ ∃ picking, w' = w.setRepo path { w.repos path with picking := picking })
  | _, .cherryPickAbort path, w, done, w' =>
    done = false ∧ w' = w ∨ done = true ∧ w' = w.setRepo path { w.repos path with picking := false }
  | _, .commitAmend path _ message, w, done, w' =>
    done = false ∧ w' = w ∨
    done = true ∧ ∃ message', linux.hook message message' ∧
      w' = w.setRepo path ((w.repos path).setHistory (amend message' (w.repos path).history))
  | _, .logSha _, w, _, w' => w' = w
  | _, .push path args, w, answer, w' =>
    answer = none ∧ w' = w ∨
    answer ≠ none ∧ w' = { w with pushed := w.pushed ++ [⟨path, args, (w.repos path).history⟩] }

/-- The four variables of the environment; the kernels are not in the directories of linux
stable. -/
structure Checkouts where
  linux : Text
  base : Text
  stable : Text
  stableRc : Text
  apart : ∀ k ∈ kernels, join base k ≠ stable ∧ join base k ≠ stableRc

def Checkouts.env (c : Checkouts) : Env :=
  ⟨some c.linux, some c.base, some c.stable, some c.stableRc⟩

def Checkouts.path (c : Checkouts) (k : Kernel) : Text := join c.base k

def crosName (k : Kernel) : Text := "cros/".toList ++ getCrosBranch k

theorem path_injective (c : Checkouts) {k k' : Kernel} (hk : k ∈ kernels) (hk' : k' ∈ kernels)
    (h : c.path k = c.path k') : k = k' := by
  have hslash : ∀ k ∈ kernels, k.head? ≠ some '/' := by
    have hall : kernels.all (fun k => decide (k.head? ≠ some '/')) = true := by decide
    exact fun k hk => of_decide_eq_true (List.all_eq_true.mp hall k hk)
  unfold Checkouts.path join at h
  rw [if_neg (hslash k hk), if_neg (hslash k' hk')] at h
  split at h
  · exact List.append_cancel_left h
  · exact (List.cons.inj (List.append_cancel_left h)).2

/-! ## Every state on the way -/

section

variable (c : Checkouts) (opts : Opts) (commits : List Sha)

/-- The branch of the bug. -/
def Opts.branch (opts : Opts) (k : Kernel) : Text := getCherryPickBranch opts.bug k

/-- Nothing but the branch of the bug changes, and picks of the commits are put on it. -/
structure Grown (k : Kernel) (r r' : Repo) : Prop where
  others : ∀ b, b ≠ opts.branch k → r'.branches.get? b = r.branches.get? b
  grows : ∀ history, r.branches.get? (opts.branch k) = some history → ∃ picks,
    r'.branches.get? (opts.branch k) = some (history ++ picks) ∧
      ∀ p ∈ picks, ∃ sha ∈ commits, p.origin = some sha
  unmarked : r'.remotes.get? (opts.branch k) = r.remotes.get? (opts.branch k)

/-- No branch has the name of a remote-tracking one, or the other way round. -/
def Clear (w : World) : Prop := ∀ k ∈ kernels,
  (w.repos (c.path k)).branches.get? (crosName k) = none ∧
    (w.repos (c.path k)).remotes.get? (opts.branch k) = none

end

variable {linux : Linux} {c : Checkouts} {opts : Opts} {commits : List Sha} {w w' w₀ : World}
  {k : Kernel} {r r' : Repo}

theorem Grown.trans {r₁ r₂ r₃ : Repo} (h : Grown opts commits k r₁ r₂)
    (h' : Grown opts commits k r₂ r₃) :
    Grown opts commits k r₁ r₃ where
  others := fun b hb => (h'.others b hb).trans (h.others b hb)
  grows := by
    intro history hget
    obtain ⟨picks, hpicks, hfrom⟩ := h.grows history hget
    obtain ⟨picks', hpicks', hfrom'⟩ := h'.grows _ hpicks
    refine ⟨picks ++ picks', by rw [hpicks', List.append_assoc], fun p hp => ?_⟩
    rcases List.mem_append.mp hp with hp | hp
    · exact hfrom p hp
    · exact hfrom' p hp
  unmarked := h'.unmarked.trans h.unmarked

/-- The kernel repository is on its Chrome OS branch, and not on a local branch. -/
def OnCros (c : Checkouts) (opts : Opts) (k : Kernel) (w w' : World) : Prop := ∃ history remotes,
  w' = w.setRepo (c.path k) { w.repos (c.path k) with head := .detached history,
                                                      remotes := remotes } ∧
  remotes.get? (opts.branch k) = (w.repos (c.path k)).remotes.get? (opts.branch k) ∧
  (opts.pull = false → remotes = (w.repos (c.path k)).remotes ∧
    remotes.get? (crosName k) = some history)

/-- The branch of the bug is checked out, with `base` on it and after it the pick, if there is
one. -/
structure Tip (opts : Opts) (k : Kernel) (r : Repo) (base : History) (r' : Repo)
    (tip : Option Commit) : Prop where
  head : r'.head = .branch (opts.branch k)
  remotes : r'.remotes = r.remotes
  picking : r.picking = false → r'.picking = false
  others : ∀ b, b ≠ opts.branch k → r'.branches.get? b = r.branches.get? b
  here : r'.branches.get? (opts.branch k) = some (base ++ tip.toList)

variable {base : History} {tip : Option Commit} {sha : Sha} {commit : Commit}

theorem Tip.history (h : Tip opts k r base r' tip) : r'.history = base ++ tip.toList := by
  unfold Repo.history
  rw [h.head]
  dsimp only
  rw [h.here]
  rfl

/-- Another commit in the place after `base`. -/
theorem Tip.setHistory (h : Tip opts k r base r' tip) (commit : Commit) :
    Tip opts k r base (r'.setHistory (base ++ [commit])) (some commit) := by
  have hset : r'.setHistory (base ++ [commit]) =
      { r' with branches := r'.branches.set (opts.branch k) (base ++ [commit]) } := by
    unfold Repo.setHistory
    rw [h.head]
  rw [hset]
  exact {
    head := h.head
    remotes := h.remotes
    picking := h.picking
    others := fun b hb => (Dict.get?_set_of_ne _ hb _).trans (h.others b hb)
    here := Dict.get?_set _ _ _ }

/-- What `get_commit_message` returns of a message. -/
def readMessage (message : Text) : Text := (universalNewlines message).rdropWhile isSpace ++ ['\n']

/-- The message that a pick gets from `cherry_pick`. -/
def Titled (linux : Linux) (opts : Opts) (sha : Sha) (commit : Commit) : Prop := ∀ message,
  linux.message sha = some message →
    linux.hook (pickMessage (readMessage message) sha opts.bug) commit.message

/-- What the loop of `apply_patch` leaves. -/
def Marked (linux : Linux) (opts : Opts) (ids : Dict Kernel Text) (sha : Sha) (ok : Bool)
    (tip : Option Commit) : Prop :=
  if ok then ∃ commit, tip = some commit ∧ commit.origin = some sha ∧
    (ids.items = [] → Titled linux opts sha commit)
  else tip = none

end Cvetriager
