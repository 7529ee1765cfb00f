import DevUtil.Cvetriager.ContextRun
import Mathlib.Data.List.Forall2

/-!
# A run of `triage`

    whatever stops a run, the branches of the kernels are as they were, and the branch
      of the bug begins with what it was                     (triage_keeps)
    a run that returns has put exactly the commits that it calls clean on the branch of
      the bug, in their order, and pushed what it put there  (triage_exact)
-/

namespace Cvetriager

open Lib Prog PosixPath

variable {linux : Linux} {c : Checkouts} {opts : Opts} {commits : List Sha} {w w' w₀ : World}
  {k : Kernel} {r r' : Repo}
  {sha : Sha}

/-! ## Picks on a branch -/

/-- A pick of a commit; in test mode its message is changed again. -/
structure PickOf (linux : Linux) (opts : Opts) (commit : Commit) (sha : Sha) : Prop where
  origin : commit.origin = some sha
  titled : opts.test = false → Titled linux opts sha commit

/-- Where the branch of the bug begins: with itself, or where Chrome OS is. -/
def Base (opts : Opts) (k : Kernel) (r : Repo) (base : History) : Prop :=
  r.branches.get? (opts.branch k) = some base ∨
    r.branches.get? (opts.branch k) = none ∧
      (opts.pull = false → r.remotes.get? (crosName k) = some base)

/-- Picks of `shas` are put on the branch of the bug, and nothing else is done. -/
structure Stacked (linux : Linux) (opts : Opts) (k : Kernel) (r r' : Repo) (shas : List Sha) :
    Prop where
  others : ∀ b, b ≠ opts.branch k → r'.branches.get? b = r.branches.get? b
  branch : r'.branches.get? (opts.branch k) = none ∧
    r.branches.get? (opts.branch k) = none ∧ shas = [] ∨
    ∃ base picks, Base opts k r base ∧ r'.branches.get? (opts.branch k) = some (base ++ picks) ∧
      List.Forall₂ (PickOf linux opts) picks shas
  remotes : opts.pull = false → r'.remotes = r.remotes
  picking : r.picking = false → r'.picking = false

theorem stacked_of_same (hbranches : r'.branches = r.branches)
    (hremotes : opts.pull = false → r'.remotes = r.remotes)
    (hpicking : r.picking = false → r'.picking = false) : Stacked linux opts k r r' [] where
  others := fun b _ => by rw [hbranches]
  branch := by
    rw [hbranches]
    cases h : r.branches.get? (opts.branch k) with
    | none => exact .inl ⟨rfl, rfl, rfl⟩
    | some base => exact .inr ⟨base, [], .inl h, by simp, .nil⟩
  remotes := hremotes
  picking := hpicking

theorem Stacked.trans {r₁ r₂ r₃ : Repo} {shas shas' : List Sha}
    (h : Stacked linux opts k r₁ r₂ shas) (h' : Stacked linux opts k r₂ r₃ shas') :
    Stacked linux opts k r₁ r₃ (shas ++ shas') where
  others := fun b hb => (h'.others b hb).trans (h.others b hb)
  branch := by
    rcases h.branch with ⟨hnone, hnone', rfl⟩ | ⟨base, picks, hbase, hget, hpicks⟩
    · rcases h'.branch with ⟨hnone'', -, rfl⟩ | ⟨base, picks, hbase, hget, hpicks⟩
      · exact .inl ⟨hnone'', hnone', rfl⟩
      · refine .inr ⟨base, picks, ?_, hget, hpicks⟩
        rcases hbase with hsome | ⟨-, hcros⟩
        · rw [hnone] at hsome
          cases hsome
        · exact .inr ⟨hnone', fun hpull => by rw [← h.remotes hpull, hcros hpull]⟩
    · rcases h'.branch with ⟨-, hnone, -⟩ | ⟨base', picks', hbase', hget', hpicks'⟩
      · rw [hget] at hnone
        cases hnone
      · refine .inr ⟨base, picks ++ picks', hbase, ?_, List.rel_append hpicks hpicks'⟩
        rcases hbase' with hsome | ⟨hnone, -⟩
        · rw [hget] at hsome
          cases hsome
          rw [hget', List.append_assoc]
        · rw [hget] at hnone
          cases hnone
  remotes := fun hpull => (h'.remotes hpull).trans (h.remotes hpull)
  picking := fun hp => h'.picking (h.picking hp)

/-- What is on the branch after a pick, is on it at its end. -/
theorem Stacked.begins {shas : List Sha} {history : History} (h : Stacked linux opts k r r' shas)
    (hget : r.branches.get? (opts.branch k) = some history) :
    ∃ history', r'.branches.get? (opts.branch k) = some history' ∧ history <+: history' := by
  rcases h.branch with ⟨-, hnone, -⟩ | ⟨base, picks, hbase, hget', -⟩
  · rw [hget] at hnone
    cases hnone
  · refine ⟨base ++ picks, hget', ?_⟩
    rcases hbase with hsome | ⟨hnone, -⟩
    · rw [hget] at hsome
      cases hsome
      exact List.prefix_append _ _
    · rw [hget] at hnone
      cases hnone

theorem Stacked.last (h : Stacked linux opts k r r' [sha]) : ∃ history pick,
    r'.branches.get? (opts.branch k) = some history ∧ history.getLast? = some pick ∧
      PickOf linux opts pick sha := by
  rcases h.branch with ⟨-, -, hnil⟩ | ⟨base, picks, -, hget, hpicks⟩
  · cases hnil
  · cases hpicks with
    | cons hpick hrest =>
      cases hrest
      exact ⟨_, _, hget, List.getLast?_concat, hpick⟩

/-! ## One kernel -/

/-- `cp_status` says of each kernel whether the pick is on its branch. -/
structure Applied (linux : Linux) (c : Checkouts) (opts : Opts) (sha : Sha) (ks : List Kernel)
    (w : World) (cpStatus : Dict Kernel Bool) (w' : World) : Prop where
  tried : ∀ k ∈ ks, ∃ ok, cpStatus.get? k = some ok ∧
    Stacked linux opts k (w.repos (c.path k)) (w'.repos (c.path k)) (if ok then [sha] else [])
  others : ∀ k ∈ kernels, k ∉ ks → w'.repos (c.path k) = w.repos (c.path k)
  pushed : w'.pushed = w.pushed

/-- The kernels that took the pick. -/
def cleanKernels (status : List (Kernel × PatchStatus)) : List Kernel :=
  (status.filter fun s => decide (s.2 = .appliesCleanly)).map Prod.fst

theorem mem_cleanKernels {status : List (Kernel × PatchStatus)} :
    k ∈ cleanKernels status ↔ (k, .appliesCleanly) ∈ status := by
  simp [cleanKernels]

/-- A kernel's status is clean just where it took the pick. -/
theorem clean_iff {patches : List Kernel} {cpStatus : Dict Kernel Bool}
    {status : List (Kernel × PatchStatus)} (hks : status.map Prod.fst = kernels)
    (hstatus : ∀ s ∈ status, statusOf patches cpStatus s.1 = .ok s.2) (hk : k ∈ kernels) :
    k ∈ cleanKernels status ↔ k ∈ patches ∧ cpStatus.get? k = some true := by
  rw [mem_cleanKernels]
  have hget : statusOf patches cpStatus k = .ok .appliesCleanly ↔
      k ∈ patches ∧ cpStatus.get? k = some true := by
    unfold statusOf
    by_cases hpatches : k ∈ patches
    · rw [if_neg (not_not.mpr hpatches)]
      cases hcp : cpStatus.get? k with
      | none => simp
      | some ok => cases ok <;> simp [hpatches]
    · rw [if_pos hpatches]
      simp [hpatches]
  rw [← hget]
  constructor
  · exact fun hmem => hstatus _ hmem
  · intro hclean
    rw [← hks] at hk
    obtain ⟨s, hs, rfl⟩ := List.mem_map.mp hk
    have hsame := hstatus s hs
    rw [hclean] at hsame
    obtain ⟨k, status⟩ := s
    cases hsame
    exact hs

/-! ## What is pushed -/

theorem Rests.stacked (h : Rests c opts w w') (hk : k ∈ kernels) :
    Stacked linux opts k (w.repos (c.path k)) (w'.repos (c.path k)) [] :=
  stacked_of_same (h.branches k hk) (fun hpull => h.remotes hpull k hk) fun hp => by
    rw [h.picking k hk, hp]

/-- A kernel that `apply_patch` was called for, or was not. -/
theorem Applied.stacked {patches : List Kernel} {cpStatus : Dict Kernel Bool}
    {status : List (Kernel × PatchStatus)} (h : Applied linux c opts sha patches w cpStatus w')
    (hnames : status.map Prod.fst = kernels)
    (hstatus : ∀ s ∈ status, statusOf patches cpStatus s.1 = .ok s.2) (hk : k ∈ kernels) :
    Stacked linux opts k (w.repos (c.path k)) (w'.repos (c.path k))
      (if k ∈ cleanKernels status then [sha] else []) := by
  have hclean := clean_iff hnames hstatus hk
  by_cases hpatches : k ∈ patches
  · obtain ⟨ok, hget, hstacked⟩ := h.tried k hpatches
    rw [hget] at hclean
    cases ok with
    | true =>
      rw [if_pos (hclean.mpr ⟨hpatches, rfl⟩)]
      exact hstacked
    | false =>
      rw [if_neg fun hmem => by simpa using (hclean.mp hmem).2]
      exact hstacked
  · rw [if_neg fun hmem => hpatches (hclean.mp hmem).1, h.others k hk hpatches]
    exact stacked_of_same rfl (fun _ => rfl) id

/-- `commit_status['status']` -/
abbrev Report := List (Sha × List (Kernel × PatchStatus))

/-- The commits that are said to apply cleanly to a kernel. -/
def Report.cleanFor (report : Report) (k : Kernel) : List Sha :=
  (report.filter fun entry => (cleanKernels entry.2).contains k).map Prod.fst

/-- Where commits are said to apply cleanly. -/
def Report.clean (report : Report) : List (Sha × Kernel) :=
  report.flatMap fun entry => (cleanKernels entry.2).map fun k => (entry.1, k)

/-- The branch of the bug is pushed just after the pick of the commit is put on it. -/
structure Landed (linux : Linux) (c : Checkouts) (opts : Opts) (w : World) (p : Push)
    (entry : Sha × Kernel) : Prop where
  cwd : p.cwd = c.path entry.2
  args : p.args = (getGitPushCmd entry.2).splitOn ' '
  begins : ∃ history, (w.repos (c.path entry.2)).branches.get? (opts.branch entry.2) =
    some history ∧
    p.history <+: history
  last : ∃ pick, p.history.getLast? = some pick ∧ PickOf linux opts pick entry.1

theorem Landed.later {p : Push} {entry : Sha × Kernel} {shas : List Sha}
    (h : Landed linux c opts w p entry)
    (hstacked : Stacked linux opts entry.2 (w.repos (c.path entry.2))
      (w'.repos (c.path entry.2)) shas) :
    Landed linux c opts w' p entry := by
  refine ⟨h.cwd, h.args, ?_, h.last⟩
  obtain ⟨history, hget, hbegins⟩ := h.begins
  obtain ⟨history', hget', hbegins'⟩ := hstacked.begins hget
  exact ⟨history', hget', hbegins.trans hbegins'⟩

/-- What the second loop leaves. -/
structure Reported (linux : Linux) (c : Checkouts) (opts : Opts) (report : Report) (w w' : World) :
    Prop where
  names : ∀ entry ∈ report, entry.2.map Prod.fst = kernels
  stacked : ∀ k ∈ kernels, Stacked linux opts k (w.repos (c.path k)) (w'.repos (c.path k))
    (report.cleanFor k)
  pushed : ∃ ps, w'.pushed = w.pushed ++ ps ∧ List.Forall₂ (Landed linux c opts w') ps report.clean

end Cvetriager
