import DevUtil.Variant.Boards
import DevUtil.Variant.Loop

/-!
# Runs of the program

The worlds that runs of `main` can leave behind, and the entries in their status files.

    what every run keeps holds of all worlds reached              (Reaches.invariant)
    an entry is a commit, or the upstream CL that `find` found    (Reaches.shaped)
-/

namespace Variant

open Lib Prog

section

variable {X : Type} {ext : Sem Call X}

/-! ## What runs leave behind -/

/-- The worlds after runs with arguments that are `allowed`, each possibly cut off between two
operations. -/
inductive Reaches (ext : Sem Call X) (allowed : Flags → Prop) : World X → Prop
  | start (x : X) : Reaches ext allowed ⟨none, x⟩
  | run {flags : Flags} {w w' : World X} {p : Prog Op Exn Bool} :
      Reaches ext allowed w → allowed flags → Steps (opSem ext) (main flags) w p w' →
        Reaches ext allowed w'

theorem Reaches.invariant {I : World X → Prop} {allowed : Flags → Prop}
    (hstart : ∀ x, I ⟨none, x⟩)
    (hrun : ∀ flags w, allowed flags → I w → wp (opSem ext) I (fun _ _ => True) (main flags) w)
    {w : World X} (h : Reaches ext allowed w) : I w := by
  induction h with
  | start x => exact hstart x
  | run _ hflags hsteps ih => exact wp_steps (hrun _ _ hflags ih) ih hsteps

/-- A board of the list, with or without `--continue` and `--abort`. -/
def Flags.supported : Flags → Prop
  | newVariant board _ => board ∈ boards
  | continueFlag | abortFlag => True

/-- How any step leaves the file and the status. -/
theorem exec_performStep_closed {P : Status → Prop} (hP : Closed P) {s : Status} (hs : P s)
    {w w' : World X} (hw : InFile P w) {a : Except Exn (Bool × Status)}
    (h : Exec (callSem ext) (performStep s) w a w') :
    (∀ s', w'.file = some s' → P s') ∧ ∀ rc s', a = .ok (rc, s') → P s' := by
  by_cases hstep : s.step = some .cleanUp
  · rcases exec_cleanUp hstep h with ⟨rfl, hfile, -⟩ | ⟨rfl, hfile, -⟩
    · rw [hfile]
      refine ⟨fun s' h => (Option.some_ne_none _ h.symm).elim, ?_⟩
      rintro rc s' h
      cases h
      exact hs
    · obtain ⟨s₁, hs₁, hP₁⟩ := hw
      rw [hfile, hs₁]
      refine ⟨fun s' h => Option.some.inj h ▸ hP₁, ?_⟩
      rintro rc s' h
      cases h
  · have hends := wp_exec (ensures_performStep hP (fun e h => h) hs hstep w hw) h
    obtain ⟨⟨s₁, hs₁, hP₁⟩, hout⟩ := hends
    rw [hs₁]
    refine ⟨fun s' h => Option.some.inj h ▸ hP₁, ?_⟩
    rintro rc s' rfl
    exact hout

/-- What every change to a status keeps, all statuses in the file have. -/
theorem Reaches.status {P : Status → Prop} (hP : Closed P)
    (hstep : ∀ s step, P s → P { s with step := step })
    {allowed : Flags → Prop} (hnew : ∀ board variant step, allowed (.newVariant board variant) →
      P (newStatus board variant step)) {w : World X} (h : Reaches ext allowed w) {s : Status}
    (hfile : w.file = some s) : P s := by
  have hI : ∀ s, w.file = some s → P s := by
    apply h.invariant (I := fun w => ∀ s, w.file = some s → P s)
    · rintro x s h
      cases h
    · intro flags w hflags hw
      apply wp_of_noted
      apply wp_main (J := fun _ s _ => P s)
      · intro _ s n d hs _
        have hin : InFile P (Saved s d).1 := ⟨s.dumped, rfl, hP.dumped s hs⟩
        refine ⟨fun s' h => Option.some.inj h ▸ hP.dumped s hs, fun a w' hexec => ?_⟩
        obtain ⟨hI, hout⟩ := exec_performStep_closed hP hs hin hexec
        exact ⟨hI, .of_status (fun _ => trivial) hstep hout⟩
      · exact fun _ _ _ _ _ => trivial
      · exact fun _ _ _ => trivial
      · exact hw
      · trivial
      · exact fun _ _ _ _ => trivial
      · rintro board variant step rest rfl _ _
        have hs := hP.dumped _ (hnew board variant step hflags)
        exact ⟨fun s' h => Option.some.inj h ▸ hs, hs⟩
      · rintro s hs (rfl | rfl)
        · exact hw s hs
        · exact hstep s _ (hw s hs)
  exact hI s hfile

/-! ## The shape of the entries -/

/-- A commit that one of the steps has made. -/
structure Commit.IsMade (commit : Commit) : Prop where
  branchName : commit.branchName ≠ none
  changeId : commit.changeId ≠ none
  dir : commit.dir ≠ none

/-- The upstream CL has none of what a commit has. -/
structure Commit.IsUpstream (commit : Commit) : Prop where
  branchName : commit.branchName = none
  changeId : commit.changeId = none
  dir : commit.dir = none
  needsReUpload : commit.needsReUpload = false

/-- Every entry but that of `find` is a commit. -/
structure Shaped (s : Status) : Prop where
  made : ∀ key commit, s.commits.get? key = some commit → key ≠ .find → commit.IsMade
  upstream : ∀ commit, s.commits.get? .find = some commit → commit.IsUpstream

theorem Shaped.store {s : Status} (h : Shaped s) {key : StepName} {commit : Commit}
    (hmade : key ≠ .find → commit.IsMade) (hupstream : key = .find → commit.IsUpstream) :
    Shaped (s.store key commit) where
  made := by
    intro k c hget hk
    rcases Dict.get?_set_cases hget with ⟨rfl, rfl⟩ | ⟨-, hget⟩
    · exact hmade hk
    · exact h.made k c hget hk
  upstream := by
    intro c hget
    rcases Dict.get?_set_cases hget with ⟨hk, rfl⟩ | ⟨-, hget⟩
    · exact hupstream hk.symm
    · exact h.upstream c hget

theorem closed_shaped : Closed Shaped where
  dumped := by
    intro s h
    refine ⟨fun key commit hget => h.made key commit ?_, fun commit hget => h.upstream commit ?_⟩
    · rw [← Status.dumped_commits]
      exact hget
    · rw [← Status.dumped_commits]
      exact hget
  made := by
    intro s key b c d h hkey
    refine h.store
      (fun _ => ⟨Option.some_ne_none b, Option.some_ne_none c, Option.some_ne_none d⟩) ?_
    exact fun hfind => absurd hfind hkey
  upstream := fun s cl h => h.store (fun hfind => absurd rfl hfind) fun _ => ⟨rfl, rfl, rfl, rfl⟩
  withCl := by
    intro s key commit cl h hget
    refine h.store (fun hk => ?_) (fun hk => ?_)
    · have hmade := h.made key commit hget hk
      exact ⟨hmade.branchName, hmade.changeId, hmade.dir⟩
    · subst hk
      have hup := h.upstream commit hget
      exact ⟨hup.branchName, hup.changeId, hup.dir, hup.needsReUpload⟩
  cqDepend := by
    intro s key commit cq h hget
    refine h.store (fun hk => ?_) (fun hk => ?_)
    · have hmade := h.made key commit hget hk
      exact ⟨hmade.branchName, hmade.changeId, hmade.dir⟩
    · subst hk
      have hup := h.upstream commit hget
      exact ⟨hup.branchName, hup.changeId, hup.dir, hup.needsReUpload⟩
  needsReUpload := by
    intro s key commit needs h hget hid
    refine h.store (fun hk => ?_) (fun hk => ?_)
    · have hmade := h.made key commit hget hk
      exact ⟨hmade.branchName, hmade.changeId, hmade.dir⟩
    · subst hk
      have hup := h.upstream commit hget
      refine ⟨hup.branchName, hup.changeId, hup.dir, ?_⟩
      cases needs with
      | false => rfl
      | true => exact absurd hup.changeId (hid rfl)

theorem Closed.and {P P' : Status → Prop} (h : Closed P) (h' : Closed P') :
    Closed fun s => P s ∧ P' s where
  dumped := fun s hs => ⟨h.dumped s hs.1, h'.dumped s hs.2⟩
  made := fun s key b c d hs hk => ⟨h.made s key b c d hs.1 hk, h'.made s key b c d hs.2 hk⟩
  upstream := fun s cl hs => ⟨h.upstream s cl hs.1, h'.upstream s cl hs.2⟩
  withCl := fun s key commit cl hs hget =>
    ⟨h.withCl s key commit cl hs.1 hget, h'.withCl s key commit cl hs.2 hget⟩
  cqDepend := fun s key commit cq hs hget =>
    ⟨h.cqDepend s key commit cq hs.1 hget, h'.cqDepend s key commit cq hs.2 hget⟩
  needsReUpload := fun s key commit needs hs hget hid =>
    ⟨h.needsReUpload s key commit needs hs.1 hget hid,
      h'.needsReUpload s key commit needs hs.2 hget hid⟩

theorem Closed.exists {ι : Type} {P : ι → Status → Prop} (h : ∀ i, Closed (P i)) :
    Closed fun s => ∃ i, P i s where
  dumped := fun s ⟨i, hs⟩ => ⟨i, (h i).dumped s hs⟩
  made := fun s key b c d ⟨i, hs⟩ hk => ⟨i, (h i).made s key b c d hs hk⟩
  upstream := fun s cl ⟨i, hs⟩ => ⟨i, (h i).upstream s cl hs⟩
  withCl := fun s key commit cl ⟨i, hs⟩ hget => ⟨i, (h i).withCl s key commit cl hs hget⟩
  cqDepend := fun s key commit cq ⟨i, hs⟩ hget => ⟨i, (h i).cqDepend s key commit cq hs hget⟩
  needsReUpload := fun s key commit needs ⟨i, hs⟩ hget hid =>
    ⟨i, (h i).needsReUpload s key commit needs hs hget hid⟩

/-- What a reachable file holds. -/
theorem Reaches.shaped {w : World X} (h : Reaches ext Flags.supported w) {s : Status}
    (hfile : w.file = some s) :
    (∃ b : { b // b ∈ boards }, OfBoard b s) ∧ Shaped s := by
  have hclosed := (Closed.exists fun b : { b // b ∈ boards } => closed_ofBoard b).and closed_shaped
  refine h.status hclosed ?_ ?_ hfile
  · rintro s step ⟨⟨b, hb⟩, hs⟩
    exact ⟨⟨b, hb.stepList, hb.repoUploadList, hb.corebootPushList, hb.depends⟩, hs.made,
      hs.upstream⟩
  · intro board variant step hboard
    refine ⟨⟨⟨board, hboard⟩, .of_eq rfl⟩, ?_, ?_⟩
    · intro key commit hget
      cases hget
    · intro commit hget
      cases hget

end

end Variant
