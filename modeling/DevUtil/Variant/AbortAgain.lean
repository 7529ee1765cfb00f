import DevUtil.Variant.Abort

/-!
# Abandoning after a failure

What `repo abandon` does to the branches that exist, with one branch at which it fails the
first time.  What a run has abandoned is not kept in the status file, and abandoning a
branch that is not there fails.

    the run after the failure ends if nothing had been abandoned yet     (abort_again)
-/

namespace Variant

open Lib Prog

/-- `repo abandon` on the branches that exist; it fails at `stuck`, and where there is no such
branch. -/
def abandonIn (stuck : Option (Branch × Dir)) :
    ∀ ⦃β : Type⦄, Call β → List (Branch × Dir) → Option (β × List (Branch × Dir))
  | _, .runProcess (.repoAbandon branch dir), existing =>
    if some (branch, dir) = stuck ∨ (branch, dir) ∉ existing then some (some false, existing)
    else some (some true, existing.filter (· ≠ (branch, dir)))
  | _, .save _, existing => some ((), existing)
  | _, .remove, existing => some (some (), existing)
  | _, .runProcess _, existing | _, .emergeWithWorkon _, existing | _, .isfile _, existing =>
    some (none, existing)
  | _, .mentions _ _, existing | _, .findGitTopLevel _, existing => some (none, existing)
  | _, .getCurrentBranch _, existing | _, .getChangeId _, existing => some (none, existing)
  | _, .query _ _, existing | _, .queryOriginal _, existing => some (none, existing)
  | _, .gitLogGrep _ _, existing | _, .gitLogMessage _ _, existing => some (none, existing)

theorem abandonIn_abandon (stuck : Option (Branch × Dir)) (p : Branch × Dir)
    (existing : List (Branch × Dir)) :
    abandonIn stuck (.runProcess (abandon p)) existing =
      if some p = stuck ∨ p ∉ existing then some (some false, existing)
      else some (some true, existing.filter (· ≠ p)) := rfl

theorem abandonIn_total (stuck : Option (Branch × Dir)) ⦃β : Type⦄ (c : Call β)
    (existing : List (Branch × Dir)) :
    ∃ a existing', abandonIn stuck c existing = some (a, existing') := by
  cases c with
  | runProcess p =>
    cases p with
    | repoAbandon branch dir =>
      by_cases h : some (branch, dir) = stuck ∨ (branch, dir) ∉ existing
      · exact ⟨_, _, if_pos h⟩
      · exact ⟨_, _, if_neg h⟩
    | script | repoUpload | filterBranch => exact ⟨_, _, rfl⟩
  | save | remove | emergeWithWorkon | isfile | mentions | findGitTopLevel | getCurrentBranch
  | getChangeId | query
    | queryOriginal | gitLogGrep | gitLogMessage => exact ⟨_, _, rfl⟩

/-- The calls, with the processes noted. -/
def abandonSem (stuck : Option (Branch × Dir)) : Sem Call (List (Branch × Dir) × List Process) :=
  (semOf (abandonIn stuck)).noting noteProcess

/-- There is always a run. -/
theorem exists_exec (stuck : Option (Branch × Dir)) (p : Prog Op Exn Bool)
    (w : World (List (Branch × Dir) × List Process)) :
    ∃ r w', Exec (opSem (abandonSem stuck)) p w r w' := by
  have htotal : ∀ ⦃β : Type⦄ (c : Call β) (x : List (Branch × Dir) × List Process),
      ∃ a x', noted (abandonIn stuck) noteProcess c x = some (a, x') :=
        noted_total (abandonIn_total stuck)
  obtain ⟨r, w', heval⟩ := eval_total (opEval_total htotal) p w
  exact ⟨r, w', exec_of_eval (opSem_of_opEval (noting_of_noted fun _ _ _ _ _ h => h)) heval⟩

/-! ## The run that is stopped -/

/-- How the loop over `keys` ends that is stuck at `q`, with the branches `todo` before it. -/
structure Stopped (s : Status) (q : Branch × Dir) (keys : List StepName)
    (todo : List (Branch × Dir)) (w : World (List (Branch × Dir) × List Process))
    (r : Except Exn (Bool × Status)) (w' : World (List (Branch × Dir) × List Process)) : Prop where
  stopped : ∀ s', r = .ok (false, s') → w'.file = w.file ∧
    ∃ pre post, todo = pre ++ q :: post ∧ ∀ p, p ∈ w'.outside.1 ↔ p ∈ w.outside.1 ∧ p ∉ pre
  unfinished : q ∈ todo → ∀ s', r ≠ .ok (true, s')
  stops : (∀ key ∈ keys, recorded s key ≠ none) → q ∈ todo → r = .ok (false, s)

theorem wp_abortLoop_stuck {s : Status} {q : Branch × Dir} :
    ∀ (keys : List StepName) (abandoned : List (Branch × Dir))
      (w : World (List (Branch × Dir) × List Process)),
      (∀ p ∈ toAbandon s keys abandoned, p ∈ w.outside.1) →
      wp (callSem (abandonSem (some q))) (fun _ => True)
        (Stopped s q keys (toAbandon s keys abandoned) w)
        (abortLoop keys abandoned s) w := by
  intro keys
  induction keys with
  | nil =>
    intro abandoned w _
    have hend : Stopped s q [] [] w (.ok (true, s)) w :=
      ⟨(fun s' h => by cases h), fun hq => (List.not_mem_nil hq).elim,
        fun _ hq => (List.not_mem_nil hq).elim⟩
    exact hend
  | cons key keys ih =>
    intro abandoned w hexist
    cases hrec : recorded s key with
    | none =>
      obtain ⟨e, -, heq⟩ := abortLoop_unrecorded hrec keys abandoned
      rw [heq]
      have hend : Stopped s q (key :: keys) (toAbandon s (key :: keys) abandoned) w (.error e) w :=
        ⟨(fun s' h => by cases h), (fun _ s' h => by cases h),
          fun hall => absurd hrec (hall key List.mem_cons_self)⟩
      exact hend
    | some p =>
      rw [abortLoop_recorded hrec]
      rw [toAbandon, hrec] at hexist ⊢
      by_cases hmem : p ∈ abandoned
      · simp only [hmem, if_true] at hexist ⊢
        refine wp_mono (fun r w' h => ?_) (ih abandoned w hexist)
        exact ⟨h.stopped, h.unfinished,
          fun hall => h.stops fun k hk => hall k (List.mem_cons_of_mem key hk)⟩
      · simp only [hmem, if_false] at hexist ⊢
        have hp : p ∈ w.outside.1 := hexist p List.mem_cons_self
        have hnot : p ∉ toAbandon s keys (p :: abandoned) :=
          fun h => ((mem_toAbandon keys _).mp h).1 List.mem_cons_self
        rintro a w₁ ⟨⟨hrun, -⟩, hfile⟩
        have hrun : abandonIn (some q) (.runProcess (abandon p)) w.outside.1 =
          some (a, w₁.outside.1) := hrun
        rw [abandonIn_abandon] at hrun
        refine ⟨trivial, ?_⟩
        by_cases hpq : p = q
        · -- the branch at which it fails
          subst hpq
          rw [if_pos (.inl rfl)] at hrun
          obtain ⟨ha, hx⟩ := Prod.mk.inj (Option.some.inj hrun)
          rw [← ha]
          have hend : Stopped s p (key :: keys) (p :: toAbandon s keys (p :: abandoned)) w
              (.ok (false, s)) w₁ := by
            refine ⟨fun s' _ => ⟨hfile, [], _, rfl, fun p' => ?_⟩, (fun _ s' h => by cases h),
              fun _ _ => rfl⟩
            rw [← hx]
            simp
          exact hend
        · rw [if_neg (by simp [hpq, hp])] at hrun
          obtain ⟨ha, hx⟩ := Prod.mk.inj (Option.some.inj hrun)
          rw [← ha]
          have hexist' : ∀ p' ∈ toAbandon s keys (p :: abandoned), p' ∈ w₁.outside.1 := by
            intro p' hp'
            have hne : p' ≠ p := fun h => hnot (h ▸ hp')
            rw [← hx]
            simp [hne, hexist p' (List.mem_cons_of_mem p hp')]
          have htail : q ∈ p :: toAbandon s keys (p :: abandoned) →
              q ∈ toAbandon s keys (p :: abandoned) := by
            intro hq
            rcases List.mem_cons.mp hq with hq | hq
            · exact absurd hq.symm hpq
            · exact hq
          refine wp_mono (fun r w' h => ⟨?_, fun hq => h.unfinished (htail hq), ?_⟩)
            (ih (p :: abandoned) w₁ hexist')
          · intro s' hr
            obtain ⟨hfile', pre, post, htodo, hexisting⟩ := h.stopped s' hr
            refine ⟨hfile'.trans hfile, p :: pre, post, by rw [htodo]; rfl, fun p' => ?_⟩
            rw [hexisting, ← hx]
            simp [and_assoc]
          · exact fun hall hq =>
              h.stops (fun k hk => hall k (List.mem_cons_of_mem key hk)) (htail hq)

/-- A branch that is not there. -/
theorem wp_abortLoop_gone {s : Status} {q : Branch × Dir} :
    ∀ (keys : List StepName) (abandoned : List (Branch × Dir))
      (w : World (List (Branch × Dir) × List Process)),
      q ∈ toAbandon s keys abandoned → q ∉ w.outside.1 →
      wp (callSem (abandonSem none)) (fun _ => True) (fun r _ => ∀ s', r ≠ .ok (true, s'))
        (abortLoop keys abandoned s) w := by
  intro keys
  induction keys with
  | nil => exact fun _ _ hq => (List.not_mem_nil hq).elim
  | cons key keys ih =>
    intro abandoned w hq hgone
    cases hrec : recorded s key with
    | none =>
      obtain ⟨e, -, heq⟩ := abortLoop_unrecorded hrec keys abandoned
      rw [heq]
      exact fun s' h => by cases h
    | some p =>
      rw [abortLoop_recorded hrec]
      rw [toAbandon, hrec] at hq
      by_cases hmem : p ∈ abandoned
      · simp only [hmem, if_true] at hq ⊢
        exact ih abandoned w hq hgone
      · simp only [hmem, if_false] at hq ⊢
        rintro a w₁ ⟨⟨hrun, -⟩, -⟩
        have hrun : abandonIn none (.runProcess (abandon p)) w.outside.1 = some (a, w₁.outside.1) :=
          hrun
        rw [abandonIn_abandon] at hrun
        refine ⟨trivial, ?_⟩
        by_cases hp : p ∈ w.outside.1
        · rw [if_neg (by simp [hp])] at hrun
          obtain ⟨ha, hx⟩ := Prod.mk.inj (Option.some.inj hrun)
          rw [← ha]
          apply ih (p :: abandoned) w₁
          · rcases List.mem_cons.mp hq with rfl | hq
            · exact absurd hp hgone
            · exact hq
          · rw [← hx]
            exact fun h => hgone (List.mem_of_mem_filter h)
        · rw [if_pos (.inr hp)] at hrun
          obtain ⟨ha, -⟩ := Prod.mk.inj (Option.some.inj hrun)
          rw [← ha]
          exact fun s' h => by cases h

/-! ## Two runs -/

/-- A run with `--abort` from `s` that fails at the `k`-th branch. -/
def FirstRun (s : Status) (k : Nat) (existing : List (Branch × Dir))
    (w : World (List (Branch × Dir) × List Process)) : Prop :=
  (∀ p ∈ branches s, p ∈ existing) ∧
    Exec (opSem (abandonSem (branches s)[k]?)) (main .abortFlag) ⟨some s, existing, []⟩
      (.ok false) w

/-- After every such run another one abandons the branches that remain, and is done. -/
def Resumes (s : Status) (k : Nat) : Prop :=
  ∀ existing w, FirstRun s k existing w →
    ∃ w', Exec (opSem (abandonSem none)) (main .abortFlag) ⟨w.file, w.outside.1, []⟩ (.ok true) w' ∧
      w'.file = none ∧
      w'.outside.2.Nodup ∧ ∀ q, q ∈ w'.outside.2 ↔ ∃ p ∈ (branches s).drop k, q = abandon p

/-- What the first run leaves. -/
structure FirstRunLeaves (s : Status) (k : Nat) (existing : List (Branch × Dir))
    (w : World (List (Branch × Dir) × List Process)) : Prop where
  file : w.file = some s.aborting.dumped
  existing : ∀ p, p ∈ w.outside.1 ↔ p ∈ existing ∧ p ∉ (branches s).take k

/-- Where a list without repetitions is split, is where its `k`-th item is. -/
theorem take_of_split {α : Type} {xs pre post : List α} {x : α} {k : Nat} (hnodup : xs.Nodup)
    (hk : xs[k]? = some x) (hxs : xs = pre ++ x :: post) : xs.take k = pre := by
  obtain ⟨hlt, hget⟩ := List.getElem?_eq_some_iff.mp hk
  have hlt' : pre.length < xs.length := by
    rw [hxs]
    simp
  have hget' : xs[pre.length] = x := by
    simp [hxs]
  have heq : k = pre.length := hnodup.getElem_inj_iff.mp (hget.trans hget'.symm)
  rw [heq, hxs]
  exact List.take_left

section

variable {s : Status} {k : Nat} (hnodup : s.board.stepList.Nodup)
  (hlast : s.board.stepList.getLast? = some .cleanUp)
include hnodup hlast

theorem wp_first_run {q : Branch × Dir} (hk : (branches s)[k]? = some q)
    {existing : List (Branch × Dir)} (hexist : ∀ p ∈ branches s, p ∈ existing) :
    wp (opSem (abandonSem (some q))) (fun _ => True)
      (fun r w => (r = .ok false → FirstRunLeaves s k existing w) ∧
      ((∀ key ∈ s.commits.keys, recorded s key ≠ none) → r = .ok false)) (main .abortFlag)
        ⟨some s, existing, []⟩ := by
  have hsame : toAbandon s.aborting s.commits.keys [] = branches s :=
    @toAbandon_congr s.aborting s (fun _ => rfl) _ _
  have hloop := wp_abortLoop_stuck (s := s.aborting) (q := q) s.commits.keys []
    ⟨some s.aborting.dumped, existing, []⟩
    (by rw [hsame]; exact hexist)
  refine wp_main_abort rfl hnodup hlast (wp_mono ?_ hloop)
  rw [hsame]
  intro a w' ha
  match a, ha with
  | .error e, ha =>
    refine ⟨(fun h => by cases h), fun hall => ?_⟩
    cases ha.stops hall (List.mem_of_getElem? hk)
  | .ok (true, _), ha => exact absurd rfl (ha.unfinished (List.mem_of_getElem? hk) _)
  | .ok (false, _), ha =>
    refine ⟨fun _ => ?_, fun _ => rfl⟩
    obtain ⟨hfile, pre, post, hsplit, hexisting⟩ := ha.stopped _ rfl
    rw [← take_of_split (nodup_toAbandon _ _) hk hsplit] at hexisting
    exact ⟨hfile, hexisting⟩

end

/-! ## The second run -/

theorem recorded_dumped (s : Status) (key : StepName) :
    recorded s.aborting.dumped key = recorded s key := by
  unfold recorded
  rw [Status.dumped_commits]
  rfl

theorem mem_branches_dumped {s : Status} {p : Branch × Dir} :
    p ∈ branches s.aborting.dumped ↔ p ∈ branches s := by
  simp only [mem_branches, recorded_dumped]

/-- A second run that finds all branches abandons them. -/
theorem wp_second_run {s : Status} (hnodup : s.board.stepList.Nodup)
    (hlast : s.board.stepList.getLast? = some .cleanUp)
    (hrec : ∀ key ∈ s.commits.keys, recorded s key ≠ none) {existing : List (Branch × Dir)}
    (hexist : ∀ p ∈ branches s, p ∈ existing) :
    wp (opSem (abandonSem none)) (fun _ => True) (fun r w => Abandoned s r w) (main .abortFlag)
      ⟨some s, existing, []⟩ := by
  have hwp := @wp_main_abort_ready _ (semOf (abandonIn none))
    (fun ps x => ps.Nodup ∧ ∀ p ∈ ps, p ∈ x) ?_ ?_ s hnodup hlast
    hrec existing ⟨nodup_toAbandon _ _, hexist⟩
  · exact wp_mono (fun _ _ h => h.1) hwp
  · rintro p ps x a x' ⟨hnd, hx⟩ hrun
    have hrun : abandonIn none (.runProcess (abandon p)) x = some (a, x') := hrun
    rw [abandonIn_abandon, if_neg (by simp [hx p List.mem_cons_self])] at hrun
    obtain ⟨ha, hx'⟩ := Prod.mk.inj (Option.some.inj hrun)
    obtain ⟨hp, hnd⟩ := List.nodup_cons.mp hnd
    refine ⟨ha.symm, hnd, fun p' hp' => ?_⟩
    have hne : p' ≠ p := fun h => hp (h ▸ hp')
    rw [← hx']
    simp [hne, hx p' (List.mem_cons_of_mem p hp')]
  · rintro x a x' hx hremove
    cases hremove
    exact ⟨rfl, hx⟩

/-- A second run that misses a branch does not get to its end. -/
theorem wp_second_run_gone {s : Status} (hnodup : s.board.stepList.Nodup)
    (hlast : s.board.stepList.getLast? = some .cleanUp) {q : Branch × Dir} (hq : q ∈ branches s)
    {existing : List (Branch × Dir)} (hgone : q ∉ existing) :
    wp (opSem (abandonSem none)) (fun _ => True) (fun r _ => r ≠ .ok true) (main .abortFlag)
      ⟨some s, existing, []⟩ := by
  have hsame : toAbandon s.aborting s.commits.keys [] = branches s :=
    @toAbandon_congr s.aborting s (fun _ => rfl) _ _
  have hloop := wp_abortLoop_gone (s := s.aborting) s.commits.keys []
    ⟨some s.aborting.dumped, existing, []⟩
    (hsame ▸ hq) hgone
  refine wp_main_abort rfl hnodup hlast (wp_mono ?_ hloop)
  intro a w' ha
  match a, ha with
  | .error e, _ => exact fun h => by cases h
  | .ok (false, _), _ => exact fun h => by cases h
  | .ok (true, s'), ha => exact absurd rfl (ha s')

/-- `repo abandon` can fail at the `k`-th branch. -/
def FailsAt (s : Status) (k : Nat) : Prop := ∃ existing w, FirstRun s k existing w

section

variable {X : Type} {ext : Sem Call X}

theorem failsAt {w : World X} (h : Reaches ext Flags.supported w) {s : Status}
    (hfile : w.file = some s) (hfind : StepName.find ∉ s.commits.keys) {k : Nat}
    (hk : k < (branches s).length) : FailsAt s k := by
  obtain ⟨-, hshaped⟩ := h.shaped hfile
  obtain ⟨hnodup, hlast⟩ := h.stepList hfile
  have hget : (branches s)[k]? = some (branches s)[k] := List.getElem?_eq_getElem hk
  have hwp := wp_first_run hnodup hlast hget (fun _ hp => hp)
  obtain ⟨r, w', hexec⟩ :=
    exists_exec (some (branches s)[k]) (main .abortFlag) ⟨some s, branches s, []⟩
  have hr := (wp_exec hwp hexec).2 (hshaped.recorded_of_no_find hfind)
  exact ⟨branches s, w', fun _ hp => hp, by rw [hget]; exact hr ▸ hexec⟩

theorem resumes_first {w : World X} (h : Reaches ext Flags.supported w) {s : Status}
    (hfile : w.file = some s) (hfind : StepName.find ∉ s.commits.keys)
    (hk : 0 < (branches s).length) : Resumes s 0 := by
  obtain ⟨-, hshaped⟩ := h.shaped hfile
  obtain ⟨hnodup, hlast⟩ := h.stepList hfile
  have hrec := hshaped.recorded_of_no_find hfind
  rintro existing ⟨file, outside⟩ ⟨hexist, hexec⟩
  have hget : (branches s)[0]? = some (branches s)[0] := List.getElem?_eq_getElem hk
  rw [hget] at hexec
  have hleaves := (wp_exec (wp_first_run hnodup hlast hget hexist) hexec).1 rfl
  have hrec' : ∀ key ∈ s.aborting.dumped.commits.keys, recorded s.aborting.dumped key ≠ none := by
    intro key hkey
    rw [recorded_dumped]
    exact hrec key (Dict.mem_keys_sorted.mp hkey)
  have hexist' : ∀ p ∈ branches s.aborting.dumped, p ∈ outside.1 := by
    intro p hp
    exact (hleaves.existing p).mpr ⟨hexist p (mem_branches_dumped.mp hp), List.not_mem_nil⟩
  have hfile' : file = some s.aborting.dumped := hleaves.file
  subst hfile'
  obtain ⟨r, w', hexec'⟩ :=
    exists_exec none (main .abortFlag) ⟨some s.aborting.dumped, outside.1, []⟩
  have hends := wp_exec (wp_second_run (s := s.aborting.dumped) hnodup hlast hrec' hexist') hexec'
  refine ⟨w', hends.result ▸ hexec', hends.file, hends.once, fun q => ?_⟩
  rw [hends.processes, List.drop_zero]
  constructor
  · rintro ⟨key, p, hp, rfl⟩
    exact ⟨p, mem_branches_dumped.mp (mem_branches.mpr ⟨key, hp⟩), rfl⟩
  · rintro ⟨p, hp, rfl⟩
    obtain ⟨key, hkey⟩ := mem_branches.mp (mem_branches_dumped.mpr hp)
    exact ⟨key, p, hkey, rfl⟩

theorem not_resumes {w : World X} (h : Reaches ext Flags.supported w) {s : Status}
    (hfile : w.file = some s) {k : Nat} (hk : k < (branches s).length) (hfails : FailsAt s k)
    (hbad : k ≠ 0 ∨ StepName.find ∈ s.commits.keys) :
    ¬Resumes s k := by
  intro hresumes
  obtain ⟨-, hshaped⟩ := h.shaped hfile
  obtain ⟨hnodup, hlast⟩ := h.stepList hfile
  obtain ⟨existing, ⟨file, outside⟩, hfirst⟩ := hfails
  obtain ⟨w', hexec', -⟩ := hresumes existing _ hfirst
  obtain ⟨hexist, hexec⟩ := hfirst
  have hget : (branches s)[k]? = some (branches s)[k] := List.getElem?_eq_getElem hk
  rw [hget] at hexec
  have hleaves := (wp_exec (wp_first_run hnodup hlast hget hexist) hexec).1 rfl
  have hfile' : file = some s.aborting.dumped := hleaves.file
  subst hfile'
  rcases hbad with hpos | hfind
  · -- the first branch is gone already
    have hlen : 0 < (branches s).length := by omega
    have hq : (branches s)[0] ∈ branches s := List.getElem_mem hlen
    have htake : (branches s)[0] ∈ (branches s).take k := by
      rw [List.mem_take_iff_getElem]
      exact ⟨0, by omega, rfl⟩
    have hgone : (branches s)[0] ∉ outside.1 := fun hin => ((hleaves.existing _).mp hin).2 htake
    exact wp_exec (wp_second_run_gone (s := s.aborting.dumped) hnodup hlast
      (mem_branches_dumped.mpr hq) hgone) hexec' rfl
  · have hshaped' : Shaped s.aborting.dumped :=
      closed_shaped.dumped _ ⟨hshaped.made, hshaped.upstream⟩
    have hfind' : StepName.find ∈ s.aborting.dumped.commits.keys := Dict.mem_keys_sorted.mpr hfind
    exact wp_exec (wp_main_abort_find hshaped' hnodup hlast hfind' rfl) hexec' rfl

/-- After a failure at the `k`-th branch another run gets to the end exactly if that was the first
branch, and `find` has not recorded the upstream CL. -/
theorem abort_again {w : World X} (h : Reaches ext Flags.supported w) {s : Status}
    (hfile : w.file = some s) {k : Nat} (hk : k < (branches s).length) (hfails : FailsAt s k) :
    Resumes s k ↔ k = 0 ∧ StepName.find ∉ s.commits.keys := by
  constructor
  · intro hresumes
    by_cases hgood : k = 0 ∧ StepName.find ∉ s.commits.keys
    · exact hgood
    · refine absurd hresumes (not_resumes h hfile hk hfails ?_)
      by_cases hk0 : k = 0
      · right
        by_cases hfind : StepName.find ∈ s.commits.keys
        · exact hfind
        · exact absurd ⟨hk0, hfind⟩ hgood
      · exact .inl hk0
  · rintro ⟨rfl, hfind⟩
    exact resumes_first h hfile hfind hk

end

theorem puffRun_branches : (puffRun false).file.any fun s =>
    (branches s).length = 2 ∧ StepName.find ∉ s.commits.keys := rfl

theorem abort_again_puff : ∃ s, (puffRun false).file = some s ∧ Resumes s 0 := by
  obtain ⟨s, hs, hprops⟩ := (Option.any_eq_true _ _).mp puffRun_branches
  obtain ⟨hlen, hfind⟩ := of_decide_eq_true hprops
  have hk : 0 < (branches s).length := by omega
  have hreaches := reaches_puffRun false
  exact ⟨s, hs, (abort_again hreaches hs hk (failsAt hreaches hs hfind hk)).mpr ⟨rfl, hfind⟩⟩

/-- Of two branches the first is abandoned before the second one fails. -/
theorem not_abort_again : ¬∀ (X : Type) (ext : Sem Call X) (w : World X) (s : Status) (k : Nat),
    Reaches ext Flags.supported w → w.file = some s → k < (branches s).length → FailsAt s k →
      Resumes s k := by
  intro h
  obtain ⟨s, hs, hprops⟩ := (Option.any_eq_true _ _).mp puffRun_branches
  obtain ⟨hlen, hfind⟩ := of_decide_eq_true hprops
  have hk : 1 < (branches s).length := by omega
  have hreaches := reaches_puffRun false
  have hfails := failsAt hreaches hs hfind hk
  exact not_resumes hreaches hs hk hfails (.inl Nat.one_ne_zero) (h _ _ _ s 1 hreaches hs hk hfails)

end Variant
