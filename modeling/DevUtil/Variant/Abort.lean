import DevUtil.Variant.Runs

/-!
# Abandoning the branches

`--abort` abandons every branch of a variant and removes the status file.  The entry of
`find` is not a commit and has no branch.

    every branch once, if there is no such entry; else an exception    (abort_abandons)
    stopped at a branch and run again                                  (abort_again)
-/

namespace Variant

open Lib Prog

/-! ## What there is to abandon -/

/-- The branch and directory of an entry that has both. -/
def recorded (s : Status) (key : StepName) : Option (Branch × Dir) :=
  (s.commits.get? key).bind fun commit => commit.branchName.bind fun branch =>
    commit.dir.map fun dir => (branch, dir)

/-- The branches of `keys` that are not abandoned yet, each where it first occurs. -/
def toAbandon (s : Status) : List StepName → List (Branch × Dir) → List (Branch × Dir)
  | [], _ => []
  | key :: keys, abandoned =>
    match recorded s key with
    | none => toAbandon s keys abandoned
    | some p =>
      if p ∈ abandoned then toAbandon s keys abandoned else p :: toAbandon s keys (p :: abandoned)

/-- The branches that are recorded, in the order in which `abort` gets to them. -/
def branches (s : Status) : List (Branch × Dir) := toAbandon s s.commits.keys []

def abandon (p : Branch × Dir) : Process := .repoAbandon p.1 p.2

theorem abandon_injective {p q : Branch × Dir} (h : abandon p = abandon q) : p = q := by
  obtain ⟨hbranch, hdir⟩ := Process.repoAbandon.inj h
  exact Prod.ext hbranch hdir

theorem toAbandon_congr {s s' : Status} (h : ∀ key, recorded s key = recorded s' key) :
    ∀ (keys : List StepName) (abandoned : List (Branch × Dir)), toAbandon s keys abandoned =
      toAbandon s' keys abandoned := by
  intro keys
  induction keys with
  | nil => exact fun _ => rfl
  | cons key keys ih =>
    intro abandoned
    unfold toAbandon
    simp only [h key, ih]

theorem mem_toAbandon {s : Status} {p : Branch × Dir} :
    ∀ (keys : List StepName) (abandoned : List (Branch × Dir)),
      p ∈ toAbandon s keys abandoned ↔ p ∉ abandoned ∧ ∃ key ∈ keys, recorded s key = some p := by
  intro keys
  induction keys with
  | nil =>
    intro abandoned
    simp [toAbandon]
  | cons key keys ih =>
    intro abandoned
    unfold toAbandon
    cases hrec : recorded s key with
    | none =>
      show p ∈ toAbandon s keys abandoned ↔ _
      rw [ih]
      simp [hrec]
    | some q =>
      show p ∈ (if q ∈ abandoned then toAbandon s keys abandoned else q :: toAbandon s keys
        (q :: abandoned)) ↔ _
      by_cases hq : q ∈ abandoned
      · rw [if_pos hq, ih]
        constructor
        · rintro ⟨hp, k, hk, hr⟩
          exact ⟨hp, k, List.mem_cons_of_mem key hk, hr⟩
        · rintro ⟨hp, k, hk, hr⟩
          rcases List.mem_cons.mp hk with rfl | hk
          · rw [hrec] at hr
            cases hr
            exact absurd hq hp
          · exact ⟨hp, k, hk, hr⟩
      · rw [if_neg hq, List.mem_cons, ih]
        constructor
        · rintro (rfl | ⟨hp, k, hk, hr⟩)
          · exact ⟨hq, key, List.mem_cons_self, hrec⟩
          · exact ⟨fun h => hp (List.mem_cons_of_mem q h), k, List.mem_cons_of_mem key hk, hr⟩
        · rintro ⟨hp, k, hk, hr⟩
          by_cases hpq : p = q
          · exact .inl hpq
          · rcases List.mem_cons.mp hk with rfl | hk
            · rw [hrec] at hr
              exact absurd (Option.some.inj hr).symm hpq
            · refine .inr ⟨fun h => ?_, k, hk, hr⟩
              rcases List.mem_cons.mp h with h | h
              · exact hpq h
              · exact hp h

theorem nodup_toAbandon {s : Status} :
    ∀ (keys : List StepName) (abandoned : List (Branch × Dir)),
      (toAbandon s keys abandoned).Nodup := by
  intro keys
  induction keys with
  | nil => exact fun _ => List.nodup_nil
  | cons key keys ih =>
    intro abandoned
    unfold toAbandon
    split
    · exact ih abandoned
    · next p _ =>
      split
      · exact ih abandoned
      · refine List.nodup_cons.mpr ⟨fun hp => ?_, ih _⟩
        exact ((mem_toAbandon keys _).mp hp).1 List.mem_cons_self

/-! ## The loop of `abort` -/

section

variable {X : Type} {ext : Sem Call X}

theorem abortLoop_recorded {s : Status} {key : StepName} {p : Branch × Dir}
    (h : recorded s key = some p) (keys : List StepName) (abandoned : List (Branch × Dir)) :
    abortLoop (key :: keys) abandoned s = if p ∈ abandoned then abortLoop keys abandoned s
      else call (.runProcess (abandon p)) >>= fun rc =>
        if rc then abortLoop keys (p :: abandoned) s else return (false, s) := by
  obtain ⟨commit, hcommit, h⟩ := Option.bind_eq_some_iff.mp h
  obtain ⟨branch, hbranch, h⟩ := Option.bind_eq_some_iff.mp h
  obtain ⟨dir, hdir, rfl⟩ := Option.map_eq_some_iff.mp h
  rw [abortLoop, getCommit, hcommit]
  simp only [ret_bind, getField, hbranch, hdir, abandon]

theorem abortLoop_unrecorded {s : Status} {key : StepName} (h : recorded s key = none)
    (keys : List StepName) (abandoned : List (Branch × Dir)) :
    ∃ e : Exn, e.isKeyError = true ∧ abortLoop (key :: keys) abandoned s = raise e := by
  rw [abortLoop, getCommit]
  cases hcommit : s.commits.get? key with
  | none => exact ⟨_, rfl, rfl⟩
  | some commit =>
    cases hbranch : commit.branchName with
    | none =>
      exact ⟨.noField .branchName, rfl, by simp only [ret_bind, getField, hbranch, raise_bind]⟩
    | some branch =>
      cases hdir : commit.dir with
      | none =>
        exact ⟨.noField .dir, rfl, by simp only [ret_bind, getField, hbranch, hdir, raise_bind]⟩
      | some dir => simp [recorded, hcommit, hbranch, hdir] at h

/-- With an entry that has no branch, `abort` does not succeed, whatever happens. -/
theorem wp_abortLoop_unrecorded {s : Status} {key : StepName} (h : recorded s key = none) :
    ∀ (keys : List StepName) (abandoned : List (Branch × Dir)) (w : World X), key ∈ keys →
      wp (callSem ext) (fun _ => True) (fun r _ => ∀ s', r ≠ .ok (true, s'))
        (abortLoop keys abandoned s) w := by
  intro keys
  induction keys with
  | nil => exact fun _ _ hkey => (List.not_mem_nil hkey).elim
  | cons k keys ih =>
    intro abandoned w hkey
    cases hrec : recorded s k with
    | none =>
      obtain ⟨e, -, heq⟩ := abortLoop_unrecorded hrec keys abandoned
      rw [heq]
      exact fun s' h => by cases h
    | some p =>
      have hkeys : key ∈ keys := by
        rcases List.mem_cons.mp hkey with rfl | hkey
        · rw [h] at hrec
          cases hrec
        · exact hkey
      rw [abortLoop_recorded hrec]
      by_cases hp : p ∈ abandoned
      · rw [if_pos hp]
        exact ih abandoned w hkeys
      · rw [if_neg hp]
        rintro (_ | _ | _) w₁ -
        · exact ⟨trivial, fun s' h => by cases h⟩
        · exact ⟨trivial, fun s' h => by cases h⟩
        · exact ⟨trivial, ih _ _ hkeys⟩

/-! ## A run with `--abort` -/

/-- The status with the step overridden. -/
def Status.aborting (s : Status) : Status := { s with step := some .abort }

theorem moveToNextStep_last {s : Status} (hnodup : s.board.stepList.Nodup)
    (hlast : s.board.stepList.getLast? = some .cleanUp) (hs : s.step = some .cleanUp) :
    moveToNextStep s = some { s with step := none } := by
  obtain ⟨pre, hpre⟩ := List.getLast?_eq_some_iff.mp hlast
  have hmem : StepName.cleanUp ∈ s.board.stepList := by
    rw [hpre]
    simp
  have hnot : StepName.cleanUp ∉ pre := by
    rw [hpre] at hnodup
    intro h
    exact (List.disjoint_of_nodup_append hnodup) h List.mem_cons_self
  have hidx : s.board.stepList.idxOf .cleanUp = s.board.stepList.length - 1 := by
    rw [hpre, List.idxOf_append_of_notMem hnot]
    simp
  have habort : ¬StepName.cleanUp = .abort := by decide
  unfold moveToNextStep
  simp only [hs, habort, if_false, hmem, not_true, hidx, if_true]

/-- After `abort` comes `clean_up`, and after that the end. -/
theorem wp_main_abort {s : Status} {w : World X} (hfile : w.file = some s)
    (hnodup : s.board.stepList.Nodup)
    (hlast : s.board.stepList.getLast? = some .cleanUp) {Q : Except Exn Bool → World X → Prop}
    (habort : wp (callSem ext) (fun _ => True) (fun a w' => match a with
      | .error e => Q (.error e) w'
      | .ok (false, _) => Q (.ok false) w'
      | .ok (true, s') => s' = s.aborting ∧
        (∀ x, ext .remove w'.outside none x → ∀ file, Q (.error .outside) ⟨file, x⟩) ∧
        ∀ x, ext .remove w'.outside (some ()) x → Q (.ok true) ⟨none, x⟩)
      (abortLoop s.aborting.commits.keys [] s.aborting) { w with file := some s.aborting.dumped }) :
    wp (opSem ext) (fun _ => True) Q (main .abortFlag) w := by
  apply wp_of_noted
  refine wp_main_old rfl trivial (fun hnone => ?_) fun s₁ hs₁ => ?_
  · have hnone : w.file = none := hnone
    rw [hfile] at hnone
    cases hnone
  · have hs₁ : w.file = some s₁ := hs₁
    rw [hfile] at hs₁
    cases hs₁
    refine @wp_turn X ext _ _ s.aborting .abort rfl (w, []) _ trivial fun a w' hexec =>
      ⟨trivial, ?_⟩
    have hends := wp_exec habort hexec
    match a, hends with
    | .error e, hends => exact hends
    | .ok (false, _), hends => exact hends
    | .ok (true, _), ⟨rfl, hnone, hremoved⟩ =>
      apply @AfterStep.of_move _ _ s.aborting { s with step := some .cleanUp } rfl
      refine @wp_turn X ext _ _ { s with step := some .cleanUp } .cleanUp rfl _ _ trivial
        fun a w'' hexec => ⟨trivial, ?_⟩
      rcases exec_cleanUp rfl hexec with ⟨rfl, hfile', hremove⟩ | ⟨rfl, hfile', hremove⟩
      · apply AfterStep.of_move
          (@moveToNextStep_last { s with step := some .cleanUp } hnodup hlast rfl)
        obtain ⟨pre, hpre⟩ := List.getLast?_eq_some_iff.mp hlast
        have hlen : s.board.stepList.length = pre.length + 1 := by rw [hpre]; simp
        have hw'' : w'' = ⟨none, w''.outside⟩ := by rw [← hfile']
        rw [hlen]
        show Q (.ok true) w''
        rw [hw'']
        exact hremoved _ hremove
      · exact hnone _ hremove w''.file

/-! ## When every branch can be abandoned -/

/-- The processes that were run. -/
def noteProcess : ∀ ⦃β : Type⦄, Call β → β → List Process
  | _, .runProcess p, _ => [p]
  | _, _, _ => []

/-- Every `repo abandon` succeeds, and the file can be removed. -/
structure AbandonSucceeds (ext : Sem Call X) : Prop where
  abandon : ∀ p x a x', ext (.runProcess (abandon p)) x a x' → a = some true
  remove : ∀ x a x', ext .remove x a x' → a = some ()

/-- `Ready ps`: the branches `ps`, which are still to be abandoned, can be. -/
theorem wp_abortLoop_ready {Ready : List (Branch × Dir) → X → Prop}
    (hready : ∀ p ps x a x', Ready (p :: ps) x → ext (.runProcess (abandon p)) x a x' →
      a = some true ∧ Ready ps x')
    {s : Status} :
    ∀ (keys : List StepName) (abandoned : List (Branch × Dir)) (w : World (X × List Process)),
      (∀ key ∈ keys, recorded s key ≠ none) → Ready (toAbandon s keys abandoned) w.outside.1 →
      wp (callSem (ext.noting noteProcess)) (fun _ => True) (fun r w' => r = .ok (true, s) ∧
        w'.outside.2 = w.outside.2 ++ (toAbandon s keys abandoned).map abandon ∧
          Ready [] w'.outside.1)
        (abortLoop keys abandoned s) w := by
  intro keys
  induction keys with
  | nil => exact fun abandoned w _ hw => ⟨rfl, (List.append_nil _).symm, hw⟩
  | cons key keys ih =>
    intro abandoned w hrec hw
    have ih := fun abandoned w => ih abandoned w fun k hk => hrec k (List.mem_cons_of_mem key hk)
    obtain ⟨p, hp⟩ := Option.ne_none_iff_exists'.mp (hrec key List.mem_cons_self)
    rw [abortLoop_recorded hp]
    rw [toAbandon, hp] at hw ⊢
    by_cases hmem : p ∈ abandoned
    · simp only [hmem, if_true] at hw ⊢
      exact ih abandoned w hw
    · simp only [hmem, if_false] at hw ⊢
      rintro a w₁ ⟨⟨hrun, hlog⟩, -⟩
      obtain ⟨rfl, hw₁⟩ := hready _ _ _ _ _ hw hrun
      refine ⟨trivial, wp_mono ?_ (ih (p :: abandoned) w₁ hw₁)⟩
      rintro r w' ⟨rfl, hlog', hw'⟩
      refine ⟨rfl, ?_, hw'⟩
      rw [hlog', hlog, List.append_assoc]
      rfl

/-- What a run with `--abort` is for. -/
structure Abandoned (s : Status) (r : Except Exn Bool) (w : World (X × List Process)) : Prop where
  result : r = .ok true
  file : w.file = none
  once : w.outside.2.Nodup
  processes : ∀ q, q ∈ w.outside.2 ↔ ∃ key p, recorded s key = some p ∧ q = abandon p

/-- From the status `s`, every run with `--abort` does what it is for. -/
def AbortWorks (s : Status) : Prop :=
  ∀ (X : Type) (ext : Sem Call X) (x : X), AbandonSucceeds ext → ∀ r w,
    Exec (opSem (ext.noting noteProcess)) (main .abortFlag) ⟨some s, x, []⟩ r w → Abandoned s r w

theorem mem_keys_of_recorded {s : Status} {key : StepName} {p : Branch × Dir}
    (h : recorded s key = some p) :
    key ∈ s.commits.keys := by
  obtain ⟨commit, hcommit, -⟩ := Option.bind_eq_some_iff.mp h
  exact Dict.mem_keys.mpr ⟨commit, hcommit⟩

theorem mem_branches {s : Status} {p : Branch × Dir} :
    p ∈ branches s ↔ ∃ key, recorded s key = some p := by
  unfold branches
  rw [mem_toAbandon]
  constructor
  · rintro ⟨-, key, -, h⟩
    exact ⟨key, h⟩
  · rintro ⟨key, h⟩
    exact ⟨List.not_mem_nil, key, mem_keys_of_recorded h, h⟩

/-- The entry of `find`, and no other, has no branch. -/
theorem Shaped.recorded_iff {s : Status} (h : Shaped s) {key : StepName}
    (hkey : key ∈ s.commits.keys) :
    recorded s key = none ↔ key = .find := by
  obtain ⟨commit, hcommit⟩ := Dict.mem_keys.mp hkey
  by_cases hfind : key = .find
  · subst hfind
    have hup := h.upstream commit hcommit
    simp [recorded, hcommit, hup.branchName]
  · have hmade := h.made key commit hcommit hfind
    obtain ⟨branch, hbranch⟩ := Option.ne_none_iff_exists'.mp hmade.branchName
    obtain ⟨dir, hdir⟩ := Option.ne_none_iff_exists'.mp hmade.dir
    simp [recorded, hcommit, hbranch, hdir, hfind]

theorem Shaped.recorded_of_no_find {s : Status} (h : Shaped s)
    (hfind : StepName.find ∉ s.commits.keys) :
    ∀ key ∈ s.commits.keys, recorded s key ≠ none := by
  intro key hkey hrec
  exact hfind ((h.recorded_iff hkey).mp hrec ▸ hkey)

/-- A reachable status has what its board has. -/
theorem Reaches.stepList {w : World X} (h : Reaches ext Flags.supported w) {s : Status}
    (hfile : w.file = some s) :
    s.board.stepList.Nodup ∧ s.board.stepList.getLast? = some .cleanUp := by
  obtain ⟨⟨⟨b, hb⟩, hboard⟩, -⟩ := h.shaped hfile
  rw [hboard.stepList]
  exact ⟨boards_nodup hb, boards_last hb⟩

/-- With the entry of `find` no run with `--abort` returns True. -/
theorem wp_main_abort_find {s : Status} (hshaped : Shaped s) (hnodup : s.board.stepList.Nodup)
    (hlast : s.board.stepList.getLast? = some .cleanUp) (hfind : StepName.find ∈ s.commits.keys)
    {w : World X} (hfile : w.file = some s) :
    wp (opSem ext) (fun _ => True) (fun r _ => r ≠ .ok true) (main .abortFlag) w := by
  have hrec : recorded s.aborting .find = none := (hshaped.recorded_iff hfind).mpr rfl
  refine wp_main_abort hfile hnodup hlast (wp_mono ?_ (wp_abortLoop_unrecorded hrec _ [] _ hfind))
  intro a w' ha
  match a, ha with
  | .error e, _ => exact fun h => by cases h
  | .ok (false, _), _ => exact fun h => by cases h
  | .ok (true, s'), ha => exact absurd rfl (ha s')

theorem wp_main_abort_ready {Ready : List (Branch × Dir) → X → Prop}
    (hready : ∀ p ps x a x', Ready (p :: ps) x → ext (.runProcess (abandon p)) x a x' →
      a = some true ∧ Ready ps x')
    (hremove : ∀ x a x', Ready [] x → ext .remove x a x' → a = some () ∧ Ready [] x') {s : Status}
    (hnodup : s.board.stepList.Nodup) (hlast : s.board.stepList.getLast? = some .cleanUp)
    (hrec : ∀ key ∈ s.commits.keys, recorded s key ≠ none) {x : X} (hx : Ready (branches s) x) :
    wp (opSem (ext.noting noteProcess)) (fun _ => True)
      (fun r w => Abandoned s r w ∧ Ready [] w.outside.1)
      (main .abortFlag) ⟨some s, x, []⟩ := by
  have hsame : toAbandon s.aborting s.commits.keys [] = branches s :=
    @toAbandon_congr s.aborting s (fun _ => rfl) _ _
  have hloop := @wp_abortLoop_ready X ext Ready hready s.aborting s.commits.keys []
    ⟨some s.aborting.dumped, x, []⟩ hrec
    (by rw [hsame]; exact hx)
  refine wp_main_abort rfl hnodup hlast (wp_mono ?_ hloop)
  rintro a w' ⟨rfl, hlog, hw'⟩
  refine ⟨rfl, ?_, ?_⟩
  · rintro y ⟨hrm, -⟩
    cases (hremove _ _ _ hw' hrm).1
  · rintro y ⟨hrm, hlog'⟩
    have hlog' : y.2 = (branches s).map abandon := by
      rw [hlog', hlog, hsame]
      exact (List.append_nil _).trans (List.nil_append _)
    refine ⟨⟨rfl, rfl, ?_, ?_⟩, (hremove _ _ _ hw' hrm).2⟩
    · show y.2.Nodup
      rw [hlog']
      exact (nodup_toAbandon _ _).map fun _ _ h => abandon_injective h
    · intro q
      show q ∈ y.2 ↔ _
      rw [hlog', List.mem_map]
      constructor
      · rintro ⟨p, hp, rfl⟩
        obtain ⟨key, hkey⟩ := mem_branches.mp hp
        exact ⟨key, p, hkey, rfl⟩
      · rintro ⟨key, p, hkey, rfl⟩
        exact ⟨p, mem_branches.mpr ⟨key, hkey⟩, rfl⟩

/-- Everything that can be done is done. -/
def obliging : ∀ ⦃β : Type⦄, Call β → Unit → Option (β × Unit)
  | _, .save _, _ => some ((), ())
  | _, .remove, _ => some (some (), ())
  | _, .runProcess _, _ => some (some true, ())
  | _, .emergeWithWorkon _, _ | _, .isfile _, _ | _, .mentions _ _, _ => some (none, ())
  | _, .findGitTopLevel _, _ | _, .getCurrentBranch _, _ | _, .getChangeId _, _ => some (none, ())
  | _, .query _ _, _ | _, .queryOriginal _, _ | _, .gitLogGrep _ _, _ | _, .gitLogMessage _ _, _ =>
    some (none, ())

theorem obliging_total ⦃β : Type⦄ (c : Call β) (x : Unit) :
    ∃ a x', obliging c x = some (a, x') := by
  cases c <;> exact ⟨_, _, rfl⟩

theorem abandonSucceeds_obliging : AbandonSucceeds (semOf obliging) where
  abandon := by
    intro p x a x' h
    cases h
    rfl
  remove := by
    intro x a x' h
    cases h
    rfl

theorem not_abortWorks {s : Status} (hshaped : Shaped s) (hnodup : s.board.stepList.Nodup)
    (hlast : s.board.stepList.getLast? = some .cleanUp) (hfind : StepName.find ∈ s.commits.keys) :
    ¬AbortWorks s := by
  intro hworks
  have htotal : ∀ ⦃β : Type⦄ (c : Call β) (x : Unit × List Process),
      ∃ a x', noted obliging noteProcess c x = some (a, x') :=
    noted_total obliging_total
  obtain ⟨r, w', heval⟩ := eval_total (opEval_total htotal) (main .abortFlag) ⟨some s, (), []⟩
  have hexec : Exec (opSem ((semOf obliging).noting noteProcess)) (main .abortFlag)
      ⟨some s, (), []⟩ r w' :=
    exec_of_eval (opSem_of_opEval (noting_of_noted fun _ _ _ _ _ h => h)) heval
  have hresult := (hworks Unit (semOf obliging) () abandonSucceeds_obliging r w' hexec).result
  exact wp_exec (wp_main_abort_find hshaped hnodup hlast hfind rfl) hexec hresult

/-- `--abort` works from a reachable status exactly if `find` has not recorded the upstream CL. -/
theorem abort_abandons {w : World X} (h : Reaches ext Flags.supported w) {s : Status}
    (hfile : w.file = some s) :
    AbortWorks s ↔ StepName.find ∉ s.commits.keys := by
  obtain ⟨-, hshaped⟩ := h.shaped hfile
  obtain ⟨hnodup, hlast⟩ := h.stepList hfile
  constructor
  · exact fun hworks hfind => not_abortWorks hshaped hnodup hlast hfind hworks
  · intro hfind Y ext y hext r w' hexec
    have hwp := @wp_main_abort_ready Y ext (fun _ _ => True)
      (fun p _ x a x' _ h => ⟨hext.abandon p x a x' h, trivial⟩)
      (fun x a x' _ h => ⟨hext.remove x a x' h, trivial⟩) s hnodup hlast
        (hshaped.recorded_of_no_find hfind) y trivial
    exact (wp_exec hwp hexec).1

end

/-! ## A run on puff -/

/-- Every step up to `find` succeeds, which finds the upstream CL if there is one.
The first two commits are in one directory, the others in another. -/
def standIn (upstreamed : Bool) : ∀ ⦃β : Type⦄, Call β → Nat → Option (β × Nat)
  | _, .save _, n => some ((), n)
  | _, .remove, n => some (some (), n)
  | _, .runProcess _, n | _, .emergeWithWorkon _, n | _, .isfile _, n | _, .mentions _ _, n =>
    some (some true, n)
  | _, .findGitTopLevel _, n => some (some (if n < 2 then "first" else "second"), n + 1)
  | _, .getCurrentBranch _, n => some (some (some "branch"), n)
  | _, .getChangeId _, n => some (some (some "id"), n)
  | _, .query _ _, n => some (some (some 1), n)
  | _, .queryOriginal _, n => some (some (if upstreamed then [(.chromium, 2)] else []), n)
  | _, .gitLogGrep _ _, n => some (some [], n)
  | _, .gitLogMessage _ _, n => some (none, n)

/-- The world after a run on puff that stops at `find`, or after it. -/
def puffRun (upstreamed : Bool) : World Nat :=
  (main (.newVariant puff "variant")).evalState (opEval (standIn upstreamed)) ⟨none, 0⟩

theorem reaches_puffRun (upstreamed : Bool) :
    Reaches (semOf (standIn upstreamed)) Flags.supported (puffRun upstreamed) := by
  have hpuff : Flags.supported (.newVariant puff "variant") := by simp [Flags.supported, boards]
  obtain ⟨p, hp⟩ := steps_evalState (opSem_of_opEval fun _ _ _ _ _ h => h)
    (main (.newVariant puff "variant")) ⟨none, 0⟩
  exact .run (.start 0) hpuff hp

theorem puffRun_find : (puffRun true).file.any fun s => StepName.find ∈ s.commits.keys := rfl

theorem puffRun_no_find : (puffRun false).file.any fun s => StepName.find ∉ s.commits.keys := rfl

theorem abort_abandons_puff : ∃ s, (puffRun false).file = some s ∧ AbortWorks s := by
  obtain ⟨s, hs, hfind⟩ := (Option.any_eq_true _ _).mp puffRun_no_find
  exact ⟨s, hs, (abort_abandons (reaches_puffRun false) hs).mpr (of_decide_eq_true hfind)⟩

/-- After `find` has succeeded, `--abort` raises at the entry that it recorded. -/
theorem not_abort_abandons : ¬∀ (X : Type) (ext : Sem Call X) (w : World X) (s : Status),
    Reaches ext Flags.supported w → w.file = some s → AbortWorks s := by
  intro h
  obtain ⟨s, hs, hfind⟩ := (Option.any_eq_true _ _).mp puffRun_find
  have hreaches := reaches_puffRun true
  obtain ⟨-, hshaped⟩ := hreaches.shaped hs
  obtain ⟨hnodup, hlast⟩ := hreaches.stepList hs
  exact not_abortWorks hshaped hnodup hlast (of_decide_eq_true hfind) (h _ _ _ s hreaches hs)

end Variant
