import DevUtil.Findmissing.Functions

/-!
# The Change-Id that `get_change_id` picks

The loop goes through the Change-Ids that are listed and asks Gerrit for each; it stops at
the first one that is there and has not been abandoned.

    what is kept is live, or abandoned and nothing live was seen,
      or nothing was found                                        (Candidate.pick)
    the result for any rows and any Gerrit                        (get_change_id_chooses)
-/

namespace Findmissing

open Lib Prog

abbrev ChangeIdRow := Option ChangeId × Option Branch × Option ChangeId × Option Branch

/-! ## What is listed -/

/-- `if change_id and branch` -/
def listedIn : Option ChangeId → Option Branch → List (ChangeId × Branch)
  | some c, some b => if c ≠ "" ∧ b ≠ "" then [(c, b)] else []
  | _, _ => []

/-- The Change-Ids with their branches, in the order of the rows. -/
def listed (rows : List ChangeIdRow) : List (ChangeId × Branch) :=
  rows.flatMap fun row => listedIn row.1 row.2.1 ++ listedIn row.2.2.1 row.2.2.2

theorem eq_of_mem_listedIn {c : Option ChangeId} {b : Option Branch} {p : ChangeId × Branch}
    (h : p ∈ listedIn c b) :
    c = some p.1 ∧ p.1 ≠ "" ∧ listedIn c b = [p] := by
  unfold listedIn at h ⊢
  split at h
  · next c b =>
    split at h
    · next hne =>
      obtain rfl := List.mem_singleton.mp h
      exact ⟨rfl, hne.1, if_pos hne⟩
    · cases h
  · cases h

/-! ## A Gerrit -/

/-- A status for a Change-Id on a branch, or not found. -/
abbrev Found := ChangeId → Branch → Option GerritStatus

def Found.answer (g : Found) (c : ChangeId) (b : Branch) : Except Exn GerritStatus :=
  match g c b with
  | some status => .ok status
  | none => .error .httpError

/-- The query returns the rows, and Gerrit answers. -/
def answering (g : Found) (rows : List ChangeIdRow) : ∀ ⦃β : Type⦄, Op β → DB → Option (β × DB)
  | _, .selectChangeIds _, db => some (.ok rows, db)
  | _, .getStatus c b, db => some (g.answer c b, db)
  | _, _, _ => none

/-- The answer for what a row lists. -/
def Found.status (g : Found) (c : Option ChangeId) (b : Option Branch) : Option GerritStatus :=
  (listedIn c b).head?.bind fun p => g p.1 p.2

section

variable {g : Found} {rows : List ChangeIdRow} {db : DB}

theorem eval_statusInGerrit (c : ChangeId) (b : Branch) :
    (statusInGerrit c b).eval (answering g rows) db = some (.ok (g c b), db) := by
  have hanswer : answering g rows (.getStatus c b) db = some (g.answer c b, db) := rfl
  unfold statusInGerrit call perform
  rw [op_bind, op_bind, Prog.tryCatch, eval, hanswer]
  unfold Found.answer
  cases g c b <;> rfl

theorem eval_statusIfListed (c : Option ChangeId) (b : Option Branch) :
    (statusIfListed c b).eval (answering g rows) db = some (.ok (g.status c b), db) := by
  cases c with
  | none => rfl
  | some c =>
    cases b with
    | none => rfl
    | some b =>
      unfold statusIfListed Found.status listedIn
      by_cases hne : c ≠ "" ∧ b ≠ ""
      · simp only [if_pos hne]
        exact eval_statusInGerrit c b
      · simp only [if_neg hne]
        rfl

/-! ## The loop -/

/-- `change_id` and `status` once these have been asked for. -/
inductive Candidate (g : Found) (seen : List (ChangeId × Branch)) :
    Option ChangeId → Option GerritStatus → Prop
  | nothing : (∀ p ∈ seen, g p.1 p.2 = none) → Candidate g seen none none
  | abandoned {p : ChangeId × Branch} : p ∈ seen → p.1 ≠ "" → g p.1 p.2 = some .ABANDONED →
      (∀ q ∈ seen, ∀ status, g q.1 q.2 = some status → status = .ABANDONED) →
        Candidate g seen (some p.1) (some .ABANDONED)
  | live {p : ChangeId × Branch} {status : GerritStatus} : p ∈ seen → g p.1 p.2 = some status →
      status ≠ .ABANDONED →
      Candidate g seen (some p.1) (some status)

variable {seen todo : List (ChangeId × Branch)} {changeId c : Option ChangeId}
  {status : Option GerritStatus}
  {b : Option Branch}

/-- Nothing live has been seen. -/
theorem Candidate.of_not_live (h : Candidate g seen changeId status)
    (hlive : ¬(status.isSome ∧ status ≠ some .ABANDONED)) :
    ∀ q ∈ seen, ∀ status, g q.1 q.2 = some status → status = .ABANDONED := by
  cases h with
  | nothing hnone =>
    intro q hq status hstatus
    rw [hnone q hq] at hstatus
    cases hstatus
  | abandoned _ _ _ hall => exact hall
  | live _ _ hne => exact absurd ⟨rfl, fun he => hne (Option.some.inj he)⟩ hlive

/-- What a row lists comes next. -/
theorem Candidate.pick (h : Candidate g seen changeId status)
    (hlive : ¬(status.isSome ∧ status ≠ some .ABANDONED)) :
    Candidate g (seen ++ listedIn c b) (pickChangeId changeId status c (g.status c b)).1
      (pickChangeId changeId status c (g.status c b)).2 := by
  have hseen := h.of_not_live hlive
  cases hlist : listedIn c b with
  | nil =>
    have hstatus : g.status c b = none := by rw [Found.status, hlist]; rfl
    rw [hstatus, List.append_nil]
    exact h
  | cons p others =>
    obtain ⟨rfl, hne, hsingle⟩ :=
      eq_of_mem_listedIn (p := p) (by rw [hlist]; exact List.mem_cons_self)
    rw [← hlist, hsingle]
    have hstatus : g.status (some p.1) b = g p.1 p.2 := by rw [Found.status, hsingle]; rfl
    have hin : p ∈ seen ++ [p] := List.mem_append_right _ (List.mem_singleton.mpr rfl)
    rw [hstatus]
    cases hanswer : g p.1 p.2 with
    | none =>
      have hsame : ∀ q ∈ seen ++ [p], q ∈ seen ∨ g q.1 q.2 = none := by
        intro q hq
        rcases List.mem_append.mp hq with hq | hq
        · exact .inl hq
        · rw [List.mem_singleton.mp hq]
          exact .inr hanswer
      cases h with
      | nothing hnone => exact .nothing fun q hq => (hsame q hq).elim (hnone q) id
      | abandoned hp hpne hab _ =>
        refine .abandoned (List.mem_append_left _ hp) hpne hab fun q hq status hstatus => ?_
        rcases hsame q hq with hq | hnone
        · exact hseen q hq status hstatus
        · rw [hnone] at hstatus
          cases hstatus
      | live _ _ hnot => exact absurd ⟨rfl, fun he => hnot (Option.some.inj he)⟩ hlive
    | some found =>
      by_cases habandoned : found = .ABANDONED
      · subst habandoned
        have hall : ∀ q ∈ seen ++ [p], ∀ status, g q.1 q.2 = some status → status = .ABANDONED := by
          intro q hq status hstatus
          rcases List.mem_append.mp hq with hq | hq
          · exact hseen q hq status hstatus
          · rw [List.mem_singleton.mp hq, hanswer] at hstatus
            exact (Option.some.inj hstatus).symm
        cases h with
        | nothing _ => exact .abandoned hin hne hanswer hall
        | @abandoned p' hp hpne hab _ =>
          -- the one that is kept is not replaced
          have hkept : pickChangeId (some p'.1) (some .ABANDONED) (some p.1) (some .ABANDONED) =
              (some p'.1, some .ABANDONED) := by
            have htruthy : truthy (some p'.1) = true := by simpa [truthy] using hpne
            exact if_neg (by simp [htruthy])
          rw [hkept]
          exact .abandoned (List.mem_append_left _ hp) hpne hab hall
        | live _ _ hnot => exact absurd ⟨rfl, fun he => hnot (Option.some.inj he)⟩ hlive
      · have hpicked : pickChangeId changeId status (some p.1) (some found) =
            (some p.1, some found) := by
          exact if_pos (by simp [habandoned])
        rw [hpicked]
        exact .live hin hanswer habandoned

/-- A Change-Id is kept with its status. -/
theorem Candidate.isSome (h : Candidate g seen changeId status) (hsome : truthy changeId = true) :
    status.isSome := by
  cases h with
  | nothing _ => cases hsome
  | abandoned => rfl
  | live => rfl

/-- The condition of the first break asks for an answer, not for a status. -/
theorem Candidate.break_iff (h : Candidate g seen changeId status)
    (hlive : ¬(status.isSome ∧ status ≠ some .ABANDONED)) :
    ((g.status c b).isSome ∧ (pickChangeId changeId status c (g.status c b)).2 ≠ some .ABANDONED) ↔
      (pickChangeId changeId status c (g.status c b)).2.isSome ∧
        (pickChangeId changeId status c (g.status c b)).2 ≠ some .ABANDONED := by
  cases g.status c b with
  | none => exact iff_of_false (fun hno => by cases hno.1) hlive
  | some found =>
    have hsome : (pickChangeId changeId status c (some found)).2.isSome := by
      unfold pickChangeId
      by_cases hreplace : (!truthy changeId || decide (found ≠ .ABANDONED)) = true
      · simp only [if_pos hreplace]
        rfl
      · have htruthy : truthy changeId = true ∧ found = .ABANDONED := by simpa using hreplace
        simp only [if_neg hreplace]
        exact h.isSome htruthy.1
    exact and_congr_left fun _ => iff_of_true rfl hsome

/-- What is returned of the Change-Ids that are listed. -/
structure Chosen (g : Found) (listed : List (ChangeId × Branch)) (result : Option ChangeId) :
    Prop where
  live : (∃ p ∈ listed, ∃ status, g p.1 p.2 = some status ∧ status ≠ .ABANDONED) →
    ∃ p ∈ listed, (∃ status, g p.1 p.2 = some status ∧ status ≠ .ABANDONED) ∧ result = some p.1
  abandoned : (¬∃ p ∈ listed, ∃ status, g p.1 p.2 = some status ∧ status ≠ .ABANDONED) →
    (∃ p ∈ listed, g p.1 p.2 = some .ABANDONED) →
      ∃ p ∈ listed, g p.1 p.2 = some .ABANDONED ∧ result = some p.1
  none : (∀ p ∈ listed, g p.1 p.2 = none) → result = none

/-- A live one decides, whatever comes after it. -/
theorem Candidate.chosen_of_live (h : Candidate g seen changeId status)
    (hlive : status.isSome ∧ status ≠ some .ABANDONED) (hsub : seen ⊆ todo) :
    Chosen g todo changeId := by
  cases h with
  | nothing _ => cases hlive.1
  | abandoned => exact absurd rfl hlive.2
  | @live p status hp hstatus hne =>
    refine ⟨fun _ => ⟨p, hsub hp, ⟨status, hstatus, hne⟩, rfl⟩, fun hnone _ => ?_, fun hnone => ?_⟩
    · exact absurd ⟨p, hsub hp, status, hstatus, hne⟩ hnone
    · rw [hnone p (hsub hp)] at hstatus
      cases hstatus

/-- At the end of the rows. -/
theorem Candidate.chosen (h : Candidate g seen changeId status) : Chosen g seen changeId := by
  by_cases hlive : status.isSome ∧ status ≠ some .ABANDONED
  · exact h.chosen_of_live hlive (List.Subset.refl _)
  · have hall := h.of_not_live hlive
    have hdead : ¬∃ p ∈ seen, ∃ status, g p.1 p.2 = some status ∧ status ≠ .ABANDONED := by
      rintro ⟨p, hp, status, hstatus, hne⟩
      exact hne (hall p hp status hstatus)
    refine ⟨fun hex => absurd hex hdead, fun _ hex => ?_, fun hnone => ?_⟩
    · cases h with
      | nothing hnone =>
        obtain ⟨p, hp, hab⟩ := hex
        rw [hnone p hp] at hab
        cases hab
      | @abandoned p hp _ hab _ => exact ⟨p, hp, hab, rfl⟩
      | live _ _ hne => exact absurd ⟨rfl, fun he => hne (Option.some.inj he)⟩ hlive
    · cases h with
      | nothing _ => rfl
      | @abandoned p hp _ hab _ =>
        rw [hnone p hp] at hab
        cases hab
      | live _ _ hne => exact absurd ⟨rfl, fun he => hne (Option.some.inj he)⟩ hlive

theorem eval_getChangeIdLoop (g : Found) (rows : List ChangeIdRow) (db : DB) :
    ∀ (todo : List ChangeIdRow) (seen : List (ChangeId × Branch)) (changeId : Option ChangeId)
    (status : Option GerritStatus), Candidate g seen changeId status →
      ¬(status.isSome ∧ status ≠ some .ABANDONED) →
    ∃ result, (getChangeIdLoop changeId status todo).eval (answering g rows) db =
      some (.ok result, db) ∧
      Chosen g (seen ++ listed todo) result := by
  intro todo
  induction todo with
  | nil =>
    intro seen changeId status h _
    refine ⟨changeId, rfl, ?_⟩
    rw [listed, List.flatMap_nil, List.append_nil]
    exact h.chosen
  | cons row todo ih =>
    obtain ⟨chromeChangeId, chromeBranch, stableChangeId, stableBranch⟩ := row
    intro seen changeId status h hlive
    have hlisted : seen ++
      listed ((chromeChangeId, chromeBranch, stableChangeId, stableBranch) :: todo) =
        (seen ++ listedIn chromeChangeId chromeBranch) ++ listedIn stableChangeId stableBranch ++
            listed todo := by
      rw [listed, List.flatMap_cons, ← List.append_assoc, ← List.append_assoc]
      rfl
    have hchrome := h.pick (c := chromeChangeId) (b := chromeBranch) hlive
    have hbreak := h.break_iff (c := chromeChangeId) (b := chromeBranch) hlive
    rw [getChangeIdLoop, eval_bind (eval_statusIfListed chromeChangeId chromeBranch), hlisted]
    generalize g.status chromeChangeId chromeBranch = chrome at hchrome hbreak ⊢
    generalize pickChangeId changeId status chromeChangeId chrome = kept at hchrome hbreak ⊢
    obtain ⟨changeId, status⟩ := kept
    by_cases hlive : status.isSome ∧ status ≠ some .ABANDONED
    · -- the break after the entry of chrome_fixes
      refine ⟨changeId, ?_, hchrome.chosen_of_live hlive fun p hp => ?_⟩
      · simp only [if_pos (hbreak.mpr hlive)]
        rfl
      · exact List.mem_append_left _ (List.mem_append_left _ hp)
    · have hstable := hchrome.pick (c := stableChangeId) (b := stableBranch) hlive
      simp only [if_neg fun h => hlive (hbreak.mp h)]
      rw [eval_bind (eval_statusIfListed stableChangeId stableBranch)]
      generalize g.status stableChangeId stableBranch = stable at hstable ⊢
      generalize pickChangeId changeId status stableChangeId stable = kept at hstable ⊢
      obtain ⟨changeId, status⟩ := kept
      by_cases hlive : status.isSome ∧ status ≠ some .ABANDONED
      · refine ⟨changeId, ?_, hstable.chosen_of_live hlive fun p hp => List.mem_append_left _ hp⟩
        simp only [if_pos hlive]
        rfl
      · simp only [if_neg hlive]
        exact ih _ changeId status hstable hlive

/-- For every list of rows and every Gerrit: a listed Change-Id that is not abandoned, else an
abandoned one, else none. -/
theorem get_change_id_chooses (g : Found) (rows : List ChangeIdRow) (sha : Sha) (db : DB) :
    ∃ result, (getChangeId sha).eval (answering g rows) db = some (.ok result, db) ∧
      ((∃ p ∈ listed rows, ∃ status, g p.1 p.2 = some status ∧ status ≠ .ABANDONED) →
        ∃ p ∈ listed rows, (∃ status, g p.1 p.2 = some status ∧ status ≠ .ABANDONED) ∧
          result = some p.1) ∧
      ((¬∃ p ∈ listed rows, ∃ status, g p.1 p.2 = some status ∧ status ≠ .ABANDONED) →
        (∃ p ∈ listed rows, g p.1 p.2 = some .ABANDONED) →
          ∃ p ∈ listed rows, g p.1 p.2 = some .ABANDONED ∧ result = some p.1) ∧
      ((∀ p ∈ listed rows, g p.1 p.2 = none) → result = none) := by
  have hnone : Candidate g [] none none := .nothing fun p hp => by cases hp
  obtain ⟨result, heval, hlive, habandoned, hno⟩ :=
    eval_getChangeIdLoop g rows db rows [] none none hnone (fun h => by cases h.1)
  exact ⟨result, heval, hlive, habandoned, hno⟩

end

end Findmissing
