import DevUtil.Findmissing.Commands

/-!
# Which fixes are taken for merged

`insert_by_patch_id` is to record a fix as MERGED when a commit with the fix's
patch id is on the branch (`Applied`).  Its join does not say that: `lu` is any
upstream commit, not the fix, and `lc` is a commit that carries the commit to be
fixed (`FixedCommitMatches`).  A clean backport of the broken commit is enough
for its fix to be recorded as MERGED (`fix_of_clean_backport_merged`).

    find_duplicate finds nothing →
      (MarksOnlyApplied db branch f ↔ (FixedCommitMatches db branch f → Applied db branch f))

What the function writes is said once, in `wp_insertByPatchId`: the rows
`byPatchId` under the fixer `f`, always in `chrome_fixes`.
-/

namespace Findmissing

open Lib Prog

/-! ## What the function is for, and what it tests -/

/-- The fixes table has a row of the branch for the pair. -/
def Recorded (db : DB) (t : FixesTable) (branch : Branch) (k f : Sha) : Prop :=
  ∃ r ∈ (db.fixes t).rows, r.branch = branch ∧ r.key = (k, f)

/-- A commit of the branch has the patch id of the upstream commit `f`. -/
def Applied (db : DB) (branch : Branch) (f : Sha) : Prop :=
  ∃ lu ∈ db.linuxUpstream.rows, lu.sha = f ∧
    ∃ lc ∈ db.linuxChrome.rows, lc.branch = branch ∧ lc.patchId = lu.patchId

/-- A commit of the branch that carries a commit fixed by `f`, and is not recorded with it,
has the patch id of some upstream commit. -/
def FixedCommitMatches (db : DB) (branch : Branch) (f : Sha) : Prop :=
  ∃ lc ∈ db.linuxChrome.rows, lc.branch = branch ∧
    (∃ lu ∈ db.linuxUpstream.rows, lu.patchId = lc.patchId) ∧
    (∃ uf ∈ db.upstreamFixes.rows, uf.fixedbyUpstreamSha = f ∧
      lc.upstreamSha = some uf.upstreamSha) ∧
    ¬ Recorded db .chromeFixes branch lc.sha f

/-- `insert_by_patch_id` answers True only for an applied fix, and changes nothing otherwise. -/
def MarksOnlyApplied (db : DB) (branch : Branch) (f : Sha) : Prop :=
  ∀ r db', Exec (Op.sem anyAnswer) (insertByPatchId branch f) db r db' →
    (r = .ok true ∧ Applied db branch f) ∨ (r ≠ .ok true ∧ db' = db)

/-! ## The join -/

theorem untracked_iff {db : DB} {t : FixesTable} {branch : Branch} {k f : Sha} :
    db.untracked t branch k f = true ↔ ¬ Recorded db t branch k f := by
  unfold DB.untracked Recorded
  simp only [List.all_eq_true, Bool.not_eq_true', decide_eq_false_iff_not, not_exists, not_and]

theorem mem_patchIdQuery {db : DB} {branch : Branch} {f k : Sha} :
    k ∈ db.patchIdQuery branch f ↔ ∃ lc ∈ db.linuxChrome.rows, lc.sha = k ∧ lc.branch = branch ∧
      (∃ lu ∈ db.linuxUpstream.rows, lu.patchId = lc.patchId) ∧
      (∃ uf ∈ db.upstreamFixes.rows, uf.fixedbyUpstreamSha = f ∧
        lc.upstreamSha = some uf.upstreamSha) ∧
      ¬ Recorded db .chromeFixes branch lc.sha f := by
  unfold DB.patchIdQuery
  simp only [List.mem_flatMap, List.mem_map, List.mem_filter, decide_eq_true_eq, Bool.and_eq_true,
    untracked_iff]
  constructor
  · rintro ⟨lc, hlc, lu, ⟨hlu, hp⟩, uf, ⟨huf, ⟨hu, hf, hb⟩, hno⟩, hk⟩
    subst hf
    exact ⟨lc, hlc, hk, hb, ⟨lu, hlu, hp.symm⟩, ⟨uf, huf, rfl, hu⟩, hno⟩
  · rintro ⟨lc, hlc, hk, hb, ⟨lu, hlu, hp⟩, ⟨uf, huf, hf, hu⟩, hno⟩
    subst hf
    exact ⟨lc, hlc, lu, ⟨hlu, hp.symm⟩, uf, ⟨huf, ⟨hu, rfl, hb⟩, hno⟩, hk⟩

theorem patchIdQuery_ne_nil {db : DB} {branch : Branch} {f : Sha} :
    db.patchIdQuery branch f ≠ [] ↔ FixedCommitMatches db branch f := by
  constructor
  · intro h
    obtain ⟨k, hk⟩ := List.exists_mem_of_ne_nil _ h
    obtain ⟨lc, hlc, -, hrest⟩ := mem_patchIdQuery.mp hk
    exact ⟨lc, hlc, hrest⟩
  · rintro ⟨lc, hlc, hrest⟩
    exact List.ne_nil_of_mem (mem_patchIdQuery.mpr ⟨lc, hlc, rfl, hrest⟩)

/-! ## What a run does besides reading -/

/-- The effects of a run that matter outside the database, and its failures. -/
inductive Note
  /-- a CL for the pair was made in Gerrit -/
  | created (k f : Sha)
  /-- a statement that writes, or the making of a CL, failed -/
  | failed
deriving DecidableEq

def note : ∀ ⦃β : Type⦄, Op β → β → List Note
  | _, .createChange k f _ _, .ok changeId => if truthy changeId then [.created k f] else [.failed]
  | _, .createChange .., .error _ => [.failed]
  | _, .insertFix .., .error _ => [.failed]
  | _, .commit, .error _ => [.failed]
  | _, _, _ => []

/-- The semantics with the notes of the run next to the database. -/
abbrev notedSem (ans : Answers) : Sem Op (DB × List Note) := (Op.sem ans).noting note

/-- One run with its notes. -/
def notedRun (w : World) : ∀ ⦃β : Type⦄, Op β → DB × List Note → Option (β × (DB × List Note)) :=
  fun _ o s => some ((o.run w s.1).1, (o.run w s.1).2, s.2 ++ note o (o.run w s.1).1)

theorem notedRun_sem (w : World) ⦃β : Type⦄ (o : Op β) (s : DB × List Note) (b : β)
    (s' : DB × List Note) (h : notedRun w o s = some (b, s')) : notedSem anyAnswer o s b s' := by
  cases h
  exact ⟨Op.run_sem w o s.1 trivial, rfl⟩

section
variable {ans : Answers} {α β : Type}

theorem notedSem_reads {o : Op β} (ho : Reads o) {s s' : DB × List Note} {b : β}
    (h : notedSem ans o s b s') : s' = s := by
  have hdb := sem_frozen (frozen_of_reads o ho) h.1
  have hn : note o b = [] := by
    cases o with
    | createChange => exact ho.elim
    | commit => exact ho.elim
    | insertFix => exact ho.elim
    | _ => rfl
  have hl := h.2
  rw [hn, List.append_nil] at hl
  exact Prod.ext hdb hl

/-- What comes first only reads. -/
theorem wp_reads_bind {Q : Except Exn β → DB × List Note → Prop} {p : M α} {f : α → M β}
    {s : DB × List Note} (hp : Only Reads p) (hf : ∀ a, wp (notedSem ans) (fun _ => True) Q (f a) s)
    (he : ∀ e, Q (.error e) s) : wp (notedSem ans) (fun _ => True) Q (p >>= f) s := by
  rw [wp_bind]
  refine wp_of_only_frozen (P := Reads) (fun _ _ ho _ _ _ hs => notedSem_reads ho hs) trivial
    (fun r => ?_) hp
  cases r with
  | ok a => exact hf a
  | error e => exact he e

/-- Reading the clock cannot fail. -/
theorem wp_time_bind {Q : Except Exn β → DB × List Note → Prop} {f : Time → M β}
    {s : DB × List Note} (hf : ∀ time, wp (notedSem ans) (fun _ => True) Q (f time) s) :
    wp (notedSem ans) (fun _ => True) Q (perform .getCurrentTime >>= f) s := by
  rw [wp_bind, wp_perform]
  intro time s' hs
  have ho : Reads .getCurrentTime := trivial
  obtain rfl := notedSem_reads ho hs
  exact ⟨trivial, hf time⟩

/-! ## One INSERT -/

theorem recorded_sem {o : Op β} {db db' : DB} {b : β} (h : Op.sem ans o db b db') {t : FixesTable}
    {branch : Branch} {k f : Sha} (hr : Recorded db t branch k f) : Recorded db' t branch k f := by
  obtain ⟨r, hr, hb, hk⟩ := hr
  obtain ⟨r', hr', hk', rfl | hc⟩ := sem_row_after h hr
  · exact ⟨r', hr', hb, hk⟩
  · refine ⟨r', hr', ?_, hk'.trans hk⟩
    cases hc <;> exact hb

/-- `db'` has the rows of `db`, and those of the pairs in `ks` with the fixer `f` in `t`. -/
def RecordedAlso (db : DB) (t : FixesTable) (branch : Branch) (f : Sha) (ks : List Sha) (db' : DB) :
    Prop :=
  ∀ t' b' k' f', Recorded db' t' b' k' f' ↔
    Recorded db t' b' k' f' ∨ t' = t ∧ b' = branch ∧ f' = f ∧ k' ∈ ks

theorem recordedAlso_nil {db : DB} {t : FixesTable} {branch : Branch} {f : Sha} :
    RecordedAlso db t branch f [] db := by
  intro t' b' k' f'
  simp

theorem recordedAlso_insert {db db' : DB} {t : FixesTable} {row : NewFix}
    (h : db.insertRow t row = .ok db') :
    RecordedAlso db t row.branch row.fixedbyUpstreamSha [row.kernelSha] db' := by
  obtain ⟨i, x, -, -, hx, rfl⟩ := insertRow_eq_ok.mp h
  intro t' b' k' f'
  unfold Recorded
  rw [DB.fixes_setFixes]
  split
  · next ht =>
    subst ht
    rw [(Table.insert_eq_some.mp hx).2]
    simp only [List.mem_append, List.mem_singleton, or_and_right, exists_or,
      exists_eq_left, true_and]
    refine or_congr Iff.rfl ?_
    simp only [NewFix.toRow, FixRow.key, Prod.mk.injEq]
    constructor
    · rintro ⟨rfl, rfl, rfl⟩
      exact ⟨rfl, rfl, rfl⟩
    · rintro ⟨rfl, rfl, rfl⟩
      exact ⟨rfl, rfl, rfl⟩
  · next ht => simp [ht]

/-- The outcome of the INSERTs: whatever fails is noted, and if nothing did, all is there. -/
def Wrote (db : DB) (l : List Note) (t : FixesTable) (branch : Branch) (f : Sha) (ks : List Sha)
    (s : DB × List Note) : Prop :=
  ∃ notes, s.2 = l ++ notes ∧ (∀ n ∈ notes, n = .failed) ∧
    (notes = [] → RecordedAlso db t branch f ks s.1)

theorem Wrote.trans {db : DB} {l : List Note} {t : FixesTable} {branch : Branch} {f : Sha}
    {ks ks' : List Sha} {s s' : DB × List Note} (h : Wrote db l t branch f ks s)
    (h' : Wrote s.1 s.2 t branch f ks' s') :
    Wrote db l t branch f (ks ++ ks') s' := by
  obtain ⟨n, hn, hf, hr⟩ := h
  obtain ⟨n', hn', hf', hr'⟩ := h'
  refine ⟨n ++ n', by rw [hn', hn, List.append_assoc], ?_, ?_⟩
  · intro x hx
    rcases List.mem_append.mp hx with hx | hx
    · exact hf x hx
    · exact hf' x hx
  · intro hnil
    obtain ⟨h₁, h₂⟩ := List.append_eq_nil_iff.mp hnil
    intro t' b' k' f'
    rw [hr' h₂ t' b' k' f', hr h₁ t' b' k' f', List.mem_append, or_assoc]
    refine or_congr Iff.rfl ?_
    constructor
    · rintro (⟨ht, hb, hf, hk⟩ | ⟨ht, hb, hf, hk⟩)
      · exact ⟨ht, hb, hf, .inl hk⟩
      · exact ⟨ht, hb, hf, .inr hk⟩
    · rintro ⟨ht, hb, hf, hk | hk⟩
      · exact .inl ⟨ht, hb, hf, hk⟩
      · exact .inr ⟨ht, hb, hf, hk⟩

/-- An INSERT by itself. -/
theorem wp_insertFix {Q : Except Exn Unit → DB × List Note → Prop} {t : FixesTable} {row : NewFix}
    {db : DB} {l : List Note}
    (hQ : ∀ s, Wrote db l t row.branch row.fixedbyUpstreamSha [row.kernelSha] s →
      Q (.ok ()) s ∧ ∀ e, Q (.error (.mysql e)) s) :
    wp (notedSem ans) (fun _ => True) Q (sql (.insertFix t row)) (db, l) := by
  rw [wp_sql]
  rintro b s ⟨hs, hl⟩
  refine ⟨trivial, ?_⟩
  cases b with
  | ok u =>
    obtain ⟨hdb, -⟩ | ⟨-, e, he⟩ := hs
    · exact (hQ s ⟨[], hl, fun _ h => (nomatch h), fun _ => recordedAlso_insert hdb⟩).1
    · cases he
  | error e =>
    exact (hQ s ⟨[.failed], hl, fun n hn => List.mem_singleton.mp hn, fun h => (nomatch h)⟩).2 e

/-- An INSERT whose error is caught. -/
theorem wp_ignoring_insertFix {Q : Except Exn Unit → DB × List Note → Prop} {t : FixesTable}
    {row : NewFix} {db : DB} {l : List Note}
    (hQ : ∀ s, Wrote db l t row.branch row.fixedbyUpstreamSha [row.kernelSha] s → Q (.ok ()) s) :
    wp (notedSem ans) (fun _ => True) Q (ignoringSqlErrors (sql (.insertFix t row))) (db, l) := by
  unfold ignoringSqlErrors
  rw [wp_tryCatch]
  exact wp_insertFix fun s hs => ⟨hQ s hs, fun e => hQ s hs⟩

/-- An INSERT and its commit, whose errors are caught. -/
theorem wp_ignoring_insertFix_commit {Q : Except Exn Unit → DB × List Note → Prop} {t : FixesTable}
    {row : NewFix} {db : DB} {l : List Note}
    (hQ : ∀ s, Wrote db l t row.branch row.fixedbyUpstreamSha [row.kernelSha] s → Q (.ok ()) s) :
    wp (notedSem ans) (fun _ => True) Q
      (ignoringSqlErrors (sql (.insertFix t row) >>= fun _ => sql .commit)) (db, l) := by
  unfold ignoringSqlErrors
  rw [wp_tryCatch, wp_bind]
  refine wp_insertFix fun s hs => ⟨?_, fun e => hQ s hs⟩
  dsimp only
  rw [wp_sql]
  rintro b s' ⟨hsem, hl⟩
  have hdb : s'.1 = s.1 := writes_self hsem
  refine ⟨trivial, ?_⟩
  cases b with
  | ok u =>
    rw [show note (.commit) (.ok u) = [] from rfl, List.append_nil] at hl
    rw [Prod.ext hdb hl]
    exact hQ s hs
  | error e =>
    refine hQ s' ?_
    obtain ⟨n, hn, hf, -⟩ := hs
    refine ⟨n ++ [.failed], by rw [hl, hn, List.append_assoc]; rfl, ?_, ?_⟩
    · intro x hx
      rcases List.mem_append.mp hx with hx | hx
      · exact hf x hx
      · exact List.mem_singleton.mp hx
    · intro h
      simp at h

/-! ## `insert_by_patch_id` -/

/-- The kernel commits that the function records with the fixer. -/
def DB.byPatchId (db : DB) (branch : Branch) (f : Sha) : List Sha :=
  match db.duplicateQuery branch f with
  | some (k, _, _) => [k]
  | none => db.patchIdQuery branch f

/-- What the function answers and writes. -/
def InsertsByPatchId (db : DB) (l : List Note) (branch : Branch) (f : Sha) :
    Except Exn Bool → DB × List Note → Prop
  | .ok true, s =>
    db.byPatchId branch f ≠ [] ∧ Wrote db l .chromeFixes branch f (db.byPatchId branch f) s
  | .ok false, s => db.byPatchId branch f = [] ∧ s = (db, l)
  | .error _, s => s = (db, l)

/-- A query, about which there is no note. -/
theorem notedSem_query {o : Op (Except SqlError β)} {v : β} {db : DB} {l : List Note}
    (hsem : ∀ b db', Op.sem ans o db b db' → reads db v b db') (hnote : ∀ b, note o b = []) :
    ∀ b s, notedSem ans o (db, l) b s → s = (db, l) ∧ (b = .ok v ∨ ∃ e, b = .error e) := by
  rintro b s ⟨ho, hl⟩
  obtain ⟨hdb, hb⟩ := hsem b s.1 ho
  rw [hnote b, List.append_nil] at hl
  exact ⟨Prod.ext hdb hl, hb⟩

theorem wp_insertByPatchId {branch : Branch} {f : Sha} {db : DB} {l : List Note} :
    wp (notedSem ans) (fun _ => True) (InsertsByPatchId db l branch f) (insertByPatchId branch f)
      (db, l) := by
  unfold insertByPatchId findDuplicate
  rw [wp_bind]
  refine wp_query (notedSem_query (fun _ _ hread => hread) fun _ => rfl) trivial ?_ fun _ => rfl
  dsimp only
  split
  · next k recorded status hdup =>
    have hks : db.byPatchId branch f = [k] := by
      unfold DB.byPatchId
      rw [show db.duplicateQuery branch f = some (k, recorded, status) from hdup]
    refine wp_time_bind fun time => ?_
    rw [wp_bind]
    refine wp_ignoring_insertFix_commit fun s hs => ?_
    exact ⟨by rw [hks]; simp, by rw [hks]; exact hs⟩
  · next hdup =>
    have hks : db.byPatchId branch f = db.patchIdQuery branch f := by
      unfold DB.byPatchId
      rw [show db.duplicateQuery branch f = none from hdup]
    rw [wp_bind]
    refine wp_query (notedSem_query (fun _ _ hread => hread) fun _ => rfl) trivial ?_ fun _ => rfl
    dsimp only
    split
    · next hnil => exact ⟨hks.trans hnil, rfl⟩
    · next hne =>
      rw [wp_bind]
      refine wp_each (fun rest s => ∃ done, done ++ rest = db.patchIdQuery branch f ∧
        Wrote db l .chromeFixes branch f done s) ?_ ?_ _ _
        ⟨[], rfl, [], (List.append_nil l).symm, fun _ h => (nomatch h), fun _ => recordedAlso_nil⟩
      · rintro k rest ⟨db₁, l₁⟩ ⟨done, hdone, hs⟩
        refine wp_time_bind fun time => ?_
        refine wp_ignoring_insertFix_commit fun s' hs' => ?_
        exact ⟨done ++ [k], by rw [List.append_assoc]; exact hdone, hs.trans hs'⟩
      · rintro s ⟨done, hdone, hs⟩
        rw [List.append_nil] at hdone
        subst hdone
        exact ⟨by rw [hks]; exact hne, by rw [hks]; exact hs⟩

/-! ## A run that ends -/

/-- An INSERT is done or rejected; the program goes on in both cases. -/
theorem exec_ignoring_insertFix_commit (t : FixesTable) (row : NewFix) (db : DB) :
    ∃ db', Exec (Op.sem ans)
      (ignoringSqlErrors (sql (.insertFix t row) >>= fun _ => sql .commit)) db
      (.ok ()) db' := by
  cases h : db.insertRow t row with
  | ok db' =>
    have hi : Op.sem ans (.insertFix t row) db (.ok ()) db' := .inl ⟨h, rfl⟩
    have hc : Op.sem ans .commit db' (.ok ()) db' := .inl ⟨rfl, rfl⟩
    exact ⟨db', ((exec_sql_ok hi).bind (exec_sql_ok hc)).tryCatch_ok⟩
  | error e =>
    have hi : Op.sem ans (.insertFix t row) db (.error e) db := .inr ⟨rfl, e, rfl⟩
    have he : Exec (Op.sem ans) (sql (.insertFix t row) >>= fun _ => sql .commit) db
      (.error (.mysql e)) db := .op hi .raise
    exact ⟨db, he.tryCatch_error .ret⟩

theorem exec_insertByPatchId {branch : Branch} {f : Sha} {db : DB}
    (h : db.duplicateQuery branch f = none) :
    ∃ b db', Exec (Op.sem anyAnswer) (insertByPatchId branch f) db (.ok b) db' := by
  have hd : Op.sem anyAnswer (.selectDuplicate branch f) db (.ok none) db := ⟨rfl, .inl (by rw [h])⟩
  have hq : Op.sem anyAnswer (.selectByPatchId branch f) db (.ok (db.patchIdQuery branch f)) db :=
    ⟨rfl, .inl rfl⟩
  have ht : ∀ db, Op.sem anyAnswer .getCurrentTime db "" db := fun _ => ⟨rfl, trivial⟩
  by_cases hnil : db.patchIdQuery branch f = []
  · refine ⟨false, db, (exec_sql_ok hd).bind ((exec_sql_ok hq).bind ?_)⟩
    rw [if_pos hnil]
    exact .ret
  · have hloop : ∃ db', Exec (Op.sem anyAnswer) (each (fun chromeSha => perform .getCurrentTime >>=
        fun entryTime => ignoringSqlErrors (sql (.insertFix .chromeFixes
          (mergedFix chromeSha f branch entryTime)) >>= fun _ => sql .commit))
        (db.patchIdQuery branch f)) db (.ok ()) db' ∧ True :=
      exec_each_ok (I := fun _ => True) (fun k _ db _ =>
        (exec_ignoring_insertFix_commit .chromeFixes (mergedFix k f branch "") db).imp
          fun db' hx => ⟨.op (ht db) hx, trivial⟩) db trivial
    obtain ⟨db', hx, -⟩ := hloop
    refine ⟨true, db', (exec_sql_ok hd).bind ((exec_sql_ok hq).bind ?_)⟩
    rw [if_neg hnil]
    exact hx.bind .ret

theorem insertByPatchId_spec {branch : Branch} {f : Sha} {db db' : DB} {r : Except Exn Bool}
    (h : Exec (Op.sem ans) (insertByPatchId branch f) db r db') :
    ∃ notes, InsertsByPatchId db [] branch f r (db', notes) := by
  obtain ⟨notes, hn⟩ := h.noting note []
  exact ⟨notes, wp_exec wp_insertByPatchId hn⟩

end

/-! ## Top theorem -/

/-- When no duplicate is found, the function does what it is for exactly on the databases
where a matching backport of a fixed commit comes with an applied fix. -/
theorem marksOnlyApplied_iff {db : DB} {branch : Branch} {f : Sha}
    (h : db.duplicateQuery branch f = none) :
    MarksOnlyApplied db branch f ↔ (FixedCommitMatches db branch f → Applied db branch f) := by
  have hks : db.byPatchId branch f = db.patchIdQuery branch f := by
    unfold DB.byPatchId
    rw [h]
  constructor
  · intro hm hfixed
    obtain ⟨b, db', hx⟩ := exec_insertByPatchId h
    rcases hm _ _ hx with ⟨-, ha⟩ | ⟨hb, -⟩
    · exact ha
    · obtain ⟨notes, hspec⟩ := insertByPatchId_spec hx
      cases b with
      | true => exact absurd rfl hb
      | false => exact absurd (hks ▸ hspec.1) (patchIdQuery_ne_nil.mpr hfixed)
  · intro himp r db' hx
    obtain ⟨notes, hspec⟩ := insertByPatchId_spec hx
    match r, hspec with
    | .ok true, hspec => exact .inl ⟨rfl, himp (patchIdQuery_ne_nil.mp (hks ▸ hspec.1))⟩
    | .ok false, hspec => exact .inr ⟨by simp, congrArg Prod.fst hspec.2⟩
    | .error e, hspec => exact .inr ⟨by simp, congrArg Prod.fst hspec⟩

/-- `k` is a clean backport of `u`; the fix `f` of `u` is not on the branch. -/
def cleanBackport : DB where
  linuxUpstream := .ofRows [⟨"u", "", "p0"⟩, ⟨"f", "", "p1"⟩]
  upstreamFixes := .ofRows [⟨"u", "f"⟩]
  linuxStable := .empty
  linuxChrome := .ofRows [⟨"k", "5.4", some "u", "p0", ""⟩]
  previousFetch := .empty
  stableFixes := .empty
  chromeFixes := .empty

theorem cleanBackport_fixed : FixedCommitMatches cleanBackport "5.4" "f" :=
  patchIdQuery_ne_nil.mp (by decide)

theorem cleanBackport_not_applied : ¬ Applied cleanBackport "5.4" "f" := by
  unfold Applied
  decide

/-- On another branch, where nothing is backported, nothing is recorded. -/
theorem marksOnlyApplied_iff_cleanBackport : MarksOnlyApplied cleanBackport "4.19" "f" :=
  (marksOnlyApplied_iff (by decide)).mpr fun h => absurd (patchIdQuery_ne_nil.mpr h) (by decide)

/-- The fix of a commit that was backported cleanly is recorded as MERGED. -/
theorem fix_of_clean_backport_merged : ¬ ∀ (db : DB) (branch : Branch) (f : Sha),
    db.duplicateQuery branch f = none → MarksOnlyApplied db branch f := by
  intro h
  have hd : cleanBackport.duplicateQuery "5.4" "f" = none := by decide
  obtain ⟨b, db', hx⟩ := exec_insertByPatchId hd
  rcases h _ _ _ hd _ _ hx with ⟨-, ha⟩ | ⟨hb, -⟩
  · exact cleanBackport_not_applied ha
  · obtain ⟨notes, hspec⟩ := insertByPatchId_spec hx
    cases b with
    | true => exact hb rfl
    | false => exact absurd hspec.1 (patchIdQuery_ne_nil.mpr cleanBackport_fixed)

end Findmissing
