import Mathlib.Algebra.BigOperators.Group.Finset.Basic
import Mathlib.Combinatorics.Colex
import Mathlib.Data.Nat.Digits.Defs
import Mathlib.Logic.Equiv.List
import DevUtil.Findmissing.UpstreamRun

/-!
# Patch ids across the commit tables

`update_upstream_table` asks for `git patch-id`, the hash of the whole diff;
`update_stable_table` and `update_chrome_table` for `git patch-id --stable`, the
sum of the hashes of the files.  With a hash that does not collide, also in
sums (`PatchIdHash.Ideal`), the two are one exactly for diffs of one file at
most (`patchId_eq_iff`): a larger diff has no row in the joins on `patch_id`.
-/

namespace Findmissing

open Lib

/-! ## git patch-id -/

/-- The hash of a text of file diffs, and how a patch id is printed. -/
structure PatchIdHash (N : Type) where
  hash : List FileDiff → N
  print : N → String

namespace PatchIdHash

variable {N : Type} (H : PatchIdHash N)

/-- One line with the patch id and the commit, none for an empty diff. -/
def line (id : N) (c : Commit) : String :=
  if c.diff.files = [] then "" else H.print id ++ " " ++ (c.sha ++ "\n")

variable [AddCommMonoid N]

/-- The output of `git patch-id`. -/
def patchId (c : Commit) : String := H.line (H.hash c.diff.files) c

/-- The output of `git patch-id --stable`. -/
def patchIdStable (c : Commit) : String := H.line (c.diff.files.map fun f => H.hash [f]).sum c

/-- No two sets of texts have the same sum of hashes, and an id prints as one word of its own. -/
structure Ideal : Prop where
  sum_injective : ∀ s t : Finset (List FileDiff), ∑ x ∈ s, H.hash x = ∑ x ∈ t, H.hash x → s = t
  print_injective : Function.Injective H.print
  print_no_space : ∀ n, ' ' ∉ (H.print n).toList
  print_ne_empty : ∀ n, H.print n ≠ ""

end PatchIdHash

/-- git computes its patch ids with `H`. -/
structure Git.HashesWith {N : Type} [AddCommMonoid N] (git : Git) (H : PatchIdHash N) : Prop where
  patchId : ∀ c, git.patchId c = H.patchId c
  patchIdStable : ∀ c, git.patchIdStable c = H.patchIdStable c

/-! ## Runs -/

/-- The commits that git has, by sha. -/
abbrev Store := Sha → Option Commit

def Store.has (store : Store) (c : Commit) : Prop := store c.sha = some c

/-- What a clone finds for the sha of a commit is the commit. -/
def Clone.Agrees (r : Clone) (store : Store) : Prop :=
  ∀ c, store.has c → ∀ c' ∈ r.find c.sha, c' = c

/-- The database after any updates over any connections, from any clones that agree with the
store. -/
inductive Fetched (git : Git) (store : Store) : DB → Prop
  | empty : Fetched git store .empty
  | upstream {conn : Connection} {db db' : DB} {r : Clone} : Fetched git store db → r.Agrees store →
      updateUpstreamDb conn git r db = .ok db' → Fetched git store db'
  | stable {conn : Connection} {db db' : DB} {r : Branch → Clone} {branches : List Branch} :
      Fetched git store db → (∀ b, (r b).Agrees store) →
        updateStableDb conn git r branches db = .ok db' → Fetched git store db'
  | chrome {conn : Connection} {db db' : DB} {r : Branch → Clone} {branches : List Branch} :
      Fetched git store db → (∀ b, (r b).Agrees store) →
        updateChromeDb conn git r branches db = .ok db' → Fetched git store db'

/-- A row of `path` and the upstream row of a commit with diff `d` have one patch id exactly
if the row's commit has the diff `d` too. -/
def PatchIdsAgree (git : Git) (path : Kernel) (d : Diff) : Prop :=
  ∀ store db, Fetched git store db → ∀ cu ck, store.has cu → store.has ck → cu.diff = d →
    ∀ ru ∈ db.linuxUpstream.rows, ru.sha = cu.sha → ∀ rk ∈ db.kernelRows path, rk.sha = ck.sha →
      (ru.patchId = rk.patchId ↔ ck.diff = d)

/-! ## Whole diff against sum of files -/

theorem Diff.files_nodup (d : Diff) : d.files.Nodup := List.Nodup.of_map _ d.nodup

theorem Diff.ext_files {d d' : Diff} (h : d.files = d'.files) : d = d' := by
  cases d
  cases d'
  cases h
  rfl

section

variable {N : Type} [AddCommMonoid N] {H : PatchIdHash N}

theorem firstField_line (hH : H.Ideal) (id : N) (c : Commit) :
    firstField (H.line id c) = if c.diff.files = [] then "" else H.print id := by
  unfold PatchIdHash.line
  split
  · rfl
  · exact firstField_append _ (hH.print_no_space id)

/-- The hash of a whole diff is a sum over files only if the diff is that file. -/
theorem hash_eq_sum_iff (hH : H.Ideal) {d d' : Diff} (hd' : d'.files ≠ []) :
    H.hash d.files = (d'.files.map fun f => H.hash [f]).sum ↔ d = d' ∧ d.files.length = 1 := by
  constructor
  · intro heq
    have hnd : (d'.files.map fun f => [f]).Nodup :=
      d'.files_nodup.map fun f g h => List.head_eq_of_cons_eq h
    have hset : ({d.files} : Finset (List FileDiff)) = (d'.files.map fun f => [f]).toFinset := by
      apply hH.sum_injective
      rw [Finset.sum_singleton, List.sum_toFinset _ hnd, List.map_map, heq]
      rfl
    have hfile : ∀ f ∈ d'.files, d.files = [f] := by
      intro f hf
      have hmem : [f] ∈ (d'.files.map fun f => [f]).toFinset :=
        List.mem_toFinset.mpr (List.mem_map_of_mem hf)
      rw [← hset, Finset.mem_singleton] at hmem
      exact hmem.symm
    have hlen : d'.files.length = 1 := by
      have hcard := congrArg Finset.card hset
      rw [Finset.card_singleton, List.toFinset_card_of_nodup hnd, List.length_map] at hcard
      exact hcard.symm
    obtain ⟨f, hf⟩ := List.length_eq_one_iff.mp hlen
    have hdf : d.files = [f] := hfile f (by simp [hf])
    exact ⟨Diff.ext_files (hdf.trans hf.symm), by simp [hdf]⟩
  · rintro ⟨rfl, hlen⟩
    obtain ⟨f, hf⟩ := List.length_eq_one_iff.mp hlen
    simp [hf]

/-- The two patch ids of the tables. -/
theorem patchId_eq_iff (hH : H.Ideal) {git : Git} (hgit : git.HashesWith H) (cu ck : Commit) :
    firstField (git.patchId cu) = firstField (git.patchIdStable ck) ↔
      cu.diff = ck.diff ∧ cu.diff.files.length ≤ 1 := by
  rw [hgit.patchId, hgit.patchIdStable, PatchIdHash.patchId, PatchIdHash.patchIdStable,
    firstField_line hH, firstField_line hH]
  by_cases hu : cu.diff.files = []
  · by_cases hk : ck.diff.files = []
    · have hdiff : cu.diff = ck.diff := Diff.ext_files (hu.trans hk.symm)
      simp [hk, hdiff]
    · have hdiff : cu.diff ≠ ck.diff := fun h => hk (h ▸ hu)
      rw [if_pos hu, if_neg hk]
      exact ⟨fun h => absurd h.symm (hH.print_ne_empty _), fun h => absurd h.1 hdiff⟩
  · have hpos : 0 < cu.diff.files.length := List.length_pos_iff.mpr hu
    by_cases hk : ck.diff.files = []
    · have hdiff : cu.diff ≠ ck.diff := fun h => hu (h ▸ hk)
      rw [if_neg hu, if_pos hk]
      exact ⟨fun h => absurd h (hH.print_ne_empty _), fun h => absurd h.1 hdiff⟩
    · rw [if_neg hu, if_neg hk, hH.print_injective.eq_iff, hash_eq_sum_iff hH hk]
      constructor
      · rintro ⟨h, hlen⟩
        exact ⟨h, by omega⟩
      · rintro ⟨h, hlen⟩
        exact ⟨h, by omega⟩

end

/-! ## Every row is the one of a commit -/

/-- If the store has a commit of this name, it is the one that the entry is about. -/
def Entry.Of (e : Entry) (store : Store) : Prop := ∀ c, store.has c → c.sha = e.sha → e.commit = c

theorem Clone.Agrees.entry {r : Clone} {store : Store} (h : r.Agrees store) {e : Entry}
    (he : r.find e.sha = some e.commit) : e.Of store :=
  fun c hc hsha => h c hc e.commit (Option.mem_def.mpr (hsha ▸ he))

/-- What every step that succeeds preserves. -/
theorem foldlM_ok {σ α ε : Type} {P : σ → Prop} {step : σ → α → Except ε σ}
    (hstep : ∀ s s' a, P s → step s a = .ok s' → P s') {as : List α} {s s' : σ} (h : P s)
    (hrun : as.foldlM step s = .ok s') : P s' := by
  induction as generalizing s with
  | nil =>
    cases hrun
    exact h
  | cons a as ih =>
    rw [List.foldlM_cons] at hrun
    cases hone : step s a with
    | error e =>
      rw [hone] at hrun
      cases hrun
    | ok s₁ =>
      rw [hone] at hrun
      exact ih (hstep s s₁ a h hone) hrun

structure RowsFrom (git : Git) (store : Store) (db : DB) : Prop where
  upstream : ∀ r ∈ db.linuxUpstream.rows, ∃ e : Entry, e.Of store ∧ r = upstreamRow git e
  stable : ∀ r ∈ db.linuxStable.rows,
    ∃ (e : Entry) (branch : Branch) (usha : Sha), e.Of store ∧ r = stableRow git branch e usha
  chrome : ∀ r ∈ db.linuxChrome.rows,
    ∃ (e : Entry) (branch : Branch), e.Of store ∧ r = chromeRow git branch e

namespace RowsFrom

variable {conn : Connection} {git : Git} {store : Store} {db db' : DB}

theorem empty : RowsFrom git store .empty :=
  ⟨by simp [DB.empty], by simp [DB.empty], by simp [DB.empty]⟩

/-- Only the commit tables matter. -/
theorem of_eq (h : RowsFrom git store db) (hu : db'.linuxUpstream = db.linuxUpstream)
    (hs : db'.linuxStable = db.linuxStable) (hc : db'.linuxChrome = db.linuxChrome) :
    RowsFrom git store db' :=
  ⟨hu ▸ h.upstream, hs ▸ h.stable, hc ▸ h.chrome⟩

theorem insertUpstream (h : RowsFrom git store db) {e : Entry} (he : e.Of store)
    (hins : db.insertUpstream (upstreamRow git e) = .ok db') : RowsFrom git store db' := by
  unfold DB.insertUpstream at hins
  split at hins
  · next t ht =>
    cases hins
    refine ⟨?_, h.stable, h.chrome⟩
    intro r hr
    rcases List.mem_append.mp ((Table.insert_eq_some.mp ht).2 ▸ hr) with hr | hr
    · exact h.upstream r hr
    · exact ⟨e, he, List.mem_singleton.mp hr⟩
  · cases hins

theorem insertStable (h : RowsFrom git store db) {e : Entry} (he : e.Of store) (branch : Branch)
    (usha : Sha) :
    RowsFrom git store (db.orSame (db.insertStable (stableRow git branch e usha))) := by
  unfold DB.insertStable
  split
  · split
    · next t ht =>
      refine ⟨h.upstream, ?_, h.chrome⟩
      intro r hr
      rcases List.mem_append.mp ((Table.insert_eq_some.mp ht).2 ▸ hr) with hr | hr
      · exact h.stable r hr
      · exact ⟨e, branch, usha, he, List.mem_singleton.mp hr⟩
    · exact h
  · exact h

theorem insertChrome (h : RowsFrom git store db) {e : Entry} (he : e.Of store) (branch : Branch) :
    RowsFrom git store (db.orSame (db.insertChrome (chromeRow git branch e))) := by
  unfold DB.insertChrome
  split
  · next t ht =>
    refine ⟨h.upstream, h.stable, ?_⟩
    intro r hr
    rcases List.mem_append.mp ((Table.insert_eq_some.mp ht).2 ▸ hr) with hr | hr
    · exact h.chrome r hr
    · exact ⟨e, branch, he, List.mem_singleton.mp hr⟩
  · exact h

variable {r : Clone} {line : String}

theorem find_of_readLine {e : Entry} (h : r.readLine line = .ok e) :
    r.find e.sha = some e.commit := by
  unfold Clone.readLine at h
  split at h
  · cases h
  · next c hfind =>
    split at h
    · cases h
      exact hfind
    · split at h
      · cases h
        exact hfind
      · cases h

theorem upstreamLine {s s' : UpstreamLoop} (hagrees : r.Agrees store) (h : RowsFrom git store s.db)
    (hstep : Findmissing.upstreamLine conn git r s line = .ok s') : RowsFrom git store s'.db := by
  unfold Findmissing.upstreamLine at hstep
  cases hread : r.readLine line with
  | error x =>
    rw [hread] at hstep
    cases hstep
  | ok e =>
    rw [hread] at hstep
    replace hstep : upstreamEntry conn git s e = .ok s' := hstep
    unfold upstreamEntry at hstep
    split at hstep
    · cases hstep
      exact h
    · split at hstep
      · split at hstep
        · cases hstep
          exact h
        · next db hins =>
          have hrows := h.insertUpstream (hagrees.entry (find_of_readLine hread)) hins
          cases hfixes : fixesOfLines conn git db.linuxUpstream e.sha
              (splitlines e.commit.body) with
          | error x =>
            rw [hfixes] at hstep
            cases hstep
          | ok fixes =>
            rw [hfixes] at hstep
            cases hstep
            exact hrows
      · cases hstep
        exact h

theorem stableLine {s s' : KernelLoop} {branch : Branch} (hagrees : r.Agrees store)
    (h : RowsFrom git store s.db)
    (hstep : Findmissing.stableLine conn git r branch s line = .ok s') :
    RowsFrom git store s'.db := by
  unfold Findmissing.stableLine at hstep
  split at hstep
  · cases hstep
  · next description _ =>
    split at hstep
    · cases hstep
      exact h
    · split at hstep
      · cases hstep
      · next c hfind =>
        split at hstep
        · cases hstep
          exact h
        · split at hstep
          · cases hstep
            exact h.insertStable
              (hagrees.entry (e := ⟨firstField line, description, c⟩) hfind) branch _
          · cases hstep

theorem chromeLine {s s' : KernelLoop} {branch : Branch} (hagrees : r.Agrees store)
    (h : RowsFrom git store s.db)
    (hstep : Findmissing.chromeLine conn git r branch s line = .ok s') :
    RowsFrom git store s'.db := by
  unfold Findmissing.chromeLine at hstep
  split at hstep
  · cases hstep
  · next description _ =>
    split at hstep
    · cases hstep
    · next c hfind =>
      split at hstep
      · cases hstep
        exact h
      · split at hstep
        · cases hstep
          exact h
        · split at hstep
          · cases hstep
            exact h.insertChrome
              (hagrees.entry (e := ⟨firstField line, description, c⟩) hfind) branch
          · cases hstep

theorem updateLast (h : RowsFrom git store db) (kernel : Kernel) (branch : Branch)
    (last : Option Sha) :
    RowsFrom git store (Findmissing.updateLast db kernel branch last) := by
  obtain ⟨t, ht⟩ := updateLast_eq db kernel branch last
  rw [ht]
  exact h.of_eq rfl rfl rfl

variable {branch : Branch} {start : Sha}

theorem updateUpstreamTable (hagrees : r.Agrees store) (h : RowsFrom git store db)
    (hrun : Findmissing.updateUpstreamTable conn git r branch start db = .ok db') :
    RowsFrom git store db' := by
  unfold Findmissing.updateUpstreamTable at hrun
  split at hrun
  · cases hrun
  · next commits _ =>
    cases hfold : (logLines commits).foldlM (Findmissing.upstreamLine conn git r)
        ⟨db, [], none⟩ with
    | error e =>
      rw [hfold] at hrun
      cases hrun
    | ok s =>
      rw [hfold] at hrun
      cases hrun
      apply updateLast
      have hloop : RowsFrom git store s.db :=
        foldlM_ok (P := fun s : UpstreamLoop => RowsFrom git store s.db)
          (fun _ _ _ h hstep => upstreamLine hagrees h hstep) h hfold
      obtain ⟨t, ht⟩ := insertFixes_eq s.fixes s.db
      rw [ht]
      exact hloop.of_eq rfl rfl rfl

theorem updateStableTable (hagrees : r.Agrees store) (h : RowsFrom git store db)
    (hrun : Findmissing.updateStableTable conn git r branch start db = .ok db') :
    RowsFrom git store db' := by
  unfold Findmissing.updateStableTable at hrun
  split at hrun
  · cases hrun
  · next commits _ =>
    cases hfold : (logLines (commits.filter fun c => !c.merge)).foldlM
        (Findmissing.stableLine conn git r branch) ⟨db, none⟩ with
    | error e =>
      rw [hfold] at hrun
      cases hrun
    | ok s =>
      rw [hfold] at hrun
      cases hrun
      apply updateLast
      exact foldlM_ok (P := fun s : KernelLoop => RowsFrom git store s.db)
        (fun _ _ _ h hstep => stableLine hagrees h hstep) h hfold

theorem updateChromeTable (hagrees : r.Agrees store) (h : RowsFrom git store db)
    (hrun : Findmissing.updateChromeTable conn git r branch start db = .ok db') :
    RowsFrom git store db' := by
  unfold Findmissing.updateChromeTable at hrun
  split at hrun
  · cases hrun
  · next commits _ =>
    cases hfold : (logLines commits).foldlM (Findmissing.chromeLine conn git r branch)
        ⟨db, none⟩ with
    | error e =>
      rw [hfold] at hrun
      cases hrun
    | ok s =>
      rw [hfold] at hrun
      cases hrun
      apply updateLast
      exact foldlM_ok (P := fun s : KernelLoop => RowsFrom git store s.db)
        (fun _ _ _ h hstep => chromeLine hagrees h hstep) h hfold

/-- One update after the other. -/
theorem updateKernelDb {path : Kernel} {tagTemplate : Branch → Sha}
    {updateTable : Branch → Sha → DB → Except UpdateExn DB}
    (htable : ∀ branch start db db', RowsFrom git store db → updateTable branch start db = .ok db' →
      RowsFrom git store db')
    (branches : List Branch) (h : RowsFrom git store db)
    (hrun : Findmissing.updateKernelDb path tagTemplate updateTable branches db = .ok db') :
    RowsFrom git store db' := by
  induction branches generalizing db with
  | nil =>
    cases hrun
    exact h
  | cons branch branches ih =>
    unfold Findmissing.updateKernelDb updateBranch at hrun
    split at hrun
    · cases hrun
    · next db₁ hbranch =>
      split at hbranch
      · cases hbranch
      · next start db₀ hstart =>
        obtain ⟨t, rfl⟩ := startOf_eq hstart
        have h₀ : RowsFrom git store { db with previousFetch := t } := h.of_eq rfl rfl rfl
        exact ih (htable _ _ _ _ h₀ hbranch) hrun

theorem of_fetched (h : Fetched git store db) : RowsFrom git store db := by
  induction h with
  | empty => exact empty
  | upstream _ hagrees hrun ih =>
    exact updateKernelDb (fun _ _ _ _ h hrun => updateUpstreamTable hagrees h hrun) _ ih hrun
  | stable _ hagrees hrun ih =>
    exact updateKernelDb (fun b _ _ _ h hrun => updateStableTable (hagrees b) h hrun) _ ih hrun
  | chrome _ hagrees hrun ih =>
    exact updateKernelDb (fun b _ _ _ h hrun => updateChromeTable (hagrees b) h hrun) _ ih hrun

end RowsFrom

theorem patchId_of_upstreamRow {git : Git} {store : Store} {db : DB} (h : Fetched git store db)
    {c : Commit} (hc : store.has c) {r : UpstreamRow} (hr : r ∈ db.linuxUpstream.rows)
    (hsha : r.sha = c.sha) : r.patchId = firstField (git.patchId c) := by
  obtain ⟨e, he, rfl⟩ := (RowsFrom.of_fetched h).upstream r hr
  rw [← he c hc hsha.symm]
  rfl

theorem patchId_of_kernelRow {git : Git} {store : Store} {db : DB} (h : Fetched git store db)
    {c : Commit} (hc : store.has c) {path : Kernel} {r : KernelRow} (hr : r ∈ db.kernelRows path)
    (hsha : r.sha = c.sha) : r.patchId = firstField (git.patchIdStable c) := by
  cases path with
  | linuxStable =>
    obtain ⟨r', hr', rfl⟩ := List.mem_map.mp hr
    obtain ⟨e, branch, usha, he, rfl⟩ := (RowsFrom.of_fetched h).stable r' hr'
    rw [← he c hc hsha.symm]
    rfl
  | linuxChrome =>
    obtain ⟨r', hr', rfl⟩ := List.mem_map.mp hr
    obtain ⟨e, branch, he, rfl⟩ := (RowsFrom.of_fetched h).chrome r' hr'
    rw [← he c hc hsha.symm]
    rfl
  | linuxUpstream => cases hr

/-! ## A commit and its backport -/

def backportStore (d : Diff) : Store := fun sha =>
  if sha = "aaaaaaaaaaaa" then some (mainlineCommit d)
  else if sha = "bbbbbbbbbbbb" then some (backportCommit d) else none

def mainlineClone (d : Diff) : Clone := .only ⟨"v4.4", [mainlineCommit d], by simp [mainlineCommit]⟩

def backportClone (d : Diff) : Clone := .only ⟨"v4.4", [backportCommit d], by simp [backportCommit]⟩

theorem agrees_only {h : History} {store : Store} (hh : ∀ c ∈ h.items, store.has c) :
    (Clone.only h).Agrees store := by
  intro c hc c' hc'
  have hfind := Option.mem_def.mp hc'
  have hsha := List.find?_some (p := fun c' : Commit => decide (c'.sha = c.sha)) hfind
  have hhas := hh c' (List.mem_of_find?_eq_some hfind)
  unfold Store.has at hc hhas
  rw [of_decide_eq_true hsha, hc] at hhas
  exact (Option.some.inj hhas).symm

theorem exists_mainline_row (git : Git) (d : Diff) :
    ∃ db, updateUpstreamDb .plain git (mainlineClone d) .empty = .ok db ∧
      db.linuxUpstream.rows = [upstreamRow git (mainlineCommit d).entry] ∧
      db.linuxStable.rows = [] ∧ db.linuxChrome.rows = [] ∧
      db.shaTip .linuxStable "4.4" = none ∧ db.shaTip .linuxChrome "4.4" = none := by
  have hlog : (mainlineClone d).history.after (DB.empty).upstreamStart = some [mainlineCommit d] :=
    rfl
  have hread : Readable .plain git (DB.empty).linuxUpstream ([mainlineCommit d].map Commit.entry) :=
    ⟨fun _ _ _ _ _ => rfl, trivial⟩
  obtain ⟨db, hrun, htable, -, hstable, hchrome, htip⟩ := updateUpstreamDb_ok (by decide) hlog
    (fun c hc => by rw [List.mem_singleton.mp hc]; exact others_mainlineCommit d) hread
  refine ⟨db, hrun, ?_, congrArg Table.rows hstable, congrArg Table.rows hchrome, ?_, ?_⟩
  · rw [htable, rows_storeRows_entries (nodup_of_after hlog) (fun c _ h => by cases h)]
    rfl
  · rw [htip, if_neg (by decide)]
    rfl
  · rw [htip, if_neg (by decide)]
    rfl

/-- After the two updates the commit is in `linux_upstream` and its backport in `path`. -/
theorem exists_backport_row (git : Git) (d : Diff) {path : Kernel} (hpath : path ≠ .linuxUpstream) :
    ∃ db, Fetched git (backportStore d) db ∧
      upstreamRow git (mainlineCommit d).entry ∈ db.linuxUpstream.rows ∧
      ∃ r ∈ db.kernelRows path, r.sha = (backportCommit d).sha := by
  have hmainline : (mainlineClone d).Agrees (backportStore d) := by
    refine agrees_only fun c hc => ?_
    rw [List.mem_singleton.mp hc]
    rfl
  have hbackport : (backportClone d).Agrees (backportStore d) := by
    refine agrees_only fun c hc => ?_
    rw [List.mem_singleton.mp hc]
    rfl
  obtain ⟨db, hrun, hrows, hstable, hchrome, hstableTip, hchromeTip⟩ := exists_mainline_row git d
  have hlog : (backportClone d).history.after (versionTag "4.4") = some [backportCommit d] := rfl
  cases path with
  | linuxUpstream => exact absurd rfl hpath
  | linuxStable =>
    have hfine : ∀ c ∈ [backportCommit d].filter fun c => !c.merge, c.StableFine .plain := by
      intro c hc
      rw [List.mem_singleton.mp hc]
      exact ⟨others_backportCommit d, fun _ => rfl⟩
    obtain ⟨db', hrun', hsame, hrows', -⟩ := @updateStableDb_ok _ git
      (fun _ => backportClone d) _ _ _ _ (by rw [hstableTip]; simp) rfl
      (by rw [hstableTip]; exact hlog) hfine (by simp [hstable])
    refine ⟨db', .stable (.upstream .empty hmainline hrun) (fun _ => hbackport) hrun', ?_, ?_⟩
    · rw [hsame, hrows]
      exact List.mem_singleton_self _
    · have hsearch : searchUpstreamSha (backportCommit d).message = some "aaaaaaaaaaaa" := by
        show searchUpstreamSha "    commit aaaaaaaaaaaa upstream." = some "aaaaaaaaaaaa"
        decide
      have hin : db.inLinuxUpstream "aaaaaaaaaaaa" = true := by
        rw [inLinuxUpstream_eq_true, hrows]
        exact List.mem_singleton_self _
      have hrow : storedRow git "4.4" db.inLinuxUpstream (backportCommit d) =
          some (stableRow git "4.4" (backportCommit d).entry "aaaaaaaaaaaa") :=
        storedRow_eq_some.mpr ⟨_, hsearch, hin, rfl⟩
      refine ⟨(stableRow git "4.4" (backportCommit d).entry "aaaaaaaaaaaa").toKernelRow, ?_, rfl⟩
      apply List.mem_map_of_mem
      rw [hrows']
      exact List.mem_append_right _ (List.mem_filterMap.mpr ⟨_, List.mem_singleton_self _, hrow⟩)
  | linuxChrome =>
    obtain ⟨db', hrun', hsame, hrows'⟩ := @updateChromeDb_ok .plain git "4.4" _
      (fun _ => backportClone d) _ (by rw [hchromeTip]; simp)
      (by rw [hchromeTip]; exact hlog) (others_backportCommit d) rfl rfl (by simp [hstable])
        (by simp [hchrome])
    refine ⟨db', .chrome (.upstream .empty hmainline hrun) (fun _ => hbackport) hrun', ?_, ?_⟩
    · rw [hsame, hrows]
      exact List.mem_singleton_self _
    · refine ⟨(chromeRow git "4.4" (backportCommit d).entry).toKernelRow, ?_, rfl⟩
      apply List.mem_map_of_mem
      rw [hrows']
      exact List.mem_append_right _ (List.mem_singleton_self _)

/-! ## A hash without collisions -/

instance encodableChar : Encodable Char :=
  Encodable.ofLeftInjection Char.toNat (fun n => some (Char.ofNat n)) fun c => by simp

instance encodableString : Encodable String :=
  Encodable.ofLeftInjection String.toList (fun cs => some (String.ofList cs)) fun s => by simp

instance encodableFileDiff : Encodable FileDiff :=
  Encodable.ofLeftInjection (fun f => (f.path, f.hunks)) (fun p => some ⟨p.1, p.2⟩) fun _ => rfl

/-- Every text has a power of two of its own, printed by its digits. -/
def powerHash : PatchIdHash Nat where
  hash text := 2 ^ Encodable.encode text
  print n := String.ofList ('0' :: (Nat.digits 10 n).map Nat.digitChar)

/-- The digits are read back. -/
theorem map_digitChar (n : Nat) :
    ((Nat.digits 10 n).map Nat.digitChar).map (fun c => c.toNat - 48) = Nat.digits 10 n := by
  rw [List.map_map]
  conv => rhs; rw [← List.map_id (Nat.digits 10 n)]
  apply List.map_congr_left
  intro d hd
  exact Nat.toNat_digitChar_sub_48_of_lt_ten (Nat.digits_lt_base (by decide) hd)

theorem powerHash_ideal : powerHash.Ideal where
  sum_injective s t h := by
    have hmap : ∀ u : Finset (List FileDiff), ∑ x ∈ u, powerHash.hash x =
        ∑ i ∈ u.map ⟨Encodable.encode, Encodable.encode_injective⟩, 2 ^ i := by
      intro u
      rw [Finset.sum_map]
      rfl
    rw [hmap, hmap] at h
    exact Finset.map_injective _ (Finset.geomSum_injective (Nat.le_refl 2) h)
  print_injective n m h := by
    have hdigits := (List.cons.inj (String.ofList_injective h)).2
    rw [← Nat.digits_inj_iff (b := 10), ← map_digitChar n, ← map_digitChar m, hdigits]
  print_no_space n h := by
    rw [powerHash, String.toList_ofList, List.mem_cons] at h
    rcases h with h | h
    · exact absurd h (by decide)
    · obtain ⟨d, hd, hspace⟩ := List.mem_map.mp h
      have hdigit : d.digitChar.isDigit = true := by
        rw [Nat.isDigit_digitChar, decide_eq_true_eq]
        exact Nat.digits_lt_base (by decide) hd
      rw [hspace] at hdigit
      exact absurd hdigit (by decide)
  print_ne_empty n h := by
    have hlist := congrArg String.toList h
    simp [powerHash] at hlist

/-- A git whose patch ids are `powerHash`'s. -/
def powerGit : Git := ⟨powerHash.patchId, powerHash.patchIdStable, fun _ => none⟩

theorem powerGit_hashesWith : powerGit.HashesWith powerHash := ⟨fun _ => rfl, fun _ => rfl⟩

/-! ## When the patch ids agree -/

section

variable {N : Type} [AddCommMonoid N] {H : PatchIdHash N}

theorem agree_of_length_le_one (hH : H.Ideal) {git : Git} (hgit : git.HashesWith H)
    (path : Kernel) {d : Diff} (hd : d.files.length ≤ 1) : PatchIdsAgree git path d := by
  intro store db hdb cu ck hcu hck hdiff ru hru hrusha rk hrk hrksha
  rw [patchId_of_upstreamRow hdb hcu hru hrusha, patchId_of_kernelRow hdb hck hrk hrksha,
    patchId_eq_iff hH hgit, hdiff]
  exact ⟨fun h => h.1.symm, fun h => ⟨h.symm, hd⟩⟩

theorem not_agree_of_one_lt_length (hH : H.Ideal) {git : Git} (hgit : git.HashesWith H)
    {path : Kernel} (hpath : path ≠ .linuxUpstream) {d : Diff} (hd : 1 < d.files.length) :
    ¬PatchIdsAgree git path d := by
  intro hagree
  obtain ⟨db, hdb, hru, rk, hrk, hrksha⟩ := exists_backport_row git d hpath
  have hmainline : (backportStore d).has (mainlineCommit d) := rfl
  have hbackport : (backportStore d).has (backportCommit d) := rfl
  have heq := (hagree _ _ hdb _ _ hmainline hbackport rfl _ hru rfl rk hrk hrksha).mpr rfl
  rw [patchId_of_upstreamRow hdb hmainline hru rfl, patchId_of_kernelRow hdb hbackport hrk hrksha,
    patchId_eq_iff hH hgit] at heq
  have hlen : d.files.length ≤ 1 := heq.2
  omega

/-- The stable and the Chrome OS table agree with `linux_upstream` about a diff exactly if
it changes one file at most. -/
theorem patchIdsAgree_iff (hH : H.Ideal) {git : Git} (hgit : git.HashesWith H) (d : Diff) :
    (PatchIdsAgree git .linuxStable d ∧ PatchIdsAgree git .linuxChrome d) ↔ d.files.length ≤ 1 := by
  constructor
  · intro h
    by_contra hd
    exact not_agree_of_one_lt_length hH hgit (by decide) (by omega) h.1
  · intro hd
    exact ⟨agree_of_length_le_one hH hgit _ hd, agree_of_length_le_one hH hgit _ hd⟩

/-- A diff of one file, whatever its hunks. -/
def oneFile : Diff := ⟨[⟨"mm/slab.c", [["-	return;", "+	return 0;"], ["+	kfree(p);"]]⟩], by decide⟩

theorem patchIdsAgree_iff_oneFile :
    PatchIdsAgree powerGit .linuxStable oneFile ∧ PatchIdsAgree powerGit .linuxChrome oneFile :=
  (patchIdsAgree_iff powerHash_ideal powerGit_hashesWith oneFile).mpr (by decide)

/-- The same change with its header file. -/
def twoFiles : Diff :=
  ⟨[⟨"mm/slab.c", [["-	return;", "+	return 0;"]]⟩,
    ⟨"mm/slab.h", [["-void f(void);", "+int f(void);"]]⟩], by decide⟩

theorem twoFiles_ids_differ :
    ¬PatchIdsAgree powerGit .linuxStable twoFiles ∧ ¬PatchIdsAgree powerGit .linuxChrome twoFiles :=
  ⟨not_agree_of_one_lt_length powerHash_ideal powerGit_hashesWith (by decide) (by decide),
    not_agree_of_one_lt_length powerHash_ideal powerGit_hashesWith (by decide) (by decide)⟩

end

end Findmissing
