import DevUtil.Findmissing.FixesDescriptions

/-!
# An update in two runs

`update_kernel_db` for `linux_upstream` reads the commits after the stored tip, and stores the last
one as the tip.  A run keeps the fixes until all of its rows are inserted, so the fixes of a first
part are inserted before the rows of the second one.  What git finds for a line is before the commit
of the line, so each run that reads the commit has it.

A line that cannot be read, or a SELECT that raises, ends the run before it commits: one run over
both parts loses the rows of the first part too, which two runs keep.

    a fix finds its commits in the table of its part   (linked_firstPart)
    two runs leave what one does if both parts can be
      read, or the first one cannot; only then, unless
      a name hides in a description                    (twoRuns_iff)
-/

namespace Findmissing

open Lib Regex

/-! ## The runs -/

/-- What is committed: an uncaught exception leaves the database as it was. -/
def committed (db : DB) : Except UpdateExn DB → DB
  | .ok db' => db'
  | .error _ => db

section

variable (conn : Connection) (git : Git)

/-- `update_kernel_db` for `linux_upstream`. -/
def upstreamRun (r : Clone) (db : DB) : DB := committed db (updateUpstreamDb conn git r db)

/-- A run over the lines of the commits gets through. -/
def RunReads (r : Clone) (t : UpstreamTable) (commits : List Commit) : Prop :=
  r.Reads (logLines commits) ∧ Readable conn git t (r.entries (logLines commits))

/-- What git finds for the line of a commit is in the table, or among the commits before that
one. -/
def TargetsBefore (t : UpstreamTable) (commits : List Commit) : Prop :=
  ∀ pre c post, commits = pre ++ c :: post →
    ∀ d ∈ splitlines c.body, ∀ name, RF.search d = some name →
    ∀ fsha, git.showAbbrev name = some fsha → fsha ≠ "" →
      abbreviated fsha ∈ t.rows.map UpstreamRow.sha ++ pre.map Commit.sha

end

/-- The sha of a commit is not the beginning of another one. -/
def UniqueAbbrevs (t : UpstreamTable) (commits : List Commit) : Prop :=
  ∀ x ∈ t.rows.map UpstreamRow.sha ++ commits.map Commit.sha,
    ∀ c ∈ commits, abbreviated x = c.sha → x = c.sha

/-- The commits after the tip, in two parts: the clone has the first part, and then both. -/
structure Split (db : DB) (r₁ r₂ : Clone) (p q : List Commit) : Prop where
  tip_ne : db.upstreamTip ≠ some ""
  first : r₁.history.after db.upstreamStart = some p
  both : r₂.history.after db.upstreamStart = some (p ++ q)

structure SameUpstream (db db' : DB) : Prop where
  linuxUpstream : db.linuxUpstream = db'.linuxUpstream
  upstreamFixes : ∀ fix, fix ∈ db.upstreamFixes.rows ↔ fix ∈ db'.upstreamFixes.rows
  tip : db.upstreamTip = db'.upstreamTip

theorem SameUpstream.refl (db : DB) : SameUpstream db db := ⟨rfl, fun _ => Iff.rfl, rfl⟩

section

variable {conn : Connection} {git : Git} {db : DB} {r r₁ r₂ : Clone} {t : UpstreamTable}
  {commits p q : List Commit}

/-! ## One run -/

/-- What a run leaves that can read everything. -/
theorem upstreamRun_ok (hne : db.upstreamTip ≠ some "")
    (hlog : r.history.after db.upstreamStart = some commits) (hone : ∀ c ∈ commits, c.others = [])
    (hread : Readable conn git db.linuxUpstream (commits.map Commit.entry)) :
    (upstreamRun conn git r db).linuxUpstream =
        storeRows conn git db.linuxUpstream (commits.map Commit.entry) ∧
      (∀ fix, fix ∈ (upstreamRun conn git r db).upstreamFixes.rows ↔ fix ∈ db.upstreamFixes.rows ∨
        fix ∈ storedFixes conn git db.linuxUpstream (commits.map Commit.entry) ∧
          Linked (storeRows conn git db.linuxUpstream (commits.map Commit.entry)) fix) ∧
      (upstreamRun conn git r db).upstreamTip =
        some (Feed.nextTip Commit.sha db.upstreamStart commits) := by
  obtain ⟨db', hrun, htable, hfixes, -, -, htip⟩ := updateUpstreamDb_ok hne hlog hone hread
  have hsame : upstreamRun conn git r db = db' := by
    unfold upstreamRun
    rw [hrun]
    rfl
  rw [hsame]
  exact ⟨htable, hfixes, (htip _ _).trans (if_pos rfl)⟩

theorem upstreamRun_error (hne : db.upstreamTip ≠ some "")
    (hlog : r.history.after db.upstreamStart = some commits)
    (hread : ¬RunReads conn git r db.linuxUpstream commits) : upstreamRun conn git r db = db := by
  obtain ⟨e, he⟩ := updateUpstreamDb_error hne hlog hread
  unfold upstreamRun
  rw [he]
  rfl

/-- Nothing is new. -/
theorem upstreamRun_nil (htip : db.upstreamTip.isSome) (hne : db.upstreamTip ≠ some "")
    (hlog : r.history.after db.upstreamStart = some []) : upstreamRun conn git r db = db := by
  obtain ⟨tip, htip⟩ := Option.isSome_iff_exists.mp htip
  have hstart : startOf .linuxUpstream UPSTREAM_START_BRANCH UPSTREAM_START_BRANCH db =
      .ok (db.upstreamStart, db) := by
    unfold startOf
    unfold DB.upstreamStart
    rw [htip]
    unfold DB.upstreamTip at htip
    rw [htip]
    exact if_neg fun he => hne (by unfold DB.upstreamTip; rw [htip, he])
  unfold upstreamRun
  rw [updateUpstreamDb_eq hstart hlog]
  rfl

/-- Commits with one-line descriptions are read as they are. -/
theorem runReads_iff (hfind : ∀ c ∈ commits, r.find c.sha = some c)
    (hone : ∀ c ∈ commits, c.others = []) :
    RunReads conn git r t commits ↔ Readable conn git t (commits.map Commit.entry) := by
  obtain ⟨hreads, hentries⟩ := entries_logLines hfind hone
  unfold RunReads
  rw [hentries]
  exact and_iff_right hreads

/-! ## The rows and the fixes -/

/-- Every fix is one of a commit, named in the table that has just got the row of the commit. -/
theorem storedFixes_of_commits {fix : UpstreamFix}
    (h : fix ∈ storedFixes conn git t (commits.map Commit.entry)) :
    ∃ pre c post t', commits = pre ++ c :: post ∧
      storeRow conn git (storeRows conn git t (pre.map Commit.entry)) c.entry = some t' ∧
      fix ∈ fixesNamed conn git t' c.entry := by
  obtain ⟨pre, e, post, t', hsplit, hstore, hfix⟩ := storedFixes_at h
  obtain ⟨pre', rest, rfl, rfl, hrest⟩ := List.map_eq_append_iff.mp hsplit
  obtain ⟨c, post', rfl, rfl, -⟩ := List.map_eq_cons_iff.mp hrest
  exact ⟨pre', c, post', t', rfl, hstore, hfix⟩

/-- The rows are those of commits. -/
theorem mem_storeRows_commits {sha : Sha}
    (h : sha ∈ (storeRows conn git t (commits.map Commit.entry)).rows.map UpstreamRow.sha) :
    sha ∈ t.rows.map UpstreamRow.sha ∨ sha ∈ commits.map Commit.sha := by
  refine (mem_storeRows conn git t _ h).imp_right ?_
  rintro ⟨e, he, rfl⟩
  obtain ⟨c, hc, rfl⟩ := List.mem_map.mp he
  exact List.mem_map_of_mem hc

/-- A commit that a line names is in the table by then, if it is a later commit of the list at
all. -/
theorem named_stored {pre post : List Commit} {c c' : Commit} {t' : UpstreamTable} {d : String}
    {fsha : Sha}
    (hnd : ((pre ++ c :: post).map Commit.sha).Nodup)
    (htargets : TargetsBefore git t (pre ++ c :: post))
    (hunique : UniqueAbbrevs t (pre ++ c :: post))
    (hstore : storeRow conn git (storeRows conn git t (pre.map Commit.entry)) c.entry = some t')
    (hd : d ∈ splitlines c.body) (hnamed : named conn git t' d = some fsha) (hne : fsha ≠ "")
    (hc' : c' ∈ post)
    (hsha : c'.sha = abbreviated fsha) : abbreviated fsha ∈ t'.rows.map UpstreamRow.sha := by
  have hrows : t'.rows.map UpstreamRow.sha =
      (storeRows conn git t (pre.map Commit.entry)).rows.map UpstreamRow.sha ++ [c.sha] := by
    rw [(rows_storeRow hstore).1, List.map_append]
    rfl
  unfold named at hnamed
  rcases Option.or_eq_some_iff.mp hnamed with hgit | ⟨-, hdesc⟩
  · -- git knows the sha: what it finds is not among the later commits
    obtain ⟨name, hname, hshow⟩ := Option.bind_eq_some_iff.mp hgit
    rcases List.mem_append.mp
      (htargets pre c post rfl d hd name hname fsha hshow hne) with hin | hin
    · rw [hrows]
      exact List.mem_append_left _ (mem_storeRows_of_mem conn git _ hin)
    · rw [List.map_append] at hnd
      refine absurd (List.mem_map_of_mem (List.mem_cons_of_mem c hc'))
        (List.disjoint_of_nodup_append hnd ?_)
      rw [hsha]
      exact hin
  · -- the description is the one of a row: its sha is not abbreviated further
    obtain ⟨desc, -, hfetch⟩ := Option.bind_eq_some_iff.mp hdesc
    have hrow : fsha ∈ t'.rows.map UpstreamRow.sha :=
      (List.filter_sublist.map UpstreamRow.sha).subset (conn.mem_of_fetchone hfetch)
    have hall : fsha ∈ t.rows.map UpstreamRow.sha ++ (pre ++ c :: post).map Commit.sha := by
      rw [hrows, List.mem_append, List.mem_singleton] at hrow
      rw [List.mem_append, List.map_append, List.mem_append]
      rcases hrow with hrow | rfl
      · exact (mem_storeRows_commits hrow).imp_right .inl
      · exact .inr (.inr (List.mem_map_of_mem List.mem_cons_self))
    have hsame :=
      hunique fsha hall c' (List.mem_append_right _ (List.mem_cons_of_mem c hc')) hsha.symm
    rw [← hsha, ← hsame]
    exact hrow

/-- The rows of the second part are not what a fix of the first one waits for. -/
theorem linked_firstPart (hnd : ((p ++ q).map Commit.sha).Nodup)
    (htargets : TargetsBefore git t (p ++ q)) (hunique : UniqueAbbrevs t (p ++ q))
    {fix : UpstreamFix} (hfix : fix ∈ storedFixes conn git t (p.map Commit.entry))
    (hlinked : Linked (storeRows conn git t ((p ++ q).map Commit.entry)) fix) :
    Linked (storeRows conn git t (p.map Commit.entry)) fix := by
  obtain ⟨pre, c, post, t', rfl, hstore, hfix⟩ := storedFixes_of_commits hfix
  rw [List.map_append, storeRows_append] at hlinked
  rw [List.append_assoc, List.cons_append] at hnd htargets hunique
  -- what is in the table when the commit has its row stays there
  have hstays : ∀ {sha}, sha ∈ t'.rows.map UpstreamRow.sha →
      sha ∈ (storeRows conn git t ((pre ++ c :: post).map Commit.entry)).rows.map
          UpstreamRow.sha := by
    intro sha hsha
    rw [List.map_append, List.map_cons, storeRows_append, storeRows, hstore]
    exact mem_storeRows_of_mem conn git _ hsha
  obtain ⟨d, hd, hline⟩ := List.mem_filterMap.mp hfix
  obtain ⟨fsha, hnamed, hof⟩ := Option.bind_eq_some_iff.mp hline
  unfold fixOf at hof
  split at hof
  · cases hof
  · next hne =>
    obtain rfl := (Option.some.inj hof).symm
    refine ⟨?_, hstays ?_⟩
    · rcases mem_storeRows_commits hlinked.1 with hin | hin
      · exact hin
      · obtain ⟨c', hc', hsha⟩ := List.mem_map.mp hin
        exact hstays (named_stored hnd htargets hunique hstore hd hnamed hne
          (List.mem_append_right post hc') hsha)
    · rw [(rows_storeRow hstore).1, List.map_append]
      exact List.mem_append_right _ (List.mem_singleton.mpr rfl)

/-! ## Two runs -/

theorem upstreamStart_of_tip {db : DB} {tip : Sha} (htip : db.upstreamTip = some tip) :
    db.upstreamStart = tip := by
  unfold DB.upstreamStart
  rw [htip]
  rfl

theorem upstreamStart_ne (hne : db.upstreamTip ≠ some "") : db.upstreamStart ≠ "" := by
  unfold DB.upstreamStart
  cases htip : db.upstreamTip with
  | none => exact (by decide : UPSTREAM_START_BRANCH ≠ "")
  | some tip => exact fun he => hne (by rw [htip]; exact congrArg some he)

namespace Split

variable (hsplit : Split db r₁ r₂ p q)
include hsplit

theorem nodup : ((p ++ q).map Commit.sha).Nodup := nodup_of_after hsplit.both

theorem find_both : ∀ c ∈ p ++ q, r₂.find c.sha = some c := find_of_after hsplit.both

/-- The second run goes on where the first one has ended. -/
theorem second (hone : ∀ c ∈ p, c.others = [])
    (hread : Readable conn git db.linuxUpstream (p.map Commit.entry)) :
    (upstreamRun conn git r₁ db).upstreamTip ≠ some "" ∧
      r₂.history.after (upstreamRun conn git r₁ db).upstreamStart = some q := by
  obtain ⟨-, -, htip⟩ := upstreamRun_ok hsplit.tip_ne hsplit.first hone hread
  constructor
  · rw [htip]
    exact fun he => nextTip_ne (upstreamStart_ne hsplit.tip_ne) p (Option.some.inj he)
  · rw [upstreamStart_of_tip htip]
    exact Feed.after_nextTip hsplit.both

/-- The first run stores a new tip, unless there is nothing to read and a tip already. -/
theorem empty_of_tip (hone : ∀ c ∈ p, c.others = [])
    (hread : Readable conn git db.linuxUpstream (p.map Commit.entry))
    (heq : (upstreamRun conn git r₁ db).upstreamTip = db.upstreamTip) :
    p = [] ∧ db.upstreamTip.isSome := by
  obtain ⟨-, -, htip⟩ := upstreamRun_ok hsplit.tip_ne hsplit.first hone hread
  rw [htip] at heq
  have hstart := upstreamStart_of_tip heq.symm
  refine ⟨?_, by rw [← heq]; rfl⟩
  by_contra hp
  have hlast : Feed.nextTip Commit.sha db.upstreamStart p = (p.getLast hp).sha := by
    unfold Feed.nextTip
    rw [List.getLast?_eq_some_getLast hp]
    rfl
  exact Feed.id_ne_start hsplit.first (List.getLast_mem hp) (hlast.symm.trans hstart.symm)

/-- Where both parts can be read. -/
theorem same (htargets : TargetsBefore git db.linuxUpstream (p ++ q))
    (hunique : UniqueAbbrevs db.linuxUpstream (p ++ q)) (hone : ∀ c ∈ p ++ q, c.others = [])
    (hread : Readable conn git db.linuxUpstream ((p ++ q).map Commit.entry)) :
    SameUpstream (upstreamRun conn git r₂ (upstreamRun conn git r₁ db))
      (upstreamRun conn git r₂ db) := by
  obtain ⟨honep, honeq⟩ := List.forall_mem_append.mp hone
  have hparts := hread
  rw [List.map_append, readable_append] at hparts
  obtain ⟨hp, hq⟩ := hparts
  obtain ⟨htable₁, hfixes₁, htip₁⟩ := upstreamRun_ok hsplit.tip_ne hsplit.first honep hp
  obtain ⟨hne, hsecond⟩ := hsplit.second honep hp
  have hq₁ : Readable conn git (upstreamRun conn git r₁ db).linuxUpstream (q.map Commit.entry) := by
    rw [htable₁]
    exact hq
  obtain ⟨htable₂, hfixes₂, htip₂⟩ := upstreamRun_ok hne hsecond honeq hq₁
  obtain ⟨htable, hfixes, htip⟩ := upstreamRun_ok hsplit.tip_ne hsplit.both hone hread
  rw [htable₁] at htable₂ hfixes₂
  refine ⟨?_, fun fix => ?_, ?_⟩
  · rw [htable₂, htable, List.map_append, storeRows_append]
  · have hmem := hfixes fix
    rw [List.map_append, storedFixes_append, storeRows_append, List.mem_append] at hmem
    rw [hfixes₂, hfixes₁, hmem]
    constructor
    · rintro ((hold | ⟨hfix, hlinked⟩) | ⟨hfix, hlinked⟩)
      · exact .inl hold
      · exact .inr ⟨.inl hfix, mem_storeRows_of_mem conn git _ hlinked.1,
          mem_storeRows_of_mem conn git _ hlinked.2⟩
      · exact .inr ⟨.inr hfix, hlinked⟩
    · rintro (hold | ⟨hfix | hfix, hlinked⟩)
      · exact .inl (.inl hold)
      · rw [← storeRows_append, ← List.map_append] at hlinked
        exact .inl (.inr ⟨hfix, linked_firstPart hsplit.nodup htargets hunique hfix hlinked⟩)
      · exact .inr ⟨hfix, hlinked⟩
  · rw [htip₂, htip, upstreamStart_of_tip htip₁, Feed.nextTip_append]

/-- Where the second part cannot be read: two runs keep what the first one has left, one run leaves
nothing. -/
theorem second_unreadable (hone : ∀ c ∈ p, c.others = [])
    (hp : Readable conn git db.linuxUpstream (p.map Commit.entry))
    (hq : ¬RunReads conn git r₂ (storeRows conn git db.linuxUpstream (p.map Commit.entry)) q) :
    upstreamRun conn git r₂ (upstreamRun conn git r₁ db) = upstreamRun conn git r₁ db ∧
      upstreamRun conn git r₂ db = db := by
  obtain ⟨htable₁, -, -⟩ := upstreamRun_ok hsplit.tip_ne hsplit.first hone hp
  obtain ⟨hne, hsecond⟩ := hsplit.second hone hp
  constructor
  · apply upstreamRun_error hne hsecond
    rw [htable₁]
    exact hq
  · apply upstreamRun_error hsplit.tip_ne hsplit.both
    rintro ⟨hreads, hread⟩
    rw [logLines_append] at hreads hread
    have hentries := (entries_logLines (r := r₂)
      (fun c hc => hsplit.find_both c (List.mem_append_left q hc)) hone).2
    have hsplitEntries : r₂.entries (logLines p ++ logLines q) =
        p.map Commit.entry ++ r₂.entries (logLines q) := by
      rw [← hentries]
      exact List.filterMap_append
    rw [hsplitEntries, readable_append] at hread
    exact hq ⟨(List.forall_mem_append.mp hreads).2, hread.2⟩

end Split

/-- Two runs and one run leave the same if the first part is empty and there is a tip before the
runs, or the first run does not get through, or no description of both parts is more than a line and
what the second part has looked up is in the charset; and only then, if no name hides in a
description. -/
theorem twoRuns_iff (hsplit : Split db r₁ r₂ p q)
    (htargets : TargetsBefore git db.linuxUpstream (p ++ q))
    (hunique : UniqueAbbrevs db.linuxUpstream (p ++ q)) :
    (p = [] ∧ db.upstreamTip.isSome ∨ ¬RunReads conn git r₁ db.linuxUpstream p ∨
        (∀ c ∈ p ++ q, c.others = []) ∧
          (∀ c ∈ q, c.sha ∉ db.linuxUpstream.rows.map UpstreamRow.sha → c.Encodable conn git) →
      SameUpstream (upstreamRun conn git r₂ (upstreamRun conn git r₁ db))
        (upstreamRun conn git r₂ db)) ∧
    (r₁.NoNames p → r₂.NoNames q →
      SameUpstream (upstreamRun conn git r₂ (upstreamRun conn git r₁ db))
        (upstreamRun conn git r₂ db) →
      p = [] ∧ db.upstreamTip.isSome ∨ ¬RunReads conn git r₁ db.linuxUpstream p ∨
        (∀ c ∈ p ++ q, c.others = []) ∧
          ∀ c ∈ q, c.sha ∉ db.linuxUpstream.rows.map UpstreamRow.sha → c.Encodable conn git) := by
  have hnd := hsplit.nodup
  have hall : Readable conn git db.linuxUpstream ((p ++ q).map Commit.entry) ↔ ∀ c ∈ p ++ q,
      c.sha ∉ db.linuxUpstream.rows.map UpstreamRow.sha → c.Encodable conn git := readable_iff hnd
  have hparts := hall
  rw [List.map_append, readable_append, List.forall_mem_append] at hparts
  rw [List.map_append] at hnd
  have hfirst := @readable_iff conn git db.linuxUpstream _ hnd.of_append_left
  have hfind := find_of_after hsplit.first
  constructor
  · rintro (⟨rfl, htip⟩ | hp | ⟨hone, hq⟩)
    · rw [upstreamRun_nil htip hsplit.tip_ne hsplit.first]
      exact .refl _
    · rw [upstreamRun_error hsplit.tip_ne hsplit.first hp]
      exact .refl _
    · have honep := (List.forall_mem_append.mp hone).1
      by_cases hp : Readable conn git db.linuxUpstream (p.map Commit.entry)
      · exact hsplit.same htargets hunique hone
          (hall.mpr (List.forall_mem_append.mpr ⟨hfirst.mp hp, hq⟩))
      · rw [upstreamRun_error hsplit.tip_ne hsplit.first ((runReads_iff hfind honep).not.mpr hp)]
        exact .refl _
  · intro hnames₁ hnames₂ hsame
    by_cases hp : RunReads conn git r₁ db.linuxUpstream p
    · have honep := oneLine_of_reads hnames₁ hp.1
      replace hp := (runReads_iff hfind honep).mp hp
      by_cases hq : RunReads conn git r₂
        (storeRows conn git db.linuxUpstream (p.map Commit.entry)) q
      · have honeq := oneLine_of_reads hnames₂ hq.1
        replace hq :=
          (runReads_iff (fun c hc => hsplit.find_both c (List.mem_append_right p hc)) honeq).mp hq
        exact .inr (.inr ⟨List.forall_mem_append.mpr ⟨honep, honeq⟩, (hparts.mp ⟨hp, hq⟩).2⟩)
      · obtain ⟨htwo, hone⟩ := hsplit.second_unreadable honep hp hq
        rw [htwo, hone] at hsame
        exact .inl (hsplit.empty_of_tip honep hp hsame.tip)
    · exact .inr (.inl hp)

end

/-! ## A text that cannot be looked up -/

/-- The charset of a connection that names none. -/
def Connection.latin1 : Connection :=
  { Connection.plain with encodes := fun text => text.toList.all fun c => c.toNat.blt 256 }

/-- A commit, and one with the text in its line. -/
def fixedLater (d : String) : Clone where
  history :=
    { base := "v4.4"
      items := [leakCommit "mm: leak", leakFix d]
      nodup := by
        show ["v4.4", "aaaaaaaaaaaa", "bbbbbbbbbbbb"].Nodup
        decide }
  find name :=
    if name = "aaaaaaaaaaaa" then some (leakCommit "mm: leak")
    else if name = "bbbbbbbbbbbb" then some (leakFix d) else none
  find_sha := List.forall_mem_cons.mpr ⟨rfl, List.forall_mem_singleton.mpr rfl⟩

theorem split_fixedLater (d : String) :
    Split .empty ((fixedLater d).take 1) (fixedLater d) [leakCommit "mm: leak"] [leakFix d] :=
  ⟨by decide, rfl, rfl⟩

theorem others_fixedLater (d : String) :
    ∀ c ∈ [leakCommit "mm: leak"] ++ [leakFix d], c.others = [] :=
  List.forall_mem_cons.mpr ⟨by decide, List.forall_mem_singleton.mpr (others_leakFix d)⟩

theorem targetsBefore_noShas (t : UpstreamTable) (commits : List Commit) :
    TargetsBefore noShas t commits := by
  intro _ _ _ _ _ _ _ _ fsha hshow
  cases hshow

theorem uniqueAbbrevs_fixedLater (d : String) :
    UniqueAbbrevs (DB.empty).linuxUpstream ([leakCommit "mm: leak"] ++ [leakFix d]) := by
  have hshas : ∀ x ∈ ["aaaaaaaaaaaa", "bbbbbbbbbbbb"], ∀ y ∈ ["aaaaaaaaaaaa", "bbbbbbbbbbbb"],
      abbreviated x = y → x = y := by
    decide
  intro x hx c hc
  exact hshas x hx c.sha (List.mem_map_of_mem (f := Commit.sha) hc)

theorem twoRuns_plain : SameUpstream
    (upstreamRun .plain noShas (fixedLater "mm: leak")
      (upstreamRun .plain noShas ((fixedLater "mm: leak").take 1) .empty))
    (upstreamRun .plain noShas (fixedLater "mm: leak") .empty) :=
  (twoRuns_iff (split_fixedLater _) (targetsBefore_noShas _ _) (uniqueAbbrevs_fixedLater _)).1
    (.inr (.inr ⟨others_fixedLater _, fun _ _ _ _ _ _ _ _ _ => rfl⟩))

/-- One run over both commits loses the first one too. -/
theorem twoRuns_not_same : ¬∀ (conn : Connection) (git : Git) (db : DB) (r₁ r₂ : Clone)
    (p q : List Commit),
    (∀ c ∈ p ++ q, conn.encodes c.description = true ∧ c.others = []) → Split db r₁ r₂ p q →
    TargetsBefore git db.linuxUpstream (p ++ q) → UniqueAbbrevs db.linuxUpstream (p ++ q) →
    SameUpstream (upstreamRun conn git r₂ (upstreamRun conn git r₁ db))
      (upstreamRun conn git r₂ db) := by
  intro h
  have hsplit := split_fixedLater "mm: leak → oops"
  have hone := others_fixedLater "mm: leak → oops"
  have hencodes : ∀ c ∈ [leakCommit "mm: leak"] ++ [leakFix "mm: leak → oops"],
      Connection.latin1.encodes c.description = true := List.all_eq_true.mp (by decide)
  have hsame := h .latin1 noShas _ _ _ _ _ (fun c hc => ⟨hencodes c hc, hone c hc⟩) hsplit
    (targetsBefore_noShas _ _) (uniqueAbbrevs_fixedLater _)
  obtain ⟨honep, honeq⟩ := List.forall_mem_append.mp hone
  have hp : Readable .latin1 noShas (DB.empty).linuxUpstream
      ([leakCommit "mm: leak"].map Commit.entry) := by
    refine ⟨fun _ d hd => ?_, trivial⟩
    cases hd
  have hq : ¬RunReads .latin1 noShas (fixedLater "mm: leak → oops")
      (storeRows .latin1 noShas (DB.empty).linuxUpstream ([leakCommit "mm: leak"].map Commit.entry))
      [leakFix "mm: leak → oops"] := by
    rw [runReads_iff (fun c hc => hsplit.find_both c (List.mem_append_right _ hc)) honeq]
    rintro ⟨hread, -⟩
    have hline : fixesLine "1234567" "mm: leak → oops" ∈ splitlines
        (leakFix "mm: leak → oops").body := by
      decide
    have hlooked : lookedUp noShas (fixesLine "1234567" "mm: leak → oops") =
        some "mm: leak → oops" :=
      (lookedUp_eq_self (by decide) rfl).mpr ⟨by decide, by decide, by decide⟩
    have henc := hread (by decide) _ hline _ hlooked
    revert henc
    decide
  obtain ⟨htwo, hlost⟩ := hsplit.second_unreadable honep hp hq
  rw [htwo, hlost] at hsame
  obtain ⟨hempty, -⟩ := hsplit.empty_of_tip honep hp hsame.tip
  cases hempty

end Findmissing
