import DevUtil.Lib.Replace
import DevUtil.Findmissing.CommitTables

/-!
# A run of `update_upstream_table`

The run as a function of what its lines give.  A description that the charset of the connection does
not have is not inserted; a SELECT of one raises an exception that nothing catches, and so does a
line that does not begin with a name of a commit.  Nothing has been committed by then.

    a run is its rows, its fixes and its last commit              (upstreamFold_ok)
    a run over lines that cannot be read, or that looks up what
      cannot be written, fails                                    (upstreamFold_error)
    the lines of commits with one-line descriptions give them     (entries_logLines)
-/

namespace Findmissing

open Lib Regex

section

variable (conn : Connection) (git : Git)

/-! ## What a run stores -/

/-- The text that the line has the database look up. -/
def lookedUp (d : String) : Option String :=
  (RF.search d).bind fun name =>
    if (git.showAbbrev name).isSome then none
    else (RDESC.search d).map fun desc => desc.replace "'" "''"

/-- The commit that the line names, by its sha or its description. -/
def named (t : UpstreamTable) (d : String) : Option Sha :=
  ((RF.search d).bind git.showAbbrev).or
    ((lookedUp git d).bind fun desc => conn.fetchone (UpstreamTable.shasOfDescription t desc))

/-- The charset has what is looked up for the commit. -/
def Commit.Readable (c : Commit) : Prop :=
  ∀ d ∈ splitlines c.body, ∀ desc, lookedUp git d = some desc → conn.encodes desc = true

/-- The table with the row of the commit; `none` if it gets none. -/
def storeRow (t : UpstreamTable) (e : Entry) : Option UpstreamTable :=
  if e.commit.merge = false ∧ conn.encodes e.description = true then
    t.insert (upstreamRow git e) else none

def storeRows (t : UpstreamTable) : List Entry → UpstreamTable
  | [] => t
  | e :: entries => storeRows ((storeRow conn git t e).getD t) entries

def fixesNamed (t : UpstreamTable) (e : Entry) : List UpstreamFix :=
  (splitlines e.commit.body).filterMap fun d => (named conn git t d).bind (fixOf e.sha)

/-- What is looked up for an entry is looked up when its row has just been stored. -/
def entryFixes (t : UpstreamTable) (e : Entry) : List UpstreamFix :=
  match storeRow conn git t e with
  | some t => fixesNamed conn git t e
  | none => []

def storedFixes (t : UpstreamTable) : List Entry → List UpstreamFix
  | [] => []
  | e :: entries => entryFixes conn git t e ++ storedFixes ((storeRow conn git t e).getD t) entries

/-- The charset has what is looked up in the run. -/
def Readable (t : UpstreamTable) : List Entry → Prop
  | [] => True
  | e :: entries =>
    ((storeRow conn git t e).isSome → e.commit.Readable conn git) ∧
      Readable ((storeRow conn git t e).getD t) entries

/-- What the lines give that can be read. -/
def Clone.entries (r : Clone) (lines : List String) : List Entry :=
  lines.filterMap fun line => (r.readLine line).toOption

/-- Every line begins with a name that git knows, and has a blank unless it is a merge's. -/
def Clone.Reads (r : Clone) (lines : List String) : Prop :=
  ∀ line ∈ lines, (r.readLine line).toOption.isSome

variable {conn git}

theorem fixedSha_ok (t : UpstreamTable) {d : String}
    (h : ∀ desc, lookedUp git d = some desc → conn.encodes desc = true) :
    fixedSha conn git t d = .ok (named conn git t d) := by
  unfold fixedSha
  unfold lookedUp at h
  unfold named lookedUp
  cases hname : RF.search d with
  | none => rfl
  | some name =>
    rw [hname] at h
    cases hshow : git.showAbbrev name with
    | some fsha => simp [hshow]
    | none =>
      cases hdesc : RDESC.search d with
      | none => simp [hshow]
      | some desc =>
        have henc := h (desc.replace "'" "''") (by simp [hshow, hdesc])
        simp [hshow, selectSha, henc]

theorem fixedSha_error (t : UpstreamTable) {d desc : String} (h : lookedUp git d = some desc)
    (henc : conn.encodes desc = false) : fixedSha conn git t d = .error .unicodeEncodeError := by
  unfold lookedUp at h
  obtain ⟨name, hname, h⟩ := Option.bind_eq_some_iff.mp h
  unfold fixedSha
  rw [hname]
  cases hshow : git.showAbbrev name with
  | some fsha => simp [hshow] at h
  | none =>
    rw [hshow] at h
    obtain ⟨text, htext, rfl⟩ := Option.map_eq_some_iff.mp h
    rw [htext]
    simp [hshow, selectSha, henc]

theorem fixesOfLines_ok (t : UpstreamTable) (sha : Sha) {ds : List String}
    (h : ∀ d ∈ ds, ∀ desc, lookedUp git d = some desc → conn.encodes desc = true) :
    fixesOfLines conn git t sha ds =
      .ok (ds.filterMap fun d => (named conn git t d).bind (fixOf sha)) := by
  induction ds with
  | nil => rfl
  | cons d ds ih =>
    have hds := ih fun d' hd' => h d' (List.mem_cons_of_mem d hd')
    rw [fixesOfLines, fixedSha_ok t (h d List.mem_cons_self), hds]
    show Except.ok (((named conn git t d).bind (fixOf sha)).toList ++ _) = _
    cases hfix : (named conn git t d).bind (fixOf sha) with
    | none => simp [hfix]
    | some fix => simp [hfix]

theorem fixesOfLines_error (t : UpstreamTable) (sha : Sha) {ds : List String}
    (h : ¬∀ d ∈ ds, ∀ desc, lookedUp git d = some desc → conn.encodes desc = true) :
    fixesOfLines conn git t sha ds = .error .unicodeEncodeError := by
  induction ds with
  | nil => exact absurd (fun d hd => by cases hd) h
  | cons d ds ih =>
    by_cases hd : ∀ desc, lookedUp git d = some desc → conn.encodes desc = true
    · have hds := ih fun hds => h (List.forall_mem_cons.mpr ⟨hd, hds⟩)
      rw [fixesOfLines, fixedSha_ok t hd, hds]
      rfl
    · obtain ⟨desc, hlooked, henc⟩ :
          ∃ desc, lookedUp git d = some desc ∧ conn.encodes desc = false := by
        simpa using hd
      rw [fixesOfLines, fixedSha_error t hlooked henc]
      rfl

theorem upstreamEntry_ok (s : UpstreamLoop) {e : Entry}
    (h : (storeRow conn git s.db.linuxUpstream e).isSome → e.commit.Readable conn git) :
    upstreamEntry conn git s e = .ok
      ⟨{ s.db with
          linuxUpstream := (storeRow conn git s.db.linuxUpstream e).getD s.db.linuxUpstream },
        s.fixes ++ entryFixes conn git s.db.linuxUpstream e, some e.sha⟩ := by
  unfold upstreamEntry entryFixes DB.insertUpstream
  unfold storeRow at h ⊢
  cases hmerge : e.commit.merge with
  | true => simp
  | false =>
    cases henc : conn.encodes e.description with
    | false => simp
    | true =>
      rw [hmerge, henc] at h
      cases hins : s.db.linuxUpstream.insert (upstreamRow git e) with
      | none => simp
      | some t =>
        have hlines := fixesOfLines_ok t e.sha (h (by simp [hins]))
        simp only [hlines]
        rfl

theorem upstreamEntry_error (s : UpstreamLoop) {e : Entry}
    (hstore : (storeRow conn git s.db.linuxUpstream e).isSome) (h : ¬e.commit.Readable conn git) :
    upstreamEntry conn git s e = .error .unicodeEncodeError := by
  obtain ⟨t, ht⟩ := Option.isSome_iff_exists.mp hstore
  unfold storeRow at ht
  by_cases he : e.commit.merge = false ∧ conn.encodes e.description = true
  · rw [if_pos he] at ht
    have hlines := fixesOfLines_error t e.sha h
    unfold upstreamEntry DB.insertUpstream
    rw [he.1, he.2, ht]
    simp only [hlines]
    rfl
  · rw [if_neg he] at ht
    cases ht

variable {r : Clone}

theorem entries_cons {line : String} {e : Entry} (h : r.readLine line = .ok e)
    (lines : List String) :
    r.entries (line :: lines) = e :: r.entries lines := by
  unfold Clone.entries
  rw [List.filterMap_cons_some (b := e) (by rw [h]; rfl)]

theorem upstreamFold_ok {lines : List String} : ∀ (s : UpstreamLoop), r.Reads lines →
    Readable conn git s.db.linuxUpstream (r.entries lines) →
      lines.foldlM (upstreamLine conn git r) s =
        .ok ⟨{ s.db with linuxUpstream := storeRows conn git s.db.linuxUpstream (r.entries lines) },
          s.fixes ++ storedFixes conn git s.db.linuxUpstream (r.entries lines),
          ((r.entries lines).getLast?.map Entry.sha).or s.last⟩ := by
  induction lines with
  | nil =>
    intro s _ _
    show Except.ok s = .ok ⟨_, s.fixes ++ [], _⟩
    rw [List.append_nil]
    rfl
  | cons line lines ih =>
    intro s hreads h
    obtain ⟨hline, hlines⟩ := List.forall_mem_cons.mp hreads
    obtain ⟨e, he⟩ : ∃ e, r.readLine line = .ok e := by
      cases hread : r.readLine line with
      | ok e => exact ⟨e, rfl⟩
      | error x =>
        rw [hread] at hline
        cases hline
    rw [entries_cons he] at h ⊢
    have hstep : upstreamLine conn git r s line = upstreamEntry conn git s e := by
      unfold upstreamLine
      rw [he]
      rfl
    rw [List.foldlM_cons, hstep, upstreamEntry_ok s h.1]
    show lines.foldlM _ _ = _
    rw [ih _ hlines h.2, storeRows, storedFixes, List.append_assoc]
    have hlast : ((r.entries lines).getLast?.map Entry.sha).or (some e.sha) =
        ((e :: r.entries lines).getLast?.map Entry.sha).or s.last := by
      rw [List.getLast?_cons]
      cases (r.entries lines).getLast? <;> rfl
    rw [hlast]

theorem upstreamFold_error {lines : List String} : ∀ (s : UpstreamLoop),
    ¬(r.Reads lines ∧ Readable conn git s.db.linuxUpstream (r.entries lines)) →
      ∃ e, lines.foldlM (upstreamLine conn git r) s = .error e := by
  induction lines with
  | nil => exact fun s h => absurd (And.intro (fun line hline => (by cases hline)) trivial) h
  | cons line lines ih =>
    intro s h
    rw [List.foldlM_cons]
    unfold upstreamLine
    cases hline : r.readLine line with
    | error x => exact ⟨x, rfl⟩
    | ok e =>
      rw [entries_cons hline] at h
      by_cases he : (storeRow conn git s.db.linuxUpstream e).isSome → e.commit.Readable conn git
      · show ∃ x, (upstreamEntry conn git s e >>= _) = _
        rw [upstreamEntry_ok s he]
        refine ih _ fun hrest => h ⟨List.forall_mem_cons.mpr ⟨?_, hrest.1⟩, he, hrest.2⟩
        rw [hline]
        rfl
      · obtain ⟨hstore, hread⟩ := Classical.not_imp.mp he
        show ∃ x, (upstreamEntry conn git s e >>= _) = _
        rw [upstreamEntry_error s hstore hread]
        exact ⟨_, rfl⟩

/-! ## Entries after entries -/

theorem storeRows_append (t : UpstreamTable) (as bs : List Entry) :
    storeRows conn git t (as ++ bs) = storeRows conn git (storeRows conn git t as) bs := by
  induction as generalizing t with
  | nil => rfl
  | cons e as ih => exact ih _

theorem storedFixes_append (t : UpstreamTable) (as bs : List Entry) :
    storedFixes conn git t (as ++ bs) =
      storedFixes conn git t as ++ storedFixes conn git (storeRows conn git t as) bs := by
  induction as generalizing t with
  | nil => rfl
  | cons e as ih =>
    rw [List.cons_append, storedFixes, storedFixes, ih, List.append_assoc]
    rfl

theorem readable_append (t : UpstreamTable) (as bs : List Entry) :
    Readable conn git t (as ++ bs) ↔
      Readable conn git t as ∧ Readable conn git (storeRows conn git t as) bs := by
  induction as generalizing t with
  | nil => exact (and_iff_right trivial).symm
  | cons e as ih =>
    show _ ∧ Readable conn git _ (as ++ bs) ↔ (_ ∧ _) ∧ _
    rw [ih, and_assoc]
    exact Iff.rfl

theorem rows_storeRow {t t' : UpstreamTable} {e : Entry} (h : storeRow conn git t e = some t') :
    t'.rows = t.rows ++ [upstreamRow git e] ∧ e.sha ∉ t.rows.map UpstreamRow.sha := by
  unfold storeRow at h
  split at h
  · obtain ⟨hnew, hrows⟩ := Table.insert_eq_some.mp h
    refine ⟨hrows, fun hin => ?_⟩
    obtain ⟨r, hr, hsha⟩ := List.mem_map.mp hin
    exact hnew r hr hsha
  · cases h

theorem rows_storeRows (conn : Connection) (git : Git) (t : UpstreamTable) (entries : List Entry) :
    ∃ stored : List Entry, stored.Sublist entries ∧
      (storeRows conn git t entries).rows = t.rows ++ stored.map (upstreamRow git) := by
  induction entries generalizing t with
  | nil => exact ⟨[], .slnil, (List.append_nil _).symm⟩
  | cons e entries ih =>
    obtain ⟨stored, hsub, hrows⟩ := ih ((storeRow conn git t e).getD t)
    cases hstore : storeRow conn git t e with
    | none =>
      rw [hstore] at hrows
      exact ⟨stored, hsub.cons e, by rw [storeRows, hstore]; exact hrows⟩
    | some t' =>
      rw [hstore] at hrows
      refine ⟨e :: stored, hsub.cons_cons e, ?_⟩
      rw [storeRows, hstore, hrows]
      show t'.rows ++ _ = _
      rw [(rows_storeRow hstore).1, List.append_assoc]
      rfl

theorem mem_storeRows (conn : Connection) (git : Git) (t : UpstreamTable) (entries : List Entry)
    {sha : Sha} (h : sha ∈ (storeRows conn git t entries).rows.map UpstreamRow.sha) :
    sha ∈ t.rows.map UpstreamRow.sha ∨ ∃ e ∈ entries, e.sha = sha := by
  obtain ⟨stored, hsub, hrows⟩ := rows_storeRows conn git t entries
  rw [hrows, List.map_append, List.mem_append, List.map_map] at h
  refine h.imp_right fun h => ?_
  obtain ⟨e, he, hsha⟩ := List.mem_map.mp h
  exact ⟨e, hsub.subset he, hsha⟩

theorem mem_storeRows_of_mem (conn : Connection) (git : Git) {t : UpstreamTable}
    (entries : List Entry) {sha : Sha} (h : sha ∈ t.rows.map UpstreamRow.sha) :
    sha ∈ (storeRows conn git t entries).rows.map UpstreamRow.sha := by
  obtain ⟨stored, -, hrows⟩ := rows_storeRows conn git t entries
  rw [hrows, List.map_append]
  exact List.mem_append_left _ h

theorem storeRow_isSome {t : UpstreamTable} {e : Entry} : (storeRow conn git t e).isSome ↔
    e.commit.merge = false ∧ conn.encodes e.description = true ∧
      e.sha ∉ t.rows.map UpstreamRow.sha := by
  unfold storeRow
  by_cases he : e.commit.merge = false ∧ conn.encodes e.description = true
  · rw [if_pos he, Option.isSome_iff_ne_none, ne_eq, Table.insert_eq_none, ← and_assoc,
      and_iff_right he, List.mem_map]
    exact Iff.rfl
  · rw [if_neg he]
    simp only [Option.isSome_none, Bool.false_eq_true, false_iff]
    exact fun h => he ⟨h.1, h.2.1⟩

/-! ## The fixes -/

/-- Every fix is one of an entry, named in the table that has just got the row of the entry. -/
theorem storedFixes_at {t : UpstreamTable} {entries : List Entry} {fix : UpstreamFix}
    (h : fix ∈ storedFixes conn git t entries) : ∃ pre e post t', entries = pre ++ e :: post ∧
      storeRow conn git (storeRows conn git t pre) e = some t' ∧
        fix ∈ fixesNamed conn git t' e := by
  induction entries generalizing t with
  | nil => cases h
  | cons e entries ih =>
    rcases List.mem_append.mp h with h | h
    · unfold entryFixes at h
      split at h
      · next t' hstore => exact ⟨[], e, entries, t', rfl, hstore, h⟩
      · cases h
    · obtain ⟨pre, e', post, t', rfl, hstore, hfix⟩ := ih h
      exact ⟨e :: pre, e', post, t', rfl, hstore, hfix⟩

/-- A fix is inserted if both commits are in `linux_upstream`. -/
theorem mem_insertFixes {db : DB} {fixes : List UpstreamFix} {fix : UpstreamFix} :
    fix ∈ (insertFixes db fixes).upstreamFixes.rows ↔ fix ∈ db.upstreamFixes.rows ∨
      fix ∈ fixes ∧ db.inLinuxUpstream fix.upstreamSha = true ∧
        db.inLinuxUpstream fix.fixedbyUpstreamSha = true := by
  induction fixes generalizing db with
  | nil => simp [insertFixes]
  | cons f fixes ih =>
    have hone : fix ∈ (db.orSame (db.insertUpstreamFix f)).upstreamFixes.rows ↔
      fix ∈ db.upstreamFixes.rows ∨
        fix = f ∧ db.inLinuxUpstream fix.upstreamSha = true ∧
            db.inLinuxUpstream fix.fixedbyUpstreamSha = true := by
      unfold DB.insertUpstreamFix
      by_cases hin : (db.inLinuxUpstream f.upstreamSha && db.inLinuxUpstream f.fixedbyUpstreamSha) =
        true
      · obtain ⟨hup, hby⟩ := Bool.and_eq_true_iff.mp hin
        rw [if_pos hin]
        cases hins : db.upstreamFixes.insert f with
        | none =>
          obtain ⟨f', hf', hkey⟩ := Table.insert_eq_none.mp hins
          have hf' : f ∈ db.upstreamFixes.rows := by
            obtain ⟨x, y⟩ := f'
            obtain ⟨x', y'⟩ := f
            cases hkey
            exact hf'
          refine (or_iff_left_of_imp ?_).symm
          rintro ⟨rfl, -⟩
          exact hf'
        | some t =>
          show fix ∈ t.rows ↔ _
          rw [(Table.insert_eq_some.mp hins).2, List.mem_append, List.mem_singleton]
          apply or_congr_right
          constructor
          · rintro rfl
            exact ⟨rfl, hup, hby⟩
          · exact fun h => h.1
      · rw [if_neg hin]
        refine (or_iff_left_of_imp ?_).symm
        rintro ⟨rfl, hup, hby⟩
        exact absurd (Bool.and_eq_true_iff.mpr ⟨hup, hby⟩) hin
    have hsame : (db.orSame (db.insertUpstreamFix f)).linuxUpstream = db.linuxUpstream := by
      obtain ⟨t, ht⟩ := insertFixes_eq [f] db
      show (insertFixes db [f]).linuxUpstream = _
      rw [ht]
    show fix ∈ (insertFixes (db.orSame (db.insertUpstreamFix f)) fixes).upstreamFixes.rows ↔ _
    rw [ih, hone, List.mem_cons]
    unfold DB.inLinuxUpstream
    rw [hsame]
    constructor
    · rintro ((h | h) | h)
      · exact .inl h
      · exact .inr ⟨.inl h.1, h.2⟩
      · exact .inr ⟨.inr h.1, h.2⟩
    · rintro (h | ⟨h | h, hin⟩)
      · exact .inl (.inl h)
      · exact .inl (.inr ⟨h, hin⟩)
      · exact .inr ⟨h, hin⟩

/-! ## The lines of commits -/

section

variable {t : UpstreamTable} {commits : List Commit}

/-- Commits whose descriptions are one line are what their lines give. -/
theorem entries_logLines (hfind : ∀ c ∈ commits, r.find c.sha = some c)
    (hone : ∀ c ∈ commits, c.others = []) :
    r.Reads (logLines commits) ∧ r.entries (logLines commits) = commits.map Commit.entry := by
  induction commits with
  | nil => exact ⟨fun line hline => (by cases hline), rfl⟩
  | cons c commits ih =>
    obtain ⟨hreads, hentries⟩ := ih (fun c' hc' => hfind c' (List.mem_cons_of_mem c hc'))
      fun c' hc' => hone c' (List.mem_cons_of_mem c hc')
    have hline := readLine_title r (hfind c List.mem_cons_self)
    rw [logLines_cons, hone c List.mem_cons_self]
    refine ⟨List.forall_mem_cons.mpr ⟨?_, hreads⟩, ?_⟩
    · rw [hline]
      rfl
    · rw [List.cons_append, entries_cons hline, List.nil_append, hentries]
      rfl

/-- Where no line goes on with a name that git knows, only such commits can be read. -/
theorem oneLine_of_reads (hnames : r.NoNames commits) (hreads : r.Reads (logLines commits)) :
    ∀ c ∈ commits, c.others = [] := by
  induction commits with
  | nil => exact fun c hc => by cases hc
  | cons c commits ih =>
    rw [logLines_cons, List.cons_append] at hreads
    obtain ⟨-, hreads⟩ := List.forall_mem_cons.mp hreads
    obtain ⟨hothers, hreads⟩ := List.forall_mem_append.mp hreads
    refine List.forall_mem_cons.mpr
      ⟨?_, ih (fun c' hc' => hnames c' (List.mem_cons_of_mem c hc')) hreads⟩
    apply List.eq_nil_iff_forall_not_mem.mpr
    intro l hl
    have hread := hothers l hl
    unfold Clone.readLine at hread
    rw [hnames c List.mem_cons_self l hl] at hread
    cases hread

theorem getLast?_entries (commits : List Commit) :
    (commits.map Commit.entry).getLast?.map Entry.sha = commits.getLast?.map Commit.sha := by
  rw [List.getLast?_map, Option.map_map]
  rfl

variable (conn git)

/-- What the commit has looked up is in the charset, if the commit gets a row. -/
def Commit.Encodable (c : Commit) : Prop :=
  c.merge = false → conn.encodes c.title = true → c.Readable conn git

/-- The loop of `update_upstream_table` gets over the commit. -/
structure Commit.UpstreamFine (c : Commit) : Prop where
  oneLine : c.others = []
  encodable : c.Encodable conn git

variable {conn git}

/-- A row more changes nothing for a commit with another sha. -/
theorem mem_getD {c : Commit} {sha : Sha} (hne : sha ≠ c.sha) :
    sha ∈ ((storeRow conn git t c.entry).getD t).rows.map UpstreamRow.sha ↔
      sha ∈ t.rows.map UpstreamRow.sha := by
  cases hstore : storeRow conn git t c.entry with
  | none => exact Iff.rfl
  | some t' =>
    show sha ∈ t'.rows.map UpstreamRow.sha ↔ _
    rw [(rows_storeRow hstore).1, List.map_append, List.mem_append]
    exact or_iff_left fun hin => hne (List.mem_singleton.mp hin)

/-- For commits with distinct shas the table at the start decides. -/
theorem readable_iff (hnd : (commits.map Commit.sha).Nodup) :
    Readable conn git t (commits.map Commit.entry) ↔
      ∀ c ∈ commits, c.sha ∉ t.rows.map UpstreamRow.sha → c.Encodable conn git := by
  induction commits generalizing t with
  | nil => exact ⟨fun _ c hc => (by cases hc), fun _ => trivial⟩
  | cons c commits ih =>
    obtain ⟨hc, hnd⟩ := List.nodup_cons.mp hnd
    have hhead : ((storeRow conn git t c.entry).isSome → c.Readable conn git) ↔
        (c.sha ∉ t.rows.map UpstreamRow.sha → c.Encodable conn git) := by
      rw [storeRow_isSome]
      exact ⟨fun h hs hm he => h ⟨hm, he, hs⟩, fun h hs => h hs.2.2 hs.1 hs.2.1⟩
    show (_ ∧ Readable conn git _ (commits.map Commit.entry)) ↔ _
    rw [List.forall_mem_cons, ← hhead, ih hnd]
    apply and_congr_right
    intro _
    refine forall₂_congr fun c' hc' => ?_
    rw [mem_getD fun he => hc (he ▸ List.mem_map_of_mem hc')]

/-- The rows of commits that the table does not have yet. -/
theorem rows_storeRows_entries (hnd : (commits.map Commit.sha).Nodup)
    (hnew : ∀ c ∈ commits, c.sha ∉ t.rows.map UpstreamRow.sha) :
    (storeRows conn git t (commits.map Commit.entry)).rows = t.rows ++
      (commits.filter fun c => !c.merge && conn.encodes c.title).map fun c =>
          upstreamRow git c.entry := by
  induction commits generalizing t with
  | nil => exact (List.append_nil _).symm
  | cons c commits ih =>
    obtain ⟨hc, hnd⟩ := List.nodup_cons.mp hnd
    show (storeRows conn git ((storeRow conn git t c.entry).getD t) _).rows = _
    cases hstore : storeRow conn git t c.entry with
    | none =>
      have hskip : (!c.merge && conn.encodes c.title) = false := by
        by_contra hkeep
        have hkeep := Bool.and_eq_true_iff.mp (Bool.of_not_eq_false hkeep)
        have hmerge : c.merge = false := by simpa using hkeep.1
        have hsome : (storeRow conn git t c.entry).isSome :=
          storeRow_isSome.mpr ⟨hmerge, hkeep.2, hnew c List.mem_cons_self⟩
        rw [hstore] at hsome
        cases hsome
      rw [List.filter_cons_of_neg (p := fun c : Commit => !c.merge && conn.encodes c.title)
        (by rw [hskip]; exact Bool.false_ne_true)]
      exact ih hnd fun c' hc' => hnew c' (List.mem_cons_of_mem c hc')
    | some t' =>
      have hsome := storeRow_isSome.mp (Option.isSome_iff_exists.mpr ⟨t', hstore⟩)
      have hkeep : (!c.merge && conn.encodes c.title) = true := by
        rw [show c.merge = false from hsome.1, show conn.encodes c.title = true from hsome.2.1]
        rfl
      have hrows := (rows_storeRow hstore).1
      have hnew' : ∀ c' ∈ commits, c'.sha ∉ t'.rows.map UpstreamRow.sha := by
        intro c' hc' hmem
        rw [hrows, List.map_append, List.mem_append] at hmem
        rcases hmem with hmem | hmem
        · exact hnew c' (List.mem_cons_of_mem c hc') hmem
        · have heq : c'.sha = c.sha := List.mem_singleton.mp hmem
          exact hc (heq ▸ List.mem_map_of_mem hc')
      rw [List.filter_cons_of_pos (p := fun c : Commit => !c.merge && conn.encodes c.title) hkeep]
      show (storeRows conn git t' _).rows = _
      rw [ih hnd hnew', hrows, List.append_assoc]
      rfl

end

/-! ## One update -/

def DB.upstreamTip (db : DB) : Option Sha := db.shaTip .linuxUpstream UPSTREAM_START_BRANCH

def DB.upstreamStart (db : DB) : Sha := db.upstreamTip.getD UPSTREAM_START_BRANCH

/-- Both commits of the fix are in the table. -/
def Linked (t : UpstreamTable) (fix : UpstreamFix) : Prop :=
  fix.upstreamSha ∈ t.rows.map UpstreamRow.sha ∧ fix.fixedbyUpstreamSha ∈ t.rows.map UpstreamRow.sha

section

variable {db db₁ : DB} {commits : List Commit}

theorem updateUpstreamDb_eq
    (hstart : startOf .linuxUpstream UPSTREAM_START_BRANCH UPSTREAM_START_BRANCH db =
      .ok (db.upstreamStart, db₁))
    (hlog : r.history.after db.upstreamStart = some commits) :
    updateUpstreamDb conn git r db =
      ((logLines commits).foldlM (upstreamLine conn git r) ⟨db₁, [], none⟩ >>= fun s =>
        return updateLast (insertFixes s.db s.fixes) .linuxUpstream UPSTREAM_START_BRANCH
          s.last) := by
  unfold updateUpstreamDb updateKernelDb updateBranch
  simp only [id, hstart, updateUpstreamTable, gitLog, hlog, updateKernelDb]
  cases (logLines commits).foldlM (upstreamLine conn git r) ⟨db₁, [], none⟩ <;> rfl

/-- What an update leaves that can read everything. -/
theorem updateUpstreamDb_ok (hne : db.upstreamTip ≠ some "")
    (hlog : r.history.after db.upstreamStart = some commits) (hone : ∀ c ∈ commits, c.others = [])
    (hread : Readable conn git db.linuxUpstream (commits.map Commit.entry)) :
    ∃ db', updateUpstreamDb conn git r db = .ok db' ∧
      db'.linuxUpstream = storeRows conn git db.linuxUpstream (commits.map Commit.entry) ∧
      (∀ fix, fix ∈ db'.upstreamFixes.rows ↔ fix ∈ db.upstreamFixes.rows ∨
        fix ∈ storedFixes conn git db.linuxUpstream (commits.map Commit.entry) ∧
          Linked (storeRows conn git db.linuxUpstream (commits.map Commit.entry)) fix) ∧
      db'.linuxStable = db.linuxStable ∧ db'.linuxChrome = db.linuxChrome ∧
      ∀ p b, db'.shaTip p b = if (Kernel.linuxUpstream, UPSTREAM_START_BRANCH) = (p, b) then
        some (Feed.nextTip Commit.sha db.upstreamStart commits) else db.shaTip p b := by
  obtain ⟨db₁, hstart, htip₁⟩ := startOf_ok UPSTREAM_START_BRANCH hne
  obtain ⟨f, hf⟩ := startOf_eq hstart
  have htable : db₁.linuxUpstream = db.linuxUpstream := by rw [hf]
  have hfixes : db₁.upstreamFixes = db.upstreamFixes := by rw [hf]
  obtain ⟨hreads, hentries⟩ := entries_logLines (find_of_after hlog) hone
  -- the database when the fixes are in, with the tip still to be stored
  obtain ⟨db₂, hdb₂⟩ : ∃ db₂, db₂ = insertFixes
      { db₁ with linuxUpstream := storeRows conn git db.linuxUpstream (commits.map Commit.entry) }
      (storedFixes conn git db.linuxUpstream (commits.map Commit.entry)) := ⟨_, rfl⟩
  have hrun : updateUpstreamDb conn git r db = .ok
      (updateLast db₂ .linuxUpstream UPSTREAM_START_BRANCH (commits.getLast?.map Commit.sha)) := by
    have hloop := @upstreamFold_ok conn git _ _ ⟨db₁, [], none⟩ hreads
      (by rw [hentries]; exact htable.symm ▸ hread)
    rw [updateUpstreamDb_eq hstart hlog, hloop, hentries, List.nil_append, Option.or_none,
      getLast?_entries, hdb₂, ← htable]
    rfl
  obtain ⟨x, hx⟩ :=
    insertFixes_eq (storedFixes conn git db.linuxUpstream (commits.map Commit.entry))
    { db₁ with linuxUpstream := storeRows conn git db.linuxUpstream (commits.map Commit.entry) }
  obtain ⟨f₂, hlast⟩ := updateLast_eq db₂ .linuxUpstream UPSTREAM_START_BRANCH
    (commits.getLast?.map Commit.sha)
  refine ⟨_, hrun, ?_, fun fix => ?_, ?_, ?_, fun p b => ?_⟩
  · rw [hlast, hdb₂, hx]
  · rw [hlast, hdb₂]
    show fix ∈ (insertFixes _ _).upstreamFixes.rows ↔ _
    rw [mem_insertFixes, inLinuxUpstream_eq_true, inLinuxUpstream_eq_true]
    show fix ∈ db₁.upstreamFixes.rows ∨ _ ↔ _
    rw [hfixes]
    exact Iff.rfl
  · rw [hlast, hdb₂, hx, hf]
  · rw [hlast, hdb₂, hx, hf]
  · have hkeep : db₂.shaTip = db₁.shaTip := by
      rw [hdb₂, hx]
      rfl
    have htip₂ : db₂.shaTip .linuxUpstream UPSTREAM_START_BRANCH = some db.upstreamStart := by
      rw [hkeep, htip₁, if_pos rfl]
      rfl
    rw [updateLast_shaTip htip₂ (lastSha_ne commits), hkeep, htip₁]
    split <;> rfl

theorem updateUpstreamDb_error (hne : db.upstreamTip ≠ some "")
    (hlog : r.history.after db.upstreamStart = some commits)
    (hread : ¬(r.Reads (logLines commits) ∧
      Readable conn git db.linuxUpstream (r.entries (logLines commits)))) :
    ∃ e, updateUpstreamDb conn git r db = .error e := by
  obtain ⟨db₁, hstart, -⟩ := startOf_ok UPSTREAM_START_BRANCH hne
  obtain ⟨f, hf⟩ := startOf_eq hstart
  have htable : db₁.linuxUpstream = db.linuxUpstream := by rw [hf]
  obtain ⟨e, he⟩ := @upstreamFold_error conn git _ _ ⟨db₁, [], none⟩
    (htable.symm ▸ hread)
  exact ⟨e, by rw [updateUpstreamDb_eq hstart hlog, he]; rfl⟩

/-- An update gets through only if its loop gets over every commit that is new. -/
theorem updateUpstreamDb_fine (hne : db.upstreamTip ≠ some "")
    (hlog : r.history.after db.upstreamStart = some commits) (hnames : r.NoNames commits)
    (hnew : ∀ c ∈ commits, c.sha ∉ db.linuxUpstream.rows.map UpstreamRow.sha) {db' : DB}
    (hrun : updateUpstreamDb conn git r db = .ok db') : ∀ c ∈ commits, c.UpstreamFine conn git := by
  by_cases hread : r.Reads (logLines commits) ∧
      Readable conn git db.linuxUpstream (r.entries (logLines commits))
  · obtain ⟨hreads, hread⟩ := hread
    have hone := oneLine_of_reads hnames hreads
    rw [(entries_logLines (find_of_after hlog) hone).2, readable_iff (nodup_of_after hlog)] at hread
    exact fun c hc => ⟨hone c hc, hread c hc (hnew c hc)⟩
  · obtain ⟨e, he⟩ := updateUpstreamDb_error hne hlog hread
    rw [hrun] at he
    cases he

end

end

end Findmissing
