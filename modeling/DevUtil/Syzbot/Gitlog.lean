import DevUtil.Syzbot.Titles

/-!
# Git logs

`Gitlog.parse_log` of `git.py`, against the logs that `git log --name-only` writes. The bytes of a
file are its characters here.

    parse_log of the log of some commits = the ones that are no merges
      ↔ every one of these can be read back    (parse_log_iff)

A commit without a body cannot be read back if it has files: `parse_log` takes it for given
that there is a line of the body behind the title, and steps over the first file.
-/

namespace SyzbotAutotriager

open Lib Fields

abbrev Line := List Char

/-! ## Parsing -/

structure Gitcommit where
  commitid : List Char
  title : List Char
  body : List Char
  files : List Char
deriving DecidableEq

/-- `Gitcommit.__init__` -/
def Gitcommit.new (commitid title body files : List Char) : Gitcommit :=
  ⟨commitid, title, body, strip files⟩

inductive ParseError
  | indexError
  | outOfFuel
deriving DecidableEq

def isCommitStart (x : Line) : Bool := "commit".toList.isPrefixOf x

def isMergeCommit (x : Line) : Bool := "Merge:".toList.isPrefixOf x

/-- The loop over the body, and the contents that are left. -/
def bodyLoop : List Line → List Char × List Line
  | [] => ([], [])
  | line :: rest =>
    if isCommitStart line then ([], line :: rest)
    else if line.head? ≠ some ' ' then ([], rest)
    else
      let (body, left) := bodyLoop rest
      (strip line ++ '\n' :: body, left)

/-- The loop over the files, and the contents that are left. -/
def filesLoop : List Line → List Char × List Line
  | [] => ([], [])
  | line :: rest =>
    if isCommitStart line then ([], line :: rest)
    else if strip line = [] then filesLoop rest
    else
      let (files, left) := filesLoop rest
      (line ++ files, left)

/-- `parse_log` on `self.contents[i:]`, in at most so many rounds. -/
def parseFrom (order : ReplacerOrder) : Nat → List Line → Except ParseError (List Gitcommit)
  | 0, _ => .error .outOfFuel
  | _ + 1, [] => .ok []
  | fuel + 1, line :: rest =>
    if isCommitStart line then
      match rest[0]? with
      | none => .error .indexError
      | some next =>
        if isMergeCommit next then parseFrom order fuel rest
        else
          match (words line)[1]?, rest[3]? with
          | some commitid, some titleLine =>
            let title := cleanGitTitle order (strip titleLine)
            let (body, left) := bodyLoop (rest.drop 5)
            let (files, left) := filesLoop left
            (parseFrom order fuel left).map (Gitcommit.new commitid title body files :: ·)
          | _, _ => .error .indexError
    else parseFrom order fuel rest

/-- `Gitlog.parse_log`, with what it appends to `self.commits`. -/
def parseLog (order : ReplacerOrder) (contents : List Line) : Except ParseError (List Gitcommit) :=
  parseFrom order (contents.length + 1) contents

/-! ## The log of some commits -/

structure Commit where
  commitid : List Char
  /-- the parents, for a merge -/
  merge : Option Line
  author : Line
  date : Line
  title : Line
  body : List Line
  files : List Line
  commitid_ne : commitid ≠ []
  commitid_noSpace : NoSpace commitid
  author_line : '\n' ∉ author
  date_line : '\n' ∉ date
  title_line : '\n' ∉ title
  merge_line : ∀ line ∈ merge, '\n' ∉ line
  body_lines : ∀ line ∈ body, '\n' ∉ line
  files_lines : ∀ file ∈ files, '\n' ∉ file
  files_ne : ∀ file ∈ files, file ≠ []

def indent (line : Line) : Line := "    ".toList ++ line

/-- For a merge git shows no files. -/
def Commit.shownFiles (c : Commit) : List Line := if c.merge.isSome then [] else c.files

def Commit.header (c : Commit) : List Line :=
  ["commit ".toList ++ c.commitid] ++ (c.merge.map ("Merge: ".toList ++ ·)).toList ++
    ["Author: ".toList ++ c.author, "Date:   ".toList ++ c.date, []]

/-- The message from the line behind the title on. -/
def Commit.rest (c : Commit) : List Line :=
  (if c.body = [] then [] else indent [] :: c.body.map indent) ++
    (if c.shownFiles = [] then [] else [] :: c.shownFiles)

def Commit.lines (c : Commit) : List Line := c.header ++ indent c.title :: c.rest

/-- A blank line between two commits. -/
def logLines : List Commit → List Line
  | [] => []
  | [c] => c.lines
  | c :: cs => c.lines ++ [] :: logLines cs

/-- `git log --name-only` -/
def gitLog (commits : List Commit) : List Char :=
  (logLines commits).flatMap fun line => line ++ ['\n']

/-- What is to be read back. -/
def Commit.parsed (order : ReplacerOrder) (c : Commit) : Gitcommit :=
  ⟨c.commitid, cleanGitTitle order c.title, c.body.flatMap fun line => line ++ ['\n'],
    ['\n'].intercalate c.files⟩

/-- When a commit can be read back. -/
structure Readable (c : Commit) : Prop where
  /-- the title has no spaces around it -/
  title : strip c.title = c.title
  /-- the lines of the body have no spaces around them -/
  body : ∀ line ∈ c.body, strip line = line
  /-- files come after a body only -/
  files_body : c.body = [] → c.files = []
  /-- a name is no start of a commit -/
  files_start : ∀ file ∈ c.files, isCommitStart file = false
  files_blank : ∀ file ∈ c.files, strip file ≠ []
  /-- the first name does not begin with spaces, and the last one does not end with spaces -/
  files_strip : strip (['\n'].intercalate c.files) = ['\n'].intercalate c.files

/-! ## Lines -/

def ended (line : Line) : Line := line ++ ['\n']

theorem isCommitStart_cons {x : Char} (hx : x ≠ 'c') (s : Line) :
    isCommitStart (x :: s) = false := by
  have hcommit : "commit".toList = 'c' :: ['o', 'm', 'm', 'i', 't'] := by decide
  have hbeq : ('c' == x) = false := beq_eq_false_iff_ne.mpr hx.symm
  rw [isCommitStart, hcommit, List.isPrefixOf_cons_cons, hbeq, Bool.false_and]

theorem isCommitStart_iff (x : Line) : isCommitStart x = true ↔ "commit".toList <+: x :=
  List.isPrefixOf_iff_prefix

/-- The break at its end does not make a line the start of a commit. -/
theorem isCommitStart_ended (line : Line) : isCommitStart (ended line) = isCommitStart line := by
  rw [Bool.eq_iff_iff, isCommitStart_iff, isCommitStart_iff, ended, List.prefix_concat_iff]
  refine ⟨fun h => h.resolve_left fun heq => ?_, .inr⟩
  have hbreak : '\n' ∉ "commit".toList := by decide
  rw [heq] at hbreak
  exact hbreak (List.mem_append_right _ List.mem_cons_self)

theorem isCommitStart_header (c : Commit) :
    isCommitStart (ended ("commit ".toList ++ c.commitid)) = true := by
  rw [isCommitStart_ended, isCommitStart_iff]
  have hcommit : "commit ".toList = "commit".toList ++ [' '] := by decide
  rw [hcommit, List.append_assoc]
  exact List.prefix_append _ _

theorem strip_ended (line : Line) : strip (ended line) = strip line :=
  strip_append_space line (List.all_eq_true.mp (by decide))

theorem indent_eq (line : Line) : indent line = [' ', ' ', ' ', ' '] ++ line := rfl

theorem strip_indent (line : Line) : strip (ended (indent line)) = strip line := by
  rw [strip_ended, indent_eq]
  exact strip_space_append (List.all_eq_true.mp (by decide)) line

theorem words_header (c : Commit) :
    (words (ended ("commit ".toList ++ c.commitid)))[1]? = some c.commitid := by
  have hsplit : ended ("commit ".toList ++ c.commitid) = ['c', 'o', 'm', 'm', 'i', 't'] ++
      ' ' :: (c.commitid ++ ['\n']) := by
    have hcommit : "commit ".toList = ['c', 'o', 'm', 'm', 'i', 't', ' '] := by decide
    rw [ended, hcommit, List.append_assoc]
    rfl
  have hid : words (c.commitid ++ ['\n']) = [c.commitid] := by
    rw [words, List.splitOnP_append_cons_of_forall_mem c.commitid_noSpace '\n' (by decide),
      List.splitOnP_nil,
      List.filter_cons_of_pos (by simpa using c.commitid_ne)]
    rfl
  rw [hsplit, words_append (by decide) (by decide), hid]
  rfl

/-! ## The loops -/

theorem bodyLoop_blank (rest : List Line) : bodyLoop (['\n'] :: rest) = ([], rest) := by
  rw [bodyLoop, isCommitStart_cons (by decide)]
  rfl

theorem bodyLoop_start {line : Line} (h : isCommitStart line = true) (rest : List Line) :
    bodyLoop (line :: rest) = ([], line :: rest) := by
  rw [bodyLoop, h]
  rfl

theorem bodyLoop_indent (line : Line) (rest : List Line) : bodyLoop (ended (indent line) :: rest) =
    (strip line ++ '\n' :: (bodyLoop rest).1, (bodyLoop rest).2) := by
  have hspace : indent line = ' ' :: (' ' :: ' ' :: ' ' :: line) := indent_eq line
  have hstart : isCommitStart (ended (indent line)) = false := by
    rw [isCommitStart_ended, hspace]
    exact isCommitStart_cons (by decide) _
  have hhead : (ended (indent line)).head? = some ' ' := by
    rw [ended, hspace]
    rfl
  rw [bodyLoop, hstart, if_neg Bool.false_ne_true, if_neg (by simpa using hhead), strip_indent]

theorem bodyLoop_body (body : List Line) (rest : List Line) :
    bodyLoop (body.map (fun line => ended (indent line)) ++ rest) =
    ((body.flatMap fun line => strip line ++ ['\n']) ++ (bodyLoop rest).1, (bodyLoop rest).2) := by
  induction body with
  | nil => rfl
  | cons line body ih =>
    rw [List.map_cons, List.cons_append, bodyLoop_indent, ih, List.flatMap_cons]
    simp

theorem filesLoop_blank (rest : List Line) : filesLoop (['\n'] :: rest) = filesLoop rest := by
  rw [filesLoop, isCommitStart_cons (by decide)]
  rfl

theorem filesLoop_start {line : Line} (h : isCommitStart line = true) (rest : List Line) :
    filesLoop (line :: rest) = ([], line :: rest) := by
  rw [filesLoop, h]
  rfl

/-- The names that `parse_log` gets to, without blank ones. -/
def keptFiles (files : List Line) : List Line :=
  (files.takeWhile fun file => !isCommitStart file).filter fun file => strip file ≠ []

theorem filesLoop_fst {rest : List Line} (hrest : (filesLoop rest).1 = []) (files : List Line) :
    (filesLoop (files.map ended ++ rest)).1 = (keptFiles files).flatMap ended := by
  induction files with
  | nil => exact hrest
  | cons file files ih =>
    rw [List.map_cons, List.cons_append, filesLoop, isCommitStart_ended, strip_ended]
    by_cases hstart : isCommitStart file = true
    · rw [if_pos hstart, keptFiles, List.takeWhile_cons_of_neg (by simp [hstart])]
      rfl
    · rw [if_neg hstart]
      have htake : (file :: files).takeWhile (fun file => !isCommitStart file) =
          file :: files.takeWhile fun file => !isCommitStart file :=
        List.takeWhile_cons_of_pos (by simpa using hstart)
      by_cases hblank : strip file = []
      · rw [if_pos hblank, ih, keptFiles, keptFiles, htake,
          List.filter_cons_of_neg (by simpa using hblank)]
      · rw [if_neg hblank, keptFiles, htake, List.filter_cons_of_pos (by simpa using hblank),
          List.flatMap_cons]
        dsimp only
        rw [ih]
        rfl

theorem filesLoop_snd {files : List Line} (hfiles : ∀ file ∈ files, isCommitStart file = false)
    (rest : List Line) :
    (filesLoop (files.map ended ++ rest)).2 = (filesLoop rest).2 := by
  induction files with
  | nil => rfl
  | cons file files ih =>
    have ih := ih fun f hf => hfiles f (List.mem_cons_of_mem _ hf)
    rw [List.map_cons, List.cons_append, filesLoop, isCommitStart_ended,
      hfiles file List.mem_cons_self,
      if_neg Bool.false_ne_true]
    split
    · exact ih
    · exact ih

/-! ## Files and bodies -/

theorem flatMap_ended {files : List Line} (h : files ≠ []) :
    files.flatMap ended = ['\n'].intercalate files ++ ['\n'] := by
  induction files with
  | nil => exact absurd rfl h
  | cons file files ih =>
    cases files with
    | nil => simp [ended]
    | cons f files =>
      rw [List.flatMap_cons, ih (List.cons_ne_nil f files), List.intercalate_cons_cons, ended]
      simp

theorem count_flatMap_ended {files : List Line} (h : ∀ file ∈ files, '\n' ∉ file) :
    (files.flatMap ended).count '\n' = files.length := by
  induction files with
  | nil => rfl
  | cons file files ih =>
    have hfile := List.count_eq_zero.mpr (h file List.mem_cons_self)
    have ih := ih fun f hf => h f (List.mem_cons_of_mem _ hf)
    rw [List.flatMap_cons, List.count_append, ended, List.count_append, hfile, ih, List.length_cons]
    simp [Nat.add_comm]

theorem strip_flatMap_ended (files : List Line) :
    strip (files.flatMap ended) = strip (['\n'].intercalate files) := by
  by_cases h : files = []
  · subst h
    rfl
  · rw [flatMap_ended h]
    exact strip_append_space _ (List.all_eq_true.mp (by decide))

/-- No name can be left out. -/
theorem length_le_of_strip {kept files : List Line} (hkept : ∀ file ∈ kept, '\n' ∉ file)
    (hfiles : ∀ file ∈ files, '\n' ∉ file) (hne : ∀ file ∈ files, file ≠ [])
    (h : strip (kept.flatMap ended) = ['\n'].intercalate files) : files.length ≤ kept.length := by
  by_cases hnil : files = []
  · simp [hnil]
  · have hcount : (['\n'].intercalate files).count '\n' + 1 = files.length := by
      rw [← count_flatMap_ended hfiles, flatMap_ended hnil, List.count_append]
      simp
    by_cases hknil : kept = []
    · subst hknil
      -- there is a name, and it is not empty
      obtain ⟨file, files, rfl⟩ := List.exists_cons_of_ne_nil hnil
      have hempty : ['\n'].intercalate (file :: files) = [] := h.symm
      have hfile := hne file List.mem_cons_self
      cases files with
      | nil =>
        rw [List.intercalate_singleton] at hempty
        exact absurd hempty hfile
      | cons f files =>
        rw [List.intercalate_cons_cons, List.append_assoc] at hempty
        exact absurd (List.append_eq_nil_iff.mp hempty).1 hfile
    · have hsub : (['\n'].intercalate files).count '\n' ≤ (['\n'].intercalate kept).count '\n' := by
        rw [← h, strip_flatMap_ended]
        exact (strip_within _).sublist.count_le '\n'
      have hkcount : (['\n'].intercalate kept).count '\n' + 1 = kept.length := by
        rw [← count_flatMap_ended hkept, flatMap_ended hknil, List.count_append]
        simp
      omega

theorem keptFiles_sublist (files : List Line) : (keptFiles files).Sublist files :=
  List.filter_sublist.trans (List.takeWhile_sublist _)

/-- The names come back exactly if each of them is kept and the ends are no spaces. -/
theorem strip_keptFiles_iff {files : List Line} (hfiles : ∀ file ∈ files, '\n' ∉ file)
    (hne : ∀ file ∈ files, file ≠ []) :
    strip ((keptFiles files).flatMap ended) = ['\n'].intercalate files ↔
      (∀ file ∈ files, isCommitStart file = false) ∧ (∀ file ∈ files, strip file ≠ []) ∧
        strip (['\n'].intercalate files) = ['\n'].intercalate files := by
  have hsub := keptFiles_sublist files
  constructor
  · intro h
    have hlen := length_le_of_strip (fun file hf => hfiles file (hsub.subset hf)) hfiles hne h
    have hall : keptFiles files = files := hsub.eq_of_length_le hlen
    rw [hall, strip_flatMap_ended] at h
    refine ⟨fun file hf => ?_, fun file hf => ?_, h⟩
    · rw [← hall] at hf
      have hstart := List.mem_takeWhile_imp (List.mem_filter.mp hf).1
      simpa using hstart
    · rw [← hall] at hf
      simpa using (List.mem_filter.mp hf).2
  · rintro ⟨hstart, hblank, hstrip⟩
    have hall : keptFiles files = files := by
      unfold keptFiles
      rw [List.takeWhile_eq_self_iff.mpr fun file hf => by simp [hstart file hf]]
      exact List.filter_eq_self.mpr fun file hf => by simpa using hblank file hf
    rw [hall, strip_flatMap_ended, hstrip]

/-- The lines come back exactly if there is nothing to strip. -/
theorem flatMap_strip_iff {body : List Line} (hbody : ∀ line ∈ body, '\n' ∉ line) :
    (body.flatMap fun line => strip line ++ ['\n']) = (body.flatMap fun line => line ++ ['\n']) ↔
      ∀ line ∈ body, strip line = line := by
  have hstripped : ∀ line ∈ body.map strip, '\n' ∉ line := by
    intro line hline hmem
    obtain ⟨l, hl, rfl⟩ := List.mem_map.mp hline
    exact hbody l hl ((strip_within l).subset hmem)
  have hmap : (body.flatMap fun line => strip line ++ ['\n']) =
      (body.map strip).flatMap fun line => line ++ ['\n'] := by
    rw [List.flatMap_map]
  constructor
  · intro h
    rw [hmap] at h
    have hread := congrArg readlines h
    rw [readlines_lines hstripped, readlines_lines hbody, List.map_map] at hread
    intro line hline
    have hline := List.map_eq_map_iff.mp hread line hline
    exact List.append_cancel_right hline
  · intro h
    exact congrArg List.flatten (List.map_congr_left fun line hline => by rw [h line hline])

/-! ## One commit -/

section OneCommit

variable {order : ReplacerOrder} {c : Commit} {cs : List Commit}

def logContents (cs : List Commit) : List Line := (logLines cs).map ended

/-- What follows a commit. -/
def logTail (cs : List Commit) : List Line := if cs = [] then [] else ['\n'] :: logContents cs

theorem logContents_cons (c : Commit) (cs : List Commit) :
    logContents (c :: cs) = c.lines.map ended ++ logTail cs := by
  cases cs with
  | nil => simp [logContents, logLines, logTail]
  | cons c' cs =>
    rw [logTail, if_neg (List.cons_ne_nil c' cs)]
    show (c.lines ++ [] :: logLines (c' :: cs)).map ended = _
    rw [List.map_append, List.map_cons]
    rfl

theorem lines_eq (c : Commit) : ∃ more, c.lines = ("commit ".toList ++ c.commitid) :: more :=
  ⟨_, rfl⟩

theorem bodyLoop_logContents (cs : List Commit) :
    bodyLoop (logContents cs) = ([], logContents cs) := by
  cases cs with
  | nil => rfl
  | cons c cs =>
    obtain ⟨more, hmore⟩ := lines_eq c
    rw [logContents_cons, hmore]
    exact bodyLoop_start (isCommitStart_header c) _

theorem filesLoop_logContents (cs : List Commit) :
    filesLoop (logContents cs) = ([], logContents cs) := by
  cases cs with
  | nil => rfl
  | cons c cs =>
    obtain ⟨more, hmore⟩ := lines_eq c
    rw [logContents_cons, hmore]
    exact filesLoop_start (isCommitStart_header c) _

theorem filesLoop_logTail (cs : List Commit) : filesLoop (logTail cs) = ([], logContents cs) := by
  unfold logTail
  split
  · next h =>
    subst h
    rfl
  · rw [filesLoop_blank]
    exact filesLoop_logContents cs

/-- What stands behind the blank line after the message. -/
def afterMessage (c : Commit) (cs : List Commit) : List Line :=
  if c.files = [] then logContents cs else c.files.map ended ++ logTail cs

theorem filesLoop_after_fst (c : Commit) (cs : List Commit) :
    (filesLoop (afterMessage c cs)).1 = (keptFiles c.files).flatMap ended := by
  unfold afterMessage
  split
  · next h =>
    rw [filesLoop_logContents, h]
    rfl
  · exact filesLoop_fst (by rw [filesLoop_logTail]) c.files

theorem filesLoop_after_snd (cs : List Commit) (h : ∀ file ∈ c.files, isCommitStart file = false) :
    (filesLoop (afterMessage c cs)).2 = logContents cs := by
  unfold afterMessage
  split
  · rw [filesLoop_logContents]
  · rw [filesLoop_snd h, filesLoop_logTail]

/-- The contents from the line behind the title on. -/
def restContents (c : Commit) (cs : List Commit) : List Line := c.rest.map ended ++ logTail cs

/-- The files or the next commit behind the message. -/
theorem blank_after (hmerge : c.merge = none) :
    ((if c.shownFiles = [] then [] else [] :: c.shownFiles).map ended ++
    logTail cs).drop 1 = afterMessage c cs := by
  have hshown : c.shownFiles = c.files := by rw [Commit.shownFiles, hmerge]; rfl
  rw [hshown, afterMessage]
  by_cases hfiles : c.files = []
  · rw [if_pos hfiles, if_pos hfiles, logTail]
    by_cases hcs : cs = []
    · rw [if_pos hcs, hcs]
      rfl
    · rw [if_neg hcs]
      rfl
  · rw [if_neg hfiles, if_neg hfiles]
    rfl

theorem bodyLoop_drop (l : List Line) (h : ∀ line ∈ l.head?, line = ['\n']) :
    bodyLoop l = ([], l.drop 1) := by
  cases l with
  | nil => rfl
  | cons line l =>
    cases h line rfl
    exact bodyLoop_blank l

theorem blank_head (c : Commit) (cs : List Commit) :
    ∀ line ∈ ((if c.shownFiles = [] then [] else [] :: c.shownFiles).map
    ended ++ logTail cs).head?, line = ['\n'] := by
  intro line hline
  by_cases hfiles : c.shownFiles = []
  · rw [if_pos hfiles, List.map_nil, List.nil_append, logTail] at hline
    split at hline
    · cases hline
    · exact (Option.some.inj hline).symm
  · rw [if_neg hfiles] at hline
    exact (Option.some.inj hline).symm

/-- With a body, its lines are read and the blank line is stepped over. -/
theorem bodyLoop_rest (hmerge : c.merge = none) (hbody : c.body ≠ []) :
    bodyLoop ((restContents c cs).drop 1) =
    (c.body.flatMap fun line => strip line ++ ['\n'], afterMessage c cs) := by
  have hdrop : (restContents c cs).drop 1 = c.body.map (fun line => ended (indent line)) ++
      ((if c.shownFiles = [] then [] else [] :: c.shownFiles).map ended ++ logTail cs) := by
    rw [restContents, Commit.rest, if_neg hbody, List.map_append, List.append_assoc, List.map_cons,
      List.cons_append,
      List.drop_one, List.tail_cons, List.map_map]
    rfl
  rw [hdrop, bodyLoop_body, bodyLoop_drop _ (blank_head c cs), blank_after hmerge]
  simp

/-- Without a body the blank line after the message is stepped over before. -/
theorem drop_rest (hmerge : c.merge = none) (hbody : c.body = []) :
    (restContents c cs).drop 1 = afterMessage c cs := by
  rw [restContents, Commit.rest, if_pos hbody, List.nil_append]
  exact blank_after hmerge

/-- What `parse_log` makes of the commit. -/
def parsedCommit (order : ReplacerOrder) (c : Commit) (cs : List Commit) : Gitcommit :=
  let (body, left) := bodyLoop ((restContents c cs).drop 1)
  let (files, _) := filesLoop left
  .new c.commitid (cleanGitTitle order (strip c.title)) body files

/-- Where `parse_log` goes on after the commit. -/
def parsedLeft (c : Commit) (cs : List Commit) : List Line :=
  (filesLoop (bodyLoop ((restContents c cs).drop 1)).2).2

theorem parsed_iff_of_body (hmerge : c.merge = none) (hbody : c.body ≠ []) :
    parsedCommit order c cs = c.parsed order ↔ Readable c := by
  have hparsed : parsedCommit order c cs = ⟨c.commitid, cleanGitTitle order (strip c.title),
      c.body.flatMap fun line => strip line ++ ['\n'], strip
          ((keptFiles c.files).flatMap ended)⟩ := by
    unfold parsedCommit
    rw [bodyLoop_rest hmerge hbody]
    dsimp only
    rw [filesLoop_after_fst]
    rfl
  rw [hparsed, Commit.parsed, Gitcommit.mk.injEq, cleanGitTitle_strip_iff,
    flatMap_strip_iff c.body_lines,
    strip_keptFiles_iff c.files_lines c.files_ne]
  exact ⟨fun ⟨_, htitle, hlines, hstart, hblank, hstrip⟩ =>
      ⟨htitle, hlines, fun h => absurd h hbody, hstart, hblank, hstrip⟩,
    fun h => ⟨rfl, h.title, h.body, h.files_start, h.files_blank, h.files_strip⟩⟩

theorem parsed_iff_of_noFiles (hmerge : c.merge = none) (hbody : c.body = [])
    (hfiles : c.files = []) :
    parsedCommit order c cs = c.parsed order ↔ Readable c := by
  have hparsed : parsedCommit order c cs =
      ⟨c.commitid, cleanGitTitle order (strip c.title), [], []⟩ := by
    unfold parsedCommit
    rw [drop_rest hmerge hbody, afterMessage, if_pos hfiles, bodyLoop_logContents]
    dsimp only
    rw [filesLoop_logContents]
    rfl
  rw [hparsed, Commit.parsed, hbody, hfiles, Gitcommit.mk.injEq, cleanGitTitle_strip_iff]
  refine ⟨fun ⟨_, htitle, _, _⟩ => ?_, fun h => ⟨rfl, h.title, rfl, rfl⟩⟩
  exact ⟨htitle, fun line hl => absurd (hbody ▸ hl) List.not_mem_nil, fun _ => hfiles,
    fun file hf => absurd (hfiles ▸ hf) List.not_mem_nil, fun file hf =>
      absurd (hfiles ▸ hf) List.not_mem_nil,
    by rw [hfiles]; rfl⟩

/-- Without a body the first file is taken for the line behind the message. -/
theorem not_parsed_of_noBody (hmerge : c.merge = none) (hbody : c.body = [])
    (hfiles : c.files ≠ []) :
    parsedCommit order c cs ≠ c.parsed order := by
  intro h
  obtain ⟨file, files, hcons⟩ := List.exists_cons_of_ne_nil hfiles
  have hdrop : (restContents c cs).drop 1 = ended file :: (files.map ended ++ logTail cs) := by
    rw [drop_rest hmerge hbody, afterMessage, if_neg hfiles, hcons]
    rfl
  have hlines := c.files_lines
  have hne := c.files_ne
  have htail : (filesLoop (logTail cs)).1 = [] := by rw [filesLoop_logTail]
  unfold parsedCommit Commit.parsed at h
  rw [hdrop, hbody, hcons] at h
  rw [hcons] at hlines hne
  have hbodyEq := congrArg Gitcommit.body h
  have hfilesEq := congrArg Gitcommit.files h
  rw [bodyLoop, isCommitStart_ended] at hbodyEq hfilesEq
  by_cases hstart : isCommitStart file = true
  · -- the first file ends the commit
    rw [if_pos hstart] at hfilesEq
    have hkept : strip ((keptFiles (file :: files)).flatMap ended) =
        ['\n'].intercalate (file :: files) := by
      rw [← filesLoop_fst htail (file :: files)]
      exact hfilesEq
    rw [((strip_keptFiles_iff hlines hne).mp hkept).1 file List.mem_cons_self] at hstart
    cases hstart
  · rw [if_neg hstart] at hbodyEq hfilesEq
    by_cases hhead : (ended file).head? ≠ some ' '
    · -- it is stepped over
      rw [if_pos hhead] at hfilesEq
      have hkept : strip ((keptFiles files).flatMap ended) =
          ['\n'].intercalate (file :: files) := by
        rw [← filesLoop_fst htail files]
        exact hfilesEq
      have hsub := keptFiles_sublist files
      have hlen := length_le_of_strip
        (fun f hf => hlines f (List.mem_cons_of_mem _ (hsub.subset hf))) hlines hne hkept
      have hle := hsub.length_le
      rw [List.length_cons] at hlen
      omega
    · -- it is taken for a line of the body
      rw [if_neg hhead] at hbodyEq
      have hnil : strip (ended file) ++ '\n' :: (bodyLoop (files.map ended ++ logTail cs)).1 = [] :=
        hbodyEq
      exact absurd (List.append_eq_nil_iff.mp hnil).2 (List.cons_ne_nil _ _)

theorem parsed_iff (hmerge : c.merge = none) (cs : List Commit) :
    parsedCommit order c cs = c.parsed order ↔ Readable c := by
  by_cases hbody : c.body = []
  · by_cases hfiles : c.files = []
    · exact parsed_iff_of_noFiles hmerge hbody hfiles
    · exact iff_of_false (not_parsed_of_noBody hmerge hbody hfiles) fun h =>
        hfiles (h.files_body hbody)
  · exact parsed_iff_of_body hmerge hbody

theorem parsedLeft_eq (hmerge : c.merge = none) (h : Readable c) (cs : List Commit) :
    parsedLeft c cs = logContents cs := by
  unfold parsedLeft
  by_cases hbody : c.body = []
  · rw [drop_rest hmerge hbody, afterMessage, if_pos (h.files_body hbody), bodyLoop_logContents,
      filesLoop_logContents]
  · rw [bodyLoop_rest hmerge hbody]
    exact filesLoop_after_snd cs h.files_start

end OneCommit

/-! ## The whole log -/

section Log

variable {order : ReplacerOrder}

/-- A round for a commit that is no merge. -/
theorem parseFrom_commit {c : Commit} (hmerge : c.merge = none) (cs : List Commit) (fuel : Nat) :
    parseFrom order (fuel + 1) (logContents (c :: cs)) =
      (parseFrom order fuel (parsedLeft c cs)).map (parsedCommit order c cs :: ·) := by
  have hcontents : logContents (c :: cs) = ended ("commit ".toList ++ c.commitid) ::
      ended ("Author: ".toList ++ c.author) :: ended ("Date:   ".toList ++ c.date) :: ended [] ::
      ended (indent c.title) :: restContents c cs := by
    rw [logContents_cons, Commit.lines, Commit.header, hmerge]
    rfl
  have hauthor : isMergeCommit (ended ("Author: ".toList ++ c.author)) = false := by
    have hA : "Author: ".toList = 'A' :: ['u', 't', 'h', 'o', 'r', ':', ' '] := by decide
    have hM : "Merge:".toList = 'M' :: ['e', 'r', 'g', 'e', ':'] := by decide
    rw [isMergeCommit, ended, hA, hM]
    rfl
  rw [hcontents, parseFrom, isCommitStart_header, if_pos rfl]
  simp only [List.getElem?_cons_zero]
  rw [hauthor, if_neg Bool.false_ne_true, words_header]
  simp only [List.getElem?_cons_succ, List.getElem?_cons_zero]
  rw [strip_indent]
  rfl

/-- A round for a line that is no start of a commit. -/
theorem parseFrom_skip {lines : List Line} (h : ∀ line ∈ lines, isCommitStart line = false)
    (rest : List Line) (fuel : Nat) :
    parseFrom order (fuel + lines.length) (lines ++ rest) = parseFrom order fuel rest := by
  induction lines with
  | nil => rfl
  | cons line lines ih =>
    rw [List.length_cons, ← Nat.add_assoc, List.cons_append, parseFrom, h line List.mem_cons_self,
      if_neg Bool.false_ne_true]
    exact ih fun l hl => h l (List.mem_cons_of_mem _ hl)

/-- The lines of a merge behind the first one. -/
theorem merge_skip {c : Commit} {parents : Line} (hmerge : c.merge = some parents)
    (cs : List Commit) :
    ∃ lines : List Line, logContents (c :: cs) = ended ("commit ".toList ++ c.commitid) ::
      ended ("Merge: ".toList ++ parents) :: (lines ++ logContents cs) ∧
        ∀ line ∈ lines, isCommitStart line = false := by
  have hshown : c.shownFiles = [] := by rw [Commit.shownFiles, hmerge]; rfl
  have htail : ∃ blank : List Line, logTail cs = blank ++ logContents cs ∧
      ∀ line ∈ blank, line = ['\n'] := by
    unfold logTail
    split
    · next hcs =>
      subst hcs
      exact ⟨[], rfl, fun line hl => absurd hl List.not_mem_nil⟩
    · exact ⟨[['\n']], rfl, fun line hl => List.mem_singleton.mp hl⟩
  obtain ⟨blank, htail, hblank⟩ := htail
  have hindent : ∀ line, isCommitStart (ended (indent line)) = false := by
    intro line
    rw [isCommitStart_ended, indent_eq]
    exact isCommitStart_cons (by decide) _
  refine ⟨ended ("Author: ".toList ++ c.author) :: ended
    ("Date:   ".toList ++ c.date) :: ended [] ::
    ended (indent c.title) ::
      ((if c.body = [] then [] else indent [] :: c.body.map indent).map ended ++ blank), ?_, ?_⟩
  · rw [logContents_cons, Commit.lines, Commit.header, hmerge, Commit.rest, hshown, if_pos rfl,
      List.append_nil, htail]
    simp
  · intro line hline
    simp only [List.mem_cons] at hline
    rcases hline with rfl | rfl | rfl | rfl | hline
    · have hA : "Author: ".toList = 'A' :: ['u', 't', 'h', 'o', 'r', ':', ' '] := by decide
      rw [isCommitStart_ended, hA]
      exact isCommitStart_cons (by decide) _
    · have hD : "Date:   ".toList = 'D' :: ['a', 't', 'e', ':', ' ', ' ', ' '] := by decide
      rw [isCommitStart_ended, hD]
      exact isCommitStart_cons (by decide) _
    · exact isCommitStart_cons (by decide) []
    · exact hindent c.title
    · rcases List.mem_append.mp hline with hline | hline
      · obtain ⟨l, hl, rfl⟩ := List.mem_map.mp hline
        split at hl
        · cases hl
        · rcases List.mem_cons.mp hl with rfl | hl
          · exact hindent []
          · obtain ⟨l, -, rfl⟩ := List.mem_map.mp hl
            exact hindent l
      · rw [hblank line hline]
        exact isCommitStart_cons (by decide) []

/-- The rounds for a merge. -/
theorem parseFrom_merge (order : ReplacerOrder) {c : Commit} {parents : Line}
    (hmerge : c.merge = some parents) (cs : List Commit) {fuel : Nat}
    (hfuel : (logContents (c :: cs)).length < fuel) : ∃ fuel', (logContents cs).length < fuel' ∧
      parseFrom order fuel (logContents (c :: cs)) = parseFrom order fuel' (logContents cs) := by
  obtain ⟨lines, hcontents, hlines⟩ := merge_skip hmerge cs
  have hM : "Merge: ".toList = 'M' :: ['e', 'r', 'g', 'e', ':', ' '] := by decide
  have hstart : isCommitStart (ended ("Merge: ".toList ++ parents)) = false := by
    rw [isCommitStart_ended, hM]
    exact isCommitStart_cons (by decide) _
  have hparents : isMergeCommit (ended ("Merge: ".toList ++ parents)) = true := by
    have hstarts : "Merge: ".toList = "Merge:".toList ++ [' '] := by decide
    rw [isMergeCommit, List.isPrefixOf_iff_prefix, ended, hstarts, List.append_assoc,
      List.append_assoc]
    exact List.prefix_append _ _
  rw [hcontents] at hfuel ⊢
  have hlength : lines.length + (logContents cs).length + 2 < fuel := by
    simpa [Nat.add_assoc] using hfuel
  obtain ⟨fuel', rfl⟩ : ∃ fuel', fuel = fuel' + lines.length + 1 + 1 :=
    ⟨fuel - lines.length - 2, by omega⟩
  refine ⟨fuel', by omega, ?_⟩
  rw [parseFrom, isCommitStart_header, if_pos rfl]
  simp only [List.getElem?_cons_zero]
  rw [hparents, if_pos rfl, parseFrom, hstart, if_neg Bool.false_ne_true, parseFrom_skip hlines]

theorem map_cons_eq_ok {x : Except ParseError (List Gitcommit)} {gc e : Gitcommit}
    {es : List Gitcommit} :
    x.map (gc :: ·) = .ok (e :: es) ↔ gc = e ∧ x = .ok es := by
  cases x with
  | error err => exact iff_of_false (fun h => by cases h) fun h => by cases h.2
  | ok l =>
    constructor
    · intro h
      cases h
      exact ⟨rfl, rfl⟩
    · rintro ⟨rfl, h⟩
      cases h
      rfl

theorem length_logContents_cons (c : Commit) (cs : List Commit) :
    (logContents cs).length < (logContents (c :: cs)).length := by
  obtain ⟨more, hmore⟩ := lines_eq c
  have htail : (logContents cs).length ≤ (logTail cs).length := by
    unfold logTail
    split
    · next hcs =>
      subst hcs
      exact Nat.le_refl 0
    · exact Nat.le_succ _
  rw [logContents_cons, hmore, List.length_append, List.map_cons, List.length_cons]
  omega

/-- The commits of a log that are to be read back. -/
def noMerges (commits : List Commit) : List Commit := commits.filter fun c => c.merge.isNone

theorem parseFrom_iff (commits : List Commit) {fuel : Nat}
    (hfuel : (logContents commits).length < fuel) :
    parseFrom order fuel (logContents commits) =
      .ok ((noMerges commits).map (Commit.parsed order)) ↔
      ∀ c ∈ commits, c.merge = none → Readable c := by
  induction commits generalizing fuel with
  | nil =>
    obtain ⟨fuel, rfl⟩ : ∃ n, fuel = n + 1 := ⟨fuel - 1, by omega⟩
    exact iff_of_true rfl fun c hc => absurd hc List.not_mem_nil
  | cons c cs ih =>
    rw [List.forall_mem_cons]
    cases hmerge : c.merge with
    | some parents =>
      obtain ⟨fuel', hfuel', heq⟩ := parseFrom_merge order hmerge cs hfuel
      have hskip : noMerges (c :: cs) = noMerges cs := List.filter_cons_of_neg (by simp [hmerge])
      rw [heq, hskip, ih hfuel']
      exact ⟨fun h => ⟨fun hnone => (by cases hnone), h⟩, fun h => h.2⟩
    | none =>
      obtain ⟨fuel, rfl⟩ : ∃ n, fuel = n + 1 := ⟨fuel - 1, by omega⟩
      have htake : noMerges (c :: cs) = c :: noMerges cs :=
        List.filter_cons_of_pos (by simp [hmerge])
      have hlength : (logContents cs).length < fuel := by
        have hlt := length_logContents_cons c cs
        omega
      rw [parseFrom_commit hmerge cs fuel, htake, List.map_cons, map_cons_eq_ok,
        parsed_iff hmerge cs]
      constructor
      · rintro ⟨hread, hrest⟩
        rw [parsedLeft_eq hmerge hread cs] at hrest
        exact ⟨fun _ => hread, (ih hlength).mp hrest⟩
      · rintro ⟨hread, hrest⟩
        rw [parsedLeft_eq hmerge (hread rfl) cs]
        exact ⟨hread rfl, (ih hlength).mpr hrest⟩

theorem indent_line {line : Line} (h : '\n' ∉ line) : '\n' ∉ indent line := by
  intro hmem
  rcases List.mem_append.mp hmem with hmem | hmem
  · exact absurd hmem (by decide)
  · exact h hmem

theorem lines_break (c : Commit) : ∀ line ∈ c.lines, '\n' ∉ line := by
  have hstarts : ∀ {p : String} {s : Line}, '\n' ∉ p.toList → '\n' ∉ s → '\n' ∉ p.toList ++ s := by
    intro p s hp hs hmem
    exact (List.mem_append.mp hmem).elim hp hs
  have hid : '\n' ∉ c.commitid := fun hmem => by
    have hspace := c.commitid_noSpace '\n' hmem
    rw [show Fields.isSpace '\n' = true by decide] at hspace
    cases hspace
  have hrest : ∀ line ∈ c.rest, '\n' ∉ line := by
    intro line hline
    rcases List.mem_append.mp hline with hline | hline
    · split at hline
      · cases hline
      · rcases List.mem_cons.mp hline with rfl | hline
        · exact indent_line List.not_mem_nil
        · obtain ⟨l, hl, rfl⟩ := List.mem_map.mp hline
          exact indent_line (c.body_lines l hl)
    · split at hline
      · cases hline
      · rcases List.mem_cons.mp hline with rfl | hline
        · exact List.not_mem_nil
        · unfold Commit.shownFiles at hline
          split at hline
          · cases hline
          · exact c.files_lines line hline
  have hheader : ∀ line ∈ c.header, '\n' ∉ line := by
    intro line hline
    rcases List.mem_append.mp hline with hline | hline
    · rcases List.mem_append.mp hline with hline | hline
      · rw [List.mem_singleton.mp hline]
        exact hstarts (by decide) hid
      · obtain ⟨parents, hparents, rfl⟩ := Option.map_eq_some_iff.mp (Option.mem_toList.mp hline)
        exact hstarts (by decide) (c.merge_line parents hparents)
    · rcases List.mem_cons.mp hline with rfl | hline
      · exact hstarts (by decide) c.author_line
      · rcases List.mem_cons.mp hline with rfl | hline
        · exact hstarts (by decide) c.date_line
        · rw [List.mem_singleton.mp hline]
          exact List.not_mem_nil
  intro line hline
  rcases List.mem_append.mp hline with hline | hline
  · exact hheader line hline
  · rcases List.mem_cons.mp hline with rfl | hline
    · exact indent_line c.title_line
    · exact hrest line hline

theorem logLines_break (commits : List Commit) : ∀ line ∈ logLines commits, '\n' ∉ line := by
  induction commits with
  | nil => exact fun line hline => absurd hline List.not_mem_nil
  | cons c cs ih =>
    intro line hline
    cases cs with
    | nil => exact lines_break c line hline
    | cons c' cs =>
      rcases List.mem_append.mp hline with hline | hline
      · exact lines_break c line hline
      · rcases List.mem_cons.mp hline with rfl | hline
        · exact List.not_mem_nil
        · exact ih line hline

/-- **The log is read back exactly if each of its commits that are no merges can be.** -/
theorem parse_log_iff (order : ReplacerOrder) (commits : List Commit) :
    parseLog order (readlines (gitLog commits)) =
      .ok ((noMerges commits).map (Commit.parsed order)) ↔
      ∀ c ∈ commits, c.merge = none → Readable c := by
  have hcontents : readlines (gitLog commits) = logContents commits :=
    readlines_lines (logLines_break commits)
  rw [hcontents, parseLog]
  exact parseFrom_iff commits (Nat.lt_succ_self _)

end Log

/-! ## Termination -/

theorem length_bodyLoop (lines : List Line) : (bodyLoop lines).2.length ≤ lines.length := by
  induction lines with
  | nil => exact Nat.le_refl 0
  | cons line lines ih =>
    rw [bodyLoop]
    split
    · exact Nat.le_refl _
    · split
      · exact Nat.le_succ _
      · exact Nat.le_succ_of_le ih

theorem length_filesLoop (lines : List Line) : (filesLoop lines).2.length ≤ lines.length := by
  induction lines with
  | nil => exact Nat.le_refl 0
  | cons line lines ih =>
    rw [filesLoop]
    split
    · exact Nat.le_refl _
    · split
      · exact Nat.le_succ_of_le ih
      · exact Nat.le_succ_of_le ih

theorem parseFrom_terminates (order : ReplacerOrder) {fuel : Nat} {lines : List Line}
    (h : lines.length < fuel) :
    parseFrom order fuel lines ≠ .error .outOfFuel := by
  induction fuel generalizing lines with
  | zero => exact absurd h (Nat.not_lt_zero _)
  | succ fuel ih =>
    cases lines with
    | nil => exact fun h => by cases h
    | cons line rest =>
      have hrest : rest.length < fuel := Nat.lt_of_succ_lt_succ h
      rw [parseFrom]
      split
      · split
        · exact fun h => by cases h
        · split
          · exact ih hrest
          · split
            · have hleft : (filesLoop (bodyLoop (rest.drop 5)).2).2.length < fuel := by
                have hfiles := length_filesLoop (bodyLoop (rest.drop 5)).2
                have hbody := length_bodyLoop (rest.drop 5)
                have hdrop := List.length_drop (i := 5) (l := rest)
                omega
              intro hmap
              dsimp only at hmap
              cases hparse : parseFrom order fuel (filesLoop (bodyLoop (rest.drop 5)).2).2 with
              | error e =>
                rw [hparse] at hmap
                cases hmap
                exact ih hleft hparse
              | ok gcs =>
                rw [hparse] at hmap
                cases hmap
            · exact fun h => by cases h
      · exact ih hrest

/-- For any contents of the file. -/
theorem parse_log_terminates (order : ReplacerOrder) (contents : List Line) :
    parseLog order contents ≠ .error .outOfFuel :=
  parseFrom_terminates order (Nat.lt_succ_self _)

/-! ## A commit that cannot be read back -/

/-- No body, and one file. -/
def noBody : Commit where
  commitid := "4b17a3e".toList
  merge := none
  author := "A <a@b.c>".toList
  date := "Tue Aug 21 08:47:56 2018 -0700".toList
  title := "fix it".toList
  body := []
  files := ["a.c".toList]
  commitid_ne := by decide
  commitid_noSpace := by decide
  author_line := by decide
  date_line := by decide
  title_line := by decide
  merge_line := by decide
  body_lines := by decide
  files_lines := by decide
  files_ne := by decide

def sourceOrder : ReplacerOrder := ⟨replacer, .refl _⟩

/-- Its file is lost. -/
theorem not_parsed_noBody :
    parseLog sourceOrder (readlines (gitLog [noBody])) =
      .ok [⟨"4b17a3e".toList, "fix it".toList, [], []⟩] ∧
    (Commit.parsed sourceOrder noBody).files = "a.c".toList ∧
    parseLog sourceOrder (readlines (gitLog [noBody])) ≠
      .ok [Commit.parsed sourceOrder noBody] := by
  have hparse : parseLog sourceOrder (readlines (gitLog [noBody])) =
      .ok [⟨"4b17a3e".toList, "fix it".toList, [], []⟩] := by decide
  refine ⟨hparse, by decide, ?_⟩
  rw [hparse]
  decide

end SyzbotAutotriager
