import DevUtil.Cvetriager.ContextGenerator

/-!
# Commits that fix a commit

`detect_relevant_commits` on a history that git answers for. The loop goes from the newest commit
down to the given one. Of the message of a commit it takes the first `Fixes:` tag of twelve
characters, and it returns at the first commit where git shows the subject of the given one for that
name. A name that git does not know leaves `fixes_subj` as it was, and at the first tag there is
nothing that it was; a message or a subject that is not UTF-8 ends the call.

    the loop ends with an exception, at what it cannot read, or with the commit that it
      stops at, or with nothing                                 (ends_detectLoop)
    the call finds the newer commits with a `Fixes:` line for
      the given one ↔ it finishes, and there is at most one
      such commit, the one where it stops                       (detects_iff)
-/

namespace Cvetriager

open Lib Prog

/-! ## Histories -/

/-- A digit of a sha. -/
def hexDigit (c : Char) : Bool := c.isDigit || ('a' ≤ c && c ≤ 'f') || ('A' ≤ c && c ≤ 'F')

/-- What git knows of linux. -/
structure Upstream where
  /-- newest first -/
  log : List Sha
  message : Text → Option Bytes
  /-- the subject of the commit that a name is for -/
  subject : Text → Option Bytes
  log_hex : ∀ sha ∈ log, ∀ c ∈ sha, hexDigit c
  log_message : ∀ sha ∈ log, (message sha).isSome

/-- The answers; there is a line for each commit. -/
def Upstream.git (u : Upstream) : ∀ ⦃β : Type⦄, Op β → Unit → Option (β × Unit)
  | _, .logSubject _ name, _ => some (u.subject name, ())
  | _, .logMessage _ name, _ => some (u.message name, ())
  | _, .logGrep _ _ _ _, _ => some (none, ())
  | _, .logShas _, _ => some (some ((u.log.flatMap fun sha => sha ++ ['\n']).map some), ())
  | _, .checkout _ _, _ => some (true, ())
  | _, .pull _ _ _, _ => some (true, ())

/-! ## Relevant commits -/

/-- The sha of a line `Fixes: {sha}`, of any length. -/
def shaOfLine (line : Bytes) : Option Sha :=
  let word := ((line.drop 7).takeWhile fun c => c.any Char.isAlphanum).reduceOption
  if ("Fixes: ".toList.map some).isPrefixOf line ∧ word ≠ [] ∧ word.all hexDigit then
    some word else none

/-- The shas of the `Fixes:` lines of a message. -/
def fixesShas (message : Bytes) : List Sha :=
  (message.splitOnP fun c => c == some '\n' || c == some '\r').filterMap shaOfLine

/-- A `Fixes:` line of the commit names one with this subject. -/
def Upstream.relevant (u : Upstream) (linuxSubj : Bytes) (sha : Sha) : Bool :=
  (fixesShas ((u.message sha).getD [])).any fun name => u.subject name == some linuxSubj

/-- The call finishes, and has found the relevant ones of the newer commits. -/
def Detects (u : Upstream) (env : Env) (linuxSha : Sha) (linuxSubj : Bytes) (newer : List Sha) :
    Prop :=
  (detectRelevantCommits env linuxSha).eval u.git () =
    some (.ok (newer.filter (u.relevant linuxSubj)), ())

/-! ## What the loop comes to -/

section

variable (u : Upstream) (linuxSha : Sha) (linuxSubj : Bytes)

/-- The message, as `get_commit_message` returns it. -/
def Upstream.text (sha : Sha) : Option Text :=
  ((u.message sha).bind decode).map fun message => message.rdropWhile isSpace ++ ['\n']

/-- The first tag of twelve characters is for the name. -/
def Upstream.Takes (sha name : Sha) : Prop := ∃ text lines line rest, u.text sha = some text ∧
  text.splitOn '\n' = lines ++ line :: rest ∧ TagOf line name ∧ ∀ l ∈ lines, ∀ name', ¬TagOf l name'

/-- For that name git shows the subject looked for. -/
def Upstream.Stops (sha : Sha) : Prop := ∃ name subject, u.Takes sha name ∧
  (u.subject name).bind decode = some subject ∧ decode linuxSubj = some subject

/-- The loop comes to `sha`, after `before`. -/
def Upstream.Comes (newer before : List Sha) (sha : Sha) : Prop :=
  ∃ after, newer = before ++ sha :: after ∧
  (∀ s ∈ before ++ [sha], ¬linuxSha <:+: s) ∧ ∀ s ∈ before, ¬u.Stops linuxSubj s

/-- What the loop reads of a commit is UTF-8, and git knows the name, at the first tag. -/
structure Upstream.Readable (known : Prop) (before : List Sha) (sha : Sha) : Prop where
  message : (u.text sha).isSome
  subject : ∀ name bytes, u.Takes sha name → u.subject name = some bytes → (decode bytes).isSome
  name : ∀ name, u.Takes sha name → u.subject name = none →
    known ∨ ∃ s ∈ before, ∃ name', u.Takes s name'

/-- Of the newer commits the loop finds what is relevant. -/
structure Upstream.Fits (newer : List Sha) : Prop where
  given : (decode linuxSubj).isSome
  readable : ∀ before sha, u.Comes linuxSha linuxSubj newer before sha → u.Readable False before sha
  one : (newer.filter (u.relevant linuxSubj)).length ≤ 1
  stops : ∀ sha ∈ newer, u.relevant linuxSubj sha = true →
    ∃ before, u.Comes linuxSha linuxSubj newer before sha ∧ u.Stops linuxSubj sha
  relevant : ∀ before sha, u.Comes linuxSha linuxSubj newer before sha → u.Stops linuxSubj sha →
    u.relevant linuxSubj sha = true

end

section

variable {u : Upstream} {env : Env} {path : Text} {linuxSha : Sha} {linuxSubj : Bytes}
  {subject : Text}
  {newer before before' shas : List Sha} {sha sha' name : Sha} {text : Text} {known : Prop}

theorem takes_iff : u.Takes sha name ↔
    ∃ text, u.text sha = some text ∧ (text.splitOn '\n').findSome? fixesTag = some name := by
  have hnone : ∀ {lines : List Text}, (∀ l ∈ lines, ∀ name', ¬TagOf l name') ↔
      ∀ l ∈ lines, fixesTag l = none := by
    intro lines
    refine forall₂_congr fun l _ => ?_
    rw [Option.eq_none_iff_forall_ne_some]
    exact forall_congr' fun name' => not_congr fixesTag_eq_some_iff.symm
  constructor
  · rintro ⟨text, lines, line, rest, htext, hsplit, htag, hlines⟩
    exact ⟨text, htext, List.findSome?_eq_some_iff.mpr
      ⟨lines, line, rest, hsplit, fixesTag_eq_some_iff.mpr htag, hnone.mp hlines⟩⟩
  · rintro ⟨text, htext, hfound⟩
    obtain ⟨lines, line, rest, hsplit, htag, hlines⟩ := List.findSome?_eq_some_iff.mp hfound
    exact ⟨text, lines, line, rest, htext, hsplit, fixesTag_eq_some_iff.mp htag, hnone.mpr hlines⟩

theorem takes_unique (h : u.Takes sha name) {name' : Sha} (h' : u.Takes sha name') :
    name' = name := by
  obtain ⟨text, htext, hfound⟩ := takes_iff.mp h
  obtain ⟨text', htext', hfound'⟩ := takes_iff.mp h'
  obtain rfl : text = text' := Option.some.inj (htext.symm.trans htext')
  exact Option.some.inj (hfound'.symm.trans hfound)

theorem ne_nil_of_takes (h : u.Takes sha name) : name ≠ [] := by
  obtain ⟨_, _, _, _, -, -, ⟨⟨hlength, -⟩, -⟩, -⟩ := h
  rintro rfl
  cases hlength

/-! ## Steps of the way -/

theorem comes_nil : ¬u.Comes linuxSha linuxSubj [] before sha := by
  rintro ⟨after, h, -⟩
  exact absurd h.symm (by simp)

theorem comes_cons {s : Sha} :
    u.Comes linuxSha linuxSubj (s :: shas) before sha ↔ ¬linuxSha <:+: s ∧
    (before = [] ∧ sha = s ∨
      ∃ before', before = s :: before' ∧ ¬u.Stops linuxSubj s ∧
        u.Comes linuxSha linuxSubj shas before' sha) := by
  constructor
  · rintro ⟨after, hsplit, hin, hstops⟩
    cases before with
    | nil =>
      obtain ⟨rfl, -⟩ := List.cons.inj hsplit
      exact ⟨hin s (by simp), .inl ⟨rfl, rfl⟩⟩
    | cons b before =>
      obtain ⟨rfl, hrest⟩ := List.cons.inj hsplit
      refine ⟨hin s (by simp),
        .inr ⟨before, rfl, hstops s List.mem_cons_self, after, hrest, ?_, ?_⟩⟩
      · exact fun s' hs' => hin s' (List.mem_cons_of_mem s hs')
      · exact fun s' hs' => hstops s' (List.mem_cons_of_mem s hs')
  · rintro ⟨hs, ⟨rfl, rfl⟩ | ⟨before', rfl, hstops, after, rfl, hin, hstops'⟩⟩
    · exact ⟨shas, rfl, by simpa using hs, by simp⟩
    · exact ⟨after, rfl, List.forall_mem_cons.mpr ⟨hs, hin⟩,
        List.forall_mem_cons.mpr ⟨hstops, hstops'⟩⟩

/-- The loop stops at one commit only. -/
theorem comes_unique (h : u.Comes linuxSha linuxSubj newer before sha)
    (hstops : u.Stops linuxSubj sha) (h' : u.Comes linuxSha linuxSubj newer before' sha')
    (hstops' : u.Stops linuxSubj sha') : sha' = sha := by
  induction newer generalizing before before' with
  | nil => exact absurd h comes_nil
  | cons s newer ih =>
    obtain ⟨-, ⟨-, rfl⟩ | ⟨rest, -, hs, h⟩⟩ := comes_cons.mp h
    · obtain ⟨-, ⟨-, rfl⟩ | ⟨rest', -, hs', -⟩⟩ := comes_cons.mp h'
      · rfl
      · exact absurd hstops hs'
    · obtain ⟨-, ⟨-, rfl⟩ | ⟨rest', -, -, h'⟩⟩ := comes_cons.mp h'
      · exact absurd hstops' hs
      · exact ih h h'

/-- One more commit before it, with a tag or without. -/
theorem readable_cons {s : Sha} : u.Readable known (s :: before) sha ↔
    u.Readable (known ∨ ∃ name, u.Takes s name) before sha := by
  have hiff : (known ∨ ∃ s' ∈ s :: before, ∃ name, u.Takes s' name) ↔
      (known ∨ ∃ name, u.Takes s name) ∨ ∃ s' ∈ before, ∃ name, u.Takes s' name := by
    simp only [List.mem_cons, exists_eq_or_imp, or_assoc]
  constructor
  · rintro ⟨hmessage, hsubject, hname⟩
    exact ⟨hmessage, hsubject, fun name htakes hnone => hiff.mp (hname name htakes hnone)⟩
  · rintro ⟨hmessage, hsubject, hname⟩
    exact ⟨hmessage, hsubject, fun name htakes hnone => hiff.mpr (hname name htakes hnone)⟩

/-! ## The loop -/

/-- What `check_output` makes of an answer. -/
def outputOf : Option Bytes → Except Error Text
  | none => .error .calledProcessError
  | some bytes => (decode bytes).elim (.error .unicodeDecodeError) .ok

theorem eval_checkOutput {o : Op (Option Bytes)} {answer : Option Bytes}
    (h : u.git o () = some (answer, ())) :
    (checkOutput o).eval u.git () = some (outputOf answer, ()) := by
  have hread : (perform o : M (Option Bytes)).eval u.git () = some (.ok answer, ()) := by
    rw [perform, eval, h]
    rfl
  rw [checkOutput, eval_bind hread]
  cases answer with
  | none => rfl
  | some bytes =>
    dsimp only [decoded, outputOf]
    cases decode bytes <;> rfl

theorem eval_getSubjectLine : (getSubjectLine env name).eval u.git
    () = some (match u.subject name with
    | none => .error (.contextGeneratorException ("Error locating subject for sha ".toList ++ name))
    | some bytes => (decode bytes).elim (.error .unicodeDecodeError) .ok, ()) := by
  have hread := @eval_checkOutput u (.logSubject env.linux name) (u.subject name) rfl
  unfold getSubjectLine
  cases hsubject : u.subject name with
  | none =>
    rw [hsubject] at hread
    exact eval_tryCatch_error hread
  | some bytes =>
    rw [hsubject, outputOf] at hread
    dsimp only
    cases htext : decode bytes with
    | none =>
      rw [htext] at hread
      exact eval_tryCatch_error hread
    | some text =>
      rw [htext] at hread
      exact eval_tryCatch hread

theorem eval_getFixesCommit (henv : env.linux = some path) (hsha : sha ∈ u.log) :
    (getFixesCommit env sha).eval u.git () =
      some ((u.text sha).elim (.error .unicodeDecodeError) fun text =>
      .ok (((text.splitOn '\n').findSome? fixesTag).getD []), ()) := by
  obtain ⟨bytes, hbytes⟩ := Option.isSome_iff_exists.mp (u.log_message sha hsha)
  have hread : (checkOutput (.logMessage path sha)).eval u.git () =
      some ((decode bytes).elim (.error .unicodeDecodeError) .ok, ()) := by
    have hread := @eval_checkOutput u (.logMessage path sha) (u.message sha) rfl
    rwa [hbytes, outputOf] at hread
  unfold getFixesCommit getCommitMessage Upstream.text
  rw [henv, hbytes, Option.bind_some]
  cases htext : decode bytes with
  | none =>
    rw [htext] at hread
    exact eval_bind_error (eval_tryCatch_error (eval_bind_error hread))
  | some text =>
    rw [htext] at hread
    exact eval_bind (eval_tryCatch (eval_bind hread))

/-- A commit that cannot be read. -/
theorem eval_detectLoop_unread (henv : env.linux = some path) (hsha : sha ∈ u.log)
    (hin : ¬linuxSha <:+: sha) (htext : u.text sha = none) (fixesSubj : Option Text) :
    (detectLoop env linuxSha subject fixesSubj (sha :: shas)).eval u.git () =
      some (.error .unicodeDecodeError, ()) := by
  have hread := eval_getFixesCommit henv hsha
  rw [htext, Option.elim_none] at hread
  rw [detectLoop, if_neg hin, eval_bind_error hread]

/-- A commit without a tag. -/
theorem eval_detectLoop_untagged (henv : env.linux = some path) (hsha : sha ∈ u.log)
    (hin : ¬linuxSha <:+: sha) (htext : u.text sha = some text)
    (htakes : ∀ name, ¬u.Takes sha name) (fixesSubj : Option Text) :
    (detectLoop env linuxSha subject fixesSubj (sha :: shas)).eval u.git () =
      (detectLoop env linuxSha subject fixesSubj shas).eval u.git () := by
  have hread := eval_getFixesCommit henv hsha
  have hnone : (text.splitOn '\n').findSome? fixesTag = none := by
    rw [Option.eq_none_iff_forall_ne_some]
    exact fun name hname => htakes name (takes_iff.mpr ⟨text, htext, hname⟩)
  rw [htext, Option.elim_some, hnone, Option.getD_none] at hread
  rw [detectLoop, if_neg hin, eval_bind hread, if_pos rfl]

/-- A commit with a tag; the value of `fixes_subj` after the `try` is what is found, or what it
was. -/
theorem eval_detectLoop_tagged (henv : env.linux = some path) (hsha : sha ∈ u.log)
    (hin : ¬linuxSha <:+: sha) (htakes : u.Takes sha name) (fixesSubj : Option Text) :
    (detectLoop env linuxSha subject fixesSubj (sha :: shas)).eval u.git () =
      match u.subject name with
      | none => fixesSubj.elim (some (.error .unboundLocalError, ())) fun found =>
          if found = subject then some (.ok [sha], ())
          else (detectLoop env linuxSha subject (some found) shas).eval u.git ()
      | some bytes => (decode bytes).elim (some (.error .unicodeDecodeError, ())) fun found =>
          if found = subject then some (.ok [sha], ())
          else (detectLoop env linuxSha subject (some found) shas).eval u.git () := by
  obtain ⟨text, htext, hname⟩ := takes_iff.mp htakes
  have hread := eval_getFixesCommit henv hsha
  rw [htext, Option.elim_some, hname, Option.getD_some] at hread
  rw [detectLoop, if_neg hin, eval_bind hread, if_neg (ne_nil_of_takes htakes)]
  have hsubject := @eval_getSubjectLine u env name
  cases hknown : u.subject name with
  | none =>
    rw [hknown] at hsubject
    rw [eval_bind (eval_tryCatch_error (eval_bind_error hsubject))]
    cases fixesSubj with
    | none => rfl
    | some found =>
      dsimp only [Option.elim_some]
      split <;> rfl
  | some bytes =>
    rw [hknown] at hsubject
    dsimp only at hsubject ⊢
    cases hfound : decode bytes with
    | none =>
      rw [hfound] at hsubject
      rw [eval_bind_error (eval_tryCatch_error (eval_bind_error hsubject))]
      rfl
    | some found =>
      rw [hfound] at hsubject
      rw [eval_bind (eval_tryCatch (eval_bind hsubject))]
      dsimp only [Option.elim_some]
      split <;> rfl

theorem stops_iff (hlinux : decode linuxSubj = some subject) (htakes : u.Takes sha name) :
    u.Stops linuxSubj sha ↔ (u.subject name).bind decode = some subject := by
  constructor
  · rintro ⟨name', subject', htakes', hsubject, hlinux'⟩
    rw [takes_unique htakes htakes'] at hsubject
    rw [hsubject, ← hlinux', hlinux]
  · exact fun h => ⟨name, subject, htakes, h, hlinux⟩

/-- How the loop over the newer commits ends. -/
inductive Upstream.Ends (u : Upstream) (linuxSha : Sha) (linuxSubj : Bytes) (known : Prop)
    (newer : List Sha) :
    Option (Except Error (List Sha) × Unit) → Prop
  | fails (before : List Sha) (sha : Sha) (e : Error)
      (hcomes : u.Comes linuxSha linuxSubj newer before sha)
      (hreadable : ¬u.Readable known before sha) : u.Ends linuxSha linuxSubj known newer
        (some (.error e, ()))
  | stops (before : List Sha) (sha : Sha)
      (hreadable : ∀ before sha, u.Comes linuxSha linuxSubj newer before sha →
        u.Readable known before sha)
      (hcomes : u.Comes linuxSha linuxSubj newer before sha) (hstops : u.Stops linuxSubj sha) :
      u.Ends linuxSha linuxSubj known newer (some (.ok [sha], ()))
  | passes (hreadable : ∀ before sha, u.Comes linuxSha linuxSubj newer before sha →
      u.Readable known before sha)
      (hstops : ∀ before sha, u.Comes linuxSha linuxSubj newer before sha →
        ¬u.Stops linuxSubj sha) :
      u.Ends linuxSha linuxSubj known newer (some (.ok [], ()))

theorem ends_of_not_comes (h : ∀ before sha, ¬u.Comes linuxSha linuxSubj newer before sha) :
    u.Ends linuxSha linuxSubj known newer (some (.ok [], ())) :=
  .passes (fun before sha hcomes => absurd hcomes (h before sha)) fun before sha hcomes =>
    absurd hcomes (h before sha)

/-- The loop goes past a commit. -/
theorem ends_cons {r : Option (Except Error (List Sha) × Unit)} (hin : ¬linuxSha <:+: sha)
    (hreadable : u.Readable known [] sha) (hstops : ¬u.Stops linuxSubj sha)
    (h : u.Ends linuxSha linuxSubj (known ∨ ∃ name, u.Takes sha name) shas r) :
    u.Ends linuxSha linuxSubj known (sha :: shas) r := by
  have hlater : ∀ {before : List Sha} {sha' : Sha}, u.Comes linuxSha linuxSubj shas before sha' →
      u.Comes linuxSha linuxSubj (sha :: shas) (sha :: before) sha' :=
    fun hcomes => comes_cons.mpr ⟨hin, .inr ⟨_, rfl, hstops, hcomes⟩⟩
  have hall : (∀ before sha', u.Comes linuxSha linuxSubj shas before sha' →
      u.Readable (known ∨ ∃ name, u.Takes sha name) before sha') →
      ∀ before sha', u.Comes linuxSha linuxSubj (sha :: shas) before sha' →
          u.Readable known before sha' := by
    intro hrest before sha' hcomes
    obtain ⟨-, ⟨rfl, rfl⟩ | ⟨before', rfl, -, hcomes⟩⟩ := comes_cons.mp hcomes
    · exact hreadable
    · exact readable_cons.mpr (hrest before' sha' hcomes)
  cases h with
  | fails before sha' e hcomes hbad =>
    exact .fails (sha :: before) sha' e (hlater hcomes) fun h => hbad (readable_cons.mp h)
  | stops before sha' hrest hcomes hstops' =>
    exact .stops (sha :: before) sha' (hall hrest) (hlater hcomes) hstops'
  | passes hrest hpasses =>
    refine .passes (hall hrest) fun before sha' hcomes => ?_
    obtain ⟨-, ⟨rfl, rfl⟩ | ⟨before', rfl, -, hcomes⟩⟩ := comes_cons.mp hcomes
    · exact hstops
    · exact hpasses before' sha' hcomes

/-- The loop returns a commit. -/
theorem ends_here (hin : ¬linuxSha <:+: sha) (hreadable : u.Readable known [] sha)
    (hstops : u.Stops linuxSubj sha) :
    u.Ends linuxSha linuxSubj known (sha :: shas) (some (.ok [sha], ())) := by
  refine .stops [] sha (fun before sha' hcomes => ?_) (comes_cons.mpr ⟨hin, .inl ⟨rfl, rfl⟩⟩) hstops
  obtain ⟨-, ⟨rfl, rfl⟩ | ⟨_, -, hnot, -⟩⟩ := comes_cons.mp hcomes
  · exact hreadable
  · exact absurd hstops hnot

theorem ends_error (hin : ¬linuxSha <:+: sha) (hreadable : ¬u.Readable known [] sha) (e : Error) :
    u.Ends linuxSha linuxSubj known (sha :: shas) (some (.error e, ())) :=
  .fails [] sha e (comes_cons.mpr ⟨hin, .inl ⟨rfl, rfl⟩⟩) hreadable

theorem readable_of_subject {bytes : Bytes} {found : Text} (htext : u.text sha = some text)
    (htakes : u.Takes sha name) (hsubject : u.subject name = some bytes)
    (hfound : decode bytes = some found) : u.Readable known [] sha := by
  refine ⟨by rw [htext]; rfl, ?_, ?_⟩
  · intro name' bytes' htakes' hbytes
    rw [takes_unique htakes htakes', hsubject] at hbytes
    rw [← Option.some.inj hbytes, hfound]
    rfl
  · intro name' htakes' hnone
    rw [takes_unique htakes htakes', hsubject] at hnone
    cases hnone

/-- A commit with a tag. A name that git does not know is passed over, as long as `fixes_subj` has a
value. -/
theorem ends_tagged (henv : env.linux = some path) (hsha : sha ∈ u.log) (hin : ¬linuxSha <:+: sha)
    (htext : u.text sha = some text) (htakes : u.Takes sha name)
    (hlinux : decode linuxSubj = some subject) {fixesSubj : Option Text}
    (hstale : ∀ found, fixesSubj = some found → found ≠ subject)
    (hrest : ∀ found, found ≠ subject → u.Ends linuxSha linuxSubj True newer
      ((detectLoop env linuxSha subject (some found) shas).eval u.git ())) :
    u.Ends linuxSha linuxSubj (fixesSubj.isSome = true) (sha :: newer)
      ((detectLoop env linuxSha subject fixesSubj (sha :: shas)).eval u.git ()) := by
  have hstops := stops_iff hlinux htakes
  have hgoes : ∀ found, found ≠ subject → u.Readable (fixesSubj.isSome = true) [] sha →
    ¬u.Stops linuxSubj sha →
      u.Ends linuxSha linuxSubj (fixesSubj.isSome = true) (sha :: newer)
        ((detectLoop env linuxSha subject (some found) shas).eval u.git ()) := by
    intro found hne hreadable hpasses
    refine ends_cons hin hreadable hpasses ?_
    rw [eq_true (.inr ⟨name, htakes⟩ : fixesSubj.isSome = true ∨ ∃ name, u.Takes sha name)]
    exact hrest found hne
  rw [eval_detectLoop_tagged henv hsha hin htakes]
  cases hsubject : u.subject name with
  | none =>
    rw [hsubject] at hstops
    cases fixesSubj with
    | none =>
      refine ends_error hin (fun h => ?_) _
      rcases h.name name htakes hsubject with h | ⟨_, hmem, -⟩
      · cases h
      · cases hmem
    | some found =>
      show u.Ends _ _ _ _ (if found = subject then _ else _)
      rw [if_neg (hstale found rfl)]
      refine hgoes found (hstale found rfl)
        ⟨by rw [htext]; rfl, ?_, fun _ _ _ => .inl rfl⟩ fun h => ?_
      · intro name' bytes htakes' hbytes
        rw [takes_unique htakes htakes', hsubject] at hbytes
        cases hbytes
      · cases hstops.mp h
  | some bytes =>
    rw [hsubject, Option.bind_some] at hstops
    show u.Ends _ _ _ _ ((decode bytes).elim _ _)
    cases hfound : decode bytes with
    | none =>
      refine ends_error hin (fun h => ?_) _
      have hread := h.subject name bytes htakes hsubject
      rw [hfound] at hread
      cases hread
    | some found =>
      have hreadable := @readable_of_subject u sha name text
        (fixesSubj.isSome = true) bytes found htext htakes hsubject hfound
      rw [hfound] at hstops
      show u.Ends _ _ _ _ (if found = subject then _ else _)
      by_cases heq : found = subject
      · rw [if_pos heq]
        exact ends_here hin hreadable (hstops.mpr (congrArg some heq))
      · rw [if_neg heq]
        exact hgoes found heq hreadable fun h => heq (Option.some.inj (hstops.mp h))

/-- The subject in `fixes_subj` is one that the loop has gone past, so that it is not the one looked
for. -/
theorem ends_detectLoop (henv : env.linux = some path) (hnewer : ∀ sha ∈ newer, sha ∈ u.log)
    {given : Sha} (hgiven : linuxSha <:+: given) (older : List Sha)
    (hlinux : decode linuxSubj = some subject) {fixesSubj : Option Text}
    (hstale : ∀ found, fixesSubj = some found → found ≠ subject) :
    u.Ends linuxSha linuxSubj (fixesSubj.isSome = true) newer
      ((detectLoop env linuxSha subject fixesSubj (newer ++ given :: older)).eval u.git ()) := by
  induction newer generalizing fixesSubj with
  | nil =>
    rw [List.nil_append, detectLoop, if_pos hgiven]
    exact ends_of_not_comes fun _ _ => comes_nil
  | cons sha newer ih =>
    have hsha := hnewer sha List.mem_cons_self
    have ih := @ih fun s hs => hnewer s (List.mem_cons_of_mem sha hs)
    rw [List.cons_append]
    by_cases hin : linuxSha <:+: sha
    · rw [detectLoop, if_pos hin]
      exact ends_of_not_comes fun _ _ hcomes => (comes_cons.mp hcomes).1 hin
    cases htext : u.text sha with
    | none =>
      rw [eval_detectLoop_unread henv hsha hin htext]
      refine ends_error hin (fun h => ?_) _
      have hmessage := h.message
      rw [htext] at hmessage
      cases hmessage
    | some text =>
      by_cases htagged : ∃ name, u.Takes sha name
      · obtain ⟨name, htakes⟩ := htagged
        refine ends_tagged henv hsha hin htext htakes hlinux hstale fun found hne => ?_
        have hfound := @ih (some found) fun found' heq => Option.some.inj heq ▸ hne
        rwa [Option.isSome_some, eq_self] at hfound
      · have hnone : ∀ name, ¬u.Takes sha name := not_exists.mp htagged
        rw [eval_detectLoop_untagged henv hsha hin htext hnone]
        refine ends_cons hin ⟨by rw [htext]; rfl, fun name _ h => absurd h (hnone name),
          fun name h => absurd h (hnone name)⟩ ?_ ?_
        · rintro ⟨name, _, htakes, -⟩
          exact hnone name htakes
        · rw [or_iff_left htagged]
          exact ih hstale

/-! ## The lines of the log -/

theorem splitOn_log {shas : List Sha} (h : ∀ sha ∈ shas, '\n' ∉ sha) :
    (shas.flatMap fun sha => sha ++ ['\n']).splitOn '\n' = shas ++ [[]] := by
  induction shas with
  | nil => rfl
  | cons sha shas ih =>
    have ih := ih fun s hs => h s (List.mem_cons_of_mem sha hs)
    rw [List.flatMap_cons, List.append_assoc, List.singleton_append,
      List.splitOn_append_cons_self_of_not_mem (h sha List.mem_cons_self), ih]
    rfl

theorem Upstream.not_mem_of_log (hsha : sha ∈ u.log) {c : Char} (hc : hexDigit c = false) :
    c ∉ sha := by
  intro hmem
  have hhex := u.log_hex sha hsha c hmem
  rw [hc] at hhex
  cases hhex

theorem decode_log : decode ((u.log.flatMap fun sha => sha ++ ['\n']).map some) =
    some (u.log.flatMap fun sha => sha ++ ['\n']) := by
  rw [decode_map_some, universalNewlines_of_not_mem]
  intro hmem
  obtain ⟨sha, hsha, hmem⟩ := List.mem_flatMap.mp hmem
  rcases List.mem_append.mp hmem with hmem | hmem
  · exact u.not_mem_of_log hsha (by decide) hmem
  · exact absurd hmem (by decide)

/-! ## The call -/

theorem eval_detectRelevantCommits (hsubject : u.subject linuxSha = some linuxSubj)
    (hlinux : decode linuxSubj = some subject) :
    (detectRelevantCommits env linuxSha).eval u.git () =
      (detectLoop env linuxSha subject none (u.log ++ [[]])).eval u.git () := by
  have hread := @eval_getSubjectLine u env linuxSha
  rw [hsubject] at hread
  dsimp only at hread
  rw [hlinux] at hread
  have hlog := @eval_checkOutput u (.logShas env.linux) _ rfl
  rw [outputOf, decode_log] at hlog
  rw [detectRelevantCommits, eval_bind hread, eval_bind hlog,
    splitOn_log fun sha hsha => u.not_mem_of_log hsha (by decide)]

theorem eval_detectRelevantCommits_unread (hsubject : u.subject linuxSha = some linuxSubj)
    (hlinux : decode linuxSubj = none) :
    (detectRelevantCommits env linuxSha).eval u.git () = some (.error .unicodeDecodeError, ()) := by
  have hread := @eval_getSubjectLine u env linuxSha
  rw [hsubject] at hread
  dsimp only at hread
  rw [hlinux] at hread
  exact eval_bind_error hread

theorem filter_eq_singleton_iff {α : Type} {p : α → Bool} {xs : List α} {x : α} (hx : x ∈ xs) :
    xs.filter p = [x] ↔ (xs.filter p).length ≤ 1 ∧ (∀ y ∈ xs, p y = true → y = x) ∧ p x = true := by
  constructor
  · intro h
    have hmem : ∀ y, y ∈ xs ∧ p y = true ↔ y = x :=
      fun y => by rw [← List.mem_filter, h, List.mem_singleton]
    exact ⟨by
        rw [h]; exact Nat.le_refl 1, fun y hy hp => (hmem y).mp ⟨hy, hp⟩, ((hmem x).mpr rfl).2⟩
  · rintro ⟨hlength, -, hp⟩
    have hmem : x ∈ xs.filter p := List.mem_filter.mpr ⟨hx, hp⟩
    obtain ⟨y, hy⟩ :=
      List.length_eq_one_iff.mp (Nat.le_antisymm hlength (List.length_pos_of_mem hmem))
    rw [hy, List.mem_singleton] at hmem
    rw [hy, hmem]

theorem ok_eq_iff {xs ys : List Sha} :
    (some (.ok xs, ()) : Option (Except Error (List Sha) × Unit)) = some (.ok ys, ()) ↔
      ys = xs := by
  constructor
  · intro h
    cases h
    rfl
  · rintro rfl
    rfl

theorem detects_iff_fits (hgiven : (decode linuxSubj).isSome)
    (h : u.Ends linuxSha linuxSubj False newer
      ((detectRelevantCommits env linuxSha).eval u.git ())) :
    Detects u env linuxSha linuxSubj newer ↔ u.Fits linuxSha linuxSubj newer := by
  unfold Detects
  generalize (detectRelevantCommits env linuxSha).eval u.git () = r at h
  cases h with
  | fails before sha e hcomes hbad =>
    exact ⟨fun h => (by cases h), fun h => absurd (h.readable before sha hcomes) hbad⟩
  | stops before sha hreadable hcomes hstops =>
    have hsha : sha ∈ newer := by
      obtain ⟨after, hsplit, -⟩ := hcomes
      rw [hsplit]
      simp
    rw [ok_eq_iff, filter_eq_singleton_iff hsha]
    constructor
    · rintro ⟨hone, honly, hrelevant⟩
      refine ⟨hgiven, hreadable, hone, fun sha' hsha' h => ?_,
        fun before' sha' hcomes' hstops' => ?_⟩
      · rw [honly sha' hsha' h]
        exact ⟨before, hcomes, hstops⟩
      · rw [comes_unique hcomes hstops hcomes' hstops']
        exact hrelevant
    · intro h
      refine ⟨h.one, fun sha' hsha' hrelevant => ?_, h.relevant before sha hcomes hstops⟩
      obtain ⟨before', hcomes', hstops'⟩ := h.stops sha' hsha' hrelevant
      exact comes_unique hcomes hstops hcomes' hstops'
  | passes hreadable hpasses =>
    rw [ok_eq_iff]
    constructor
    · intro hnil
      refine ⟨hgiven,
        hreadable, by rw [hnil]; exact Nat.zero_le 1, fun sha hsha hrelevant => ?_, ?_⟩
      · exact absurd hrelevant (List.filter_eq_nil_iff.mp hnil sha hsha)
      · exact fun before sha hcomes hstops => absurd hstops (hpasses before sha hcomes)
    · intro h
      refine List.filter_eq_nil_iff.mpr fun sha hsha hrelevant => ?_
      obtain ⟨before, hcomes, hstops⟩ := h.stops sha hsha hrelevant
      exact hpasses before sha hcomes hstops

end

/-- **A call finds the newer commits with a `Fixes:` line for the given one exactly if what it reads
is UTF-8, git knows the name of the first tag that it comes to, and at most one newer commit is
such, the one that the loop stops at.** -/
theorem detects_iff (u : Upstream) (env : Env) (path linuxSha : Text) (linuxSubj : Bytes)
    (newer older : List Sha) (given : Sha) (henv : env.linux = some path)
    (hlog : u.log = newer ++ given :: older) (hgiven : linuxSha <+: given)
    (hsubject : u.subject linuxSha = some linuxSubj) :
    Detects u env linuxSha linuxSubj newer ↔ u.Fits linuxSha linuxSubj newer := by
  have hnewer : ∀ sha ∈ newer, sha ∈ u.log := by
    intro sha hsha
    rw [hlog]
    exact List.mem_append_left _ hsha
  cases hlinux : decode linuxSubj with
  | none =>
    unfold Detects
    rw [eval_detectRelevantCommits_unread hsubject hlinux]
    refine ⟨fun h => (by cases h), fun h => ?_⟩
    have hread := h.given
    rw [hlinux] at hread
    cases hread
  | some subject =>
    have hends :=
      @ends_detectLoop u env path linuxSha linuxSubj subject newer henv hnewer given hgiven.isInfix
      (older ++ [[]]) hlinux none (fun _ h => by cases h)
    rw [Option.isSome_none, Bool.false_eq_true] at hends
    refine detects_iff_fits (by rw [hlinux]; rfl) ?_
    rw [eval_detectRelevantCommits hsubject hlinux, hlog, List.append_assoc, List.cons_append]
    exact hends

/-! ## Histories of a few commits -/

def bytes (text : String) : Bytes := text.toList.map some

/-- Commits with names of one character: 0 has a bug, 2 and 8 fix it, 3 and 4 fix others, and what 1
says is not UTF-8. -/
def messageOf (name : Text) : Bytes :=
  if name = ['2'] ∨ name = ['8'] then bytes "a fix\n\nFixes: 000000000000 (\"a bug\")\n"
  else if name = ['3'] then bytes "a fix\n\nFixes: cccccccccccc (\"a bug of a fork\")\n"
  else if name = ['4'] then bytes "a fix\n\nFixes: bbbbbbbbbbbb (\"another bug\")\n"
  else if name = ['1'] then [some 'a', none]
  else bytes "a cleanup\n"

def subjectOf (name : Text) : Option Bytes :=
  if name = "cccccccccccc".toList then none
  else if name = ['0'] ∨ name = "000000000000".toList then some (bytes "a bug")
  else some (bytes "another bug")

theorem hexDigit_names {names : List Char} (h : names.all hexDigit = true) :
    ∀ sha ∈ names.map fun c => [c], ∀ c ∈ sha, hexDigit c := by
  intro sha hsha c hc
  obtain ⟨name, hname, rfl⟩ := List.mem_map.mp hsha
  rw [List.mem_singleton.mp hc]
  exact List.all_eq_true.mp h name hname

def commitsOf (names : List Char) (h : names.all hexDigit = true) : Upstream where
  log := names.map fun c => [c]
  message name := some (messageOf name)
  subject := subjectOf
  log_hex := hexDigit_names h
  log_message _ _ := rfl

theorem detects_iff_oneFix :
    Detects (commitsOf "543210".toList (by decide)) someEnv ['0'] (bytes "a bug")
      ("54321".toList.map fun c => [c]) ∧
    (commitsOf "543210".toList (by decide)).Fits ['0'] (bytes "a bug")
      ("54321".toList.map fun c => [c]) := by
  have hfound : Detects (commitsOf "543210".toList (by decide)) someEnv ['0'] (bytes "a bug")
      ("54321".toList.map fun c => [c]) := by
    unfold Detects
    decide
  exact ⟨hfound, (detects_iff _ someEnv "/linux".toList ['0'] (bytes "a bug") _ [] ['0'] rfl rfl
    (List.prefix_refl _)
    rfl).mp hfound⟩

/-- Of two fixes, the newer one is all that is found. -/
theorem not_detects : ¬∀ u env path linuxSha linuxSubj newer older given, env.linux = some path →
    u.log = newer ++ given :: older → linuxSha <+: given → u.subject linuxSha = some linuxSubj →
    Detects u env linuxSha linuxSubj newer := by
  intro h
  have hfound := h (commitsOf "820".toList (by decide)) someEnv "/linux".toList ['0']
    (bytes "a bug") [['8'], ['2']] []
    ['0'] rfl rfl (List.prefix_refl _) rfl
  exact absurd hfound (by unfold Detects; decide)

end Cvetriager
