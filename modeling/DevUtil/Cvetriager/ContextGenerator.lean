import Mathlib.Data.List.Infix
import DevUtil.Lib.PosixPath
import DevUtil.Lib.Prog
import DevUtil.Lib.Text

/-!
# Which kernels a fix is for

`ContextGenerator` of `contextgenerator.py`, and what it uses of `common.py`. Git may answer
every call in any way.

    every query asks in the right directory, on the right branch and for the right
      subject                                                     (asks_checkCros, asks_checkStable)
    generate_context returns → the kernels are a sublist of the given ones, and
      each one that is gone is explained by an answer of git ↔
        no query failed                                           (generateContext_iff)

`is_in_kernel` answers no to both questions when its query fails, so that a kernel goes
without anything found out about it.
-/

namespace Cvetriager

open Lib Prog PosixPath

abbrev Kernel := Text
abbrev Sha := Text

/-! ## Git and the environment -/

/-- What git prints, character by character; a byte that is not UTF-8 is `none`. -/
abbrev Bytes := List (Option Char)

def characters : Bytes → Option Text
  | [] => some []
  | none :: _ => none
  | some c :: bytes => (characters bytes).map (c :: ·)

/-- What Python reads. -/
def decode (bytes : Bytes) : Option Text := (characters bytes).map universalNewlines

theorem characters_map_some (text : Text) : characters (text.map some) = some text := by
  induction text with
  | nil => rfl
  | cons c text ih =>
    rw [List.map_cons, characters, ih]
    rfl

theorem decode_map_some (text : Text) : decode (text.map some) = some (universalNewlines text) := by
  rw [decode, characters_map_some]
  rfl

theorem decode_cons_ne_nil {b : Option Char} {bytes : Bytes} {text : Text}
    (h : decode (b :: bytes) = some text) :
    text ≠ [] := by
  obtain ⟨cs, hcs, rfl⟩ := Option.map_eq_some_iff.mp h
  cases b with
  | none => cases hcs
  | some c =>
    obtain ⟨cs, -, rfl⟩ := Option.map_eq_some_iff.mp hcs
    exact universalNewlines_ne_nil c cs

/-- The passes of `generate_context`. -/
inductive Pass
  | fixed
  | fixesSubj
  | stable
  | stableRc
deriving DecidableEq

/-- The calls of git; `none`, or `false`, is a non-zero exit. -/
inductive Op : Type → Type
  /-- `git log --pretty=format:%s -n 1 sha` -/
  | logSubject (cwd : Option Text) (sha : Sha) : Op (Option Bytes)
  /-- `git -C path log --format=%B -n 1 sha` -/
  | logMessage (path : Text) (sha : Sha) : Op (Option Bytes)
  /-- `git log --no-merges -F --grep subject`; git does not see the pass and the kernel that it is
  for -/
  | logGrep (pass : Pass) (kernel : Kernel) (cwd : Option Text) (subject : Text) : Op (Option Bytes)
  /-- `git log --format=%H` -/
  | logShas (cwd : Option Text) : Op (Option Bytes)
  | checkout (cwd : Option Text) (branch : Text) : Op Bool
  | pull (cwd : Option Text) (remote branch : Text) : Op Bool

inductive Error
  | commonException (message : Text)
  | contextGeneratorException (message : Text)
  | calledProcessError
  | unicodeDecodeError
  | typeError
  | unboundLocalError
deriving DecidableEq

abbrev M := Prog Op Error

def decoded (bytes : Bytes) : M Text :=
  match decode bytes with
  | none => raise .unicodeDecodeError
  | some text => return text

/-- `subprocess.check_output(..., encoding='utf-8')` -/
def checkOutput (o : Op (Option Bytes)) : M Text := do
  match ← perform o with
  | none => raise .calledProcessError
  | some bytes => decoded bytes

theorem decoded_none {bytes : Bytes} (h : decode bytes = none) :
    decoded bytes = raise .unicodeDecodeError := by
  unfold decoded
  rw [h]

theorem decoded_some {bytes : Bytes} {text : Text} (h : decode bytes = some text) :
    decoded bytes = ret text := by
  unfold decoded
  rw [h]
  rfl

/-- `os.getenv` -/
structure Env where
  linux : Option Text
  chromiumosKernel : Option Text
  stable : Option Text
  stableRc : Option Text

/-! ## `common.py` -/

def getStableBranch (kernel : Kernel) (isRc : Bool) : Text × Text :=
  let remote := "linux-".toList ++ kernel.drop 1 ++ ".y".toList
  if isRc then (kernel, remote) else (remote, remote)

def getCrosBranch (kernel : Kernel) : Text := "chromeos-".toList ++ kernel.drop 1

def doCheckout (kernel : Kernel) (branch : Text) (kernelPath : Option Text) : M Unit := do
  if ← perform (.checkout kernelPath branch) then return
  else raise (.commonException ("Checkout failed for ".toList ++ kernel))

def doPull (kernel : Kernel) (remote remoteBranch : Text) (kernelPath : Option Text) : M Unit := do
  if ← perform (.pull kernelPath remote remoteBranch) then return
  else raise (.commonException ("Pull failed for ".toList ++ kernel))

/-- With `DO_PULL` as the first argument. -/
def checkoutBranch (pulls : Bool) (kernel : Kernel) (branch remote remoteBranch : Text)
    (kernelPath : Option Text) :
    M Unit := do
  doCheckout kernel branch kernelPath
  if pulls then doPull kernel remote remoteBranch kernelPath

def getCommitMessage (kernelPath : Option Text) (sha : Sha) : M Text :=
  match kernelPath with
  | none => raise .typeError
  | some path =>
    (checkOutput (.logMessage path sha) >>= fun message =>
      return message.rdropWhile isSpace ++ ['\n']).tryCatch fun e =>
        match e with
        | .calledProcessError =>
          raise
            (.commonException
              ("Could not retrieve commit in ".toList ++ path ++ " for ".toList ++ sha))
        | e => raise e

/-! ## `ContextGenerator` -/

/-- What `^Fixes: [a-z0-9]{12}` finds in a line. -/
def fixesTag (line : Text) : Option Sha :=
  let sha := (line.drop 7).take 12
  if "Fixes: ".toList.isPrefixOf line ∧ sha.length = 12 ∧
    sha.all (fun c => c.isLower || c.isDigit) then some sha
  else none

/-- The sha of the first `Fixes:` tag, or nothing. -/
def getFixesCommit (env : Env) (linuxSha : Sha) : M Sha := do
  let commitMessage ← getCommitMessage env.linux linuxSha
  return ((commitMessage.splitOn '\n').findSome? fixesTag).getD []

def getSubjectLine (env : Env) (linuxSha : Sha) : M Text :=
  (checkOutput (.logSubject env.linux linuxSha)).tryCatch fun e =>
    match e with
    | .calledProcessError =>
      raise (.contextGeneratorException ("Error locating subject for sha ".toList ++ linuxSha))
    | e => raise e

def isInKernel (pass : Pass) (kernel : Kernel) (path : Option Text) (subject : Text)
    (isInside : Bool) : M Bool :=
  (checkOutput (.logGrep pass kernel path subject) >>= fun result =>
    return decide (result ≠ []) == isInside).tryCatch fun e =>
      match e with
      | .calledProcessError => return false
      | e => raise e

/-- `valid_kernels`: the loop that three passes share. -/
def validKernels (check : Kernel → M Bool) : List Kernel → M (List Kernel)
  | [] => return []
  | kernel :: kernels => do
    let valid ← check kernel
    let rest ← validKernels check kernels
    return if valid then kernel :: rest else rest

/-- `is_in_kernel` on the Chrome OS branch of a kernel. -/
def checkCros (env : Env) (pulls : Bool) (pass : Pass) (subject : Text) (isInside : Bool)
    (kernel : Kernel) : M Bool :=
  match env.chromiumosKernel with
  | none => raise .typeError
  | some base => do
    let kernelPath := some (join base kernel)
    let branch := getCrosBranch kernel
    checkoutBranch pulls kernel ("cros/".toList ++ branch) "cros".toList branch kernelPath
    isInKernel pass kernel kernelPath subject isInside

/-- `is_in_kernel` on a branch of linux stable. -/
def checkStable (environment : Option Text) (pulls : Bool) (pass : Pass) (isRc : Bool)
    (subject : Text) (kernel : Kernel) : M Bool := do
  let (branch, remote) := getStableBranch kernel isRc
  checkoutBranch pulls kernel branch "origin".toList remote environment
  isInKernel pass kernel environment subject false

def filterFixedKernels (env : Env) (pulls : Bool) (sha : Sha) (kernels : List Kernel) :
    M (List Kernel) := do
  let subject ← getSubjectLine env sha
  validKernels (checkCros env pulls .fixed subject false) kernels

def filterBasedOnStable (env : Env) (pulls : Bool) (linuxSha : Sha) (isRc : Bool)
    (kernels : List Kernel) :
    M (List Kernel) := do
  let environment := if isRc then env.stableRc else env.stable
  let subject ← getSubjectLine env linuxSha
  validKernels (checkStable environment pulls (if isRc then .stableRc else .stable) isRc subject)
    kernels

def findKernelsWithFixesSubj (env : Env) (pulls : Bool) (linuxSha : Sha) (kernels : List Kernel) :
    M (List Kernel) := do
  let fixesSha ← getFixesCommit env linuxSha
  if fixesSha = [] then return kernels
  else
    let subject ← getSubjectLine env fixesSha
    validKernels (checkCros env pulls .fixesSubj subject true) kernels

/-- The loop of `detect_relevant_commits`; `fixes_subj` keeps its value when a subject is not
found. -/
def detectLoop (env : Env) (linuxSha : Sha) (linuxSubj : Text) :
    Option Text → List Sha → M (List Sha)
  | _, [] => return []
  | fixesSubj, sha :: shas =>
    if linuxSha <:+: sha then return []
    else do
      let fixesSha ← getFixesCommit env sha
      if fixesSha = [] then detectLoop env linuxSha linuxSubj fixesSubj shas
      else
        let found ← (getSubjectLine env fixesSha >>= fun subject => pure (some subject)).tryCatch
            fun e =>
          match e with
          | .contextGeneratorException _ => pure fixesSubj
          | e => raise e
        match found with
        | none => raise .unboundLocalError
        | some subject =>
          if subject = linuxSubj then return [sha]
          else detectLoop env linuxSha linuxSubj (some subject) shas

def detectRelevantCommits (env : Env) (linuxSha : Sha) : M (List Sha) := do
  let linuxSubj ← getSubjectLine env linuxSha
  let shas ← checkOutput (.logShas env.linux)
  detectLoop env linuxSha linuxSubj none (shas.splitOn '\n')

/-- `generate_context`, with `self.kernels` and `self.relevant_commits` after it. -/
def generateContext (env : Env) (pulls checkRelCommits : Bool) (kernels : List Kernel)
    (linuxSha : Sha) :
    M (List Kernel × List Sha) := do
  let kernels ← filterFixedKernels env pulls linuxSha kernels
  let kernels ← findKernelsWithFixesSubj env pulls linuxSha kernels
  let kernels ← filterBasedOnStable env pulls linuxSha false kernels
  let kernels ← filterBasedOnStable env pulls linuxSha true kernels
  if checkRelCommits then
    let relevantCommits ← detectRelevantCommits env linuxSha
    return (kernels, relevantCommits)
  else return (kernels, [])

/-! ## Queries -/

inductive Outcome
  | found
  | absent
  | failed
deriving DecidableEq

/-- A query of `is_in_kernel` that has been answered. -/
structure Query where
  pass : Pass
  kernel : Kernel
  cwd : Option Text
  /-- what was checked out there last -/
  branch : Option Text
  subject : Text
  outcome : Outcome
deriving DecidableEq

def outcomeOf : Option Bytes → Outcome
  | some result => if result ≠ [] then .found else .absent
  | none => .failed

/-- What git has been asked and has answered. -/
structure Log where
  /-- directories and branches, the last one first -/
  checkouts : List (Option Text × Text)
  /-- of the commits of a directory -/
  subjects : List (Option Text × Sha × Text)
  messages : List (Text × Sha × Text)
  queries : List Query
deriving DecidableEq

def Log.empty : Log := ⟨[], [], [], []⟩

def Log.branch (l : Log) (cwd : Option Text) : Option Text :=
  (l.checkouts.find? fun checkout => decide (checkout.1 = cwd)).map Prod.snd

def Log.note : ∀ ⦃β : Type⦄, Op β → β → Log → Log
  | _, .logSubject cwd sha, answer, l =>
    { l with
        subjects := l.subjects ++ ((answer.bind decode).map fun text => (cwd, sha, text)).toList }
  | _, .logMessage path sha, answer, l =>
    { l with
        messages := l.messages ++ ((answer.bind decode).map fun text => (path, sha, text)).toList }
  | _, .logGrep pass kernel cwd subject, answer, l =>
    { l with
        queries := l.queries ++ [⟨pass, kernel, cwd, l.branch cwd, subject, outcomeOf answer⟩] }
  | _, .checkout cwd branch, done, l =>
    if done then { l with checkouts := (cwd, branch) :: l.checkouts } else l
  | _, .logShas _, _, l => l
  | _, .pull _ _ _, _, l => l

/-- Git may answer anything. -/
def noted : Sem Op Log := fun _ o l answer l' => l' = l.note o answer

/-! ## What a query has to ask -/

/-- The line begins with a `Fixes:` tag, and twelve characters of a name. -/
def TagOf (line : Text) (sha : Sha) : Prop :=
  (sha.length = 12 ∧ ∀ c ∈ sha, c.isLower ∨ c.isDigit) ∧ "Fixes: ".toList ++ sha <+: line

/-- The message has such a line. -/
def Tagged (message : Text) (sha : Sha) : Prop := ∃ line ∈ message.splitOn '\n', TagOf line sha

section

variable (env : Env) (linuxSha : Sha) (l : Log)

/-- The subject of the fix. -/
def FixSubject (subject : Text) : Prop := (env.linux, linuxSha, subject) ∈ l.subjects

/-- The subject of a commit that the fix names as the buggy one. -/
def BuggySubject (subject : Text) : Prop := ∃ path message sha, env.linux = some path ∧
  (path, linuxSha, message) ∈ l.messages ∧ Tagged message sha ∧
    (env.linux, sha, subject) ∈ l.subjects

/-- In the repository of the kernel, on its Chrome OS branch. -/
def Query.InKernel (q : Query) : Prop := ∃ base, env.chromiumosKernel = some base ∧
  q.cwd = some (join base q.kernel) ∧ q.branch = some ("cros/chromeos-".toList ++ q.kernel.drop 1)

/-- The query is made where the pass has to look, and for the subject that it has to look for. -/
def Query.Right (q : Query) : Prop :=
  match q.pass with
  | .fixed => q.InKernel env ∧ FixSubject env linuxSha l q.subject
  | .fixesSubj => q.InKernel env ∧ BuggySubject env linuxSha l q.subject
  | .stable =>
    (q.cwd = env.stable ∧ q.branch = some ("linux-".toList ++ q.kernel.drop 1 ++ ".y".toList)) ∧
      FixSubject env linuxSha l q.subject
  | .stableRc =>
    (q.cwd = env.stableRc ∧ q.branch = some q.kernel) ∧ FixSubject env linuxSha l q.subject

end

/-- What speaks against the kernel: the fix is in it, or the buggy commit is not. -/
def Query.against (q : Query) : Bool :=
  match q.pass with
  | .fixesSubj => decide (q.outcome = .absent)
  | _ => decide (q.outcome = .found)

/-- The kernel stays. -/
def Query.keeps (q : Query) : Bool :=
  match q.pass with
  | .fixesSubj => decide (q.outcome = .found)
  | _ => decide (q.outcome = .absent)

/-- The right question was answered against the kernel. -/
def Query.Explains (env : Env) (linuxSha : Sha) (l : Log) (q : Query) : Prop :=
  q.Right env linuxSha l ∧ q.against = true

/-! ## Counting -/

def explained (k : Kernel) (log : List Query) : Nat :=
  log.countP fun q => decide (q.kernel = k) && q.against

def failures (k : Kernel) (log : List Query) : Nat :=
  log.countP fun q => decide (q.kernel = k) && decide (q.outcome = .failed)

/-- Every kernel that is gone is explained, or its query failed. -/
structure Accounts (kernels kernels' : List Kernel) (log : List Query) : Prop where
  sublist : kernels'.Sublist kernels
  counts : ∀ k, kernels.count k = kernels'.count k + explained k log + failures k log

theorem explained_append (k : Kernel) (l l' : List Query) :
    explained k (l ++ l') = explained k l + explained k l' :=
  List.countP_append

theorem failures_append (k : Kernel) (l l' : List Query) :
    failures k (l ++ l') = failures k l + failures k l' :=
  List.countP_append

theorem Accounts.refl (kernels : List Kernel) : Accounts kernels kernels [] :=
  ⟨.refl _, fun _ => rfl⟩

theorem Accounts.trans {ks ks' ks'' : List Kernel} {l l' : List Query} (h : Accounts ks ks' l)
    (h' : Accounts ks' ks'' l') : Accounts ks ks'' (l ++ l') := by
  refine ⟨h'.sublist.trans h.sublist, fun k => ?_⟩
  rw [h.counts k, h'.counts k, explained_append, failures_append]
  omega

/-- A query does one of the three. -/
theorem query_cases (q : Query) : (if q.keeps then 1 else 0) + (if q.against then 1 else 0) +
    (if q.outcome = .failed then 1 else 0) = 1 := by
  unfold Query.against Query.keeps
  cases q.pass <;> cases q.outcome <;> rfl

theorem explained_singleton (q : Query) (k : Kernel) :
    explained k [q] = if q.kernel = k then (if q.against then 1 else 0) else 0 := by
  unfold explained
  rw [List.countP_singleton]
  by_cases hk : q.kernel = k <;> simp [hk]

theorem failures_singleton (q : Query) (k : Kernel) :
    failures k [q] = if q.kernel = k then (if q.outcome = .failed then 1 else 0) else 0 := by
  unfold failures
  rw [List.countP_singleton]
  by_cases hk : q.kernel = k <;> simp [hk]

theorem accounts_cons {kernel : Kernel} {kernels kernels' : List Kernel} {q : Query}
    {log : List Query} (hq : q.kernel = kernel) (h : Accounts kernels kernels' log) :
    Accounts (kernel :: kernels) (if q.keeps then kernel :: kernels' else kernels') (q :: log) := by
  subst hq
  constructor
  · split
    · exact h.sublist.cons_cons _
    · exact h.sublist.cons _
  · intro k
    have hcases := query_cases q
    have hcounts := h.counts k
    have hkept : (if q.keeps then q.kernel :: kernels' else kernels').count k =
        kernels'.count k + if q.kernel = k then (if q.keeps then 1 else 0) else 0 := by
      by_cases hkeeps : q.keeps = true
      · rw [if_pos hkeeps, if_pos hkeeps, List.count_cons]
        simp only [beq_iff_eq]
      · rw [if_neg hkeeps, if_neg hkeeps, ite_self, Nat.add_zero]
    rw [show q :: log = [q] ++ log from rfl, explained_append, failures_append, explained_singleton,
      failures_singleton,
      hkept, List.count_cons]
    by_cases hk : q.kernel = k
    · rw [if_pos hk, if_pos hk, if_pos hk, if_pos (beq_iff_eq.mpr hk)]
      omega
    · rw [if_neg hk, if_neg hk, if_neg hk, if_neg (fun h => hk (beq_iff_eq.mp h))]
      omega

/-! ## Runs -/

section Runs

variable {env : Env} {linuxSha sha : Sha} {l l' l'' : Log}

/-- What is known only grows. -/
structure Log.Grows (l l' : Log) : Prop where
  subjects : l.subjects ⊆ l'.subjects
  messages : l.messages ⊆ l'.messages

theorem Log.Grows.refl (l : Log) : l.Grows l := ⟨List.Subset.refl _, List.Subset.refl _⟩

theorem Log.Grows.trans (h : l.Grows l') (h' : l'.Grows l'') : l.Grows l'' :=
  ⟨fun _ hx => h'.subjects (h.subjects hx), fun _ hx => h'.messages (h.messages hx)⟩

theorem Query.Right.grows {q : Query} (h : q.Right env linuxSha l) (hl : l.Grows l') :
    q.Right env linuxSha l' := by
  have hfix : FixSubject env linuxSha l q.subject → FixSubject env linuxSha l' q.subject :=
    fun h => hl.subjects h
  have hbuggy : BuggySubject env linuxSha l q.subject → BuggySubject env linuxSha l' q.subject := by
    rintro ⟨path, message, sha, hpath, hmessage, htagged, hsubject⟩
    exact ⟨path, message, sha, hpath, hl.messages hmessage, htagged, hl.subjects hsubject⟩
  unfold Query.Right at h ⊢
  split at h
  · exact ⟨h.1, hfix h.2⟩
  · exact ⟨h.1, hbuggy h.2⟩
  · exact ⟨h.1, hfix h.2⟩
  · exact ⟨h.1, hfix h.2⟩

/-- What git is asked next, without a query. -/
structure Log.Quiet (l l' : Log) : Prop extends l.Grows l' where
  queries : l'.queries = l.queries

theorem Log.Quiet.refl (l : Log) : l.Quiet l := ⟨.refl l, rfl⟩

theorem Log.Quiet.trans (h : l.Quiet l') (h' : l'.Quiet l'') : l.Quiet l'' :=
  ⟨h.toGrows.trans h'.toGrows, h'.queries.trans h.queries⟩

/-- What makes no query. -/
def NoQuery : ∀ ⦃β : Type⦄, Op β → Prop
  | _, .logGrep .. => False
  | _, _ => True

theorem quiet_note {β : Type} {o : Op β} (ho : NoQuery o) (answer : β) :
    l.Quiet (l.note o answer) := by
  cases o with
  | logSubject => exact ⟨⟨List.subset_append_left .., List.Subset.refl _⟩, rfl⟩
  | logMessage => exact ⟨⟨List.Subset.refl _, List.subset_append_left ..⟩, rfl⟩
  | logGrep => exact ho.elim
  | logShas => exact .refl l
  | checkout cwd branch =>
    cases answer with
    | true => exact ⟨⟨List.Subset.refl _, List.Subset.refl _⟩, rfl⟩
    | false => exact .refl l
  | pull => exact .refl l

theorem ensures_of_only {α : Type} {p : M α} (hp : Only NoQuery p) :
    Ensures noted (fun _ l' => l.Quiet l') p l := by
  have hkeeps : Keeps noted (fun l' => l.Quiet l') p := by
    refine keeps_of_only (fun β o ho d answer d' hs hd => ?_) hp
    obtain rfl : d' = d.note o answer := hs
    exact hd.trans (quiet_note ho answer)
  exact wp_weaken (fun _ _ => trivial) (wp_mono (fun _ _ h _ _ => h) (hkeeps l (.refl l)))

theorem only_checkOutput {o : Op (Option Bytes)} (ho : NoQuery o) :
    Only NoQuery (checkOutput o) := by
  refine only_bind (only_perform ho) fun answer => ?_
  cases answer with
  | none => exact only_raise _
  | some bytes =>
    show Only NoQuery (decoded bytes)
    unfold decoded
    split
    · exact only_raise _
    · exact only_pure _

theorem only_getSubjectLine (env : Env) (sha : Sha) : Only NoQuery (getSubjectLine env sha) := by
  refine only_tryCatch (only_checkOutput trivial) fun e => ?_
  split
  · exact only_raise _
  · exact only_raise _

theorem only_getFixesCommit (env : Env) (sha : Sha) : Only NoQuery (getFixesCommit env sha) := by
  refine only_bind ?_ fun message => only_pure _
  unfold getCommitMessage
  split
  · exact only_raise _
  · refine only_tryCatch (only_bind (only_checkOutput trivial) fun _ => only_pure _) fun e => ?_
    split
    · exact only_raise _
    · exact only_raise _

theorem only_detectLoop (env : Env) (linuxSha : Sha) (linuxSubj : Text) (fixesSubj : Option Text)
    (shas : List Sha) :
    Only NoQuery (detectLoop env linuxSha linuxSubj fixesSubj shas) := by
  induction shas generalizing fixesSubj with
  | nil => exact only_pure _
  | cons sha shas ih =>
    unfold detectLoop
    split
    · exact only_pure _
    · refine only_bind (only_getFixesCommit env sha) fun fixesSha => ?_
      split
      · exact ih fixesSubj
      · refine only_bind ?_ fun found => ?_
        · refine only_tryCatch
            (only_bind (only_getSubjectLine env fixesSha) fun _ => only_pure _) fun e => ?_
          split
          · exact only_pure _
          · exact only_raise _
        · split
          · exact only_raise _
          · split
            · exact only_pure _
            · exact ih _

theorem only_detectRelevantCommits (env : Env) (linuxSha : Sha) :
    Only NoQuery (detectRelevantCommits env linuxSha) := by
  refine only_bind (only_getSubjectLine env linuxSha) fun linuxSubj => ?_
  exact only_bind (only_checkOutput trivial) fun shas =>
    only_detectLoop env linuxSha linuxSubj none _

/-! ## What the run gets to know -/

theorem ensures_getSubjectLine :
    Ensures noted (fun subject l' => l.Quiet l' ∧ (env.linux, sha, subject) ∈ l'.subjects)
    (getSubjectLine env sha) l := by
  refine ensures_op fun answer l' ho => ?_
  obtain rfl : l' = l.note (.logSubject env.linux sha) answer := ho
  cases answer with
  | none => exact ensures_raise _ _
  | some bytes =>
    show Ensures noted _ (Prog.tryCatch (decoded bytes) _) _
    cases htext : decode bytes with
    | none =>
      rw [decoded_none htext]
      exact ensures_raise _ _
    | some text =>
      rw [decoded_some htext]
      refine ensures_ret ⟨quiet_note (o := .logSubject env.linux sha) trivial _, ?_⟩
      simp [Log.note, htext]

/-- The lines of a text are the beginnings of those of a longer one. -/
theorem exists_line_append {text line : Text} (h : line ∈ text.splitOn '\n') (rest : Text) :
    ∃ line' ∈ (text ++ rest).splitOn '\n', line <+: line' := by
  have hsplit : ∃ lines last begun more, text.splitOn '\n' = lines ++ [last] ∧
      (text ++ rest).splitOn '\n' = lines ++ (last ++ begun) :: more := by
    clear h line
    induction text with
    | nil =>
      obtain ⟨first, more, hfirst⟩ :=
        List.exists_cons_of_ne_nil (List.splitOnP_ne_nil (· == '\n') rest)
      exact ⟨[], [], first, more, rfl, hfirst⟩
    | cons c text ih =>
      obtain ⟨lines, last, begun, more, htext, hrest⟩ := ih
      unfold List.splitOn at htext hrest ⊢
      rw [List.cons_append, List.splitOnP_cons_eq_if_modifyHead,
        List.splitOnP_cons_eq_if_modifyHead, htext, hrest]
      split
      · exact ⟨[] :: lines, last, begun, more, rfl, rfl⟩
      · cases lines with
        | nil => exact ⟨[], c :: last, begun, more, rfl, rfl⟩
        | cons line lines => exact ⟨(c :: line) :: lines, last, begun, more, rfl, rfl⟩
  obtain ⟨lines, last, begun, more, htext, hrest⟩ := hsplit
  rw [htext] at h
  rw [hrest]
  rcases List.mem_append.mp h with h | h
  · exact ⟨line, List.mem_append_left _ h, List.prefix_refl line⟩
  · obtain rfl := List.mem_singleton.mp h
    exact ⟨line ++ begun, List.mem_append_right _ List.mem_cons_self, List.prefix_append line begun⟩

theorem fixesTag_eq_some_iff {line : Text} : fixesTag line = some sha ↔ TagOf line sha := by
  have hdrop : ∀ rest, ("Fixes: ".toList ++ rest).drop 7 = rest := fun rest => List.drop_left' rfl
  unfold fixesTag
  dsimp only
  constructor
  · intro h
    split at h
    · next hline =>
      obtain ⟨hbegins, hlength, hchars⟩ := hline
      cases h
      refine ⟨⟨hlength, fun c hc => by simpa using List.all_eq_true.mp hchars c hc⟩, ?_⟩
      obtain ⟨rest, rfl⟩ := List.isPrefixOf_iff_prefix.mp hbegins
      rw [hdrop]
      exact (List.prefix_append_right_inj _).mpr (List.take_prefix 12 rest)
    · cases h
  · rintro ⟨⟨hlength, hchars⟩, rest, rfl⟩
    have htake : ((("Fixes: ".toList ++ sha) ++ rest).drop 7).take 12 = sha := by
      rw [List.append_assoc, hdrop]
      exact List.take_left' hlength
    rw [htake, if_pos]
    refine ⟨List.isPrefixOf_iff_prefix.mpr ?_, hlength,
      List.all_eq_true.mpr fun c hc => by simpa using hchars c hc⟩
    rw [List.append_assoc]
    exact List.prefix_append _ _

/-- The tag that `get_fixes_commit` returns is one of the message. -/
theorem tagged_of_findSome? {message : Text}
    (h : ((message.rdropWhile isSpace ++ ['\n']).splitOn '\n').findSome? fixesTag = some sha) :
    Tagged message sha := by
  obtain ⟨line, hline, htag⟩ := List.exists_of_findSome?_eq_some h
  obtain ⟨hsha, hprefix⟩ := fixesTag_eq_some_iff.mp htag
  unfold List.splitOn at hline
  rw [List.splitOnP_append_cons _ _ (by rfl), List.mem_append] at hline
  rcases hline with hline | hline
  · obtain ⟨line', hline', hbegins⟩ := @exists_line_append (message.rdropWhile isSpace) _ hline
      (message.rtakeWhile isSpace)
    rw [List.rdropWhile_append_rtakeWhile] at hline'
    exact ⟨line', hline', hsha, hprefix.trans hbegins⟩
  · obtain rfl := List.mem_singleton.mp (show line ∈ [[]] from hline)
    have hnil := List.eq_nil_of_prefix_nil hprefix
    cases hnil

theorem ensures_getFixesCommit :
    Ensures noted (fun fixesSha l' => l.Quiet l' ∧ (fixesSha ≠ [] → ∃ path message,
    env.linux = some path ∧ (path, sha, message) ∈ l'.messages ∧
      Tagged message fixesSha)) (getFixesCommit env sha) l := by
  unfold getFixesCommit getCommitMessage
  cases hpath : env.linux with
  | none => exact ensures_raise _ _
  | some path =>
    refine ensures_op fun answer l' ho => ?_
    obtain rfl : l' = l.note (.logMessage path sha) answer := ho
    cases answer with
    | none => exact ensures_raise _ _
    | some bytes =>
      show Ensures noted _ (Prog.bind (Prog.tryCatch (Prog.bind (decoded bytes) _) _) _) _
      cases htext : decode bytes with
      | none =>
        rw [decoded_none htext]
        exact ensures_raise _ _
      | some text =>
        rw [decoded_some htext]
        refine ensures_ret ⟨quiet_note (o := .logMessage path sha) trivial _,
          fun hne => ⟨path, text, rfl, ?_, ?_⟩⟩
        · simp [Log.note, htext]
        · cases htag : ((text.rdropWhile isSpace ++ ['\n']).splitOn '\n').findSome? fixesTag with
          | none =>
            rw [htag] at hne
            exact absurd rfl hne
          | some fixesSha => exact tagged_of_findSome? htag

theorem ensures_checkoutBranch {pulls : Bool} {kernel : Kernel}
    {branch remote remoteBranch : Text} {kernelPath : Option Text} :
    Ensures noted (fun _ l' => l.Quiet l' ∧ l'.branch kernelPath = some branch)
      (checkoutBranch pulls kernel branch remote remoteBranch kernelPath) l := by
  refine ensures_op fun done l' ho => ?_
  obtain rfl : l' = l.note (.checkout kernelPath branch) done := ho
  cases done with
  | false => exact ensures_raise _ _
  | true =>
    have hquiet : l.Quiet (l.note (.checkout kernelPath branch) true) :=
      quiet_note (o := .checkout kernelPath branch) trivial true
    have hbranch : (l.note (.checkout kernelPath branch) true).branch kernelPath = some branch := by
      simp [Log.note, Log.branch]
    cases pulls with
    | false => exact ensures_ret ⟨hquiet, hbranch⟩
    | true =>
      refine ensures_op fun done l' ho => ?_
      obtain rfl : l' = l.note (.checkout kernelPath branch) true := ho
      cases done with
      | false => exact ensures_raise _ _
      | true => exact ensures_ret ⟨hquiet, hbranch⟩

/-! ## The queries -/

/-- One query for the kernel decides, and it is the right one. -/
def Asks (env : Env) (linuxSha : Sha) (kernel : Kernel) (check : M Bool) (l : Log) : Prop :=
  Ensures noted
    (fun valid l' => l.Grows l' ∧ ∃ q : Query, q.kernel = kernel ∧ l'.queries = l.queries ++ [q] ∧
    valid = q.keeps ∧ q.Right env linuxSha l') check l

theorem ensures_isInKernel {pass : Pass} {kernel : Kernel} {path : Option Text} {subject : Text}
    {isInside : Bool} (hinside : isInside = decide (pass = .fixesSubj)) :
    Ensures noted (fun valid l' => ∃ outcome,
      valid = Query.keeps ⟨pass, kernel, path, l.branch path, subject, outcome⟩ ∧
      l' =
        { l with queries := l.queries ++ [⟨pass, kernel, path, l.branch path, subject, outcome⟩] })
      (isInKernel pass kernel path subject isInside) l := by
  subst hinside
  refine ensures_op fun answer l' ho => ?_
  obtain rfl : l' = l.note (.logGrep pass kernel path subject) answer := ho
  cases answer with
  | none =>
    refine ensures_ret ⟨.failed, ?_, rfl⟩
    cases pass <;> rfl
  | some bytes =>
    show Ensures noted _ (Prog.tryCatch (Prog.bind (decoded bytes) _) _) _
    cases htext : decode bytes with
    | none =>
      rw [decoded_none htext]
      exact ensures_raise _ _
    | some text =>
      rw [decoded_some htext]
      refine ensures_ret ⟨outcomeOf (some bytes), ?_, rfl⟩
      cases bytes with
      | nil =>
        obtain rfl : [] = text := Option.some.inj htext
        cases pass <;> rfl
      | cons b bytes =>
        have hne := decode_cons_ne_nil htext
        cases pass <;> simp [Query.keeps, outcomeOf, hne]

/-- A pass looks at a kernel after the checkout. -/
theorem asks_isInKernel {pulls : Bool} {pass : Pass} {kernel : Kernel}
    {branch remote remoteBranch subject : Text} {path : Option Text} {isInside : Bool}
    (hinside : isInside = decide (pass = .fixesSubj))
    (hright : ∀ l' outcome, l.Grows l' →
      Query.Right env linuxSha l' ⟨pass, kernel, path, some branch, subject, outcome⟩) :
    Asks env linuxSha kernel
      (checkoutBranch pulls kernel branch remote remoteBranch path >>= fun _ =>
      isInKernel pass kernel path subject isInside) l := by
  refine ensures_bind ensures_checkoutBranch fun _ l₁ h => ?_
  obtain ⟨hquiet, hbranch⟩ := h
  refine (ensures_isInKernel hinside).mono fun valid l' h => ?_
  obtain ⟨outcome, hvalid, rfl⟩ := h
  rw [hbranch] at hvalid ⊢
  have hgrows : l.Grows
      { l₁ with queries := l₁.queries ++ [⟨pass, kernel, path, some branch, subject, outcome⟩] } :=
    ⟨hquiet.subjects, hquiet.messages⟩
  refine ⟨hgrows, ⟨pass, kernel, path, some branch, subject, outcome⟩, rfl, ?_, hvalid,
    hright _ outcome hgrows⟩
  rw [← hquiet.queries]

theorem asks_checkCros (env : Env) (pulls : Bool) {pass : Pass} {subject : Text} {isInside : Bool}
    (kernel : Kernel) (hinside : isInside = decide (pass = .fixesSubj))
    (hpass : pass = .fixed ∧ FixSubject env linuxSha l subject ∨
      pass = .fixesSubj ∧ BuggySubject env linuxSha l subject) :
    Asks env linuxSha kernel (checkCros env pulls pass subject isInside kernel) l := by
  unfold checkCros
  cases hbase : env.chromiumosKernel with
  | none => exact ensures_raise _ _
  | some base =>
    refine asks_isInKernel hinside fun l' outcome hgrows => ?_
    have hwhere : Query.InKernel env
      ⟨pass, kernel, some (join base kernel), some ("cros/".toList ++ getCrosBranch kernel),
        subject, outcome⟩ := ⟨base, hbase, rfl, rfl⟩
    rcases hpass with ⟨rfl, hsubject⟩ | ⟨rfl, hsubject⟩
    · exact ⟨hwhere, hgrows.subjects hsubject⟩
    · obtain ⟨path, message, sha, hpath, hmessage, htagged, hgiven⟩ := hsubject
      exact ⟨hwhere, path, message, sha, hpath, hgrows.messages hmessage, htagged,
        hgrows.subjects hgiven⟩

theorem asks_checkStable (env : Env) (pulls isRc : Bool) {subject : Text} (kernel : Kernel)
    (hsubject : FixSubject env linuxSha l subject) :
    Asks env linuxSha kernel (checkStable (if isRc then env.stableRc else env.stable) pulls
      (if isRc then .stableRc else .stable) isRc subject kernel) l := by
  cases isRc with
  | false =>
    refine asks_isInKernel rfl fun l' outcome hgrows => ?_
    exact ⟨⟨rfl, rfl⟩, hgrows.subjects hsubject⟩
  | true =>
    refine asks_isInKernel rfl fun l' outcome hgrows => ?_
    exact ⟨⟨rfl, rfl⟩, hgrows.subjects hsubject⟩

/-- The queries account for every kernel, and are the right ones. -/
structure Accounted (env : Env) (linuxSha : Sha) (l : Log) (kernels kernels' : List Kernel)
    (l' : Log) : Prop where
  grows : l.Grows l'
  queries : ∃ log, l'.queries = l.queries ++ log ∧ Accounts kernels kernels' log ∧
    ∀ q ∈ log, q.Right env linuxSha l'

theorem Accounted.refl (h : l.Quiet l') (kernels : List Kernel) :
    Accounted env linuxSha l kernels kernels l' :=
  ⟨h.toGrows, [], by rw [h.queries, List.append_nil], .refl kernels, fun q hq => by cases hq⟩

theorem Accounted.trans {ks ks' ks'' : List Kernel} (h : Accounted env linuxSha l ks ks' l')
    (h' : Accounted env linuxSha l' ks' ks'' l'') : Accounted env linuxSha l ks ks'' l'' := by
  obtain ⟨log, hlog, haccounts, hright⟩ := h.queries
  obtain ⟨log', hlog', haccounts', hright'⟩ := h'.queries
  refine ⟨h.grows.trans h'.grows, log ++ log', ?_, haccounts.trans haccounts', ?_⟩
  · rw [hlog', hlog, List.append_assoc]
  · exact List.forall_mem_append.mpr ⟨fun q hq => (hright q hq).grows h'.grows, hright'⟩

/-- The loop accounts for every kernel. -/
theorem accounted_validKernels {check : Kernel → M Bool} {kernels : List Kernel}
    (hcheck : ∀ l', l.Grows l' → ∀ kernel, Asks env linuxSha kernel (check kernel) l') :
    Ensures noted (fun kernels' l' => Accounted env linuxSha l kernels kernels' l')
      (validKernels check kernels) l := by
  induction kernels generalizing l with
  | nil => exact ensures_ret (.refl (.refl l) [])
  | cons kernel kernels ih =>
    refine ensures_bind (hcheck l (.refl l) kernel) fun valid l₁ h => ?_
    obtain ⟨hgrows, q, hq, hlog, rfl, hright⟩ := h
    refine ensures_bind (ih fun l' h => hcheck l' (hgrows.trans h)) fun rest l₂ h => ?_
    obtain ⟨hgrows', log, hlog', haccounts, hrights⟩ := h
    refine ensures_ret ⟨hgrows.trans hgrows', q :: log, ?_, accounts_cons hq haccounts, ?_⟩
    · rw [hlog', hlog, List.append_assoc, List.singleton_append]
    · exact List.forall_mem_cons.mpr ⟨hright.grows hgrows', hrights⟩

theorem accounted_of_quiet {kernels kernels' : List Kernel} (hquiet : l.Quiet l')
    (h : Accounted env linuxSha l' kernels kernels' l'') :
    Accounted env linuxSha l kernels kernels' l'' :=
  Accounted.trans (.refl hquiet kernels) h

theorem accounted_filterFixed {pulls : Bool} {kernels : List Kernel} :
    Ensures noted (fun kernels' l' => Accounted env linuxSha l kernels kernels' l')
      (filterFixedKernels env pulls linuxSha kernels) l := by
  refine ensures_bind ensures_getSubjectLine fun subject l₁ h => ?_
  obtain ⟨hquiet, hsubject⟩ := h
  refine (accounted_validKernels fun l' hgrows kernel => ?_).mono fun _ _ h =>
    accounted_of_quiet hquiet h
  exact asks_checkCros env pulls kernel rfl (.inl ⟨rfl, hgrows.subjects hsubject⟩)

theorem accounted_filterStable {pulls isRc : Bool} {kernels : List Kernel} :
    Ensures noted (fun kernels' l' => Accounted env linuxSha l kernels kernels' l')
      (filterBasedOnStable env pulls linuxSha isRc kernels) l := by
  refine ensures_bind ensures_getSubjectLine fun subject l₁ h => ?_
  obtain ⟨hquiet, hsubject⟩ := h
  refine (accounted_validKernels fun l' hgrows kernel => ?_).mono fun _ _ h =>
    accounted_of_quiet hquiet h
  exact asks_checkStable env pulls isRc kernel (hgrows.subjects hsubject)

theorem accounted_findKernels {pulls : Bool} {kernels : List Kernel} :
    Ensures noted (fun kernels' l' => Accounted env linuxSha l kernels kernels' l')
      (findKernelsWithFixesSubj env pulls linuxSha kernels) l := by
  refine ensures_bind ensures_getFixesCommit fun fixesSha l₁ h => ?_
  obtain ⟨hquiet, hfixes⟩ := h
  split
  · exact ensures_ret (.refl hquiet kernels)
  · next hne =>
    obtain ⟨path, message, hpath, hmessage, htagged⟩ := hfixes hne
    refine ensures_bind ensures_getSubjectLine fun subject l₂ h => ?_
    obtain ⟨hquiet', hsubject⟩ := h
    refine (accounted_validKernels fun l' hgrows kernel => ?_).mono fun _ _ h =>
      accounted_of_quiet (hquiet.trans hquiet') h
    refine asks_checkCros env pulls kernel rfl
      (.inr ⟨rfl, path, message, fixesSha, hpath, ?_, htagged, ?_⟩)
    · exact hgrows.messages (hquiet'.messages hmessage)
    · exact hgrows.subjects hsubject

theorem accounted_generateContext {pulls checkRel : Bool} {kernels : List Kernel} :
    Ensures noted (fun result l' => Accounted env linuxSha l kernels result.1 l')
      (generateContext env pulls checkRel kernels linuxSha) l := by
  refine ensures_bind accounted_filterFixed fun ks₁ l₁ h₁ => ?_
  refine ensures_bind accounted_findKernels fun ks₂ l₂ h₂ => ?_
  refine ensures_bind accounted_filterStable fun ks₃ l₃ h₃ => ?_
  refine ensures_bind accounted_filterStable fun ks₄ l₄ h₄ => ?_
  have hall := ((h₁.trans h₂).trans h₃).trans h₄
  cases checkRel with
  | false => exact ensures_ret hall
  | true =>
    refine ensures_bind (ensures_of_only (only_detectRelevantCommits env linuxSha))
      fun relevant l₅ hquiet => ?_
    exact ensures_ret (hall.trans (.refl hquiet ks₄))

end Runs

/-! ## Verdicts -/

/-- Every occurrence of a kernel that is gone has a query of its own that explains it. -/
def Explained (env : Env) (linuxSha : Sha) (l : Log) (kernels kernels' : List Kernel) : Prop :=
  ∃ qs : List Query, qs.Sublist l.queries ∧ (∀ q ∈ qs, q.Explains env linuxSha l) ∧
    ∀ k, kernels.count k ≤ kernels'.count k + (qs.map Query.kernel).count k

theorem count_kernels (k : Kernel) (qs : List Query) :
    (qs.map Query.kernel).count k = qs.countP fun q => decide (q.kernel = k) := by
  rw [List.count_eq_countP, List.countP_map]
  exact List.countP_congr fun q _ => by simp

theorem explained_iff {env : Env} {linuxSha : Sha} {l : Log} {kernels kernels' : List Kernel}
    (h : Accounts kernels kernels' l.queries) (hright : ∀ q ∈ l.queries, q.Right env linuxSha l) :
    Explained env linuxSha l kernels kernels' ↔ ∀ q ∈ l.queries, q.outcome ≠ .failed := by
  constructor
  · rintro ⟨qs, hsub, hexplains, hall⟩ q hq hfailed
    have hcounts := h.counts q.kernel
    have hle := hall q.kernel
    have hpos : 0 < failures q.kernel l.queries :=
      List.countP_pos_iff.mpr ⟨q, hq, by simp [hfailed]⟩
    have hown : (qs.map Query.kernel).count q.kernel ≤ explained q.kernel l.queries := by
      have hsame : qs.countP (fun q' => decide (q'.kernel = q.kernel)) = explained q.kernel qs := by
        apply List.countP_congr
        intro q' hq'
        simp [(hexplains q' hq').2]
      rw [count_kernels, hsame]
      exact hsub.countP_le
    omega
  · intro hnone
    refine ⟨l.queries.filter Query.against, List.filter_sublist, ?_, fun k => ?_⟩
    · intro q hq
      obtain ⟨hq, hagainst⟩ := List.mem_filter.mp hq
      exact ⟨hright q hq, hagainst⟩
    · have hzero : failures k l.queries = 0 := by
        rw [failures, List.countP_eq_zero]
        intro q hq
        simp [hnone q hq]
      have hcounts := h.counts k
      have hown : ((l.queries.filter Query.against).map Query.kernel).count k =
          explained k l.queries := by
        rw [count_kernels, List.countP_filter]
        rfl
      omega

/-- **The kernels that a call leaves are a sublist of the given ones, and each one that is gone is
explained, exactly if no query of the call failed.** -/
theorem generateContext_iff {env : Env} {pulls checkRelCommits : Bool}
    {kernels kernels' : List Kernel} {linuxSha : Sha} {relevant : List Sha} {l : Log}
    (h : Exec noted (generateContext env pulls checkRelCommits kernels linuxSha) .empty
      (.ok (kernels', relevant)) l) :
    (kernels'.Sublist kernels ∧ Explained env linuxSha l kernels kernels') ↔
      ∀ q ∈ l.queries, q.outcome ≠ .failed := by
  obtain ⟨log, hlog, haccounts, hright⟩ := (accounted_generateContext.exec h).queries
  obtain rfl : l.queries = log := hlog
  rw [← explained_iff haccounts hright]
  exact ⟨fun h => h.2, fun h => ⟨haccounts.sublist, h⟩⟩

/-! ## Runs of a given git -/

def printed (text : String) : Option Bytes := some (text.toList.map some)

/-- A git that answers every query with `grep`, and all else well; the fix names a buggy commit. -/
def gitWith (grep : Pass → Kernel → Option Bytes) : ∀ ⦃β : Type⦄, Op β → Option β
  | _, .logSubject _ sha =>
    some (if sha = "1a2b3c".toList then printed "fix it" else printed "a bug")
  | _, .logMessage _ _ => some (printed "fix it\n\nFixes: 0123456789ab")
  | _, .logGrep pass kernel _ _ => some (grep pass kernel)
  | _, .logShas _ => some (printed "")
  | _, .checkout _ _ => some true
  | _, .pull _ _ _ => some true

/-- With what git is asked and answers. -/
def logging (git : ∀ ⦃β : Type⦄, Op β → Option β) : ∀ ⦃β : Type⦄, Op β → Log → Option (β × Log) :=
  fun _ o l => (git o).map fun answer => (answer, l.note o answer)

def someEnv : Env :=
  ⟨some "/linux".toList, some "/kernel".toList, some "/stable".toList, some "/stable_rc".toList⟩

theorem exec_logging {α : Type} {git : ∀ ⦃β : Type⦄, Op β → Option β} {p : M α}
    {r : Except Error α} {l : Log} (h : p.eval (logging git) .empty = some (r, l)) :
    Exec noted p .empty r l := by
  refine exec_of_eval (fun β o d answer d' ho => ?_) h
  obtain ⟨b, -, hb⟩ := Option.map_eq_some_iff.mp ho
  cases hb
  rfl

/-- One kernel has the fix already, and another one has not the buggy commit. -/
def someKernels (pass : Pass) (kernel : Kernel) : Option Bytes :=
  if kernel = "v4.4".toList ∨ kernel = "v5.4".toList ∧ pass = .fixesSubj then printed "x"
  else printed ""

/-- What is asked and answered then. -/
def someLog : Log where
  checkouts := [(some "/stable_rc", "v5.4"), (some "/stable", "linux-5.4.y"),
    (some "/kernel/v5.4", "cros/chromeos-5.4"),
    (some "/kernel/v4.14", "cros/chromeos-4.14"), (some "/kernel/v5.4", "cros/chromeos-5.4"),
    (some "/kernel/v4.14", "cros/chromeos-4.14"), (some "/kernel/v4.4", "cros/chromeos-4.4")].map
        fun (cwd, branch) =>
      (cwd.map String.toList, branch.toList)
  subjects := [("1a2b3c", "fix it"), ("0123456789ab", "a bug"), ("1a2b3c", "fix it"),
    ("1a2b3c", "fix it")].map
    fun (sha, subject) => (some "/linux".toList, sha.toList, subject.toList)
  messages := [("/linux".toList, "1a2b3c".toList, "fix it\n\nFixes: 0123456789ab".toList)]
  queries := [
    ⟨.fixed, "v4.4".toList, some "/kernel/v4.4".toList, some "cros/chromeos-4.4".toList,
      "fix it".toList, .found⟩,
    ⟨.fixed, "v4.14".toList, some "/kernel/v4.14".toList, some "cros/chromeos-4.14".toList,
      "fix it".toList, .absent⟩,
    ⟨.fixed, "v5.4".toList, some "/kernel/v5.4".toList, some "cros/chromeos-5.4".toList,
      "fix it".toList, .absent⟩,
    ⟨.fixesSubj, "v4.14".toList, some "/kernel/v4.14".toList, some "cros/chromeos-4.14".toList,
      "a bug".toList, .absent⟩,
    ⟨.fixesSubj, "v5.4".toList, some "/kernel/v5.4".toList, some "cros/chromeos-5.4".toList,
      "a bug".toList, .found⟩,
    ⟨.stable, "v5.4".toList, some "/stable".toList, some "linux-5.4.y".toList,
      "fix it".toList, .absent⟩,
    ⟨.stableRc, "v5.4".toList, some "/stable_rc".toList, some "v5.4".toList,
      "fix it".toList, .absent⟩]

theorem generateContext_iff_someKernels :
    ["v5.4".toList].Sublist ["v4.4".toList, "v4.14".toList, "v5.4".toList] ∧
      Explained someEnv "1a2b3c".toList someLog ["v4.4".toList, "v4.14".toList, "v5.4".toList]
        ["v5.4".toList] := by
  have hrun : (generateContext someEnv false false
    ["v4.4".toList, "v4.14".toList, "v5.4".toList] "1a2b3c".toList).eval
      (logging (gitWith someKernels)) .empty = some (.ok (["v5.4".toList], []), someLog) := by
        decide
  exact (generateContext_iff (exec_logging hrun)).mpr (by decide)

/-- The query fails, and the kernel is gone. -/
theorem not_explained :
    ∃ l, Exec noted (generateContext someEnv false false ["v4.4".toList] "1a2b3c".toList)
      .empty (.ok ([], [])) l ∧ (∀ q ∈ l.queries, q.against = false) ∧
    ¬Explained someEnv "1a2b3c".toList l ["v4.4".toList] [] := by
  have hrun : (generateContext someEnv false false ["v4.4".toList] "1a2b3c".toList).eval
      (logging (gitWith fun _ _ => none)) .empty = some (.ok ([], []),
        ⟨[(some "/kernel/v4.4".toList, "cros/chromeos-4.4".toList)],
          [("1a2b3c", "fix it"), ("0123456789ab", "a bug"), ("1a2b3c", "fix it"),
            ("1a2b3c", "fix it")].map
            fun (sha, subject) => (some "/linux".toList, sha.toList, subject.toList),
          [("/linux".toList, "1a2b3c".toList, "fix it\n\nFixes: 0123456789ab".toList)],
          [⟨.fixed, "v4.4".toList, some "/kernel/v4.4".toList, some "cros/chromeos-4.4".toList,
            "fix it".toList,
            .failed⟩]⟩) := by decide
  have hagainst :
    ∀ q ∈ ([⟨.fixed, "v4.4".toList, some "/kernel/v4.4".toList, some "cros/chromeos-4.4".toList,
      "fix it".toList, .failed⟩] : List Query), q.against = false := by decide
  refine ⟨_, exec_logging hrun, hagainst, ?_⟩
  rintro ⟨qs, hsub, hexplains, hall⟩
  have hnil : qs = [] := by
    apply List.eq_nil_iff_forall_not_mem.mpr
    intro q hq
    have htrue := (hexplains q hq).2
    rw [hagainst q (hsub.subset hq)] at htrue
    cases htrue
  subst hnil
  exact absurd (hall "v4.4".toList) (by decide)

end Cvetriager
