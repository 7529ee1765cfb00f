import DevUtil.Lib.Substitution
import DevUtil.Lib.Separators
import DevUtil.Lib.Text

/-!
# The locations of `fromupstream.py`

Where a patch is taken from, and what its tag and its source line are.

    pw://PROJECT/ID, msgid://ID
      FROMLIST:                                             (am from …)
    linux://SHA, upstream://SHA
      UPSTREAM:                                             (cherry picked from commit …)
    git://REMOTE/BRANCH/SHA, URL#BRANCH/SHA, …
      FROMGIT:                                              (cherry picked from commit … URL BRANCH)

Git, the servers and `~/.pwclientrc` are asked through `Env`.
-/

namespace Fromupstream

open Lib Regex

/-! ## Git and the servers -/

/-- A downloaded patch. -/
structure Mbox where
  contents : String
  messageId : Option String
deriving DecidableEq

inductive Opened
  | response (patch : Mbox)
  | httpError
  /-- any other exception -/
  | raised

inductive Listed
  | ids (ids : List String)
  | sslError
  | raised

/-- What is given to `git am` or to `git cherry-pick`. -/
inductive Patch
  | mail (contents : String)
  | pick (commit : String)
deriving DecidableEq

/-- What a commit changes. -/
inductive Change
  | existing (id : String)
  | applied (patch : Patch)
deriving DecidableEq

structure Commit where
  change : Change
  message : List Char
deriving DecidableEq

/-- HEAD comes first. -/
abbrev History := List Commit

inductive Applied
  /-- returns 0, with one commit more -/
  | commit (message : List Char)
  /-- returns 0, where the patch is in the history already -/
  | nothing
  /-- the two columns of `git status --porcelain` -/
  | stopped (status : List (String × String))

structure Env where
  /-- section and option of `~/.pwclientrc` -/
  config : String → String → Option String
  urlopen : String → Opened
  /-- the server, the Message-Id -/
  patchList : String → String → Listed
  remotes : List String
  remoteUrl : String → Option String
  isAncestor : String → String → Bool
  revParse : String → Option String
  fetch : String → String → Bool
  apply : History → Patch → Applied
  /-- the history when the user has resolved the conflicts; none if he kills the job -/
  resolve : History → Option History
  /-- what `git commit [-s] --amend -F -` makes of a message, hooks included -/
  record : Bool → List Char → List Char
  userName : String
  userEmail : String
  /-- `\w` -/
  isWord : Char → Bool

inductive Stop
  | exit (code : Nat)
  | calledProcessError
  /-- any other exception -/
  | raised
  /-- killed while the conflicts were open -/
  | killed
deriving DecidableEq

/-- The options, lines already wrapped. -/
structure Args where
  bugLines : List String
  testLines : List String
  changeid : Option String
  cqdepend : Option String
  replace : Bool
  signoff : Bool
  tag : Option String
  sourceLine : Option String
  locations : List String
  /-- `nargs='+'` -/
  locations_ne : locations ≠ []

def Args.withTag (args : Args) (tag : String) : Args :=
  { args with tag := some (args.tag.getD tag) }

/-! ## Change-Ids in Message-Ids -/

/-- `I[a-f0-9]{40}` -/
def isChangeId : List Char → Bool
  | 'I' :: hex => hex.length == 40 && hex.all fun c => c.isDigit || ('a' ≤ c && c ≤ 'f')
  | _ => false

/-- `re.match(r'.*(I[a-f0-9]{40})@changeid$', message_id)` -/
def messageChangeId (messageId : List Char) : Option (List Char) :=
  let front := messageId.take (messageId.length - "@changeid".toList.length)
  let id := front.drop (front.length - 41)
  if isChangeId id ∧ messageId = front ++ "@changeid".toList ∧ '\n' ∉ front then some id else none

/-- The last one in a line. -/
def lastChangeId : List Char → Option (List Char)
  | [] => none
  | c :: cs =>
    (lastChangeId cs).or
      (if isChangeId ((c :: cs).take 41) ∧ "@changeid".toList <+: (c :: cs).drop 41 then
        some ((c :: cs).take 41) else none)

/-- `re.search(r'^Link:.*(I[a-f0-9]{40})@changeid', commit_message, re.MULTILINE)` -/
def linkChangeId (message : List Char) : Option (List Char) :=
  (lines message).findSome? fun line => if "Link:".toList <+: line then
    lastChangeId (line.drop 5) else none

theorem isChangeId_of_message {messageId id : List Char} (h : messageChangeId messageId = some id) :
    isChangeId id = true := by
  unfold messageChangeId at h
  dsimp only at h
  split at h
  next hc => exact Option.some.inj h ▸ hc.1
  next => cases h

theorem isChangeId_of_last {line id : List Char} (h : lastChangeId line = some id) :
    isChangeId id = true := by
  induction line with
  | nil => cases h
  | cons c cs ih =>
    rw [lastChangeId] at h
    cases hlast : lastChangeId cs with
    | some last =>
      rw [hlast, Option.some_or] at h
      exact ih (hlast.trans h)
    | none =>
      rw [hlast, Option.none_or] at h
      split at h
      next hc => exact Option.some.inj h ▸ hc.1
      next => cases h

theorem isChangeId_of_link {message id : List Char} (h : linkChangeId message = some id) :
    isChangeId id = true := by
  obtain ⟨line, -, hline⟩ := List.exists_of_findSome?_eq_some h
  split at hline
  next => exact isChangeId_of_last hline
  next => cases hline

/-! ## Patches from a mailing list -/

def archives : List String :=
  ["https://lore.kernel.org/r/", "https://marc.info/?i=", "https://public-inbox.org/git/"]

/-- The first archive that has the message, else the last one. -/
def probe (env : Env) (messageId : String) : List String → Except Stop String
  | [] => .error .raised
  | archive :: rest =>
    match env.urlopen (archive ++ messageId) with
    | .response _ => .ok (archive ++ messageId)
    | .httpError => if rest = [] then .ok (archive ++ messageId) else probe env messageId rest
    | .raised => .error .raised

/-- `re.sub('^<|>$', '', message_id.strip())` -/
def stripBrackets (header : String) : String :=
  let id := Separators.trim isSpace header.toList
  let id := if id.head? = some '<' then id.tail else id
  String.ofList (if id.getLast? = some '>' then id.dropLast else id)

/-- `args['source_line']`, if the user has given none. -/
def patchworkLine (env : Env) (url patchId messageId : String) (args : Args) : Except Stop String :=
  match args.sourceLine with
  | some line => .ok line
  | none => do
    let altUrl ← probe env messageId archives
    pure ("(am from " ++ url ++ "/patch/" ++ patchId ++ "/)" ++ "\n(also found at " ++
      altUrl ++ ")")

/-- `_pick_patchwork` -/
def pickPatchwork (env : Env) (url patchId : String) (args : Args) : Except Stop (Args × Patch) :=
  let args := args.withTag "FROMLIST: "
  match env.urlopen (url ++ "/patch/" ++ patchId ++ "/mbox") with
  | .httpError => .error (.exit 1)
  | .raised => .error .raised
  | .response mbox =>
    if mbox.contents = "" then .error (.exit 1)
    else
      match mbox.messageId with
      | none => .error .raised
      | some header => do
        let messageId := stripBrackets header
        let line ← patchworkLine env url patchId messageId args
        let changeid := args.changeid.or ((messageChangeId messageId.toList).map String.ofList)
        pure ({ args with sourceLine := some line, changeid := changeid }, .mail mbox.contents)

/-- `re.sub('/(xmlrpc/)?$', '', url)` -/
def stripXmlrpc (url : String) : String :=
  let cs := url.toList
  if "/xmlrpc/".toList <:+ cs then String.ofList (cs.take (cs.length - 8))
  else if "/".toList <:+ cs then String.ofList cs.dropLast
  else url

/-- `_get_pw_url` -/
def getPwUrl (env : Env) (project : Option String) : Except Stop String :=
  match project.or (env.config "options" "default") with
  | none => .error (.exit 1)
  | some project =>
    match env.config project "url" with
    | none => .error (.exit 1)
    | some url => .ok (stripXmlrpc url)

/-- The groups of a match. -/
abbrev Groups := Nat → Option String

def Groups.get (m : Groups) (k : Nat) : String := (m k).getD ""

def matchPatchwork (env : Env) (m : Groups) (args : Args) : Except Stop (Args × Patch) := do
  let url ← getPwUrl env (m 2)
  pickPatchwork env url (m.get 3) args

def patchworkUrls : List String :=
  ["https://lore.kernel.org/patchwork", "https://patchwork.kernel.org",
    "https://patchwork.ozlabs.org",
    "https://patchwork.freedesktop.org", "https://patchwork.linux-mips.org"]

/-- The first server that knows the message, and the id of its patch there. -/
def findPatch (env : Env) (msgid : String) : List String → Except Stop (String × String)
  | [] => .error (.exit 1)
  | url :: urls =>
    match env.patchList (url ++ "/xmlrpc/") msgid with
    | .ids (id :: _) => .ok (url, id)
    | .ids [] => findPatch env msgid urls
    | .sslError => findPatch env msgid urls
    | .raised => .error .raised

def matchMsgid (env : Env) (m : Groups) (args : Args) : Except Stop (Args × Patch) := do
  let (url, patchId) ← findPatch env ("<" ++ m.get 1 ++ ">") patchworkUrls
  pickPatchwork env url patchId args

/-! ## Commits -/

/-- A commit to cherry-pick; it is resolved only where its source line is written. -/
def citeCommit (env : Env) (tag commit : String) (line : String → String) (args : Args) :
    Except Stop (Args × Patch) :=
  match args.sourceLine with
  | some _ => .ok (args.withTag tag, .pick commit)
  | none =>
    match env.revParse commit with
    | some sha => .ok ({ args with sourceLine := some (line sha) }.withTag tag, .pick sha)
    | none => .error .calledProcessError

def upstreamUrls : List String :=
  ["git://git.kernel.org/pub/scm/linux/kernel/git/torvalds/linux.git",
    "https://git.kernel.org/pub/scm/linux/kernel/git/torvalds/linux.git",
    "https://kernel.googlesource.com/pub/scm/linux/kernel/git/torvalds/linux.git",
    "git://git.kernel.org/pub/scm/linux/kernel/git/firmware/linux-firmware.git",
    "https://git.kernel.org/pub/scm/linux/kernel/git/firmware/linux-firmware.git",
    "https://kernel.googlesource.com/pub/scm/linux/kernel/git/firmware/linux-firmware.git",
    "git://w1.fi/srv/git/hostap.git",
    "git://git.kernel.org/pub/scm/bluetooth/bluez.git",
    "https://github.com/andersson/qrtr.git"]

/-- `_find_upstream_remote` -/
def findUpstreamRemote (env : Env) (urls : List String) : Option String :=
  env.remotes.find? fun remote =>
    match env.remoteUrl remote with
    | some url => urls.contains (String.ofList (url.toList.rdropWhile (· == '/')))
    | none => false

/-- `_upstream` -/
def upstream (env : Env) (commit : String) (urls : List String) (args : Args) :
    Except Stop (Args × Patch) :=
  match findUpstreamRemote env urls with
  | none => .error (.exit 1)
  | some remote =>
    if ["main", "master"].any fun branch => env.isAncestor commit (remote ++ "/" ++ branch) then
      citeCommit env "UPSTREAM: " commit
        (fun sha => "(cherry picked from commit " ++ sha ++ ")") args
    else .error (.exit 1)

def matchUpstream (env : Env) (m : Groups) (args : Args) : Except Stop (Args × Patch) :=
  upstream env (m.get 1) upstreamUrls args

def fromgitLine (url branch sha : String) : String :=
  "(cherry picked from commit " ++ sha ++ "\n " ++ url ++ " " ++ branch ++ ")"

def matchFromgit (env : Env) (m : Groups) (args : Args) : Except Stop (Args × Patch) :=
  let remote := m.get 2
  let branch := m.get 3
  let commit := m.get 4
  if env.isAncestor commit (remote ++ "/" ++ branch) then
    match env.remoteUrl remote with
    | some url => citeCommit env "FROMGIT: " commit (fromgitLine url branch) args
    | none => .error .calledProcessError
  else .error (.exit 1)

/-- What `_match_gitfetch` and `_match_gitweb` do with their groups. -/
def fetchCommit (env : Env) (remote branch commit : String) (args : Args) :
    Except Stop (Args × Patch) :=
  if env.fetch remote branch then citeCommit env "FROMGIT: " commit (fromgitLine remote branch) args
  else .error (.exit 1)

def matchGitfetch (env : Env) (m : Groups) : Args → Except Stop (Args × Patch) :=
  fetchCommit env (m.get 1) (m.get 3) (m.get 4)

def matchGitweb (env : Env) (m : Groups) : Args → Except Stop (Args × Patch) :=
  fetchCommit env (m.get 1) (m.get 2) (m.get 3)

/-! ## The patterns of the locations -/

/-- A pattern with several groups: `regex k` captures the `k`-th. -/
structure Pattern where
  regex : Nat → Regex
  /-- ends in `$` -/
  dollar : Bool

/-- `pattern.match(location)` -/
def Pattern.match (pattern : Pattern) (location : String) : Option Groups :=
  let find := fun k => ((pattern.regex k).go ⟨none, location.toList, none⟩).find? fun t =>
    !pattern.dollar || t.rest == [] || t.rest == ['\n']
  (find 0).map fun _ k => (find k).bind fun t => t.group.map String.ofList

/-- Group `i`. -/
def cap (k i : Nat) (r : Regex) : Regex := if i = k then .group r else r

/-- `[^…]+` -/
def noneOf (s : String) : Regex := plus (.char fun c => !s.toList.contains c)

/-- `re_matches` -/
def reMatches (env : Env) : List (Pattern × (Groups → Args → Except Stop (Args × Patch))) :=
  [(⟨fun k =>
    all [.bol false, lit "pw://", .alt (cap k 1 (all [cap k 2 (noneOf "/"), lit "/"])) .empty,
      cap k 3 (plus dot)], false⟩, matchPatchwork env),
    (⟨fun k => all [.bol false, lit "msgid://", .alt (lit "<") .empty,
      cap k 1 (.star (.char (· != '>'))), .alt (lit ">") .empty], false⟩, matchMsgid env),
    (⟨fun k => all [.bol false, lit "linux://", cap k 1 (plus hexDigit)], false⟩,
      matchUpstream env),
    (⟨fun k => all [.bol false, lit "upstream://", cap k 1 (plus hexDigit)], false⟩,
      matchUpstream env),
    (⟨fun k => all [.bol false, .alt (cap k 1 (lit "from")) .empty, lit "git://",
      cap k 2 (noneOf "/#"), lit "/",
      cap k 3 (noneOf "#"), lit "/", cap k 4 (plus hexDigit)], true⟩, matchFromgit env),
    (⟨fun k => all [.bol false,
      cap k 1 (all [cap k 2 (.alt (lit "git") (lit "https")), lit "://", plus dot]), lit "#",
      cap k 3 (plus dot), lit "/", cap k 4 (plus hexDigit)], true⟩, matchGitfetch env),
    (⟨fun k => all [.bol false, cap k 1 (all [lit "https://", plus dot]), lit "/commit/?h=",
      cap k 2 (plus dot),
      lit "&id=", cap k 3 (plus hexDigit)], true⟩, matchGitweb env)]

/-- What the handler of a location finds out before it touches the history. -/
def handle (env : Env) (location : String) (args : Args) : Except Stop (Args × Patch) :=
  match (reMatches env).findSome? fun (pattern, handler) =>
      (pattern.match location).map handler with
  | some handler => handler args
  | none => .error (.exit 1)

end Fromupstream
