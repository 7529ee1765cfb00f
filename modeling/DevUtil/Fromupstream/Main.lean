import DevUtil.Fromupstream.Messages
import Mathlib.Data.List.Forall2

/-!
# The history that `fromupstream.py` leaves

One commit after another is picked and amended.  With `--replace` the handler of
every location drops HEAD before it picks, also when HEAD is the commit of the
location before.

    one location = its own commit on the history, without HEAD if it is replaced  (forLocation_ok)
    several locations without --replace = their commits, in order                 (locations_ok)
    … with --replace = a history of the same length                               (locations_length)
-/

namespace Fromupstream

open Lib Regex

/-! ## The run -/

/-- `git show -s --format=%B HEAD` -/
def showHead : History → Except Stop (List Char)
  | [] => .error .calledProcessError
  | head :: _ => .ok (Separators.trim isSpace head.message)

def amend (env : Env) (signoff : Bool) (message : List Char) : History → Except Stop History
  | [] => .error .calledProcessError
  | head :: rest => .ok ({ head with message := env.record signoff message } :: rest)

/-- `git reset --hard HEAD~1` -/
def resetHard : History → Except Stop History
  | _ :: parent :: rest => .ok (parent :: rest)
  | _ => .error .calledProcessError

/-- `if args['replace']: _git(['reset', '--hard', 'HEAD~1'])` -/
def dropReplaced (args : Args) (history : History) : Except Stop History :=
  if args.replace then resetHard history else .ok history

/-- The lines of a test, up to the one that ends it. -/
def takeTest (test : List Char) : List (List Char) → Option (List Char)
  | [] => none
  | line :: rest =>
    if line = [] ∨ ["Cq-Depend:", "Change-Id:", "BUG=", "TEST="].any fun s =>
      s.toList.isPrefixOf line then some test
    else takeTest (test ++ '\n' :: line) rest

/-- The lines after `TEST=` that end in a blank line or in one that begins something else. -/
def findTests : List (List Char) → List String
  | [] => []
  | line :: rest =>
    (if "TEST=".toList.isPrefixOf line then
      ((takeTest (line.drop 5) rest).map String.ofList).toList else []) ++
      findTests rest

/-- What the replaced commit gives, where the user has given nothing. -/
def takeFromHead (args : Args) (cqDepends : List String) (old : List Char) : Args × Trailers :=
  let oldMessage := String.ofList old
  ({ args with
      changeid :=
        args.changeid.or
          (search (all [.bol true, lit "Change-Id: ", .group (.star dot)]) oldMessage) },
    { bugLines :=
        if args.bugLines = [] then findall (all [.bol true, lit "BUG=", .group (.star dot)])
          oldMessage else args.bugLines
      testLines := if args.testLines = [] then findTests (lines old) else args.testLines
      cqDepends :=
        if cqDepends = [] then
          findall (all [.bol true, lit "Cq-Depend:", plus space, .group (.star dot)]) oldMessage
        else cqDepends })

def properties (args : Args) (history : History) : Except Stop (Args × Trailers) :=
  let cqDepends := (args.cqdepend.filter (· ≠ "")).toList
  if args.replace then (showHead history).map (takeFromHead args cqDepends)
  else .ok (args, ⟨args.bugLines, args.testLines, cqDepends⟩)

/-- What `main` does before its loop. -/
def prepare (args : Args) (history : History) : Except Stop (Args × Trailers) := do
  let r ← properties args history
  if r.2.bugLines = [] ∨ r.2.testLines = [] then .error (.exit 2) else pure r

/-- `handler(match, args)`; every handler ends with `git reset`, if HEAD is replaced, and with
picking. -/
def runHandler (env : Env) (location : String) (args : Args) (history : History) :
    Except Stop (Args × Applied × History) := do
  let (args, patch) ← handle env location args
  let history ← dropReplaced args history
  match env.apply history patch with
  | .commit message => pure (args, .commit message, ⟨.applied patch, message⟩ :: history)
  | applied => pure (args, applied, history)

def Args.backport (args : Args) : Args :=
  { args with
      tag := args.tag.map fun tag => if tag = "UPSTREAM: " then "BACKPORT: "
        else "BACKPORT: " ++ tag }

/-- The two amendings. -/
def decorate (env : Env) (args : Args) (t : Trailers) (conflicts : String) (history : History) :
    Except Stop History := do
  let picked ← showHead history
  match args.sourceLine with
  | none => .error .raised
  | some line => do
    let noted := noteSource picked line conflicts t
    let history ← amend env (signoff env args noted) noted history
    let message ← showHead history
    let message ← finishMessage env args t message
    amend env false message history

/-- User parameters are restored before each location. -/
def Args.restore (args user : Args) : Args :=
  { args with sourceLine := user.sourceLine, tag := user.tag, changeid := user.changeid }

/-- One round of the loop. -/
def forLocation (env : Env) (user : Args) (t : Trailers) (state : Args × History)
    (location : String) :
    Except Stop (Args × History) := do
  let (args, applied, history) ← runHandler env location (state.1.restore user) state.2
  match applied with
  | .stopped status =>
    match env.resolve history with
    | none => .error .killed
    | some history => do
      let history ← decorate env args.backport t (getConflicts status) history
      pure ({ args.backport with changeid := none }, history)
  | _ => do
    let history ← decorate env args t "" history
    pure ({ args with changeid := none }, history)

def main (env : Env) (args : Args) (history : History) : Except Stop History := do
  let (user, t) ← prepare args history
  let (_, history) ← user.locations.foldlM (forLocation env user t) (user, history)
  pure history

/-! ## What is asked of it -/

/-- The commit of a location: its patch, and the tag and the source line that are its own or the
user's. A Change-Id in a source line is rewritten as every Change-Id of the message is. -/
def MadeFrom (env : Env) (user : Args) (location : String) (commit : Commit) : Prop :=
  ∃ own patch, handle env location user = .ok (own, patch) ∧ commit.change = .applied patch ∧
    (∃ tag ∈ own.tag, '\n' ∉ tag.toList → tag.toList <+: commit.message) ∧
    ∃ line ∈ own.sourceLine, ∀ l ∈ lines line.toList, ¬changeIdLit <:+: l →
      Separators.trim isSpace l <:+: commit.message

/-- The history is what it was, without HEAD if it is replaced, and a commit for each location in
order. -/
def Followed (env : Env) (user : Args) (history final : History) : Prop :=
  ∃ news, final = news.reverse ++ (if user.replace then history.tail else history) ∧
    List.Forall₂ (MadeFrom env user) user.locations news

/-- Every patch that is tried makes a commit. -/
def AppliesCleanly (env : Env) (user : Args) (t : Trailers) (state : Args × History)
    (locations : List String) : Prop :=
  ∀ before location after, locations = before ++ location :: after →
    ∀ state', before.foldlM (forLocation env user t) state = .ok state' →
      ∃ own message history', runHandler env location (state'.1.restore user) state'.2 =
        .ok (own, .commit message, history')

theorem bind_eq_ok {α β : Type} {x : Except Stop α} {f : α → Except Stop β} {b : β} :
    (x >>= f) = .ok b ↔ ∃ a, x = .ok a ∧ f a = .ok b := by
  cases x <;> simp [bind, Except.bind]

/-! ## What the handlers fill in -/

structure Filled (args own : Args) : Prop where
  restore : own.restore args = args
  tag : ∃ tag, own.tag = some tag
  sourceLine : ∃ line, own.sourceLine = some line
  changeid : ∀ id ∈ own.changeid, id ∈ args.changeid ∨ isChangeId id.toList = true
  keeps : ∀ id ∈ args.changeid, id ∈ own.changeid

variable {env : Env} {args own user : Args} {patch : Patch} {t : Trailers}

theorem filled_citeCommit {tag commit : String} {line : String → String}
    (h : citeCommit env tag commit line args = .ok (own, patch)) : Filled args own := by
  unfold citeCommit at h
  split at h
  next old hline =>
    obtain ⟨rfl, -⟩ := Prod.mk.inj (Except.ok.inj h)
    exact ⟨rfl, ⟨_, rfl⟩, ⟨old, hline⟩, fun id hid => Or.inl hid, fun id hid => hid⟩
  next hline =>
    split at h
    next sha _ =>
      obtain ⟨rfl, -⟩ := Prod.mk.inj (Except.ok.inj h)
      exact ⟨rfl, ⟨_, rfl⟩, ⟨line sha, rfl⟩, fun id hid => Or.inl hid, fun id hid => hid⟩
    next => cases h

theorem filled_pickPatchwork {url patchId : String}
    (h : pickPatchwork env url patchId args = .ok (own, patch)) :
    Filled args own := by
  unfold pickPatchwork at h
  dsimp only at h
  split at h
  next => cases h
  next => cases h
  next mbox _ =>
    split at h
    next => cases h
    next =>
      split at h
      next => cases h
      next header _ =>
        obtain ⟨line, -, hown⟩ := bind_eq_ok.mp h
        obtain ⟨rfl, -⟩ := Prod.mk.inj (Except.ok.inj hown)
        refine ⟨rfl, ⟨_, rfl⟩, ⟨line, rfl⟩, fun id hid => ?_,
          fun id hid => Option.or_eq_some_iff.mpr (Or.inl hid)⟩
        rcases Option.or_eq_some_iff.mp hid with hid | ⟨-, hid⟩
        · exact Or.inl hid
        · obtain ⟨cs, hcs, rfl⟩ := Option.map_eq_some_iff.mp hid
          rw [String.toList_ofList]
          exact Or.inr (isChangeId_of_message hcs)

theorem filled_fetchCommit {remote branch commit : String}
    (h : fetchCommit env remote branch commit args = .ok (own, patch)) : Filled args own := by
  unfold fetchCommit at h
  split at h
  next => exact filled_citeCommit h
  next => cases h

theorem filled_matchUpstream {m : Groups} (h : matchUpstream env m args = .ok (own, patch)) :
    Filled args own := by
  unfold matchUpstream upstream at h
  split at h
  next => cases h
  next =>
    split at h
    next => exact filled_citeCommit h
    next => cases h

theorem filled_matchFromgit {m : Groups} (h : matchFromgit env m args = .ok (own, patch)) :
    Filled args own := by
  unfold matchFromgit at h
  dsimp only at h
  split at h
  next =>
    split at h
    next => exact filled_citeCommit h
    next => cases h
  next => cases h

theorem filled_handler {p : Pattern × (Groups → Args → Except Stop (Args × Patch))}
    (hp : p ∈ reMatches env) {m : Groups} (h : p.2 m args = .ok (own, patch)) :
    Filled args own := by
  simp only [reMatches, List.mem_cons, List.not_mem_nil, or_false] at hp
  rcases hp with rfl | rfl | rfl | rfl | rfl | rfl | rfl
  · obtain ⟨url, -, h⟩ := bind_eq_ok.mp h
    exact filled_pickPatchwork h
  · obtain ⟨found, -, h⟩ := bind_eq_ok.mp h
    exact filled_pickPatchwork h
  · exact filled_matchUpstream h
  · exact filled_matchUpstream h
  · exact filled_matchFromgit h
  · exact filled_fetchCommit h
  · exact filled_fetchCommit h

theorem filled_handle {location : String} (h : handle env location args = .ok (own, patch)) :
    Filled args own := by
  unfold handle at h
  split at h
  next handler hfind =>
    obtain ⟨p, hp, hm⟩ := List.exists_of_findSome?_eq_some hfind
    obtain ⟨m, -, rfl⟩ := Option.map_eq_some_iff.mp hm
    exact filled_handler hp h
  next => cases h

/-! ## One location -/

theorem decorate_ok (law : env.Lawful) (valid : TemplatesValid own t) (hbug : t.bugLines ≠ [])
    {tag line : String} (htag : own.tag = some tag) (hline : own.sourceLine = some line)
    (conflicts : String) (commit : Commit) (base : History) :
    ∃ message, decorate env own t conflicts (commit :: base) =
      .ok ({ commit with message := message } :: base) ∧
      ('\n' ∉ tag.toList → tag.toList <+: message) ∧
      ∀ l ∈ lines line.toList, ¬changeIdLit <:+: l → Separators.trim isSpace l <:+: message := by
  let noted := noteSource (Separators.trim isSpace commit.message) line conflicts t
  let first := env.record (signoff env own noted) noted
  obtain ⟨after, hafter, hrewritten⟩ :=
    finishMessage_ok law valid htag (Separators.trim isSpace first)
  refine ⟨env.record false (tag.toList ++ after), ?_, fun hnl => ?_, fun l hl hw => ?_⟩
  · simp only [decorate, showHead, hline, amend, bind, Except.bind]
    rw [hafter]
  · have hB : 'B' ∈ first := law.bug_record _ line conflicts hbug _
    obtain ⟨c, cs, rfl, hc⟩ := hrewritten.solid (solid_trim hB (by decide))
    exact law.prefix_record hnl hc cs false
  · by_cases hnil : Separators.trim isSpace l = []
    · rw [hnil]
      exact List.nil_infix
    · have hbare := bare_trim hnil
      have hnoted : InLine changeIdLit (Separators.trim isSpace l) noted :=
        inLine_noteSource hl hw (trim_within isSpace l)
      have hfirst := inLine_trim hbare (law.inLine_record hbare hnoted (signoff env own noted))
      obtain ⟨k, hk, -, hin⟩ := hrewritten.inLine _ hfirst
      obtain ⟨k', hk', hsuffix⟩ := exists_line_append tag.toList hk
      obtain ⟨hmem, hin'⟩ := law.line_record hbare hk' (hin.trans hsuffix.isInfix) false
      exact hin'.trans (infix_of_mem_lines hmem)

/-- The history before a patch is applied. -/
def baseOf (args : Args) (history : History) : History :=
  if args.replace then history.tail else history

theorem runHandler_commit {location : String} {history history' : History} {message : List Char}
    (h : runHandler env location args history = .ok (own, .commit message, history')) :
    ∃ patch, handle env location args = .ok (own, patch) ∧
      history' = ⟨.applied patch, message⟩ :: baseOf args history ∧
        (args.replace = true → history ≠ []) := by
  obtain ⟨⟨own', patch⟩, hhandle, h⟩ := bind_eq_ok.mp h
  have hreplace : own'.replace = args.replace :=
    show (own'.restore args).replace = _ from congrArg Args.replace (filled_handle hhandle).restore
  obtain ⟨base, hbase, h⟩ := bind_eq_ok.mp h
  have hbase : base = baseOf args history ∧ (args.replace = true → history ≠ []) := by
    unfold dropReplaced at hbase
    rw [hreplace] at hbase
    unfold baseOf
    by_cases hr : args.replace = true
    · rw [if_pos hr] at hbase ⊢
      unfold resetHard at hbase
      split at hbase
      next => exact ⟨(Except.ok.inj hbase).symm, fun _ => List.cons_ne_nil _ _⟩
      next => cases hbase
    · rw [if_neg hr] at hbase ⊢
      exact ⟨(Except.ok.inj hbase).symm, fun h => absurd h hr⟩
  split at h
  next m _ =>
    obtain ⟨rfl, hrest⟩ := Prod.mk.inj (Except.ok.inj h)
    obtain ⟨hm, rfl⟩ := Prod.mk.inj hrest
    obtain rfl := Applied.commit.inj hm
    exact ⟨patch, hhandle, by rw [hbase.1], hbase.2⟩
  next applied hne =>
    obtain ⟨-, hrest⟩ := Prod.mk.inj (Except.ok.inj h)
    exact absurd (Prod.mk.inj hrest).1 (hne message)

theorem Filled.templates_iff (h : Filled args own) :
    TemplatesValid own t ↔ TemplatesValid args t := by
  constructor
  · exact fun valid => ⟨fun id hid => valid.changeid id (h.keeps id hid), valid.cqDepends⟩
  · refine fun valid => ⟨fun id hid => ?_, valid.cqDepends⟩
    rcases h.changeid id hid with hid | hid
    · exact valid.changeid id hid
    · exact changeIdTemplate_of_isChangeId hid

theorem forLocation_ok (law : env.Lawful) (valid : TemplatesValid user t) (hbug : t.bugLines ≠ [])
    {state : Args × History} (hstate : state.1.restore user = user) {location : String}
    {message : List Char} {history' : History}
    (h : runHandler env location (state.1.restore user) state.2 =
      .ok (own, .commit message, history')) :
    ∃ state' commit, forLocation env user t state location = .ok state' ∧
      state'.1.restore user = user ∧
      state'.2 = commit :: baseOf user state.2 ∧ MadeFrom env user location commit := by
  rw [hstate] at h
  obtain ⟨patch, hhandle, rfl, -⟩ := runHandler_commit h
  have hfilled := filled_handle hhandle
  obtain ⟨tag, htag⟩ := hfilled.tag
  obtain ⟨line, hline⟩ := hfilled.sourceLine
  obtain ⟨final, hdecorate, hstarts, hsource⟩ :=
    decorate_ok law (hfilled.templates_iff.mpr valid) hbug htag hline "" ⟨.applied patch, message⟩
      (baseOf user state.2)
  refine ⟨({ own with changeid := none }, _), ⟨.applied patch, final⟩, ?_, hfilled.restore, rfl, ?_⟩
  · rw [forLocation, hstate]
    simp only [h, hdecorate, bind, Except.bind]
    rfl
  · exact ⟨own, patch, hhandle, rfl, ⟨tag, htag, hstarts⟩, line, hline, hsource⟩

/-- A location that is done has found the templates valid. -/
theorem templates_of_forLocation {state state' : Args × History}
    (hstate : state.1.restore user = user) {location : String} {message : List Char}
    {history' : History}
    (h : runHandler env location (state.1.restore user) state.2 =
      .ok (own, .commit message, history'))
    (hdone : forLocation env user t state location = .ok state') : TemplatesValid user t := by
  rw [hstate] at h
  obtain ⟨patch, hhandle, -, -⟩ := runHandler_commit h
  have hfilled := filled_handle hhandle
  rw [forLocation, hstate, h] at hdone
  obtain ⟨r, hr, hdone⟩ := bind_eq_ok.mp hdone
  obtain rfl := Except.ok.inj hr
  obtain ⟨final, hdecorate, -⟩ := bind_eq_ok.mp hdone
  obtain ⟨picked, -, hdecorate⟩ := bind_eq_ok.mp hdecorate
  split at hdecorate
  next => cases hdecorate
  next line _ =>
    obtain ⟨noted, -, hdecorate⟩ := bind_eq_ok.mp hdecorate
    obtain ⟨shown, -, hdecorate⟩ := bind_eq_ok.mp hdecorate
    obtain ⟨after, hafter, -⟩ := bind_eq_ok.mp hdecorate
    exact hfilled.templates_iff.mp (templates_of_finishMessage hafter)

/-! ## Several locations -/

theorem AppliesCleanly.head {state : Args × History} {location : String} {locations : List String}
    (h : AppliesCleanly env user t state (location :: locations)) :
    ∃ own message history', runHandler env location (state.1.restore user) state.2 =
      .ok (own, .commit message, history') :=
  h [] location locations rfl state rfl

theorem AppliesCleanly.tail {state state' : Args × History} {location : String}
    {locations : List String} (h : AppliesCleanly env user t state (location :: locations))
    (hdone : forLocation env user t state location = .ok state') :
    AppliesCleanly env user t state' locations := by
  intro before next after hsplit last hbefore
  apply h (location :: before) next after (by rw [hsplit]; rfl) last
  rw [List.foldlM_cons, hdone]
  exact hbefore

/-- Without `--replace` each location adds its commit. -/
theorem locations_ok (law : env.Lawful) (valid : TemplatesValid user t) (hbug : t.bugLines ≠ [])
    (hreplace : user.replace = false) (locations : List String) {state : Args × History}
    (hstate : state.1.restore user = user) (clean : AppliesCleanly env user t state locations) :
    ∃ state' news, locations.foldlM (forLocation env user t) state = .ok state' ∧
      state'.2 = news.reverse ++ state.2 ∧
      List.Forall₂ (MadeFrom env user) locations news := by
  induction locations generalizing state with
  | nil => exact ⟨state, [], rfl, rfl, .nil⟩
  | cons location locations ih =>
    obtain ⟨own, message, history', h⟩ := clean.head
    obtain ⟨next, commit, hdone, hnext, hhistory, hmade⟩ := forLocation_ok law valid hbug hstate h
    obtain ⟨last, news, hlast, hnews, hall⟩ := ih hnext (clean.tail hdone)
    refine ⟨last, commit :: news, ?_, ?_, .cons hmade hall⟩
    · rw [List.foldlM_cons, hdone]
      exact hlast
    · have hbase : baseOf user state.2 = state.2 := by simp [baseOf, hreplace]
      rw [hnews, hhistory, hbase, List.reverse_cons, List.append_assoc]
      rfl

/-- With it each location puts its commit in the place of HEAD. -/
theorem locations_length (law : env.Lawful) (hbug : t.bugLines ≠ [])
    (hreplace : user.replace = true) (locations : List String) {state state' : Args × History}
    (hstate : state.1.restore user = user) (clean : AppliesCleanly env user t state locations)
    (h : locations.foldlM (forLocation env user t) state = .ok state') :
    state'.2.length = state.2.length := by
  induction locations generalizing state with
  | nil =>
    obtain rfl := Except.ok.inj h
    rfl
  | cons location locations ih =>
    obtain ⟨own, message, history', hclean⟩ := clean.head
    obtain ⟨next, hdone, hrest⟩ := bind_eq_ok.mp h
    have valid := templates_of_forLocation hstate hclean hdone
    obtain ⟨next', commit, hdone', hnext, hhistory, -⟩ :=
      forLocation_ok law valid hbug hstate hclean
    obtain rfl : next = next' := Except.ok.inj (hdone.symm.trans hdone')
    have hne : state.2 ≠ [] := by
      rw [hstate] at hclean
      obtain ⟨-, -, -, hne⟩ := runHandler_commit hclean
      exact hne hreplace
    have hpos := List.length_pos_of_ne_nil hne
    have hlen := ih hnext (clean.tail hdone) hrest
    rw [hlen, hhistory, baseOf, if_pos hreplace, List.length_cons, List.length_tail]
    omega

/-! ## The whole run -/

theorem properties_ok {history : History} (h : properties args history = .ok (user, t)) :
    ∃ id, user = { args with changeid := id } := by
  unfold properties at h
  split at h
  next =>
    cases hold : showHead history with
    | error stop =>
      rw [hold] at h
      cases h
    | ok old =>
      rw [hold] at h
      exact ⟨_, (congrArg Prod.fst (Except.ok.inj h)).symm⟩
  next => exact ⟨args.changeid, (congrArg Prod.fst (Except.ok.inj h)).symm⟩

theorem prepare_ok {history : History} (h : prepare args history = .ok (user, t)) :
    user.replace = args.replace ∧ user.locations = args.locations ∧ t.bugLines ≠ [] := by
  obtain ⟨r, hr, h⟩ := bind_eq_ok.mp h
  split at h
  next => cases h
  next hlines =>
    obtain rfl := Except.ok.inj h
    obtain ⟨id, rfl⟩ := properties_ok hr
    exact ⟨rfl, rfl, fun hnil => hlines (Or.inl hnil)⟩

theorem main_eq {history : History} (accepted : prepare args history = .ok (user, t)) :
    main env args history = (user.locations.foldlM (forLocation env user t) (user, history)).map
      Prod.snd := by
  rw [main, accepted]
  show (user.locations.foldlM (forLocation env user t) (user, history) >>= fun r => pure r.2) = _
  cases user.locations.foldlM (forLocation env user t) (user, history) <;> rfl

/-- HEAD has been replaced once only where there is one location. -/
theorem one_of_followed (law : env.Lawful) {history final : History}
    (accepted : prepare args history = .ok (user, t))
    (clean : AppliesCleanly env user t (user, history) user.locations) (hr : user.replace = true)
    (hfinal : main env args history = .ok final) (hfollowed : Followed env user history final) :
    user.locations.length = 1 := by
  obtain ⟨-, -, hbug⟩ := prepare_ok accepted
  obtain ⟨news, hnews, hall⟩ := hfollowed
  rw [main_eq accepted] at hfinal
  cases hrun : user.locations.foldlM (forLocation env user t) (user, history) with
  | error stop =>
    rw [hrun] at hfinal
    cases hfinal
  | ok state =>
    rw [hrun] at hfinal
    obtain rfl : state.2 = final := Except.ok.inj hfinal
    have hlen : state.2.length = history.length :=
      locations_length law hbug hr user.locations rfl clean hrun
    obtain ⟨location, others, hcons⟩ := List.exists_cons_of_ne_nil user.locations_ne
    rw [hcons] at clean
    obtain ⟨own, message, history', hhead⟩ := clean.head
    obtain ⟨-, -, -, hne⟩ := runHandler_commit hhead
    have hpos : 0 < history.length := List.length_pos_of_ne_nil (hne hr)
    rw [hnews, if_pos hr, List.length_append, List.length_reverse,
      List.length_tail, ← hall.length_eq] at hlen
    omega

/-- The history is as asked for ↔ HEAD is replaced by one location at most, and the Change-Id and
the `Cq-Depend` lines, which `re.sub` takes for templates, are valid ones. -/
theorem main_iff (law : env.Lawful) {history : History}
    (accepted : prepare args history = .ok (user, t))
    (clean : AppliesCleanly env user t (user, history) user.locations) :
    (∃ final, main env args history = .ok final ∧ Followed env user history final) ↔
      (args.replace = true → args.locations.length = 1) ∧ TemplatesValid user t := by
  obtain ⟨hreplace, hlocations, hbug⟩ := prepare_ok accepted
  rw [← hreplace, ← hlocations]
  obtain ⟨location, others, hcons⟩ := List.exists_cons_of_ne_nil user.locations_ne
  have hclean := clean
  rw [hcons] at hclean
  obtain ⟨own, message, history', hhead⟩ := hclean.head
  constructor
  · rintro ⟨final, hfinal, hfollowed⟩
    refine ⟨fun hr => one_of_followed law accepted clean hr hfinal hfollowed, ?_⟩
    rw [main_eq accepted, hcons, List.foldlM_cons] at hfinal
    cases hdone : forLocation env user t (user, history) location with
    | error stop =>
      rw [hdone] at hfinal
      cases hfinal
    | ok next => exact templates_of_forLocation rfl hhead hdone
  · rintro ⟨hone, valid⟩
    rw [main_eq accepted]
    cases hr : user.replace with
    | false =>
      obtain ⟨state, news, hrun, hnews, hall⟩ :=
        locations_ok law valid hbug hr user.locations rfl clean
      refine ⟨state.2, by rw [hrun]; rfl, news, ?_, hall⟩
      rw [hnews, hr]
      rfl
    | true =>
      have hlen := hone hr
      rw [hcons, List.length_cons] at hlen
      obtain rfl := List.eq_nil_of_length_eq_zero (Nat.succ.inj hlen)
      obtain ⟨state, commit, hdone, -, hhistory, hmade⟩ := forLocation_ok law valid hbug rfl hhead
      refine ⟨state.2, ?_, [commit], ?_, ?_⟩
      · rw [hcons, List.foldlM_cons, hdone]
        rfl
      · rw [hhistory, baseOf, hr]
        rfl
      · rw [hcons]
        exact .cons hmade .nil

/-! ## Two commits from Linux -/

/-- What `git stripspace` leaves of the lines: one blank line for several, none at the ends. -/
def collapse : Bool → List (List Char) → List (List Char)
  | _, [] => []
  | blank, line :: rest =>
    if line = [] then collapse true rest
    else (if blank then [[], line] else [line]) ++ collapse false rest

def stripspace (text : List Char) : List Char :=
  (collapse false (((lines text).map (·.rdropWhile gitSpace)).dropWhile (· = []))).flatMap
    fun line => line ++ ['\n']

theorem mem_collapse {l : List Char} {ls : List (List Char)} (h : l ∈ ls.filter (· ≠ []))
    (blank : Bool) :
    l ∈ collapse blank ls := by
  induction ls generalizing blank with
  | nil => cases h
  | cons line ls ih =>
    by_cases hnil : line = []
    · rw [List.filter_cons_of_neg (by simp [hnil])] at h
      rw [collapse, if_pos hnil]
      exact ih h true
    · rw [List.filter_cons_of_pos (by simpa using hnil)] at h
      rw [collapse, if_neg hnil]
      rcases List.mem_cons.mp h with rfl | h
      · cases blank <;> simp
      · exact List.mem_append_right _ (ih h false)

theorem collapse_subset {l : List Char} {ls : List (List Char)} {blank : Bool}
    (h : l ∈ collapse blank ls) :
    l = [] ∨ l ∈ ls := by
  induction ls generalizing blank with
  | nil => cases h
  | cons line ls ih =>
    by_cases hnil : line = []
    · rw [collapse, if_pos hnil] at h
      exact (ih h).imp id (List.mem_cons_of_mem _)
    · rw [collapse, if_neg hnil] at h
      rcases List.mem_append.mp h with h | h
      · cases blank <;> simp at h <;> simp [h]
        rcases h with h | h <;> simp [h]
      · exact (ih h).imp id (List.mem_cons_of_mem _)

theorem lines_ended {ls : List (List Char)} (h : ∀ l ∈ ls, '\n' ∉ l) :
    lines (ls.flatMap fun line => line ++ ['\n']) = ls ++ [[]] := by
  induction ls with
  | nil => rfl
  | cons l ls ih =>
    have hl : lines l = [l] := by
      have happend := lines_append (h l List.mem_cons_self) []
      simpa using happend
    rw [List.flatMap_cons, List.append_assoc, List.singleton_append, lines_append_newline, hl,
      ih fun l' hl' => h l' (List.mem_cons_of_mem l hl')]
    rfl

/-- Git's own clean-up is lawful. -/
theorem lines_stripspace {text first : List Char} {others : List (List Char)}
    (h : solid text = first :: others) :
    ∃ rest, lines (stripspace text) = first :: rest ∧ ∀ l ∈ others, l ∈ rest := by
  unfold solid at h
  unfold stripspace
  have hline : ∀ l ∈ (lines text).map (·.rdropWhile gitSpace), '\n' ∉ l := by
    intro l hl hnl
    obtain ⟨k, hk, rfl⟩ := List.mem_map.mp hl
    exact not_mem_of_mem_lines hk ((List.rdropWhile_prefix gitSpace k).subset hnl)
  generalize (lines text).map (·.rdropWhile gitSpace) = ls at h hline
  induction ls with
  | nil => cases h
  | cons l ls ih =>
    by_cases hnil : l = []
    · rw [List.filter_cons_of_neg (by simp [hnil])] at h
      rw [List.dropWhile_cons_of_pos (by simp [hnil])]
      exact ih h fun l' hl' => hline l' (List.mem_cons_of_mem l hl')
    · rw [List.filter_cons_of_pos (by simpa using hnil)] at h
      rw [List.dropWhile_cons_of_neg (by simpa using hnil), lines_ended ?_, collapse, if_neg hnil]
      · obtain ⟨rfl, rfl⟩ := List.cons.inj h
        refine ⟨collapse false ls ++ [[]], rfl,
          fun k hk => List.mem_append_left _ (mem_collapse hk false)⟩
      · intro k hk
        rcases collapse_subset hk with rfl | hk
        · exact List.not_mem_nil
        · exact hline k hk

/-- A kernel tree with the remote of Linux. -/
def kernel : Env where
  config := fun _ _ => none
  urlopen := fun _ => .httpError
  patchList := fun _ _ => .ids []
  remotes := ["origin"]
  remoteUrl := fun _ => some "https://git.kernel.org/pub/scm/linux/kernel/git/torvalds/linux.git"
  isAncestor := fun _ _ => true
  revParse := some
  fetch := fun _ _ => true
  apply := fun _ patch => .commit <| match patch with
    | .pick sha => ("Fix " ++ sha).toList
    | .mail contents => contents.toList
  resolve := fun _ => none
  record := fun _ => stripspace
  userName := "dev"
  userEmail := "dev@example.org"
  isWord := fun c => c.isAlphanum || c == '_'

theorem lawful_kernel : kernel.Lawful := ⟨fun _ _ _ _ => lines_stripspace, by decide⟩

/-- `--bug b:1 --test boot linux://a1 linux://b2` -/
def twoFixes (replace : Bool) : Args where
  bugLines := ["b:1"]
  testLines := ["boot"]
  changeid := none
  cqdepend := none
  replace := replace
  signoff := false
  tag := none
  sourceLine := none
  locations := ["linux://a1", "linux://b2"]
  locations_ne := List.cons_ne_nil _ _

def branch : History := [⟨.existing "2", "Tweak\n".toList⟩, ⟨.existing "1", "Start\n".toList⟩]

theorem prepare_twoFixes (replace : Bool) :
    prepare (twoFixes replace) branch = .ok (twoFixes replace, ⟨["b:1"], ["boot"], []⟩) := by
  cases replace <;> rfl

theorem runHandler_kernel {location : String} {history : History}
    (h : handle kernel location args = .ok (own, patch)) (hlong : 2 ≤ history.length) :
    ∃ message history', runHandler kernel location args history =
      .ok (own, .commit message, history') := by
  obtain ⟨base, hbase⟩ : ∃ base, dropReplaced own history = .ok base := by
    unfold dropReplaced
    split
    next =>
      cases history with
      | nil => simp at hlong
      | cons head rest =>
        cases rest with
        | nil => simp at hlong
        | cons parent rest => exact ⟨_, rfl⟩
    next => exact ⟨_, rfl⟩
  obtain ⟨message, hmessage⟩ : ∃ message, kernel.apply base patch = .commit message := ⟨_, rfl⟩
  refine ⟨message, ⟨.applied patch, message⟩ :: base, ?_⟩
  simp only [runHandler, h, hbase, hmessage, bind, Except.bind]
  rfl

theorem clean_twoFixes (replace : Bool) :
    AppliesCleanly kernel (twoFixes replace) ⟨["b:1"], ["boot"], []⟩ (twoFixes replace, branch)
      (twoFixes replace).locations := by
  obtain ⟨own, patch, hfirst⟩ : ∃ own patch, handle kernel "linux://a1" (twoFixes replace) =
      .ok (own, patch) :=
    ⟨_, _, rfl⟩
  obtain ⟨own', patch', hsecond⟩ : ∃ own patch, handle kernel "linux://b2" (twoFixes replace) =
      .ok (own, patch) :=
    ⟨_, _, rfl⟩
  have hlong : 2 ≤ branch.length := by decide
  obtain ⟨message, history', hrun⟩ := runHandler_kernel hfirst hlong
  show AppliesCleanly kernel _ _ _ ["linux://a1", "linux://b2"]
  intro before location after hsplit state' hbefore
  cases before with
  | nil =>
    obtain ⟨rfl, -⟩ := List.cons.inj hsplit
    obtain rfl := Except.ok.inj hbefore
    exact ⟨own, message, history', hrun⟩
  | cons first before =>
    obtain ⟨rfl, hrest⟩ := List.cons.inj hsplit
    cases before with
    | nil =>
      obtain ⟨rfl, -⟩ := List.cons.inj hrest
      have valid : TemplatesValid (twoFixes replace) ⟨["b:1"], ["boot"], []⟩ :=
        ⟨fun _ h => (by cases h), fun h => absurd rfl h⟩
      obtain ⟨next, commit, hdone, hnext, hhistory, -⟩ :=
        @forLocation_ok kernel own _ _ lawful_kernel valid (List.cons_ne_nil _ _)
          (twoFixes replace, branch) rfl
          "linux://a1" message history' hrun
      rw [List.foldlM_cons, hdone] at hbefore
      obtain rfl := Except.ok.inj hbefore
      have hlong : 2 ≤ next.2.length := by
        rw [hhistory]
        cases replace <;> simp [baseOf, twoFixes, branch]
      obtain ⟨message', history'', hrun'⟩ := runHandler_kernel hsecond hlong
      exact ⟨own', message', history'', by rw [hnext]; exact hrun'⟩
    | cons second before =>
      have hlen := congrArg List.length hrest
      simp at hlen

/-- Without `--replace` both commits are there. -/
theorem main_iff_twoFixes : ∃ final, main kernel (twoFixes false) branch = .ok final ∧
    Followed kernel (twoFixes false) branch final :=
  (main_iff lawful_kernel (prepare_twoFixes false) (clean_twoFixes false)).mpr
    ⟨fun h => (by cases h), ⟨fun _ h => (by cases h), fun h => absurd rfl h⟩⟩

/-- With it the second one has taken the place of the first. -/
theorem not_followed : ¬∀ (env : Env) (args user : Args) (t : Trailers) (history : History),
    env.Lawful → prepare args history = .ok (user, t) →
      AppliesCleanly env user t (user, history) user.locations →
      ∃ final, main env args history = .ok final ∧ Followed env user history final := by
  intro h
  obtain ⟨final, hfinal, hfollowed⟩ :=
    h kernel (twoFixes true) (twoFixes true) _ branch lawful_kernel (prepare_twoFixes true)
      (clean_twoFixes true)
  have hone := one_of_followed lawful_kernel (prepare_twoFixes true)
    (clean_twoFixes true) rfl hfinal hfollowed
  cases hone

end Fromupstream
