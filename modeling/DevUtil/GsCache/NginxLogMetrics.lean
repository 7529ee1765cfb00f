import DevUtil.Lib.Fields
import DevUtil.Lib.NamedGroups
import DevUtil.Lib.Separators
import DevUtil.Lib.Text

/-!
# `nginx_access_log_metrics.py`

The URL of a request to the cache and what `match_url_path` reads from it.

    the URL of a request comes back as its action, bucket, build, milestone
      and file                                                                    (matchUrlPath_url)
-/

namespace GsCache.NginxLogMetrics

open Lib Regex Separators

/-! ## Patterns -/

inductive Name
  | action
  | bucket
  | build
  | milestone
  | version
  | filename
  | package
deriving DecidableEq

/-- `[^/]+` -/
def segment : Regex := plus (.char (· != '/'))

/-- `[^\?]+` -/
def filePath : Regex := plus (.char (· != '?'))

def commonPartialRegex : List (RegexPart Name) :=
  [named .build segment, text (lit "/"),
    named .milestone (.seq (.char (!Fields.isSpace ·)) (plus (.char Char.isDigit))),
    text (lit "-"), named .version segment]

def commonFullRegex : List (RegexPart Name) :=
  [text (.bol false), text (lit "/"), named .action segment, text (lit "/"), named .bucket segment,
    text (lit "/")] ++
    commonPartialRegex

def withFilename : List (RegexPart Name) := commonFullRegex ++
    [text (lit "/"), named .filename filePath]

def fakeRpc : List (RegexPart Name) := [text (lit "/"), named .action segment]

/-- `_URL_PATH_MATCHER` -/
def urlPathMatcher : List (String × List (RegexPart Name)) :=
  [("decompress", withFilename),
    ("download", withFilename),
    ("extract", commonFullRegex ++
      [text (lit "/"), named .package filePath, text (lit "?file="), named .filename filePath]),
    ("list_dir", commonFullRegex),
    ("fake_check_health", fakeRpc),
    ("fake_list_image_dir", fakeRpc),
    ("fake_is_staged", fakeRpc),
    ("fake_stage", fakeRpc),
    ("setup_telemetry", [text (lit "/"), named .action segment, text (lit "?archive_url=gs://"),
      named .bucket segment,
      text (lit "/")] ++ commonPartialRegex),
    ("static", [text (lit "/"), named .action segment, text (lit "/"), named .filename filePath]),
    ("update", [text (.bol false), text (lit "/"), named .action segment, text (lit "/")] ++
      commonPartialRegex ++
      [text (.star dot)])]

/-! ## The function -/

/-- The dictionary that `match_url_path` returns. -/
structure Info where
  action : Text
  bucket : Text
  build : Text
  milestone : Text
  endpoint : Text
deriving DecidableEq

/-- `groupdict().get(name, '')` -/
def getGroup (groups : Groups Name) (name : Name) : Text := (groups.lookup name).getD []

/-- The name of the action: up to the first slash or question mark. -/
def actionName (url : Text) : Text :=
  let first := ((trim (· == '/') url).splitOn '/').headD []
  (first.splitOn '?').headD []

/-- `match_url_path(url)`; the empty dictionary is `none`. -/
def matchUrlPath (url : Text) : Option Info :=
  match urlPathMatcher.lookup (String.ofList (actionName url)) with
  | none => none
  | some regex =>
    match matchGroups regex url with
    | none => none
    | some groups => some ⟨getGroup groups .action, getGroup groups .bucket, getGroup groups .build,
        getGroup groups .milestone, getGroup groups .filename⟩

/-! ## Requests -/

/-- A bucket, a build or a version. -/
structure Component where
  chars : Text
  ne_nil : chars ≠ []
  no_slash : '/' ∉ chars
  no_query : '?' ∉ chars

/-- A letter and digits. -/
structure Milestone where
  letter : Char
  digits : Text
  letter_not_blank : Fields.isSpace letter = false
  digits_ne_nil : digits ≠ []
  digits_isDigit : ∀ c ∈ digits, c.isDigit = true

structure FilePath where
  chars : Text
  ne_nil : chars ≠ []
  no_query : '?' ∉ chars

def Milestone.chars (m : Milestone) : Text := m.letter :: m.digits

/-- The actions, with the files that their URLs name. -/
inductive Action
  | download (file : FilePath)
  | decompress (file : FilePath)
  | extract (package file : FilePath)
  | listDir
  | setupTelemetry

def Action.name : Action → Text
  | .download _ => "download".toList
  | .decompress _ => "decompress".toList
  | .extract _ _ => "extract".toList
  | .listDir => "list_dir".toList
  | .setupTelemetry => "setup_telemetry".toList

/-- The file that is reported as the endpoint. -/
def Action.endpoint : Action → Text
  | .download file => file.chars
  | .decompress file => file.chars
  | .extract _ file => file.chars
  | .listDir => []
  | .setupTelemetry => []

structure Request where
  action : Action
  bucket : Component
  build : Component
  milestone : Milestone
  version : Component

/-- `<bucket>/<build>/<milestone>-<version>` and what follows. -/
def Request.path (q : Request) (rest : Text) : Text :=
  q.bucket.chars ++
    ('/' :: (q.build.chars ++ ('/' :: (q.milestone.chars ++ ('-' :: (q.version.chars ++ rest))))))

/-- The URL of a request in the format of its action. -/
def Request.url (q : Request) : Text :=
  match q.action with
  | .download file => '/' :: ("download".toList ++ '/' :: q.path ('/' :: file.chars))
  | .decompress file => '/' :: ("decompress".toList ++ '/' :: q.path ('/' :: file.chars))
  | .extract package file =>
    '/' :: ("extract".toList ++ '/' :: q.path
      ('/' :: (package.chars ++ ("?file=".toList ++ file.chars))))
  | .listDir => '/' :: ("list_dir".toList ++ '/' :: q.path [])
  | .setupTelemetry =>
    '/' :: ("setup_telemetry".toList ++ ("?archive_url=gs://".toList ++ q.path []))

def Request.info (q : Request) : Info :=
  ⟨q.action.name, q.bucket.chars, q.build.chars, q.milestone.chars, q.action.endpoint⟩

/-! ## What the parts match first -/

variable {ps : List (RegexPart Name)} {gs : Groups Name} {rest : Text}

theorem first_segment {s : Text} (hne : s ≠ []) (hslash : '/' ∉ s)
    (hrest : ∀ c ∈ rest.head?, c = '/') :
    First segment (s ++ rest) none rest none := by
  refine first_plus_char hne (fun c hc => ?_) fun c hc => ?_
  · exact bne_iff_ne.mpr fun heq => hslash (heq ▸ hc)
  · rw [hrest c hc]
    rfl

theorem first_filePath {s : Text} (hne : s ≠ []) (hquery : '?' ∉ s)
    (hrest : ∀ c ∈ rest.head?, c = '?') :
    First filePath (s ++ rest) none rest none := by
  refine first_plus_char hne (fun c hc => ?_) fun c hc => ?_
  · exact bne_iff_ne.mpr fun heq => hquery (heq ▸ hc)
  · rw [hrest c hc]
    rfl

theorem first_lit (s : String) : First (lit s) (s.toList ++ rest) none rest none :=
  first_literal s.toList

theorem first_milestone (m : Milestone) (hrest : ∀ c ∈ rest.head?, c = '-') :
    First (.seq (.char (!Fields.isSpace ·)) (plus (.char Char.isDigit)))
      (m.chars ++ rest) none rest none := by
  refine (first_char (by rw [m.letter_not_blank]; rfl)).seq
    (first_plus_char m.digits_ne_nil m.digits_isDigit fun c hc => ?_)
  rw [hrest c hc]
  rfl

/-- The build, the milestone and the version. -/
theorem firstGroups_common (q : Request) (hrest : ∀ c ∈ rest.head?, c = '/')
    (h : FirstGroups ps rest gs) :
    FirstGroups (commonPartialRegex ++ ps)
      (q.build.chars ++ ('/' :: (q.milestone.chars ++ ('-' :: (q.version.chars ++ rest)))))
      ((.build, q.build.chars) :: (.milestone, q.milestone.chars) ::
        (.version, q.version.chars) :: gs) := by
  refine firstGroups_named (first_segment q.build.ne_nil q.build.no_slash (by simp)) ?_
  refine firstGroups_text (u := ['/']) (first_lit "/") ?_
  apply firstGroups_named (first_milestone q.milestone (by simp))
  refine firstGroups_text (u := ['-']) (first_lit "-") ?_
  exact firstGroups_named (first_segment q.version.ne_nil q.version.no_slash hrest) h

/-- The bucket and what follows it. -/
theorem firstGroups_path (q : Request) (hrest : ∀ c ∈ rest.head?, c = '/')
    (h : FirstGroups ps rest gs) :
    FirstGroups ([named .bucket segment, text (lit "/")] ++ (commonPartialRegex ++ ps))
      (q.path rest)
      ((.bucket, q.bucket.chars) :: (.build, q.build.chars) :: (.milestone, q.milestone.chars) ::
        (.version, q.version.chars) :: gs) := by
  refine firstGroups_named (first_segment q.bucket.ne_nil q.bucket.no_slash (by simp)) ?_
  exact firstGroups_text (u := ['/']) (first_lit "/") (firstGroups_common q hrest h)

/-- A whole URL of the common form. -/
theorem matchGroups_full (q : Request) (action : Text) (hne : action ≠ []) (hslash : '/' ∉ action)
    (hrest : ∀ c ∈ rest.head?, c = '/') (h : FirstGroups ps rest gs) :
    matchGroups (commonFullRegex ++ ps) ('/' :: (action ++ '/' :: q.path rest)) =
      some ((.action, action) :: (.bucket, q.bucket.chars) :: (.build, q.build.chars) ::
        (.milestone, q.milestone.chars) :: (.version, q.version.chars) :: gs) := by
  refine matchGroups_bol false ?_
  refine firstGroups_text (u := ['/']) (first_lit "/") ?_
  refine firstGroups_named (first_segment hne hslash (by simp)) ?_
  exact firstGroups_text (u := ['/']) (first_lit "/") (firstGroups_path q hrest h)

/-! ## The action -/

/-- The slashes that are stripped at the end do not reach into the first segment. -/
theorem rdropWhile_segment {a : Text} (hslash : '/' ∉ a) (w : Text) :
    (a ++ w).rdropWhile (· == '/') = a ++ w.rdropWhile (· == '/') := by
  have hkeep : a.reverse.dropWhile (· == '/') = a.reverse := by
    refine dropWhile_noSepHead (NoSep.head fun c hc => ?_)
    rw [beq_eq_false_iff_ne]
    exact fun heq => hslash (heq ▸ List.mem_reverse.mp hc)
  rw [List.rdropWhile, List.rdropWhile, List.reverse_append, List.dropWhile_append]
  split
  · next hempty =>
    rw [List.isEmpty_iff.mp hempty, hkeep, List.reverse_reverse, List.reverse_nil, List.append_nil]
  · rw [List.reverse_append, List.reverse_reverse]

theorem firstSegment {a : Text} (hne : a ≠ []) (hslash : '/' ∉ a) (rest : Text) :
    ((trim (· == '/') ('/' :: (a ++ '/' :: rest))).splitOn '/').headD [] = a := by
  have hhead : NoSepHead (· == '/') a := NoSep.head fun c hc => by
    rw [beq_eq_false_iff_ne]
    exact fun heq => hslash (heq ▸ hc)
  have htrim : trim (· == '/') ('/' :: (a ++ '/' :: rest)) = a ++
      ('/' :: rest).rdropWhile (· == '/') := by
    rw [trim, List.dropWhile_cons_of_pos (by rfl), dropWhile_noSepHead (hhead.append hne _),
      rdropWhile_segment hslash]
  rw [htrim]
  obtain ⟨t, ht⟩ := List.rdropWhile_prefix (· == '/') (l := '/' :: rest)
  cases hw : ('/' :: rest).rdropWhile (· == '/') with
  | nil =>
    rw [List.append_nil, List.splitOn_eq_singleton hslash]
    rfl
  | cons c w =>
    rw [hw] at ht
    obtain rfl : c = '/' := (List.cons.inj ht).1
    rw [List.splitOn_append_cons_self_of_not_mem hslash]
    rfl

theorem actionName_segment (action : Text) (hne : action ≠ []) (hslash : '/' ∉ action)
    (hquery : '?' ∉ action) (rest : Text) :
    actionName ('/' :: (action ++ '/' :: rest)) = action := by
  show ((((trim (· == '/') ('/' :: (action ++ '/' :: rest))).splitOn '/').headD []).splitOn
    '?').headD [] = action
  rw [firstSegment hne hslash, List.splitOn_eq_singleton hquery]
  rfl

theorem actionName_telemetry (rest : Text) :
    actionName ('/' :: ("setup_telemetry".toList ++ ("?archive_url=gs://".toList ++ rest))) =
      "setup_telemetry".toList := by
  have hsplit : "setup_telemetry".toList ++ "?archive_url=gs://".toList =
      "setup_telemetry?archive_url=gs:".toList ++ ['/', '/'] := by decide
  have htext : "setup_telemetry".toList ++ ("?archive_url=gs://".toList ++ rest) =
      "setup_telemetry?archive_url=gs:".toList ++ '/' :: ('/' :: rest) := by
    rw [← List.append_assoc, hsplit, List.append_assoc]
    rfl
  rw [htext]
  show ((((trim (· == '/') _).splitOn '/').headD []).splitOn '?').headD [] = _
  rw [firstSegment (by decide) (by decide)]
  decide

/-- The ways that a segment can be matched are its beginnings. -/
theorem mem_go_segment {s s' : Cursor} (h : s' ∈ segment.go s) :
    ∃ u, s.rest = u ++ s'.rest ∧ u ≠ [] ∧ ∀ c ∈ u, (c != '/') = true := by
  obtain ⟨u, hu, hne, hall⟩ := reads_plus_char s s' h
  exact ⟨u, hu, hne, hall⟩

theorem takeWhile_segment {a : Text} (h : ∀ c ∈ a, (c != '/') = true) (rest : Text) :
    (a ++ '/' :: rest).takeWhile (· != '/') = a := by
  rw [List.takeWhile_append_of_pos h, List.takeWhile_cons_of_neg (by decide), List.append_nil]

/-- In the URL of a telemetry setup only one way to match the action leads on. -/
theorem firstGroups_telemetry (h : FirstGroups ps rest gs) :
    FirstGroups ([named .action segment, text (lit "?archive_url=gs://")] ++ ps)
      ("setup_telemetry".toList ++ ("?archive_url=gs://".toList ++ rest))
        ((.action, "setup_telemetry".toList) :: gs) := by
  have hway : Way segment ("setup_telemetry".toList ++ ("?archive_url=gs://".toList ++ rest))
      ("?archive_url=gs://".toList ++ rest) := by
    refine Way.seq (First.way fun g => ⟨g, first_char (by decide)⟩) ?_
    exact way_star_char (u := "etup_telemetry".toList) (List.all_eq_true.mp (by decide))
  refine firstGroups_named_only (by decide) hway (fun prev s hs => ?_)
    (firstGroups_text (first_lit _) h)
  obtain ⟨u, hu, -, hall⟩ := mem_go_segment hs
  by_cases hv : s.rest = "?archive_url=gs://".toList ++ rest
  · exact .inl hv
  · refine .inr (List.eq_nil_iff_forall_not_mem.mpr fun g hg => hv ?_)
    obtain ⟨s', hs', -⟩ := List.mem_flatMap.mp hg
    have hlit : s.rest = "?archive_url=gs://".toList ++ s'.rest := go_lit hs'
    -- up to the first slash both sides are known
    have hsplit : "?archive_url=gs://".toList = "?archive_url=gs:".toList ++ ['/', '/'] := by decide
    have heq : "setup_telemetry".toList ++ ("?archive_url=gs://".toList ++ rest) = u ++
        ("?archive_url=gs://".toList ++ s'.rest) := by
      rw [← hlit]
      exact hu
    have hleft := takeWhile_segment (a := "setup_telemetry".toList ++ "?archive_url=gs:".toList)
      (List.all_eq_true.mp (by decide)) ('/' :: rest)
    have hright := takeWhile_segment (a := u ++ "?archive_url=gs:".toList)
      (List.forall_mem_append.mpr ⟨hall, List.all_eq_true.mp (by decide)⟩) ('/' :: s'.rest)
    have hsame : "setup_telemetry".toList ++ "?archive_url=gs:".toList = u ++
        "?archive_url=gs:".toList := by
      rw [← hleft, ← hright]
      rw [hsplit] at heq
      simpa only [List.append_assoc, List.cons_append, List.nil_append] using congrArg
        (List.takeWhile (· != '/')) heq
    have hu' : u = "setup_telemetry".toList := (List.append_cancel_right hsame).symm
    rw [hu'] at hu
    exact (List.append_cancel_left hu).symm

/-! ## The round trip -/

theorem firstGroups_filename (file : FilePath) :
    FirstGroups [text (lit "/"), named Name.filename filePath] ('/' :: file.chars)
      [(.filename, file.chars)] := by
  have hfile : First filePath (file.chars ++ []) none [] none :=
    first_filePath file.ne_nil file.no_query (by simp)
  have hnamed := firstGroups_named (n := Name.filename) hfile (firstGroups_nil [])
  rw [List.append_nil] at hnamed
  exact firstGroups_text (u := ['/']) (first_lit "/") hnamed

/-- The package of an extraction and the file in it. -/
theorem firstGroups_package (package file : FilePath) :
    FirstGroups [text (lit "/"), named Name.package filePath, text (lit "?file="),
      named .filename filePath]
      ('/' :: (package.chars ++ ("?file=".toList ++ file.chars)))
        [(.package, package.chars), (.filename, file.chars)] := by
  have hfile : First filePath (file.chars ++ []) none [] none :=
    first_filePath file.ne_nil file.no_query (by simp)
  have hnamed := firstGroups_named (n := Name.filename) hfile (firstGroups_nil [])
  rw [List.append_nil] at hnamed
  refine firstGroups_text (u := ['/']) (first_lit "/") ?_
  refine firstGroups_named (first_filePath package.ne_nil package.no_query ?_)
    (firstGroups_text (first_lit _) hnamed)
  intro c hc
  exact (Option.some.inj hc).symm

theorem matchUrlPath_of_match {url action : Text} {regex : List (RegexPart Name)}
    (hname : actionName url = action)
    (hregex : urlPathMatcher.lookup (String.ofList action) = some regex)
    (hmatch : matchGroups regex url = some gs) :
    matchUrlPath url =
      some ⟨getGroup gs .action, getGroup gs .bucket, getGroup gs .build, getGroup gs .milestone,
      getGroup gs .filename⟩ := by
  rw [matchUrlPath, hname, hregex]
  show (match matchGroups regex url with
    | none => none
    | some groups => some _) = _
  rw [hmatch]

/-- The URL of an action whose pattern is the common one and what follows it. -/
theorem matchUrlPath_full (q : Request) {action : Text} (hne : action ≠ [])
    (hslash : '/' ∉ action) (hquery : '?' ∉ action)
    (hregex : urlPathMatcher.lookup (String.ofList action) = some (commonFullRegex ++ ps))
    (hrest : ∀ c ∈ rest.head?, c = '/') (h : FirstGroups ps rest gs) :
    matchUrlPath ('/' :: (action ++ '/' :: q.path rest)) =
      some ⟨action, q.bucket.chars, q.build.chars, q.milestone.chars, getGroup gs .filename⟩ :=
  matchUrlPath_of_match (actionName_segment action hne hslash hquery _) hregex
    (matchGroups_full q action hne hslash hrest h)

/-- The URL of every request comes back as its action, bucket, build, milestone and file. -/
theorem matchUrlPath_url (q : Request) : matchUrlPath q.url = some q.info := by
  obtain ⟨action, bucket, build, milestone, version⟩ := q
  cases action with
  | download file =>
    exact matchUrlPath_full ⟨.download file, bucket, build, milestone, version⟩ (by decide)
      (by decide) (by decide) rfl
      (by simp) (firstGroups_filename file)
  | decompress file =>
    exact matchUrlPath_full ⟨.decompress file, bucket, build, milestone, version⟩ (by decide)
      (by decide) (by decide) rfl
      (by simp) (firstGroups_filename file)
  | extract package file =>
    exact matchUrlPath_full ⟨.extract package file, bucket, build, milestone, version⟩ (by decide)
      (by decide) (by decide)
      rfl (by simp) (firstGroups_package package file)
  | listDir =>
    exact matchUrlPath_full ⟨.listDir, bucket, build, milestone, version⟩ (by decide) (by decide)
      (by decide) rfl
      (by simp) (firstGroups_nil [])
  | setupTelemetry =>
    have hpath := firstGroups_path ⟨.setupTelemetry, bucket, build, milestone, version⟩ (by simp)
      (firstGroups_nil [])
    have hmatch := matchGroups_of_first
      (firstGroups_text (u := ['/']) (first_lit "/") (firstGroups_telemetry hpath))
    exact matchUrlPath_of_match (actionName_telemetry _) rfl hmatch

end GsCache.NginxLogMetrics
