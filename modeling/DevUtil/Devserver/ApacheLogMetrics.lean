import Mathlib.Data.Int.Bitwise
import Mathlib.Data.List.Forall2
import DevUtil.Lib.Fields
import DevUtil.Lib.NamedGroups
import DevUtil.Lib.Text

/-!
# `apache_log_metrics.py`

The loop over the lines of an apache log and the two metrics that it emits.

    every line is gone through, with one metric for each match   (runMatchers_iff)
    … exactly if no static path has a second part without `-`    (runMatchers_matchers_iff)
-/

namespace ApacheLogMetrics

open Lib Regex

/-! ## Patterns -/

inductive Name
  | ipAddr
  | endpoint
  | size
  | httpMethod
  | rpcName
deriving DecidableEq

/-- `\S` -/
def nonBlank : Regex := .char (!Fields.isSpace ·)

/-- `\d` -/
def digit : Regex := .char Char.isDigit

/-- `\d+\.\d+\.\d+\.\d+` -/
def ipAddr : Regex :=
  .seq (plus digit)
    (.seq (lit ".")
      (.seq (plus digit) (.seq (lit ".") (.seq (plus digit) (.seq (lit ".") (plus digit))))))

/-- `STATIC_GET_MATCHER` -/
def staticGetMatcher : List (RegexPart Name) :=
  [text (.bol false), named .ipAddr ipAddr, text (lit " "),
    text (.star dot), text (lit "GET /static/"), named .endpoint (.star nonBlank),
      text (.star (.char (· != '"'))), text (lit "\" "),
    text (lit "200 "), named .size (plus nonBlank), text (lit " "), text (.star dot)]

/-- `RPC_USAGE_MATCHER` -/
def rpcUsageMatcher : List (RegexPart Name) :=
  [text (.bol false), named .ipAddr ipAddr, text (lit " "),
    text (.star dot), text (lit "\""), named .httpMethod (plus nonBlank), text (lit " /"),
    named .rpcName (.seq (.alt (lit "api/") .empty) (plus (.char fun c => c != '/' && c != '?'))),
    text (.star (.char (· != '"'))), text (lit "\" "),
    text (lit "2"), text digit, text digit, text (lit " "), named .size (plus nonBlank),
      text (lit " "), text (.star dot)]

/-! ## Addresses -/

inductive Exn
  | valueError
deriving DecidableEq

/-- `int` of digits. -/
def digitsInt (ds : Text) : Except Exn Int :=
  if ds ≠ [] ∧ ds.all Char.isDigit then .ok (Nat.ofDigitChars 10 ds 0 : Nat) else .error .valueError

/-- `int(s)`, of a text without blanks. -/
def int : Text → Except Exn Int
  | '-' :: ds => (digitsInt ds).map (- ·)
  | '+' :: ds => digitsInt ds
  | ds => digitsInt ds

/-- `IPToNum` -/
def ipToNum (ip : Text) : Except Exn Int :=
  (ip.splitOn '.').foldlM (fun seed x => (int x).map fun n => seed * 2 ^ 8 + n) 0

/-- `MatchesSubnet` -/
def matchesSubnet (ip base : Text) (mask : Nat) : Except Exn Bool := do
  let ipValue ← ipToNum ip
  let baseValue ← ipToNum base
  let mask : Int := (2 ^ mask - 1) * 2 ^ (32 - mask)
  return decide (ipValue.land mask = baseValue.land mask)

def labSubnets : List (String × Nat) :=
  [("172.17.40.0", 22), ("100.107.160.0", 19), ("100.115.128.0", 17), ("100.115.254.126", 25),
    ("100.107.141.128", 25),
    ("172.27.212.0", 22), ("100.107.156.192", 26), ("172.22.29.0", 25), ("172.22.38.0", 23),
      ("100.107.224.0", 23),
    ("100.107.226.0", 25), ("100.107.126.0", 25)]

/-- `InLab` -/
def inLab (ip : Text) : Except Exn Bool :=
  labSubnets.anyM fun subnet => matchesSubnet ip subnet.1.toList subnet.2

/-! ## Static paths -/

def milestonePattern : Regex := .seq (lit "R") (plus digit)

/-- The pattern that a file name is, with a dot for any character. -/
def constantPattern (name : String) : Regex :=
  name.toList.foldr (fun c r => .seq (if c = '.' then dot else .char (· == c)) r) .empty

def filenameConstants : List String :=
  ["stateful.tgz", "client-autotest.tar.bz2", "chromiumos_test_image.bin",
    "autotest_server_package.tar.bz2"]

def filenamePatterns : List (Regex × String) :=
  filenameConstants.map (fun s => (constantPattern s, s)) ++
    [(all [lit "dep-", .star dot, lit ".bz2"], "dep-*.bz2"),
      (all [lit "chromeos_", .star dot, lit "_delta_test.bin-", .star dot],
        "chromeos_*_delta_test.bin-*"),
      (all [lit "chromeos_", .star dot, lit "_full_test.bin-", .star dot],
        "chromeos_*_full_test.bin-*"),
      (all [lit "test-", .star dot, lit ".bz2"], "test-*.bz2"),
      (all [lit "dep-", .star dot, lit ".bz2"], "dep-*.bz2")]

/-- `MatchAny` with the default `''`. -/
def matchAny (needle : Text) (patterns : List (Regex × String)) : String :=
  match patterns.find? fun pattern => pattern.1.isMatch (String.ofList needle) with
  | some pattern => pattern.2
  | none => ""

structure StaticEndpoint where
  buildConfig : Text
  milestone : Text
  filename : String
deriving DecidableEq

/-- `version[:version.index('-')]`, if it is a milestone. -/
def milestoneOf (version : Text) : Except Exn Text :=
  if '-' ∈ version then
    let milestone := version.takeWhile (· != '-')
    .ok (if milestonePattern.isMatch (String.ofList milestone) then milestone else [])
  else
    .error .valueError

/-- The milestone of the second part, if there is one. -/
def milestonePart : Option Text → Except Exn Text
  | some version => milestoneOf version
  | none => .ok []

/-- `ParseStaticEndpoint`.  There is always a first part, so that the `IndexError` it catches is
never raised. -/
def parseStaticEndpoint (endpoint : Text) : Except Exn StaticEndpoint := do
  let parts := endpoint.splitOn '/'
  let milestone ← milestonePart parts[1]?
  let filename := if 3 ≤ parts.length then matchAny (parts.getLastD []) filenamePatterns else ""
  return ⟨parts.headD [], milestone, filename⟩

/-! ## Metrics -/

/-- What is emitted: `static_response_size` or `rpc_usage`, by how much, and the fields. -/
inductive Metric
  | staticResponseSize (size : Int) (buildConfig milestone : Text) (inLab : Bool)
      (endpoint : String)
  | rpcUsage (size : Int) (httpMethod rpcName : Text) (inLab : Bool)
deriving DecidableEq

/-- `m.group(name)` -/
def group (m : Groups Name) (name : Name) : Text := (m.lookup name).getD []

/-- `int(m.group('size'))`, and zero for what is not a number. -/
def sizeOf (m : Groups Name) : Int :=
  match int (group m .size) with
  | .ok size => size
  | .error .valueError => 0

/-- `EmitStaticRequestMetric` -/
def emitStaticRequestMetric (m : Groups Name) : Except Exn Metric := do
  let endpoint ← parseStaticEndpoint (group m .endpoint)
  let inLab ← inLab (group m .ipAddr)
  return .staticResponseSize (sizeOf m) endpoint.buildConfig endpoint.milestone inLab
    endpoint.filename

/-- `EmitRpcUsageMetric` -/
def emitRpcUsageMetric (m : Groups Name) : Except Exn Metric := do
  let inLab ← inLab (group m .ipAddr)
  return .rpcUsage (sizeOf m) (group m .httpMethod) (group m .rpcName) inLab

/-! ## The loop -/

/-- A pattern, and what is done with its matches. -/
structure Matcher where
  pattern : List (RegexPart Name)
  emitter : Groups Name → Except Exn Metric

/-- `MATCHERS` -/
def matchers : List Matcher :=
  [⟨staticGetMatcher, emitStaticRequestMetric⟩, ⟨rpcUsageMatcher, emitRpcUsageMetric⟩]

/-- The matchers on one line: what is emitted, and the exception that ends it. -/
def runLine (line : Text) : List Matcher → List Metric × Option Exn
  | [] => ([], none)
  | matcher :: matchers =>
    match matchGroups matcher.pattern line with
    | none => runLine line matchers
    | some m =>
      match matcher.emitter m with
      | .error e => ([], some e)
      | .ok metric =>
        let (metrics, exn) := runLine line matchers
        (metric :: metrics, exn)

/-- `RunMatchers(stream, matchers)`, on the lines of the stream. -/
def runMatchers (matchers : List Matcher) : List Text → List Metric × Option Exn
  | [] => ([], none)
  | line :: lines =>
    match runLine line matchers with
    | (metrics, some e) => (metrics, some e)
    | (metrics, none) =>
      let (metrics', exn) := runMatchers matchers lines
      (metrics ++ metrics', exn)

/-! ## What a run emits -/

/-- The matches of a line, each with the matcher that finds it. -/
def matchesOf (matchers : List Matcher) (line : Text) : List (Matcher × Groups Name) :=
  matchers.filterMap fun matcher => (matchGroups matcher.pattern line).map fun m => (matcher, m)

/-- The match makes its emitter emit this metric. -/
def Emits (found : Matcher × Groups Name) (metric : Metric) : Prop :=
  found.1.emitter found.2 = .ok metric

/-- One metric for each match, in order, and no exception. -/
structure Complete (found : List (Matcher × Groups Name)) (run : List Metric × Option Exn) :
    Prop where
  emitted : List.Forall₂ Emits found run.1
  none_raised : run.2 = none

variable {matcher : Matcher} {ms : List Matcher} {line : Text} {m : Groups Name}

theorem matchesOf_cons_some (h : matchGroups matcher.pattern line = some m) :
    matchesOf (matcher :: ms) line = (matcher, m) :: matchesOf ms line :=
  List.filterMap_cons_some (by rw [h]; rfl)

theorem matchesOf_cons_none (h : matchGroups matcher.pattern line = none) :
    matchesOf (matcher :: ms) line = matchesOf ms line :=
  List.filterMap_cons_none (by rw [h]; rfl)

theorem runLine_cons_none (h : matchGroups matcher.pattern line = none) :
    runLine line (matcher :: ms) = runLine line ms := by
  rw [runLine, h]

theorem runLine_cons_error {e : Exn} (h : matchGroups matcher.pattern line = some m)
    (he : matcher.emitter m = .error e) :
    runLine line (matcher :: ms) = ([], some e) := by
  rw [runLine, h]
  simp only [he]

theorem runLine_cons_ok {metric : Metric} (h : matchGroups matcher.pattern line = some m)
    (he : matcher.emitter m = .ok metric) :
    runLine line (matcher :: ms) = (metric :: (runLine line ms).1, (runLine line ms).2) := by
  rw [runLine, h]
  simp only [he]

/-- All matchers are gone through, or there is a match whose emitter raises. -/
theorem runLine_complete (line : Text) (ms : List Matcher) :
    Complete (matchesOf ms line) (runLine line ms) ∨
      (runLine line ms).2 ≠ none ∧ ∃ found ∈ matchesOf ms line, ∀ metric, ¬Emits found metric := by
  induction ms with
  | nil => exact .inl ⟨.nil, rfl⟩
  | cons matcher ms ih =>
    cases hmatch : matchGroups matcher.pattern line with
    | none =>
      rw [matchesOf_cons_none hmatch, runLine_cons_none hmatch]
      exact ih
    | some m =>
      rw [matchesOf_cons_some hmatch]
      cases hemit : matcher.emitter m with
      | error e =>
        rw [runLine_cons_error hmatch hemit]
        refine .inr ⟨Option.some_ne_none e, (matcher, m), List.mem_cons_self, fun metric h => ?_⟩
        rw [Emits, hemit] at h
        cases h
      | ok metric =>
        rw [runLine_cons_ok hmatch hemit]
        rcases ih with h | ⟨hraised, found, hfound, hnone⟩
        · exact .inl ⟨.cons hemit h.emitted, h.none_raised⟩
        · exact .inr ⟨hraised, found, List.mem_cons_of_mem _ hfound, hnone⟩

/-- A run gets to its end, or there is a match whose emitter raises. -/
theorem runMatchers_complete (ms : List Matcher) (lines : List Text) :
    Complete (lines.flatMap (matchesOf ms)) (runMatchers ms lines) ∨
      (runMatchers ms lines).2 ≠ none ∧
        ∃ line ∈ lines, ∃ found ∈ matchesOf ms line, ∀ metric, ¬Emits found metric := by
  induction lines with
  | nil => exact .inl ⟨.nil, rfl⟩
  | cons line lines ih =>
    rw [runMatchers, List.flatMap_cons]
    have hline := runLine_complete line ms
    generalize runLine line ms = run at hline ⊢
    obtain ⟨metrics, exn⟩ := run
    cases exn with
    | some e =>
      refine .inr ⟨Option.some_ne_none e, ?_⟩
      rcases hline with h | ⟨-, hfound⟩
      · cases h.none_raised
      · exact ⟨line, List.mem_cons_self, hfound⟩
    | none =>
      have hemitted := (hline.resolve_right fun h => h.1 rfl).emitted
      rcases ih with h | ⟨hraised, line', hline', hfound⟩
      · exact .inl ⟨List.rel_append hemitted h.emitted, h.none_raised⟩
      · exact .inr ⟨hraised, line', List.mem_cons_of_mem _ hline', hfound⟩

theorem exists_emits {found : List (Matcher × Groups Name)} {metrics : List Metric}
    (h : List.Forall₂ Emits found metrics) :
    ∀ f ∈ found, ∃ metric, Emits f metric := by
  induction h with
  | nil => exact List.forall_mem_nil _
  | cons hfirst _ ih => exact List.forall_mem_cons.mpr ⟨⟨_, hfirst⟩, ih⟩

theorem runMatchers_iff (ms : List Matcher) (lines : List Text) :
    Complete (lines.flatMap (matchesOf ms)) (runMatchers ms lines) ↔
      ∀ line ∈ lines, ∀ found ∈ matchesOf ms line, ∃ metric, Emits found metric := by
  constructor
  · intro h line hline found hfound
    exact exists_emits h.emitted found (List.mem_flatMap.mpr ⟨line, hline, hfound⟩)
  · intro h
    refine (runMatchers_complete ms lines).resolve_right ?_
    rintro ⟨-, line, hline, found, hfound, hnone⟩
    obtain ⟨metric, hmetric⟩ := h line hline found hfound
    exact hnone metric hmetric

/-! ## Addresses that a pattern has matched -/

/-- Four numbers with dots between them. -/
def IsAddress (ip : Text) : Prop :=
  ∃ a b c d : Text, ip = a ++ '.' :: (b ++ '.' :: (c ++ '.' :: d)) ∧
    ∀ x ∈ [a, b, c, d], x ≠ [] ∧ ∀ ch ∈ x, ch.isDigit = true

theorem reads_digits : Reads (fun u => u ≠ [] ∧ ∀ c ∈ u, c.isDigit = true) (plus digit) :=
  reads_plus_char

theorem reads_dot : Reads (· = ['.']) (lit ".") := reads_lit

theorem reads_ipAddr : Reads IsAddress ipAddr := by
  refine (reads_digits.seq
    (reads_dot.seq
      (reads_digits.seq (reads_dot.seq (reads_digits.seq (reads_dot.seq reads_digits)))))).mono ?_
  rintro _ ⟨a, _, rfl, ha, _, _, rfl, rfl, b, _, rfl, hb, _, _, rfl, rfl, c, _, rfl, hc, _, d,
    rfl, rfl, hd⟩
  refine ⟨a, b, c, d, by simp, ?_⟩
  exact List.forall_mem_cons.mpr ⟨ha, List.forall_mem_cons.mpr ⟨hb, List.forall_mem_cons.mpr ⟨hc,
    List.forall_mem_singleton.mpr hd⟩⟩⟩

/-- `int` reads digits. -/
theorem int_digits {ds : Text} (hne : ds ≠ []) (hd : ∀ c ∈ ds, c.isDigit = true) :
    ∃ n, int ds = .ok n := by
  have hdigits : digitsInt ds = .ok (Nat.ofDigitChars 10 ds 0 : Nat) :=
    if_pos ⟨hne, List.all_eq_true.mpr hd⟩
  cases ds with
  | nil => exact absurd rfl hne
  | cons c ds =>
    have hc := hd c List.mem_cons_self
    unfold int
    split
    · next heq =>
      obtain ⟨rfl, -⟩ := List.cons.inj heq
      cases hc
    · next heq =>
      obtain ⟨rfl, -⟩ := List.cons.inj heq
      cases hc
    · exact ⟨_, hdigits⟩

theorem foldlM_int_ok {parts : List Text} (h : ∀ x ∈ parts, ∃ n, int x = .ok n) (seed : Int) :
    ∃ n, parts.foldlM (fun seed x => (int x).map fun n => seed * 2 ^ 8 + n) seed = .ok n := by
  induction parts generalizing seed with
  | nil => exact ⟨seed, rfl⟩
  | cons x parts ih =>
    obtain ⟨n, hn⟩ := h x List.mem_cons_self
    obtain ⟨n', hn'⟩ := ih (fun y hy => h y (List.mem_cons_of_mem x hy)) (seed * 2 ^ 8 + n)
    refine ⟨n', ?_⟩
    rw [List.foldlM_cons, hn]
    exact hn'

theorem ipToNum_address {ip : Text} (h : IsAddress ip) : ∃ n, ipToNum ip = .ok n := by
  obtain ⟨a, b, c, d, rfl, hdigits⟩ := h
  have hdot : ∀ x ∈ [a, b, c, d], '.' ∉ x := by
    intro x hx hin
    cases (hdigits x hx).2 '.' hin
  simp only [List.forall_mem_cons] at hdot
  unfold ipToNum
  rw [List.splitOn_append_cons_self_of_not_mem hdot.1,
    List.splitOn_append_cons_self_of_not_mem hdot.2.1,
    List.splitOn_append_cons_self_of_not_mem hdot.2.2.1, List.splitOn_eq_singleton hdot.2.2.2.1]
  exact foldlM_int_ok (fun x hx => int_digits (hdigits x hx).1 (hdigits x hx).2) 0

theorem exists_of_isOk {α : Type} {x : Except Exn α} (h : x.isOk = true) : ∃ a, x = .ok a := by
  cases x with
  | ok a => exact ⟨a, rfl⟩
  | error e => cases h

theorem labSubnets_ok : ∀ subnet ∈ labSubnets, (ipToNum subnet.1.toList).isOk = true :=
  List.all_eq_true.mp (by decide)

theorem matchesSubnet_ok {ip base : Text} (hip : ∃ n, ipToNum ip = .ok n)
    (hbase : ∃ n, ipToNum base = .ok n) (mask : Nat) :
    ∃ b, matchesSubnet ip base mask = .ok b := by
  obtain ⟨n, hn⟩ := hip
  obtain ⟨k, hk⟩ := hbase
  unfold matchesSubnet
  rw [hn, hk]
  exact ⟨_, rfl⟩

theorem anyM_ok {α : Type} {f : α → Except Exn Bool} {xs : List α}
    (h : ∀ x ∈ xs, ∃ b, f x = .ok b) :
    ∃ b, xs.anyM f = .ok b := by
  induction xs with
  | nil => exact ⟨false, rfl⟩
  | cons x xs ih =>
    obtain ⟨b, hb⟩ := h x List.mem_cons_self
    obtain ⟨b', hb'⟩ := ih fun y hy => h y (List.mem_cons_of_mem x hy)
    rw [List.anyM_cons, hb]
    cases b with
    | true => exact ⟨true, rfl⟩
    | false => exact ⟨b', hb'⟩

theorem inLab_address {ip : Text} (h : IsAddress ip) : ∃ b, inLab ip = .ok b :=
  anyM_ok fun subnet hsubnet => matchesSubnet_ok (ipToNum_address h)
    (exists_of_isOk (labSubnets_ok subnet hsubnet)) _

/-- The address of a match. -/
theorem isAddress_of_match {ps : List (RegexPart Name)}
    (h : matchGroups (text (.bol false) :: named .ipAddr ipAddr :: ps) line = some m) :
    IsAddress (group m .ipAddr) := by
  have hmem := List.mem_of_head? h
  obtain ⟨s', -, hbol⟩ := List.mem_flatMap.mp hmem
  obtain ⟨gs, hgs, rfl⟩ := List.mem_map.mp hbol
  obtain ⟨u, gs', rfl, hu⟩ := mem_goParts_named reads_ipAddr hgs
  exact hu

/-! ## The emitters -/

/-- The second part of the static path has no `-`. -/
def NoVersion (m : Groups Name) : Prop :=
  ∃ version ∈ ((group m .endpoint).splitOn '/')[1]?, '-' ∉ version

theorem exists_bind_ok {α β : Type} {x : Except Exn α} {f : α → Except Exn β}
    (hf : ∀ a, ∃ b, f a = .ok b) :
    (∃ b, (x >>= f) = .ok b) ↔ ∃ a, x = .ok a := by
  cases x with
  | error e => exact iff_of_false (fun ⟨_, h⟩ => (by cases h)) (fun ⟨_, h⟩ => (by cases h))
  | ok a => exact iff_of_true (hf a) ⟨a, rfl⟩

theorem milestonePart_ok_iff (part : Option Text) :
    (∃ milestone, milestonePart part = .ok milestone) ↔ ¬∃ version ∈ part, '-' ∉ version := by
  cases part with
  | none => simp [milestonePart]
  | some version => by_cases hdash : '-' ∈ version <;> simp [milestonePart, milestoneOf, hdash]

theorem parseStaticEndpoint_ok_iff : (∃ e, parseStaticEndpoint (group m .endpoint) = .ok e) ↔
    ¬NoVersion m := by
  unfold NoVersion
  rw [← milestonePart_ok_iff]
  exact exists_bind_ok fun milestone => ⟨_, rfl⟩

/-- The static emitter emits a metric unless the version has no `-`. -/
theorem emitStatic_ok_iff (h : matchGroups staticGetMatcher line = some m) :
    (∃ metric, emitStaticRequestMetric m = .ok metric) ↔ ¬NoVersion m := by
  obtain ⟨b, hb⟩ := inLab_address (isAddress_of_match h)
  rw [← parseStaticEndpoint_ok_iff]
  refine exists_bind_ok fun endpoint => ?_
  rw [hb]
  exact ⟨_, rfl⟩

/-- The other emitter always emits one. -/
theorem emitRpcUsage_ok (h : matchGroups rpcUsageMatcher line = some m) :
    ∃ metric, emitRpcUsageMetric m = .ok metric := by
  obtain ⟨b, hb⟩ := inLab_address (isAddress_of_match h)
  unfold emitRpcUsageMetric
  rw [hb]
  exact ⟨_, rfl⟩

/-! ## The loop on a log -/

/-- A static request whose path has a second part without a `-`. -/
def Malformed (line : Text) : Prop := ∃ m, matchGroups staticGetMatcher line = some m ∧ NoVersion m

theorem mem_matchesOf {found : Matcher × Groups Name} :
    found ∈ matchesOf ms line ↔ found.1 ∈ ms ∧ matchGroups found.1.pattern line = some found.2 := by
  obtain ⟨matcher, m⟩ := found
  simp only [matchesOf, List.mem_filterMap, Option.map_eq_some_iff, Prod.mk.injEq]
  constructor
  · rintro ⟨matcher', hin, m', hm', rfl, rfl⟩
    exact ⟨hin, hm'⟩
  · rintro ⟨hin, hm⟩
    exact ⟨matcher, hin, m, hm, rfl, rfl⟩

/-- The emitters of a line all emit. -/
theorem emits_line_iff : (∀ found ∈ matchesOf matchers line, ∃ metric, Emits found metric) ↔
    ¬Malformed line := by
  constructor
  · rintro h ⟨m, hm, hversion⟩
    have hfound := h (⟨staticGetMatcher, emitStaticRequestMetric⟩, m)
      (mem_matchesOf.mpr ⟨List.mem_cons_self, hm⟩)
    exact (emitStatic_ok_iff hm).mp hfound hversion
  · rintro h ⟨matcher, m⟩ hfound
    obtain ⟨hin, hm⟩ := mem_matchesOf.mp hfound
    rcases List.mem_cons.mp hin with rfl | hin
    · exact (emitStatic_ok_iff hm).mpr fun hversion => h ⟨m, hm, hversion⟩
    · obtain rfl := List.mem_singleton.mp hin
      exact emitRpcUsage_ok hm

/-- Every line of the log is processed and every match emits one metric, exactly if no static path
has a second part without a `-`. -/
theorem runMatchers_matchers_iff (lines : List Text) :
    Complete (lines.flatMap (matchesOf matchers)) (runMatchers matchers lines) ↔
      ∀ line ∈ lines, ¬Malformed line := by
  rw [runMatchers_iff]
  exact forall₂_congr fun line _ => emits_line_iff

/-- A request for a directory, as apache logs it. -/
def directoryLine : Text :=
  "172.24.26.30 - - [30/Jun/2016:15:34:40 -0700] \"GET /static/logs/x HTTP/1.1\" 200 5 \"-\" \"-\"\n".toList

/-- A line that matches, after it. -/
def updateLine : Text :=
  "100.115.196.119 - - [08/Sep/2019:07:14:38 -0700] \"POST /update/a-release/R77-1.0.0 HTTP/1.1\" 200 416 \"-\" \"-\"\n".toList

/-- `version.index('-')` raises a `ValueError`, and the line after it is not processed. -/
theorem directory_stops : runMatchers matchers [directoryLine, updateLine] =
    ([], some .valueError) ∧
    (matchesOf matchers updateLine).length = 1 ∧
    ¬Complete ([directoryLine, updateLine].flatMap (matchesOf matchers))
      (runMatchers matchers [directoryLine, updateLine]) := by
  have hrun : runMatchers matchers [directoryLine, updateLine] = ([], some .valueError) := by
    decide +kernel
  refine ⟨hrun, by decide +kernel, fun h => ?_⟩
  have hnone := h.none_raised
  rw [hrun] at hnone
  cases hnone

end ApacheLogMetrics
