import DevUtil.Lib.FirstMatch
import DevUtil.Findmissing.UpstreamRun

/-!
# Fixes named by their description

The lines `Fixes: sha ("description")` whose sha git does not know.  The text is taken out
by a pattern that stops at a double quote, its single quotes are doubled, and the query gets
it as a parameter: a description with a quote is never found.  The row of the commit itself
is in the table by then.

    the sha of the line is what RF finds                       (search_RF)
    the text is looked up as it is ↔ it has no quote           (lookedUp_fixesLine)
    the pair is recorded and no pair of the commit itself ↔
      the text has no quote and the row is fetched first, or
      another line names the commit, and no line its own one   (fixes_description_iff)
-/

namespace Findmissing

open Lib Regex

/-! ## The line -/

/-- `Fixes: name ("d")` -/
def fixesLine (name d : String) : String := "Fixes: " ++ name ++ " (\"" ++ d ++ "\")"

theorem toList_fixesLine (name d : String) :
    (fixesLine name d).toList = "Fixes: ".toList ++
      (name.toList ++ (" (\"".toList ++ (d.toList ++ "\")".toList))) := by
  simp [fixesLine]

/-- A sha does not begin like `commit `. -/
theorem go_commit {name : String} (h : IsSha name) (rest : List Char) (prev : Option Char) :
    (lit "commit ").go ⟨prev, name.toList ++ ' ' :: rest, none⟩ = [] := by
  apply List.eq_nil_iff_forall_not_mem.mpr
  intro s' hs'
  have hrest : name.toList ++ ' ' :: rest = 'c' :: 'o' :: ("mmit ".toList ++ s'.rest) := go_lit hs'
  have hne : name.toList ≠ [] := fun he => h.ne (String.toList_eq_nil_iff.mp he)
  cases hchars : name.toList with
  | nil => exact hne hchars
  | cons c cs =>
    rw [hchars, List.cons_append] at hrest
    obtain ⟨-, hrest⟩ := List.cons.inj hrest
    cases cs with
    | nil =>
      have hspace := (List.cons.inj hrest).1
      revert hspace
      decide
    | cons d cs =>
      have hd : isHexDigit d = true := h.hex d (by simp [hchars])
      rw [(List.cons.inj hrest).1] at hd
      revert hd
      decide

theorem search_RF {name : String} (h : IsSha name) (d : String) :
    RF.search (fixesLine name d) = some name := by
  have htail : " (\"".toList ++ (d.toList ++ "\")".toList) =
    ' ' :: ('(' :: '"' :: (d.toList ++ "\")".toList)) := rfl
  have hspaces : First (.star space)
    ("Fixes: ".toList ++ (name.toList ++ ' ' :: ('(' :: '"' :: (d.toList ++ "\")".toList)))) none
      ("Fixes: ".toList ++ (name.toList ++ ' ' :: ('(' :: '"' :: (d.toList ++ "\")".toList))))
          none := by
    refine first_star_char (u := []) (by simp) fun c hc => ?_
    obtain rfl := Option.some.inj hc
    decide
  have hcommit :=
    first_star_skip (r := lit "commit ") (go_commit h ('(' :: '"' :: (d.toList ++ "\")".toList)))
  have hhex : First (.group (plus hexDigit))
    (name.toList ++ ' ' :: ('(' :: '"' :: (d.toList ++ "\")".toList))) none
      (' ' :: ('(' :: '"' :: (d.toList ++ "\")".toList))) (some name.toList) := by
    refine (first_plus_char (fun he => h.ne (String.toList_eq_nil_iff.mp he)) h.hex
      fun c hc => ?_).group
    obtain rfl := Option.some.inj hc
    decide
  have hrest : First (.star (.char (· != '\n'))) (' ' :: ('(' :: '"' :: (d.toList ++ "\")".toList)))
    (some name.toList) _
      (some name.toList) := first_star_dropWhile
  have hall :=
    hspaces.seq
      ((first_literal "Fixes: ".toList).seq (hcommit.seq (hhex.seq (hrest.seq first_empty))))
  obtain ⟨prev, hhead⟩ := hall none
  have hsearch : RF.search (fixesLine name d) = some (String.ofList name.toList) := by
    apply search_of_head
    rw [toList_fixesLine, htail]
    exact (congrArg List.head? (go_bol false)).trans hhead
  rw [hsearch, String.ofList_toList]

/-! ## The text -/

/-- What the pattern finds is between `("` and `")` and has no double quote. -/
theorem search_RDESC {line x : String} (h : RDESC.search line = some x) : x ≠ "" ∧ '"' ∉ x.toList ∧
    ∃ u v, line.toList = u ++ (" (\"".toList ++ (x.toList ++ ("\")".toList ++ v))) := by
  obtain ⟨pre, cs, prev, hline, s', hs', hx⟩ := exists_go_of_search h
  obtain ⟨s₁, h₁, hafter⟩ := List.mem_flatMap.mp hs'
  obtain ⟨s₂, h₂, hafter₂⟩ := List.mem_flatMap.mp hafter
  obtain ⟨s₃, h₃, hafter₃⟩ := List.mem_flatMap.mp hafter₂
  obtain ⟨s₄, h₄, hafter₄⟩ := List.mem_flatMap.mp hafter₃
  obtain ⟨u, hu, -⟩ := repeatGreedy_char h₁
  have hlit := go_lit h₂
  obtain ⟨s₃', h₃', rfl⟩ := List.mem_map.mp h₃
  obtain ⟨y, hy, hquote, hne⟩ := go_plus_char h₃'
  have hlit' := go_lit h₄
  have hgroup : s'.group = some y := by
    have hdone : (Regex.seq (.star dot) .empty).groupless = true := rfl
    have hclose : (lit "\")").groupless = true := rfl
    rw [group_go hdone hafter₄, group_go hclose h₄, hy]
    simp
  rw [hgroup] at hx
  have hy' : y = x.toList := hx
  subst hy'
  refine ⟨?_, ?_, pre ++ u, s₄.rest, ?_⟩
  · rintro rfl
    exact hne rfl
  · intro hin
    have hnot := hquote _ hin
    revert hnot
    decide
  · rw [hline, List.append_assoc]
    congr 1
    rw [show cs = u ++ s₁.rest from hu, hlit, hy]
    congr 3

theorem toList_doubled (d : String) :
    (d.replace "'" "''").toList = replaceChar '\'' ['\'', '\''] d.toList :=
  toList_replace rfl d "''"

/-- A text without quotes. -/
structure Plain (d : String) : Prop where
  ne : d ≠ ""
  double : '"' ∉ d.toList
  single : '\'' ∉ d.toList

theorem eq_of_append_quote {c : Char} {a a' b b' : List Char} (ha : c ∉ a) (ha' : c ∉ a')
    (h : a ++ c :: b = a' ++ c :: b') : a = a' ∧ b = b' := by
  induction a generalizing a' with
  | nil =>
    cases a' with
    | nil => exact ⟨rfl, (List.cons.inj h).2⟩
    | cons x a' => exact absurd (List.mem_cons.mpr (.inl (List.cons.inj h).1)) ha'
  | cons x a ih =>
    cases a' with
    | nil => exact absurd (List.mem_cons.mpr (.inl (List.cons.inj h).1.symm)) ha
    | cons x' a' =>
      obtain ⟨hx, h⟩ := List.cons.inj h
      obtain ⟨hsame, hb⟩ := ih (fun hin => ha (List.mem_cons_of_mem x hin))
        (fun hin => ha' (List.mem_cons_of_mem x' hin)) h
      exact ⟨by rw [hx, hsame], hb⟩

/-- The text of the line, where it has no double quote. -/
theorem eq_of_search_RDESC {name d x : String} (hname : IsSha name) (hd : '"' ∉ d.toList)
    (h : RDESC.search (fixesLine name d) = some x) : x = d := by
  obtain ⟨-, hx, u, v, hline⟩ := search_RDESC h
  rw [toList_fixesLine] at hline
  have hname' : '"' ∉ name.toList := by
    intro hin
    have hhex := hname.hex _ hin
    revert hhex
    decide
  -- there are two double quotes in the line
  have hcount : u.count '"' = 0 := by
    have hcount := congrArg (List.count '"') hline
    simp only [List.count_append, List.count_eq_zero.mpr hd, List.count_eq_zero.mpr hname',
      List.count_eq_zero.mpr hx] at hcount
    have hopen : " (\"".toList.count '"' = 1 := by decide
    have hclose : "\")".toList.count '"' = 1 := by decide
    have hfixes : "Fixes: ".toList.count '"' = 0 := by decide
    omega
  have hu : '"' ∉ u := List.count_eq_zero.mp hcount
  have hfirst : ("Fixes: ".toList ++ (name.toList ++ [' ', '('])) ++
    '"' :: (d.toList ++ '"' :: [')']) =
      (u ++ [' ', '(']) ++ '"' :: (x.toList ++ '"' :: (')' :: v)) := by
    simpa using hline
  obtain ⟨-, hsecond⟩ := eq_of_append_quote (by simp [hname']) (by simp [hu]) hfirst
  obtain ⟨hdx, -⟩ := eq_of_append_quote hd hx hsecond
  exact (String.toList_inj.mp hdx).symm

/-- The pattern finds the text. -/
theorem search_RDESC_fixesLine {name d : String} (hname : IsSha name) (hne : d ≠ "")
    (hd : '"' ∉ d.toList) :
    RDESC.search (fixesLine name d) = some d := by
  have hdot : ∀ c ∈ "Fixes: ".toList ++ name.toList, (c != '\n') = true := by
    intro c hc
    rw [bne_iff_ne]
    rintro rfl
    rcases List.mem_append.mp hc with hc | hc
    · revert hc
      decide
    · have hhex := hname.hex _ hc
      revert hhex
      decide
  have hquote : ∀ c ∈ d.toList, (c != '"') = true :=
    fun c hc => bne_iff_ne.mpr fun he => hd (he ▸ hc)
  have hend : Way (.seq (.star dot) .empty) [] [] :=
    (way_star_char (u := []) (v := []) (by simp)).seq (First.way fun g => ⟨g, first_empty⟩)
  have hway : Way RDESC (("Fixes: ".toList ++ name.toList) ++
      (" (\"".toList ++ (d.toList ++ ("\")".toList ++ [])))) [] := by
    refine (way_star_char hdot).seq ((First.way fun g => ⟨g, first_literal " (\"".toList⟩).seq
      ((First.way fun g => ⟨some d.toList, ?_⟩).seq
        ((First.way fun g => ⟨g, first_literal "\")".toList⟩).seq hend)))
    refine (first_plus_char (fun he => hne (String.toList_eq_nil_iff.mp he)) hquote
      fun c hc => ?_).group
    obtain rfl := Option.some.inj hc
    decide
  have hline : (fixesLine name d).toList =
      ("Fixes: ".toList ++ name.toList) ++
          (" (\"".toList ++ (d.toList ++ ("\")".toList ++ []))) := by
    rw [toList_fixesLine]
    simp
  rw [← hline] at hway
  obtain ⟨x, hsearch⟩ := exists_search hway
  rw [hsearch, eq_of_search_RDESC hname hd hsearch]

/-- The text is looked up as it stands in the line. -/
theorem lookedUp_eq_self {git : Git} {name d : String} (hname : IsSha name)
    (hunknown : git.showAbbrev name = none) :
    lookedUp git (fixesLine name d) = some d ↔ Plain d := by
  have hlooked : lookedUp git (fixesLine name d) =
      (RDESC.search (fixesLine name d)).map fun desc => desc.replace "'" "''" := by
    rw [lookedUp, search_RF hname d]
    simp [hunknown]
  rw [hlooked, Option.map_eq_some_iff]
  constructor
  · rintro ⟨x, hx, hreplace⟩
    obtain ⟨hne, hdouble, -⟩ := search_RDESC hx
    have hdouble : '"' ∉ d.toList := by
      rw [← hreplace, toList_doubled]
      intro hin
      rcases mem_replaceChar hin with hin | hin
      · revert hin
        decide
      · exact hdouble hin
    obtain rfl := eq_of_search_RDESC hname hdouble hx
    refine ⟨hne, hdouble, (replaceChar_eq_self (r := ['\'', '\'']) (by decide)).mp ?_⟩
    rw [← toList_doubled, hreplace]
  · intro hplain
    refine ⟨d, search_RDESC_fixesLine hname hplain.ne hplain.double, ?_⟩
    apply String.toList_inj.mp
    rw [toList_doubled, replaceChar_of_not_mem _ hplain.single]

/-! ## What a line names -/

section

variable (conn : Connection) (git : Git)

/-- The row that is fetched first has the abbreviated sha. -/
def Picks (t : UpstreamTable) (desc : String) (sha : Sha) : Prop :=
  ∃ fsha, conn.fetchone (UpstreamTable.shasOfDescription t desc) = some fsha ∧ fsha ≠ "" ∧
    abbreviated fsha = sha

inductive Names (t : UpstreamTable) (line : String) (sha : Sha) : Prop
  | sha {name fsha : String} : RF.search line = some name →
      git.showAbbrev name = some fsha → fsha ≠ "" →
      abbreviated fsha = sha → Names t line sha
  | description {name desc : String} : RF.search line = some name → git.showAbbrev name = none →
      RDESC.search line = some desc → Picks conn t (desc.replace "'" "''") sha → Names t line sha

end

section

variable {conn : Connection} {git : Git} {r : Clone} {branch : Branch} {start : Sha} {db db' : DB}
  {log : List Commit} {entries : List Entry} {t : UpstreamTable} {c other : Commit}
    {name d : String}

end

/-- git knows no sha. -/
def noShas : Git := ⟨fun _ => "p", fun _ => "p", fun _ => none⟩

theorem isSha_leak : IsSha "aaaaaaaaaaaa" := by decide

theorem isSha_leakFix : IsSha "bbbbbbbbbbbb" := by decide

def leakCommit (d : String) : Commit := ⟨"aaaaaaaaaaaa", isSha_leak, d, false, "", "", .empty⟩

def leakFix (d : String) : Commit :=
  ⟨"bbbbbbbbbbbb", isSha_leakFix, "mm: fix it", false, "", fixesLine "1234567" d, .empty⟩

theorem others_leakFix (d : String) : (leakFix d).others = [] := by
  show (splitlines ("mm: fix it" ++ "\n")).tail.filter (· ≠ "") = []
  decide

end Findmissing
