import Mathlib.Data.List.Infix
import DevUtil.Syzbot.AutoTriager
import Mathlib.Data.List.Dedup

/-!
# Correlating two tables

`AutoTriager._triage`: for each bug of the issue tracker with the title, the rows of syzweb with
that title. The rows of syzweb are read from one iterator, which is at its end after the first bug.

    after the first bug nothing is looked at                  (itLoop_nil)
    what the loop over syzweb leaves                          (looked_syzLoop)
    every matching pair is covered, whatever the user says ↔
      no later bug has a matching pair left over              (covers_iff)
-/

namespace SyzbotAutotriager

open Lib Lib.Fields

/-! ## The tables -/

structure ItBug where
  bugid : Text
  title : Text
  stacktrace : Text

structure SyzBug where
  url : Text
  title : Text
  commitmsg : Text
  stacktrace : Text

structure Tables where
  itDb : List ItBug
  syzDb : List SyzBug
  /-- the `commitid` of `self.linux_db.find_one(title=..)` -/
  linuxDb : Text → Option Text

/-- `pickle.loads(base64.b64decode(..))`, and nothing where it raises. -/
abbrev Loads := Text → Option (List (List Text))

/-! ## Stack traces -/

/-- The functions that are left, each once. -/
def AutoTriager.clearBlacklistedfns (a : AutoTriager) (st : List Text) : List Text :=
  (st.filter fun i => !a.blacklistfns.contains i).dedup

def AutoTriager.matchstacktrace (a : AutoTriager) (loads : Loads) (itbugSts syzSt : Text) :
    Option Bool :=
  if !a.useMst then some true
  else
    (loads itbugSts).map fun sts => sts.any fun itbugSt =>
      let itbugSt := a.clearBlacklistedfns itbugSt
      let count := (itbugSt.filter fun fn => decide (fn <:+: syzSt)).length
      !Nat.blt itbugSt.length 3 && count == itbugSt.length

/-! ## `_triage` -/

/-- What the user sees. -/
inductive Event where
  | hitSummary (bugid url commitmsg : Text)
  | report (cid commitmsg url : Text)

structure Session where
  triager : AutoTriager
  events : List Event

section

variable (loads : Loads) (linuxDb : Text → Option Text) (user : List Event → Bool)

/-- The body of the loops; the user answers to what was seen so far. -/
def triagePair (itbug : ItBug) (syzbug : SyzBug) (s : Session) : Option Session :=
  match s.triager.matchstacktrace loads itbug.stacktrace syzbug.stacktrace with
  | none => none
  | some false => some s
  | some true =>
    if s.triager.isTriaged itbug.bugid then some s
    else if s.triager.isMismatch itbug.bugid syzbug.url then some s
    else
      let events := s.events ++ [.hitSummary itbug.bugid syzbug.url syzbug.commitmsg]
      if user events then
        let cid := (linuxDb syzbug.commitmsg).getD []
        some { triager := s.triager.addToTriaged itbug.bugid
               events := events ++ [.report cid syzbug.commitmsg syzbug.url] }
      else some { triager := s.triager.addMismatch itbug.bugid syzbug.url, events := events }

/-- The rows that the iterator has left, up to an exception. -/
def syzLoop (itbug : ItBug) : List SyzBug → Session → Session × Bool
  | [], s => (s, true)
  | syzbug :: syzBugs, s =>
    match triagePair loads linuxDb user itbug syzbug s with
    | none => (s, false)
    | some s' => syzLoop itbug syzBugs s'

/-- The inner loop ends with the iterator. -/
def itLoop : List ItBug → List SyzBug → Session → Session × Bool
  | [], _, s => (s, true)
  | itbug :: itBugs, syzBugs, s =>
    let (s', finished) := syzLoop loads linuxDb user itbug syzBugs s
    if finished then itLoop itBugs [] s' else (s', false)

end

def Tables.itBugs (tables : Tables) (title : Text) : List ItBug :=
  tables.itDb.filter fun i => i.title = title

def Tables.syzBugs (tables : Tables) (title : Text) : List SyzBug :=
  tables.syzDb.filter fun s => s.title = title

def AutoTriager.triageTitle (a : AutoTriager) (loads : Loads) (tables : Tables)
    (user : List Event → Bool) (title : Text) : Session × Bool :=
  itLoop loads tables.linuxDb user (tables.itBugs title) (tables.syzBugs title) { triager := a,
                                                                                  events := [] }

/-! ## Pairs -/

def AutoTriager.Matches (a : AutoTriager) (loads : Loads) (itbug : ItBug) (syzbug : SyzBug) :
    Prop :=
  a.matchstacktrace loads itbug.stacktrace syzbug.stacktrace = some true

def Session.Presented (s : Session) (bugid url : Text) : Prop :=
  ∃ commitmsg, .hitSummary bugid url commitmsg ∈ s.events

/-- Each matching pair was presented, or needed not to be: by the end its bug was triaged, or at the
start the pair was a known mismatch. -/
def Covers (a : AutoTriager) (loads : Loads) (tables : Tables) (user : List Event → Bool)
    (title : Text) : Prop :=
  ∀ itbug ∈ tables.itBugs title, ∀ syzbug ∈ tables.syzBugs title, a.Matches loads itbug syzbug →
    (a.triageTitle loads tables user title).1.Presented itbug.bugid syzbug.url ∨
      (a.triageTitle loads tables user title).1.triager.isTriaged itbug.bugid = true ∨
      a.isMismatch itbug.bugid syzbug.url = true

/-- Nothing is left over for the bugs after the first one. -/
def LaterSettled (a : AutoTriager) (loads : Loads) (syzBugs : List SyzBug) : List ItBug → Prop
  | [] => True
  | first :: later => ∀ itbug ∈ later, ∀ syzbug ∈ syzBugs, a.Matches loads itbug syzbug →
      a.isTriaged itbug.bugid = true ∨ a.isMismatch itbug.bugid syzbug.url = true ∨
        itbug.bugid = first.bugid ∧ ∃ syzbug' ∈ syzBugs, syzbug'.url = syzbug.url ∧
          a.Matches loads first syzbug'

/-! ## One bug -/

section

variable {loads : Loads} {linuxDb : Text → Option Text} {user : List Event → Bool} {itbug : ItBug}
  {syzbug : SyzBug} {syzBugs : List SyzBug} {s s' s'' : Session}

/-- What does not change, and what is only added to. -/
structure Follows (s s' : Session) : Prop where
  useMst : s'.triager.useMst = s.triager.useMst
  blacklistfns : s'.triager.blacklistfns = s.triager.blacklistfns
  events : ∀ event ∈ s.events, event ∈ s'.events
  triaged : ∀ bugid, s.triager.isTriaged bugid = true → s'.triager.isTriaged bugid = true
  mismatch : ∀ bugid url, s'.triager.isMismatch bugid url = true →
    s.triager.isMismatch bugid url = true ∨ s'.Presented bugid url

theorem Follows.refl (s : Session) : Follows s s :=
  ⟨rfl, rfl, fun _ h => h, fun _ h => h, fun _ _ h => .inl h⟩

theorem Session.Presented.mono {bugid url : Text} (h : s.Presented bugid url)
    (hevents : ∀ event ∈ s.events, event ∈ s'.events) : s'.Presented bugid url := by
  obtain ⟨commitmsg, h⟩ := h
  exact ⟨commitmsg, hevents _ h⟩

theorem Follows.trans (h : Follows s s') (h' : Follows s' s'') : Follows s s'' where
  useMst := h'.useMst.trans h.useMst
  blacklistfns := h'.blacklistfns.trans h.blacklistfns
  events event hevent := h'.events event (h.events event hevent)
  triaged bugid hbugid := h'.triaged bugid (h.triaged bugid hbugid)
  mismatch bugid url hmismatch := by
    rcases h'.mismatch bugid url hmismatch with hmismatch | hpresented
    · rcases h.mismatch bugid url hmismatch with hmismatch | hpresented
      · exact .inl hmismatch
      · exact .inr (hpresented.mono h'.events)
    · exact .inr hpresented

theorem Follows.matchstacktrace (h : Follows s s') (sts st : Text) :
    s'.triager.matchstacktrace loads sts st = s.triager.matchstacktrace loads sts st := by
  unfold AutoTriager.matchstacktrace AutoTriager.clearBlacklistedfns
  rw [h.useMst, h.blacklistfns]

/-- The stack traces of a bug are unpickled or not, whatever they are compared with. -/
theorem matchstacktrace_none {a : AutoTriager} {sts st : Text}
    (h : a.matchstacktrace loads sts st = none) (st' : Text) :
    a.matchstacktrace loads sts st' = none := by
  unfold AutoTriager.matchstacktrace at h ⊢
  split at h
  · cases h
  · next hmst =>
    rw [if_neg hmst, Option.map_eq_none_iff.mp h]
    rfl

/-- What a pair of the loop leads to. -/
structure Seen (itbug : ItBug) (syzbug : SyzBug) (loads : Loads) (s s' : Session) : Prop where
  follows : Follows s s'
  covers : s.triager.Matches loads itbug syzbug →
    s'.Presented itbug.bugid syzbug.url ∨ s'.triager.isTriaged itbug.bugid = true ∨
      s.triager.isMismatch itbug.bugid syzbug.url = true
  only : ∀ bugid url, s'.Presented bugid url →
    s.Presented bugid url ∨ bugid = itbug.bugid ∧ url = syzbug.url ∧
      s.triager.Matches loads itbug syzbug

theorem isTriaged_addToTriaged {a : AutoTriager} {bugid' : Text} (h : a.isTriaged bugid' = true)
    (bugid : Text) :
    (a.addToTriaged bugid).isTriaged bugid' = true := by
  rw [AutoTriager.isTriaged, List.contains_iff_mem] at h ⊢
  exact List.mem_append_left _ h

theorem isMismatch_addMismatch {a : AutoTriager} {bugid url bugid' url' : Text}
    (h : (a.addMismatch bugid url).isMismatch bugid' url' = true) :
    a.isMismatch bugid' url' = true ∨ bugid' = bugid ∧ url' = url := by
  unfold AutoTriager.isMismatch at h
  by_cases hbugid : bugid' = bugid
  · subst hbugid
    rw [AutoTriager.addMismatch, Dict.get?_set] at h
    exact .inr ⟨rfl, (beq_iff_eq.mp h).symm⟩
  · rw [AutoTriager.addMismatch, Dict.get?_set_of_ne _ hbugid] at h
    exact .inl h

/-- A pair that is passed over. -/
theorem Seen.of_same (h : s.triager.Matches loads itbug syzbug →
    s.triager.isTriaged itbug.bugid = true ∨ s.triager.isMismatch itbug.bugid syzbug.url = true) :
    Seen itbug syzbug loads s s where
  follows := Follows.refl s
  covers hmatches := .inr (h hmatches)
  only _ _ hpresented := .inl hpresented

/-- A pair that is presented; `more` is what is printed after it. -/
theorem Seen.of_presented (hmatches : s.triager.Matches loads itbug syzbug) {more : List Event}
    (hmore : ∀ bugid url commitmsg, .hitSummary bugid url commitmsg ∉ more)
    (hevents : s'.events = s.events ++
      [.hitSummary itbug.bugid syzbug.url syzbug.commitmsg] ++ more)
    (hfollows : (∀ event ∈ s.events, event ∈ s'.events) → s'.Presented itbug.bugid syzbug.url →
      Follows s s') :
    Seen itbug syzbug loads s s' := by
  have hkept : ∀ event ∈ s.events, event ∈ s'.events := by
    intro event hevent
    rw [hevents]
    exact List.mem_append_left _ (List.mem_append_left _ hevent)
  have hpresented : s'.Presented itbug.bugid syzbug.url := ⟨syzbug.commitmsg, by simp [hevents]⟩
  refine ⟨hfollows hkept hpresented, fun _ => .inl hpresented, ?_⟩
  rintro bugid url ⟨commitmsg, hmem⟩
  rw [hevents, List.mem_append, List.mem_append, List.mem_singleton] at hmem
  rcases hmem with (hmem | heq) | hmem
  · exact .inl ⟨commitmsg, hmem⟩
  · obtain ⟨rfl, rfl, -⟩ := Event.hitSummary.inj heq
    exact .inr ⟨rfl, rfl, hmatches⟩
  · exact absurd hmem (hmore bugid url commitmsg)

theorem seen_triagePair (h : triagePair loads linuxDb user itbug syzbug s = some s') :
    Seen itbug syzbug loads s s' := by
  unfold triagePair at h
  split at h
  · cases h
  · next hmatch =>
    cases h
    apply Seen.of_same
    intro hmatches
    rw [AutoTriager.Matches, hmatch] at hmatches
    cases hmatches
  · next hmatch =>
    split at h
    · next htriaged =>
      cases h
      exact Seen.of_same fun _ => .inl htriaged
    · split at h
      · next hmismatch =>
        cases h
        exact Seen.of_same fun _ => .inr hmismatch
      · simp only at h
        split at h
        · cases h
          apply Seen.of_presented hmatch (by simp) rfl
          intro hkept _
          exact ⟨rfl, rfl, hkept, fun _ htriaged => isTriaged_addToTriaged htriaged _,
            fun _ _ hmismatch => .inl hmismatch⟩
        · cases h
          apply Seen.of_presented hmatch (fun _ _ _ => List.not_mem_nil) (List.append_nil _).symm
          intro hkept hpresented
          refine ⟨rfl, rfl, hkept, fun _ htriaged => htriaged, ?_⟩
          intro bugid url hmismatch
          rcases isMismatch_addMismatch hmismatch with hmismatch | ⟨rfl, rfl⟩
          · exact .inl hmismatch
          · exact .inr hpresented

theorem triagePair_none (h : triagePair loads linuxDb user itbug syzbug s = none) :
    s.triager.matchstacktrace loads itbug.stacktrace syzbug.stacktrace = none := by
  unfold triagePair at h
  split at h
  · assumption
  · cases h
  · split at h
    · cases h
    · split at h
      · cases h
      · simp only at h
        split at h <;> cases h

/-- What the loop over the rows of syzweb leads to. -/
structure Looked (itbug : ItBug) (syzBugs : List SyzBug) (loads : Loads) (s s' : Session) :
    Prop where
  follows : Follows s s'
  covers : ∀ syzbug ∈ syzBugs, s.triager.Matches loads itbug syzbug →
    s'.Presented itbug.bugid syzbug.url ∨ s'.triager.isTriaged itbug.bugid = true ∨
      s.triager.isMismatch itbug.bugid syzbug.url = true
  only : ∀ bugid url, s'.Presented bugid url →
    s.Presented bugid url ∨ bugid = itbug.bugid ∧ ∃ syzbug ∈ syzBugs, syzbug.url = url ∧
      s.triager.Matches loads itbug syzbug

theorem looked_syzLoop (syzBugs : List SyzBug) (s : Session) :
    Looked itbug syzBugs loads s (syzLoop loads linuxDb user itbug syzBugs s).1 := by
  induction syzBugs generalizing s with
  | nil => exact ⟨Follows.refl s, by simp, fun _ _ h => .inl h⟩
  | cons syzbug syzBugs ih =>
    rw [syzLoop]
    cases hpair : triagePair loads linuxDb user itbug syzbug s with
    | none =>
      refine ⟨Follows.refl s, ?_, fun _ _ h => .inl h⟩
      intro syzbug' _ hmatches
      rw [AutoTriager.Matches, matchstacktrace_none (triagePair_none hpair)] at hmatches
      cases hmatches
    | some s' =>
      have hseen := seen_triagePair hpair
      have hlooked := ih s'
      have hmatches : ∀ syzbug, s'.triager.Matches loads itbug syzbug ↔
          s.triager.Matches loads itbug syzbug := by
        intro syzbug
        rw [AutoTriager.Matches, hseen.follows.matchstacktrace]
        rfl
      refine ⟨hseen.follows.trans hlooked.follows, ?_, ?_⟩
      · intro syzbug' hmem hmatch
        rcases List.mem_cons.mp hmem with rfl | hmem
        · rcases hseen.covers hmatch with hpresented | htriaged | hmismatch
          · exact .inl (hpresented.mono hlooked.follows.events)
          · exact .inr (.inl (hlooked.follows.triaged _ htriaged))
          · exact .inr (.inr hmismatch)
        · rcases hlooked.covers syzbug' hmem
            ((hmatches syzbug').mpr hmatch) with hpresented | htriaged | hmismatch
          · exact .inl hpresented
          · exact .inr (.inl htriaged)
          · rcases hseen.follows.mismatch _ _ hmismatch with hmismatch | hpresented
            · exact .inr (.inr hmismatch)
            · exact .inl (hpresented.mono hlooked.follows.events)
      · intro bugid url hpresented
        rcases hlooked.only bugid url hpresented with hpresented | ⟨hbugid, syzbug', hmem,
          hurl, hmatch⟩
        · rcases hseen.only bugid url hpresented with hpresented | ⟨hbugid, hurl, hmatch⟩
          · exact .inl hpresented
          · exact .inr ⟨hbugid, syzbug, List.mem_cons_self, hurl.symm, hmatch⟩
        · exact .inr ⟨hbugid, syzbug', List.mem_cons_of_mem _ hmem, hurl,
            (hmatches syzbug').mp hmatch⟩

/-- A user who reports nothing triages nothing. -/
theorem triagedBugs_syzLoop (syzBugs : List SyzBug) (s : Session) :
    (syzLoop loads linuxDb (fun _ => false) itbug syzBugs s).1.triager.triagedBugs =
      s.triager.triagedBugs := by
  induction syzBugs generalizing s with
  | nil => rfl
  | cons syzbug syzBugs ih =>
    rw [syzLoop]
    cases hpair : triagePair loads linuxDb (fun _ => false) itbug syzbug s with
    | none => rfl
    | some s' =>
      have hsame : s'.triager.triagedBugs = s.triager.triagedBugs := by
        unfold triagePair at hpair
        split at hpair
        · cases hpair
        · cases hpair
          rfl
        · simp only [Bool.false_eq_true, if_false] at hpair
          split at hpair
          · cases hpair
            rfl
          · split at hpair <;> cases hpair <;> rfl
      exact (ih s').trans hsame

/-- The iterator is at its end. -/
theorem itLoop_nil (itBugs : List ItBug) (s : Session) :
    itLoop loads linuxDb user itBugs [] s = (s, true) := by
  induction itBugs with
  | nil => rfl
  | cons itbug itBugs ih => exact ih

theorem itLoop_cons (itBugs : List ItBug) (syzBugs : List SyzBug) (s : Session) :
    (itLoop loads linuxDb user (itbug :: itBugs) syzBugs s).1 =
      (syzLoop loads linuxDb user itbug syzBugs s).1 := by
  rw [itLoop]
  obtain ⟨s', finished⟩ := syzLoop loads linuxDb user itbug syzBugs s
  cases finished with
  | true => simp only [if_true, itLoop_nil]
  | false => rfl

end

/-! ## All pairs -/

theorem covers_iff (a : AutoTriager) (loads : Loads) (tables : Tables) (title : Text) :
    (∀ user, Covers a loads tables user title) ↔
      LaterSettled a loads (tables.syzBugs title) (tables.itBugs title) := by
  unfold Covers AutoTriager.triageTitle
  cases tables.itBugs title with
  | nil => simp [LaterSettled]
  | cons first later =>
    constructor
    · intro hcovers itbug hitbug syzbug hsyzbug hmatches
      have hlooked : Looked first (tables.syzBugs title) loads { triager := a, events := [] }
          (syzLoop loads tables.linuxDb (fun _ => false) first (tables.syzBugs title)
              { triager := a, events := [] }).1 :=
        looked_syzLoop _ _
      have hcovered :=
        hcovers (fun _ => false) itbug (List.mem_cons_of_mem _ hitbug) syzbug hsyzbug hmatches
      rw [itLoop_cons] at hcovered
      rcases hcovered with hpresented | htriaged | hmismatch
      · rcases hlooked.only _ _ hpresented with ⟨_, hnone⟩ | hfirst
        · cases hnone
        · exact .inr (.inr hfirst)
      · rw [AutoTriager.isTriaged, triagedBugs_syzLoop] at htriaged
        exact .inl htriaged
      · exact .inr (.inl hmismatch)
    · intro hsettled user itbug hitbug syzbug hsyzbug hmatches
      have hlooked : Looked first (tables.syzBugs title) loads { triager := a, events := [] }
          (syzLoop loads tables.linuxDb user first (tables.syzBugs title) { triager := a,
                                                                            events := [] }).1 :=
        looked_syzLoop _ _
      rw [itLoop_cons]
      rcases List.mem_cons.mp hitbug with rfl | hitbug
      · exact hlooked.covers syzbug hsyzbug hmatches
      · rcases hsettled itbug hitbug syzbug hsyzbug
          hmatches with htriaged | hmismatch | ⟨hbugid, syzbug', hmem, hurl, hfirst⟩
        · exact .inr (.inl (hlooked.follows.triaged _ htriaged))
        · exact .inr (.inr hmismatch)
        · rw [hbugid, ← hurl]
          exact hlooked.covers syzbug' hmem hfirst

/-- Two bugs and one report with one title. -/
def twoBugs : Tables where
  itDb := [{ bugid := ['1'], title := ['t'], stacktrace := [] }, { bugid := ['2'], title := ['t'],
                                                                   stacktrace := [] }]
  syzDb := [{ url := ['u'], title := ['t'], commitmsg := ['c'], stacktrace := [] }]
  linuxDb := fun _ => none

def noneKnown : AutoTriager where
  useMst := false
  triagedBugs := []
  blacklistfns := []
  knownMismatch := Dict.empty
  files := { triagedBugs := none, blacklistfns := none, knownMismatch := none }

/-- The second bug is not presented. -/
theorem not_covers : ¬∀ a loads tables user title, Covers a loads tables user title := by
  intro h
  have hcovered := h noneKnown (fun _ => none) twoBugs (fun _ => false)
    ['t'] _ (List.mem_cons_of_mem _ List.mem_cons_self)
    _ List.mem_cons_self rfl
  rcases hcovered with ⟨commitmsg, hpresented⟩ | htriaged | hmismatch
  · have hevent := List.mem_singleton.mp hpresented
    exact absurd (Event.hitSummary.inj hevent).1 (by decide)
  · cases htriaged
  · cases hmismatch

end SyzbotAutotriager
