import DevUtil.Findmissing.GitInterface

/-!
# The Change-Id at the end of a message

`cherry_pick_and_push_fix` deletes from `Change-Id:` to the end of the line and puts the
Change-Id at the end.

    a run that amends a commit hands git the rewritten message  (cherryPickAndPushFix_made)
    only the Change-Id moves ↔ the word stands only at the beginning
      of lines, and the Change-Id is one line                   (cherryPickAndPushFix_moves_iff)

In a line such as `Original-Change-Id: I1` the end goes as well, and the next line follows
what is left of it.
-/

namespace Findmissing.GitInterface

open Lib Prog Regex

/-- `Change-Id:` -/
def changeIdWord : Text := "Change-Id:".toList

/-- The line that carries a Change-Id. -/
def changeIdLine (id : Text) : Text := "Change-Id: ".toList ++ id

/-- The lines of a message that do not begin with `Change-Id:`, without white space at the end. -/
def otherLines (commitMessage : Text) : List Text :=
  lines (rstrip (unlines (keptLines changeIdWord (lines commitMessage))))

/-- Of a message only the Change-Id has been moved. -/
structure Moved (commitMessage id amended : Text) : Prop where
  /-- one line begins with `Change-Id:`, and it carries the Change-Id -/
  one : (lines amended).filter (fun line => decide (changeIdWord <+: line)) = [changeIdLine id]
  /-- the last one, after the others as they were -/
  others : lines amended = otherLines commitMessage ++ [changeIdLine id]

instance (commitMessage id amended : Text) : Decidable (Moved commitMessage id amended) :=
  decidable_of_iff (_ ∧ _) ⟨fun h => ⟨h.1, h.2⟩, fun h => ⟨h.one, h.others⟩⟩

/-! ## The rewritten message -/

theorem changeIdWord_ne : changeIdWord ≠ [] := by decide

theorem newline_not_mem_changeIdWord : '\n' ∉ changeIdWord := by decide

theorem amendedMessage_eq (m : Text) (id : Option Text) :
    amendedMessage m id = rstrip (cut changeIdWord (lines m)) ++
      '\n' :: changeIdLine (changeIdText id) := by
  have hsub := @sub_toLineEnd "Change-Id:" changeIdWord_ne newline_not_mem_changeIdWord m
  unfold amendedMessage
  rw [hsub, List.append_assoc]
  rfl

theorem rstrip_append_newlines (cs : Text) (n : Nat) :
    rstrip (cs ++ List.replicate n '\n') = rstrip cs := by
  induction n with
  | zero => rw [List.replicate_zero, List.append_nil]
  | succ n ih =>
    rw [List.replicate_succ', ← List.append_assoc, rstrip,
      List.rdropWhile_concat_pos _ _ _ (by decide)]
    exact ih

/-- What is left of the text has the characters of the text that are not white space. -/
theorem countP_rstrip (cs : Text) :
    (rstrip cs).countP (fun c => !isSpace c) = cs.countP fun c => !isSpace c := by
  obtain ⟨t, ht⟩ : ∃ t, cs = rstrip cs ++ t ∧ ∀ c ∈ t, isSpace c = true := by
    induction cs using List.reverseRecOn with
    | nil => exact ⟨[], rfl, fun c hc => absurd hc List.not_mem_nil⟩
    | append_singleton cs c ih =>
      by_cases hc : isSpace c = true
      · obtain ⟨t, ht, hspace⟩ := ih
        refine ⟨t ++ [c], ?_, fun d hd => ?_⟩
        · rw [rstrip, List.rdropWhile_concat_pos _ _ _ hc, ← List.append_assoc]
          exact congrArg (· ++ [c]) ht
        · rcases List.mem_append.mp hd with hd | hd
          · exact hspace d hd
          · rw [List.mem_singleton.mp hd]
            exact hc
      · refine ⟨[], ?_, fun d hd => absurd hd List.not_mem_nil⟩
        rw [rstrip, List.rdropWhile_concat_neg _ _ _ hc, List.append_nil]
  have hzero : t.countP (fun c => !isSpace c) = 0 :=
    List.countP_eq_zero.mpr fun c hc => by rw [ht.2 c hc]; decide
  have hsum : cs.countP (fun c => !isSpace c) = (rstrip cs ++ t).countP fun c => !isSpace c :=
    congrArg _ ht.1
  rw [hsum, List.countP_append, hzero, Nat.add_zero]

theorem otherLines_ne (m : Text) : otherLines m ≠ [] := List.splitOnP_ne_nil _ _

/-- No other line begins with `Change-Id:`. -/
theorem not_prefix_of_mem_otherLines {m l : Text} (h : l ∈ otherLines m) : ¬changeIdWord <+: l := by
  intro hl
  obtain ⟨x, hx⟩ := List.rdropWhile_prefix isSpace (l := unlines (keptLines changeIdWord (lines m)))
  obtain ⟨k, hk, hprefix⟩ := exists_line_prefix x h
  have htext : rstrip (unlines (keptLines changeIdWord (lines m))) ++ x =
    unlines (keptLines changeIdWord (lines m)) := hx
  rw [htext] at hk
  by_cases hkept : keptLines changeIdWord (lines m) = []
  · rw [hkept] at hk
    obtain rfl := List.mem_singleton.mp hk
    exact changeIdWord_ne (List.prefix_nil.mp (hl.trans hprefix))
  · have hlines : ∀ k ∈ keptLines changeIdWord (lines m), '\n' ∉ k :=
      fun k hk => not_mem_of_mem_lines (mem_keptLines hk).1
    rw [lines_unlines hkept hlines] at hk
    exact (mem_keptLines hk).2 (hl.trans hprefix)

theorem moved_amendedMessage_iff (m : Text) (id : Option Text) :
    Moved m (changeIdText id) (amendedMessage m id) ↔
      OnlyBegins changeIdWord (lines m) ∧ '\n' ∉ changeIdText id := by
  rw [amendedMessage_eq]
  constructor
  · intro h
    have hlast : '\n' ∉ changeIdLine (changeIdText id) := by
      have hin : changeIdLine (changeIdText id) ∈ lines
          (rstrip (cut changeIdWord (lines m)) ++ '\n' :: changeIdLine (changeIdText id)) := by
        rw [h.others]
        exact List.mem_append_right _ (List.mem_singleton.mpr rfl)
      exact not_mem_of_mem_lines hin
    refine ⟨?_, fun hin => hlast (List.mem_append_right _ hin)⟩
    by_contra honly
    -- then the text is the one before the word was cut out, but it has fewer characters
    have hsame : rstrip (cut changeIdWord (lines m)) =
        rstrip (unlines (keptLines changeIdWord (lines m))) := by
      have htexts := congrArg unlines h.others
      rw [unlines_lines, unlines_concat (otherLines_ne m)] at htexts
      have hcut := List.append_cancel_right htexts
      rw [hcut]
      exact unlines_lines _
    have hlt := countP_cut_lt (q := fun c => !isSpace c) (by decide)
      ⟨'C', by decide, by decide⟩ honly
    rw [← countP_rstrip (cut changeIdWord (lines m)), hsame, countP_rstrip] at hlt
    exact Nat.lt_irrefl _ hlt
  · rintro ⟨honly, hid⟩
    obtain ⟨n, hn⟩ := exists_cut_eq changeIdWord_ne honly
    have hline : '\n' ∉ changeIdLine (changeIdText id) := by
      intro hin
      rcases List.mem_append.mp hin with hin | hin
      · exact absurd hin (by decide)
      · exact hid hin
    have hlines : lines
      (rstrip (cut changeIdWord (lines m)) ++ '\n' :: changeIdLine (changeIdText id)) =
        otherLines m ++ [changeIdLine (changeIdText id)] := by
      rw [hn, rstrip_append_newlines, lines_append_newline, lines_of_not_mem hline]
      rfl
    refine ⟨?_, hlines⟩
    have hothers : (otherLines m).filter (fun line => decide (changeIdWord <+: line)) = [] :=
      List.filter_eq_nil_iff.mpr fun l hl => by
        rw [decide_eq_true_eq]
        exact not_prefix_of_mem_otherLines hl
    have hbegins : changeIdWord <+: changeIdLine (changeIdText id) := ⟨' ' :: changeIdText id, rfl⟩
    rw [hlines, List.filter_append, hothers, List.nil_append, List.filter_singleton,
      decide_eq_true hbegins]
    rfl

/-! ## The runs -/

/-- What `get_commit_message` makes of the message. -/
def commitMessageOf (message : Text) : Text := rstrip (universalNewlines message) ++ ['\n']

/-- The Change-Id given, or else the one of the commit. -/
def usedChangeid (fixerChangeid : Option Text) (message : Text) : Option Text :=
  if isEmptyId fixerChangeid then lastChangeId (universalNewlines message) else fixerChangeid

/-- The text that a commit with this message is amended with. -/
def amendment (fixerChangeid : Option Text) (message : Text) : Text :=
  amendedMessage (commitMessageOf message) (usedChangeid fixerChangeid message)

section

variable {Tree : Type}

/-- What a run can have committed. -/
def Committed (fixerChangeid : Option Text) (d d' : Work Tree) : Prop :=
  d'.made = d.made ∨ ∃ picked, d'.made = picked :: d.made ∨
    ∃ message, d'.made = ⟨amendment fixerChangeid picked.message, message⟩ :: picked :: d.made

theorem Committed.of_eq {fixerChangeid : Option Text} {d d₁ d₂ : Work Tree}
    (h : Committed fixerChangeid d d₁) (he : d₂.made = d₁.made) : Committed fixerChangeid d d₂ := by
  unfold Committed at h ⊢
  rw [he]
  exact h

variable [DecidableEq Tree] {repo : Repo Tree} {d d' : Work Tree} {sha : Sha}
  {fixerChangeid : Option Text}
  {branch : Branch} {fixCommitMessage m : Text} {picked amended : Made} {reviewers : List String}
  {r : Except Error (Option Text)}

theorem wp_getCommitMessage {Q : Except Error Text → Work Tree → Prop} (hhead : d.head = .made m)
    (hok : Q (.ok (commitMessageOf m)) d) (hfail : Q (.error .calledProcessError) d) :
    wp repo.sem (fun _ => True) Q (getCommitMessage "HEAD") d := by
  intro answer d' h
  obtain ⟨rfl, hmessage⟩ := h
  refine ⟨trivial, ?_⟩
  cases answer with
  | none => exact hfail
  | some message =>
    obtain rfl := hmessage message rfl rfl m hhead
    exact hok

theorem wp_passedOrAdded {Q : Except Error (Option Text) → Work Tree → Prop}
    (hhead : d.head = .made m) (hok : Q (.ok (usedChangeid fixerChangeid m)) d)
    (hfail : Q (.error .calledProcessError) d) :
    wp repo.sem (fun _ => True) Q (passedOrAdded fixerChangeid) d := by
  unfold usedChangeid at hok
  unfold passedOrAdded
  by_cases hid : isEmptyId fixerChangeid = true
  · rw [if_pos hid] at hok ⊢
    intro answer d' h
    obtain ⟨rfl, hmessage⟩ := h
    refine ⟨trivial, ?_⟩
    cases answer with
    | none => exact hfail
    | some message =>
      obtain rfl := hmessage message rfl rfl m hhead
      exact hok
  · rw [if_neg hid] at hok ⊢
    exact hok

theorem wp_pickAndPush : wp repo.sem (fun _ => True) (fun _ d' => Committed fixerChangeid d d')
    (pickAndPush sha fixerChangeid branch fixCommitMessage reviewers) d := by
  unfold pickAndPush
  refine wp_bind.mpr (wp_checkoutAndClean (fun d₁ h₁ _ => ?_) fun d₁ h₁ => .inl h₁)
  refine wp_bind.mpr (wp_run (fun d₂ h₂ => ?_) fun d₂ h₂ => .inl (Eq.trans h₂ h₁))
  obtain ⟨tree, -, rfl⟩ : ∃ tree, repo.pick d₁.tree sha = some tree ∧
    d₂ = { d₁ with tree := tree } := h₂
  refine wp_bind.mpr (wp_run (fun d₃ h₃ => ?_) fun d₃ h₃ => .inl (Eq.trans h₃ h₁))
  obtain ⟨m, rfl⟩ : ∃ m, d₃ = Work.commit { d₁ with tree := tree } ⟨fixCommitMessage, m⟩ := h₃
  let picked : Made := ⟨fixCommitMessage, m⟩
  have hmade : (Work.commit { d₁ with tree := tree } picked).made = picked :: d.made :=
    congrArg (picked :: ·) h₁
  refine wp_bind.mpr (wp_passedOrAdded (m := m) rfl ?_ (.inr ⟨picked, .inl hmade⟩))
  refine wp_bind.mpr (wp_getCommitMessage (m := m) rfl ?_ (.inr ⟨picked, .inl hmade⟩))
  refine wp_bind.mpr (wp_run (fun d₄ h₄ => ?_) fun d₄ h₄ => .inr ⟨picked, .inl (Eq.trans h₄ hmade)⟩)
  obtain ⟨message, rfl⟩ : ∃ message, d₄ = Work.commit (Work.commit { d₁ with tree := tree } picked)
      ⟨amendment fixerChangeid m, message⟩ := h₄
  have hamended : Committed fixerChangeid d
    (Work.commit (Work.commit { d₁ with tree := tree } picked)
      ⟨amendment fixerChangeid m, message⟩) := .inr ⟨picked,
        .inr ⟨message, congrArg (_ :: ·) hmade⟩⟩
  refine wp_bind.mpr (wp_run (fun d₅ h₅ => ?_) fun d₅ h₅ => hamended.of_eq (congrArg Work.made h₅))
  exact hamended.of_eq (congrArg Work.made h₅)

/-- The commits that a run makes. -/
theorem cherryPickAndPushFix_made
    (h : Exec repo.sem
      (cherryPickAndPushFix sha fixerChangeid branch fixCommitMessage reviewers) d r d') :
    Committed fixerChangeid d d' := by
  refine wp_exec (I := fun _ => True) (Q := fun _ d' => Committed fixerChangeid d d') ?_ h
  unfold cherryPickAndPushFix
  rw [wp_ensuring, wp_tryCatch]
  refine wp_mono (fun r d₁ hd₁ => ?_) wp_pickAndPush
  cases r with
  | ok changeid => exact wp_checkoutAndClean (fun d₂ h₂ _ => hd₁.of_eq h₂) fun d₂ h₂ => hd₁.of_eq h₂
  | error e =>
    cases e with
    | calledProcessError =>
      exact wp_checkoutAndClean (fun d₂ h₂ _ => hd₁.of_eq h₂) fun d₂ h₂ => hd₁.of_eq h₂
    | valueError =>
      exact wp_checkoutAndClean (fun d₂ h₂ _ => hd₁.of_eq h₂) fun d₂ h₂ => hd₁.of_eq h₂

/-- Of the message that the commit had, a run has moved only the Change-Id. -/
theorem cherryPickAndPushFix_moves_iff
    (h : Exec repo.sem
      (cherryPickAndPushFix sha fixerChangeid branch fixCommitMessage reviewers) d r d')
    (hmade : d'.made = amended :: picked :: d.made) :
    Moved (commitMessageOf picked.message)
      (changeIdText (usedChangeid fixerChangeid picked.message))
        amended.handed ↔
      OnlyBegins changeIdWord (lines (commitMessageOf picked.message)) ∧
        '\n' ∉ changeIdText (usedChangeid fixerChangeid picked.message) := by
  have hamended : amended.handed = amendment fixerChangeid picked.message := by
    rcases cherryPickAndPushFix_made h with hnone | ⟨picked', hone | ⟨message, htwo⟩⟩
    · have hlen := congrArg List.length (hmade.symm.trans hnone)
      rw [List.length_cons, List.length_cons] at hlen
      omega
    · have hlen := congrArg List.length (hmade.symm.trans hone)
      rw [List.length_cons, List.length_cons, List.length_cons] at hlen
      omega
    · obtain ⟨hfirst, hrest⟩ := List.cons.inj (hmade.symm.trans htwo)
      rw [hfirst, (List.cons.inj hrest).1]
  rw [hamended]
  exact moved_amendedMessage_iff (commitMessageOf picked.message)
    (usedChangeid fixerChangeid picked.message)

/-- Where the cherry-pick applies a run can amend, whatever git makes of the two texts. -/
theorem exec_cherryPickAndPushFix (repo : Repo Tree) (d : Work Tree) {tree : Tree} (sha : Sha)
    (branch : Branch) (fixerChangeid : Option Text) (fixCommitMessage m message : Text)
    (reviewers : List String) (hpick : repo.pick (repo.tree (.origin branch)) sha = some tree) :
    ∃ d', Exec repo.sem (cherryPickAndPushFix sha fixerChangeid branch fixCommitMessage reviewers) d
        (.ok (usedChangeid fixerChangeid m)) d' ∧
      d'.made = ⟨amendment fixerChangeid m, message⟩ :: ⟨fixCommitMessage, m⟩ :: d.made := by
  let picked : Work Tree := { d.goTo repo (.origin branch) with tree := tree }
  let committed := picked.commit ⟨fixCommitMessage, m⟩
  let amendedWork := committed.commit ⟨amendment fixerChangeid m, message⟩
  have hpicked : repo.sem (.cherryPick sha) (d.goTo repo (.origin branch)) true picked :=
    ⟨tree, hpick, rfl⟩
  have hcommit : repo.sem (.commit fixCommitMessage) picked true committed := ⟨m, rfl⟩
  have hlog : repo.sem (.logMessage "HEAD") committed (some (universalNewlines m)) committed :=
    ⟨rfl, fun text htext _ m' hm' =>
      (Option.some.inj htext).symm.trans (congrArg universalNewlines (Ref.made.inj hm'))⟩
  have hid : Exec repo.sem (passedOrAdded fixerChangeid) committed
      (.ok (usedChangeid fixerChangeid m)) committed := by
    unfold passedOrAdded usedChangeid
    by_cases hempty : isEmptyId fixerChangeid = true
    · rw [if_pos hempty, if_pos hempty]
      exact .op hlog .ret
    · rw [if_neg hempty, if_neg hempty]
      exact .ret
  have hmessage : Exec repo.sem (getCommitMessage "HEAD") committed
    (.ok (commitMessageOf m)) committed := .op hlog .ret
  have hamend : repo.sem (.amend (amendment fixerChangeid m)) committed true amendedWork :=
    ⟨message, rfl⟩
  have hpush : repo.sem (.push (getGitPushCmd branch reviewers)) amendedWork true amendedWork := rfl
  have hbody : Exec repo.sem (pickAndPush sha fixerChangeid branch fixCommitMessage reviewers) d
      (.ok (usedChangeid fixerChangeid m)) amendedWork :=
    (exec_checkoutAndClean repo d branch).bind <| (exec_run hpicked).bind <|
      (exec_run hcommit).bind <| hid.bind <|
      hmessage.bind <| (exec_run hamend).bind <| (exec_run hpush).bind .ret
  exact ⟨amendedWork.goTo repo (.origin branch),
    hbody.tryCatch_ok.ensuring (exec_checkoutAndClean repo amendedWork branch), rfl⟩

end

/-! ## Two messages -/

/-- A repository where a cherry-pick changes the tree. -/
def changingRepo : Repo Bool := ⟨fun _ => none, fun _ _ => [], fun _ => false, fun _ _ => some true⟩

def cleanWork : Work Bool := ⟨.branch "chromeos-5.4", false, false, []⟩

def signedMessage : Text := "fix\n\nChange-Id: I1\nSigned-off-by: a\n".toList

theorem cherryPickAndPushFix_moves_signed : ∃ d', Exec changingRepo.sem
    (cherryPickAndPushFix "0a" (some "I2".toList) "chromeos-5.4" "fix".toList []) cleanWork
      (.ok (some "I2".toList)) d' ∧
    Moved (commitMessageOf signedMessage) "I2".toList
      (amendment (some "I2".toList) signedMessage) := by
  obtain ⟨d', hx, hmade⟩ := exec_cherryPickAndPushFix changingRepo cleanWork "0a" "chromeos-5.4"
    (some "I2".toList) "fix".toList signedMessage
      (amendment (some "I2".toList) signedMessage ++ ['\n']) [] rfl
  exact ⟨d', hx, (cherryPickAndPushFix_moves_iff hx hmade).mpr (by decide)⟩

def carriedMessage : Text := "fix\n\nOriginal-Change-Id: I1\nReviewed-on: b\nChange-Id: I2\n".toList

/-- `Original-Change-Id: I1` loses its end, and `Reviewed-on: b` its line. -/
theorem cherryPickAndPushFix_cuts_carried : ∃ d', Exec changingRepo.sem
    (cherryPickAndPushFix "0a" (some "I3".toList) "chromeos-5.4" "fix".toList []) cleanWork
      (.ok (some "I3".toList)) d' ∧
    ∃ amended picked, d'.made = [amended, picked] ∧ picked.message = carriedMessage ∧
      lines amended.handed =
        ["fix".toList, [], "Original-Reviewed-on: b".toList, "Change-Id: I3".toList] ∧
      ¬Moved (commitMessageOf picked.message) "I3".toList amended.handed := by
  obtain ⟨d', hx, hmade⟩ := exec_cherryPickAndPushFix changingRepo cleanWork "0a" "chromeos-5.4"
    (some "I3".toList) "fix".toList carriedMessage
      (amendment (some "I3".toList) carriedMessage ++ ['\n']) [] rfl
  exact ⟨d', hx, _, _, hmade, rfl, by decide, by decide⟩

end Findmissing.GitInterface
