import DevUtil.Findmissing.GitInterface

/-!
# When a fix counts as merged

`get_cherrypick_status` calls a fix merged if some commit of the branch mentions its subject,
or if picking it changes nothing.

    a run returns MERGED → the subject is mentioned, or picking
      changes nothing                                               (getCherrypickStatus_merged)
    the subject is mentioned → a run returns MERGED                 (exec_getCherrypickStatus)
    MERGED only for a fix that is in the branch ↔ the subject is
      mentioned only where the fix is in the branch                 (getCherrypickStatus_merged_iff)

A `Fixes:` line or a revert mentions the subject too.
-/

namespace Findmissing.GitInterface

open Lib Prog

/-! ## What is in a branch -/

/-- The tags of the subjects. -/
def subjectTags : List Text :=
  ["UPSTREAM:", "BACKPORT:", "FROMGIT:", "FROMLIST:", "ANDROID:", "CHROMIUM:"].map String.toList

/-- Some tags, and nothing else; there are at most as many as characters. -/
def isTagsFrom : Nat → Text → Bool
  | 0, cs => cs.isEmpty
  | fuel + 1, cs =>
    cs.isEmpty || subjectTags.any fun tag =>
      tag.isPrefixOf cs && isTagsFrom fuel ((cs.drop tag.length).dropWhile (· == ' '))

/-- Nothing, or tags such as `UPSTREAM: ` and `BACKPORT: FROMLIST: `. -/
def isTags (cs : Text) : Bool := isTagsFrom cs.length cs

example : isTags "BACKPORT: FROMLIST: ".toList ∧ isTags [] ∧ ¬isTags "PCI: ".toList := by decide

/-- The subject of a commit is the given one, possibly after tags. -/
def LogEntry.hasSubject (entry : LogEntry) (subject : Text) : Bool :=
  let own := subjectOf entry.message
  subject.isSuffixOf own && isTags (own.take (own.length - subject.length))

variable {Tree : Type} (repo : Repo Tree) (mergeBase : String) (branch : Branch) (sha : Sha)

/-- A commit of `mergeBase..` that is no merge mentions the subject. -/
def Repo.Mentioned : Prop :=
  ∃ message, repo.message sha = some message ∧
    selects (repo.log (.origin branch) mergeBase) (subjectRead message) = true

/-- A commit of `mergeBase..` that is no merge has the subject. -/
def Repo.HasSubject : Prop :=
  ∃ message, repo.message sha = some message ∧
    ∃ entry ∈ repo.log (.origin branch) mergeBase, entry.merge = false ∧
      entry.hasSubject (subjectOf message) = true

/-- The cherry-pick applies and leaves no difference to HEAD. -/
def Repo.PicksNothing : Prop :=
  repo.pick (repo.tree (.origin branch)) sha = some (repo.tree (.origin branch))

/-! ## The runs -/

section

variable [DecidableEq Tree] {repo mergeBase branch sha} {d d' : Work Tree}

theorem wp_searchSubjectInBranch {Q : Except Error Bool → Work Tree → Prop}
    (hhead : d.head = .origin branch)
    (hok : ∀ applied, (applied = true → repo.Mentioned mergeBase branch sha) → Q (.ok applied) d)
    (hfail : Q (.error .calledProcessError) d) :
    wp repo.sem (fun _ => True) Q (searchSubjectInBranch mergeBase sha) d := by
  intro subject d₁ h₁
  obtain ⟨rfl, hsubject⟩ := h₁
  refine ⟨trivial, ?_⟩
  cases subject with
  | none => exact hfail
  | some subject =>
    obtain ⟨message, hmessage, rfl⟩ :=
      Option.map_eq_some_iff.mp (hsubject.resolve_left (Option.some_ne_none _)).symm
    intro result d₂ h₂
    obtain ⟨rfl, hresult⟩ := h₂
    refine ⟨trivial, ?_⟩
    cases result with
    | none => exact hfail
    | some result =>
      have hselects := Option.some.inj (hresult.resolve_left (Option.some_ne_none _))
      refine hok result fun happlied => ⟨message, hmessage, ?_⟩
      rw [← hhead, ← hselects, happlied]

/-- What a run may have decided. -/
def Decided (repo : Repo Tree) (mergeBase : String) (branch : Branch) (sha : Sha)
    (r : Except Error Status) : Prop :=
  r = .ok .MERGED → repo.Mentioned mergeBase branch sha ∨ repo.PicksNothing branch sha

theorem wp_triedStatus (hd : d = d.goTo repo (.origin branch)) :
    wp repo.sem (fun _ => True) (fun r _ => Decided repo mergeBase branch sha r)
      (triedStatus mergeBase sha) d := by
  have hhead : d.head = .origin branch := congrArg Work.head hd
  have htree : d.tree = repo.tree (.origin branch) := congrArg Work.tree hd
  have hheadTree : d.headTree = repo.tree (.origin branch) := congrArg Work.headTree hd
  refine wp_bind.mpr
    (wp_searchSubjectInBranch hhead (fun applied happlied => ?_) fun h => by cases h)
  cases applied with
  | true => exact fun _ => .inl (happlied rfl)
  | false =>
    intro done d₁ h₁
    refine ⟨trivial, ?_⟩
    cases done with
    | false => exact fun h => by cases h
    | true =>
      obtain ⟨tree, hpick, rfl⟩ : ∃ tree, repo.pick d.tree sha = some tree ∧
        d₁ = { d with tree := tree } := h₁
      intro answer d₂ h₂
      obtain ⟨-, hdiff⟩ := h₂
      refine ⟨trivial, ?_⟩
      cases answer with
      | none => exact fun h => by cases h
      | some differs =>
        have hdiffers := Option.some.inj (hdiff.resolve_left (Option.some_ne_none _))
        cases differs with
        | true => exact fun h => by cases h
        | false =>
          -- no difference: the tree is the one of HEAD
          have hsame : tree = d.headTree := by simpa using hdiffers.symm
          rw [hsame, htree, hheadTree] at hpick
          exact fun _ => .inr hpick

theorem getCherrypickStatus_merged
    (h : Exec repo.sem (getCherrypickStatus mergeBase branch sha) d (.ok .MERGED) d') :
    repo.Mentioned mergeBase branch sha ∨ repo.PicksNothing branch sha := by
  refine wp_exec (I := fun _ => True) (Q := fun r _ => Decided repo mergeBase branch sha r) ?_ h rfl
  refine wp_bind.mpr (wp_checkoutAndClean (fun d₁ _ hd₁ => ?_) fun _ _ h => by cases h)
  refine wp_ensuring.mpr (wp_tryCatch.mpr (wp_mono (fun r d₂ hr => ?_) (wp_triedStatus hd₁)))
  cases r with
  | ok status => exact wp_checkoutAndClean (fun _ _ _ => hr) fun _ _ h => by cases h
  | error e =>
    cases e with
    | calledProcessError =>
      exact wp_checkoutAndClean (fun _ _ _ h => by cases h) fun _ _ h => by cases h
    | valueError => exact wp_checkoutAndClean (fun _ _ _ h => by cases h) fun _ _ h => by cases h

/-- Where the subject is mentioned nothing else matters. -/
theorem exec_getCherrypickStatus (d : Work Tree) (h : repo.Mentioned mergeBase branch sha) :
    ∃ d', Exec repo.sem (getCherrypickStatus mergeBase branch sha) d (.ok .MERGED) d' := by
  obtain ⟨message, hmessage, hselects⟩ := h
  let ready := d.goTo repo (.origin branch)
  have hsubject : repo.sem (.logSubject sha) ready (some (subjectRead message)) ready :=
    ⟨rfl, .inr (by rw [hmessage]; rfl)⟩
  have hgrep : repo.sem (.logGrep (subjectRead message) mergeBase) ready (some true) ready :=
    ⟨rfl, .inr (congrArg some hselects.symm)⟩
  have hsearch : Exec repo.sem (searchSubjectInBranch mergeBase sha) ready (.ok true) ready :=
    .op hsubject (.op hgrep .ret)
  have hbody : Exec repo.sem (triedStatus mergeBase sha) ready (.ok .MERGED) ready :=
    hsearch.bind .ret
  have hclean := exec_checkoutAndClean repo d branch
  exact ⟨_, hclean.bind (hbody.tryCatch_ok.ensuring (exec_checkoutAndClean repo ready branch))⟩

/-- A fix is called merged only where it is in the branch. -/
theorem getCherrypickStatus_merged_iff :
    (∀ d d', Exec repo.sem (getCherrypickStatus mergeBase branch sha) d (.ok .MERGED) d' →
      repo.HasSubject mergeBase branch sha ∨ repo.PicksNothing branch sha) ↔
    (repo.Mentioned mergeBase branch sha → repo.HasSubject mergeBase branch sha ∨
      repo.PicksNothing branch sha) := by
  constructor
  · intro h hmentioned
    obtain ⟨d', hx⟩ := exec_getCherrypickStatus
      ⟨.origin branch, repo.tree (.origin branch), repo.tree (.origin branch), []⟩ hmentioned
    exact h _ d' hx
  · intro h d d' hx
    rcases getCherrypickStatus_merged hx with hmentioned | hsame
    · exact h hmentioned
    · exact .inr hsame

end

/-! ## A quoted subject -/

/-- A branch where another fix names the commit, and which the commit would change. -/
def quotingRepo : Repo Bool where
  message := fun _ => some "drm: fix a leak\n".toList
  log := fun _ _ =>
    [⟨"UPSTREAM: drm: free it twice\n\nFixes: 0123456789ab (\"drm: fix a leak\")\n".toList, false⟩]
  tree := fun _ => false
  pick := fun _ _ => some true

theorem getCherrypickStatus_quoted :
    (∃ d d', Exec quotingRepo.sem (getCherrypickStatus "v5.4" "chromeos-5.4" "0a") d
      (.ok .MERGED) d') ∧
      ¬quotingRepo.HasSubject "v5.4" "chromeos-5.4" "0a" ∧
        ¬quotingRepo.PicksNothing "chromeos-5.4" "0a" := by
  refine ⟨⟨⟨.branch "main", false, false, []⟩, exec_getCherrypickStatus _ ⟨_, rfl, by decide⟩⟩, ?_,
    fun h => absurd (Option.some.inj h) (by decide)⟩
  rintro ⟨message, hmessage, entry, hentry, -, hsubject⟩
  obtain rfl := Option.some.inj hmessage
  obtain rfl := List.mem_singleton.mp hentry
  exact absurd hsubject (by decide)

end Findmissing.GitInterface
