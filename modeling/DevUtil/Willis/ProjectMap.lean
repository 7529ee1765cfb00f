import DevUtil.Willis.Manifest

/-!
# The projects of a manifest

`prepareProjectMap` of `willis.go`: a project without a revision or a remote gets the default one.
The alias of a remote is put in its place where a project names it, but not where it is the default.

    what the default does to a project, written out or not       (resolve_explicit)
    writing it out changes nothing ↔ the default remote has no
      other alias, or the entry is replaced later                (unchanged_iff)
-/

namespace Willis

open Lib

/-! ## `prepareProjectMap` -/

def isHexDigit (c : Char) : Bool := c.isDigit || ('a' ≤ c && c ≤ 'f') || ('A' ≤ c && c ≤ 'F')

/-- `reHex`: `^[0-9a-fA-F]+$` -/
def reHex (s : Text) : Bool := !s.isEmpty && s.all isHexDigit

/-- `strings.TrimPrefix(s, "refs/heads/")` -/
def trimRefsHeads (s : Text) : Text :=
  if "refs/heads/".toList.isPrefixOf s then s.drop "refs/heads/".toList.length else s

namespace Manifest

/-- The map of remote names to their aliases. -/
def aliases (m : Manifest) : Dict Text Text :=
  m.remotes.foldl (fun aliases remote =>
    if remote.aliasName ≠ [] then aliases.set remote.name remote.aliasName else aliases) Dict.empty

def resolveRevision (m : Manifest) (p : Project) : Project :=
  if p.revision = [] then { p with revision := m.dflt.revision } else p

def resolveRemote (m : Manifest) (p : Project) : Project :=
  if p.remote = [] then { p with remote := m.dflt.remote }
  else
    match m.aliases.get? p.remote with
    | some aliasName => { p with remote := aliasName }
    | none => p

def setTracking (p : Project) : Project :=
  if reHex p.revision then { p with tracking := p.revision }
  else { p with tracking := p.remote ++ '/' :: trimRefsHeads p.revision }

/-- A project, in the loop over the projects. -/
def resolve (m : Manifest) (p : Project) : Project :=
  setTracking (m.resolveRemote (m.resolveRevision p))

/-- The map of project paths to projects. -/
def projectMap (m : Manifest) : Dict Text Project :=
  Dict.empty.setAll (m.projects.map fun p => (p.path, m.resolve p))

end Manifest

def prepareProjectMap {Err : Type} (readFile : Text → Except Err Document) (repoRoot : Text)
    (fuel : Nat) :
    Option (Except Err (Dict Text Project)) :=
  (getRepoManifest readFile (join [repoRoot, ".repo".toList, "manifests".toList]) fuel).map fun r =>
    r.map Manifest.projectMap

/-! ## The default remote, written out -/

namespace Manifest

/-- A project with the manifest's default remote as its attribute. -/
def explicit (m : Manifest) (p : Project) : Project := { p with remote := m.dflt.remote }

/-- The project between `before` and `after` gets the attribute, and no entry of the map changes. -/
def Unchanged (m : Manifest) (before : List Project) (p : Project) (after : List Project) : Prop :=
  ∀ path, (projectMap { m with projects := before ++ m.explicit p :: after }).get? path =
    m.projectMap.get? path

/-- A project that names the default remote gets another remote. -/
def DefaultAliased (m : Manifest) : Prop :=
  m.dflt.remote ≠ [] ∧ ∃ aliasName, m.aliases.get? m.dflt.remote = some aliasName ∧
    aliasName ≠ m.dflt.remote

variable {m : Manifest} {p : Project}

@[simp] theorem resolveRevision_path (m : Manifest) (p : Project) :
    (m.resolveRevision p).path = p.path := by
  unfold resolveRevision
  split <;> rfl

@[simp] theorem resolveRevision_remote (m : Manifest) (p : Project) :
    (m.resolveRevision p).remote = p.remote := by
  unfold resolveRevision
  split <;> rfl

@[simp] theorem resolveRemote_path (m : Manifest) (p : Project) :
    (m.resolveRemote p).path = p.path := by
  unfold resolveRemote
  split
  · rfl
  · split <;> rfl

@[simp] theorem setTracking_path (p : Project) : (setTracking p).path = p.path := by
  unfold setTracking
  split <;> rfl

@[simp] theorem setTracking_remote (p : Project) : (setTracking p).remote = p.remote := by
  unfold setTracking
  split <;> rfl

/-- The remote that a project ends up with. -/
theorem resolve_remote (m : Manifest) (p : Project) :
    (m.resolve p).remote = if p.remote = [] then m.dflt.remote
      else (m.aliases.get? p.remote).getD p.remote := by
  rw [resolve, setTracking_remote, resolveRemote, resolveRevision_remote]
  split
  · rfl
  · cases m.aliases.get? p.remote with
    | some aliasName => rfl
    | none => exact resolveRevision_remote m p

/-- The revision of a project does not depend on its remote. -/
theorem resolveRevision_explicit (m : Manifest) (p : Project) :
    m.resolveRevision (m.explicit p) = m.explicit (m.resolveRevision p) := by
  unfold resolveRevision explicit
  split <;> rfl

/-- A remote that is the default one, and not aliased, may be written out. -/
theorem resolveRemote_explicit (h : ¬m.DefaultAliased) (hp : p.remote = []) :
    m.resolveRemote (m.explicit p) = m.resolveRemote p := by
  have hdefault : m.resolveRemote p = m.explicit p := by rw [resolveRemote, if_pos hp, explicit]
  rw [hdefault, resolveRemote]
  split
  · rfl
  · next hremote =>
    cases halias : m.aliases.get? (m.explicit p).remote with
    | none => rfl
    | some aliasName =>
      have hsame : aliasName = m.dflt.remote := by
        by_contra hne
        exact h ⟨hremote, aliasName, halias, hne⟩
      rw [hsame]
      rfl

theorem resolve_explicit (hp : p.remote = []) :
    m.resolve (m.explicit p) = m.resolve p ↔ ¬m.DefaultAliased := by
  constructor
  · rintro heq ⟨hremote, aliasName, halias, hne⟩
    have hexplicit : (m.explicit p).remote = m.dflt.remote := rfl
    have hremotes := congrArg Project.remote heq
    rw [resolve_remote, resolve_remote, if_pos hp, hexplicit, if_neg hremote, halias] at hremotes
    exact hne hremotes
  · intro h
    rw [resolve, resolve, resolveRevision_explicit, resolveRemote_explicit h (by simp [hp])]

/-! ## The map -/

/-- The entries of the projects before one, and of those after it. -/
theorem projectMap_eq (m : Manifest) (before : List Project) (p : Project) (after : List Project) :
    projectMap { m with projects := before ++ p :: after } =
      ((Dict.empty.setAll (before.map fun p => (p.path, m.resolve p))).set p.path
        (m.resolve p)).setAll
        (after.map fun p => (p.path, m.resolve p)) := by
  show Dict.empty.setAll ((before ++ p :: after).map fun p => (p.path, m.resolve p)) = _
  rw [List.map_append, List.map_cons, Dict.setAll_append]
  rfl

theorem unchanged_iff (m : Manifest) (before : List Project) (p : Project) (after : List Project)
    (h : m.projects = before ++ p :: after) (hp : p.remote = []) :
    m.Unchanged before p after ↔ ¬m.DefaultAliased ∨ ∃ q ∈ after, q.path = p.path := by
  have hmap : m.projectMap = projectMap { m with projects := before ++ p :: after } := by rw [← h]
  have hkeys : p.path ∈ (after.map fun p => (p.path, m.resolve p)).map Prod.fst ↔
      ∃ q ∈ after, q.path = p.path := by
    simp
  unfold Unchanged
  rw [hmap]
  constructor
  · intro hsame
    by_contra hnot
    obtain ⟨haliased, hlater⟩ := not_or.mp hnot
    -- the last entry of the path is the project's own
    have hentry := hsame p.path
    rw [projectMap_eq, projectMap_eq, Dict.get?_setAll_of_not_mem _ (mt hkeys.mp hlater),
      Dict.get?_setAll_of_not_mem _ (mt hkeys.mp hlater)] at hentry
    have hpath : (m.explicit p).path = p.path := rfl
    rw [hpath, Dict.get?_set, Dict.get?_set] at hentry
    exact haliased ((resolve_explicit hp).mp (Option.some.inj hentry))
  · intro hcond path
    rw [projectMap_eq, projectMap_eq]
    have hpath : (m.explicit p).path = p.path := rfl
    rw [hpath]
    rcases hcond with haliased | hlater
    · rw [(resolve_explicit hp).mpr haliased]
    · by_cases hin : path ∈ (after.map fun p => (p.path, m.resolve p)).map Prod.fst
      · exact Dict.get?_setAll_of_mem_keys _ _ hin
      · have hne : path ≠ p.path := fun heq => hin (heq ▸ hkeys.mpr hlater)
        rw [Dict.get?_setAll_of_not_mem _ hin, Dict.get?_setAll_of_not_mem _ hin,
          Dict.get?_set_of_ne _ hne,
          Dict.get?_set_of_ne _ hne]

/-- A project without attributes. -/
def crosUtils : Project := { remote := [], path := "src/utils".toList, revision := [],
                             name := "utils".toList }

/-- A project of another remote, with a revision of its own. -/
def crosKernel : Project :=
  { remote := "aosp".toList, path := "src/third_party/kernel".toList,
    revision := "refs/heads/chromeos-6.6".toList,
    name := "kernel".toList }

/-- The default remote has no alias, another one has. -/
def unaliased : Manifest where
  dflt := { revision := "refs/heads/main".toList, remote := "cros".toList }
  projects := [crosKernel, crosUtils, { crosUtils with path := "src/platform".toList }]
  remotes := [{ name := "aosp".toList, aliasName := "goog".toList }, { name := "cros".toList,
                                                                       aliasName := [] }]

/-- The default remote has one, and a later project has the same path. -/
def overwritten : Manifest where
  dflt := { revision := "refs/heads/main".toList, remote := "aosp".toList }
  projects := [crosKernel, crosUtils, { crosKernel with path := crosUtils.path }]
  remotes := [{ name := "cros".toList, aliasName := [] }, { name := "aosp".toList,
                                                            aliasName := "goog".toList }]

theorem unchanged_iff_unaliased :
    unaliased.Unchanged [crosKernel] crosUtils [{ crosUtils with path := "src/platform".toList }] ∧
      overwritten.Unchanged [crosKernel] crosUtils
          [{ crosKernel with path := crosUtils.path }] := by
  constructor
  · refine (unchanged_iff unaliased [crosKernel] crosUtils _ rfl rfl).mpr (.inl ?_)
    rintro ⟨-, aliasName, halias, -⟩
    have hnone : unaliased.aliases.get? unaliased.dflt.remote = none := by decide
    rw [hnone] at halias
    cases halias
  · exact (unchanged_iff overwritten [crosKernel] crosUtils _ rfl rfl).mpr
      (.inr ⟨_, List.mem_singleton.mpr rfl, rfl⟩)

/-- The default remote has an alias. -/
def aliased : Manifest where
  dflt := unaliased.dflt
  projects := [crosUtils]
  remotes := [{ name := "cros".toList, aliasName := "mirror".toList }]

/-- The tracking branch is `cros/main`, and `mirror/main` with the attribute. -/
theorem not_unchanged : ¬∀ (m : Manifest) (before : List Project) (p : Project)
    (after : List Project),
    m.projects = before ++ p :: after → p.remote = [] → m.Unchanged before p after := by
  intro h
  have hsame := h aliased [] crosUtils [] rfl rfl crosUtils.path
  exact absurd hsame (by decide)

end Manifest

end Willis
