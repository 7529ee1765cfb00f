import DevUtil.Lib.PosixPath

/-!
# Local paths of the devserver

`_canonicalize_local_path` of `devserver.py` keeps clients to the static directory, which
`main` sets to an `os.path.realpath`.

    every accepted path is the static directory or below it
      ↔ the path has no longer name in the place of the last one of the static
        directory                                                                     (confined_iff)
-/

namespace Devserver

open Lib.PosixPath

abbrev Path := List Char

structure DevServerError where
  message : List Char
deriving DecidableEq

/-- `_canonicalize_local_path`, with `updater.static_dir` and the current directory. -/
def canonicalizeLocalPath (staticDir cwd : AbsPath) (localPath : Path) :
    Except DevServerError Path :=
  let localPath := abspath cwd.chars localPath
  if staticDir.chars.isPrefixOf localPath then .ok (localPath.rdropWhile (· == '/'))
  else .error ⟨"Local path ".toList ++ localPath ++
    " must be a subdirectory of the static directory: ".toList ++
    staticDir.chars⟩

/-- The directory itself, or below it. -/
def LiesIn (dir : AbsPath) (path : Path) : Prop := components dir.chars <+: components path

theorem components_rstrip (p : Path) : components (p.rdropWhile (· == '/')) = components p := by
  induction p using List.reverseRecOn with
  | nil => rfl
  | append_singleton p c ih =>
    by_cases hc : c = '/'
    · subst hc
      rw [List.rdropWhile_concat_pos _ _ _ (by decide), ih]
      unfold components
      rw [List.splitOn_append_cons_self, List.splitOn_nil, List.filter_append]
      simp
    · rw [List.rdropWhile_concat_neg _ _ _ (by simpa using hc)]

/-- What is accepted, and what comes out. -/
theorem canonicalizeLocalPath_ok {staticDir cwd : AbsPath} {localPath path : Path} :
    canonicalizeLocalPath staticDir cwd localPath = .ok path ↔
      staticDir.chars <+: (cwd.resolve localPath).chars ∧
        path = (cwd.resolve localPath).chars.rdropWhile (· == '/') := by
  unfold canonicalizeLocalPath
  rw [abspath_eq]
  dsimp only
  split
  · next h =>
    rw [List.isPrefixOf_iff_prefix] at h
    rw [Except.ok.injEq]
    exact ⟨fun hpath => ⟨h, hpath.symm⟩, fun hpath => hpath.2.symm⟩
  · next h =>
    rw [List.isPrefixOf_iff_prefix] at h
    exact ⟨fun hpath => (by cases hpath), fun hpath => absurd hpath.1 h⟩

/-- Clients are confined exactly if the name of the static directory does not go on. -/
theorem confined_iff (staticDir cwd : AbsPath) (localPath : Path) :
    (∀ path, canonicalizeLocalPath staticDir cwd localPath = .ok path → LiesIn staticDir path) ↔
      ¬staticDir.LongerName (cwd.resolve localPath) := by
  have hlies : ∀ path, path = (cwd.resolve localPath).chars.rdropWhile (· == '/') →
      (LiesIn staticDir path ↔ staticDir.parts <+: (cwd.resolve localPath).parts) := by
    rintro path rfl
    unfold LiesIn
    rw [components_rstrip, components_chars, components_chars]
  constructor
  · intro h hlonger
    have haccepted := canonicalizeLocalPath_ok.mpr ⟨chars_prefix_of_longerName hlonger, rfl⟩
    exact not_prefix_of_longerName hlonger.2 ((hlies _ rfl).mp (h _ haccepted))
  · intro hnot path haccepted
    obtain ⟨hstarts, hpath⟩ := canonicalizeLocalPath_ok.mp haccepted
    exact (hlies path hpath).mpr ((parts_prefix_of_chars hstarts).resolve_right hnot)

/-- A sibling directory is accepted. -/
theorem not_confined : canonicalizeLocalPath (.ofChars "/srv/static".toList) (.ofChars "/".toList)
      "/srv/static-old/image".toList = .ok "/srv/static-old/image".toList ∧
    ¬LiesIn (.ofChars "/srv/static".toList) "/srv/static-old/image".toList := by
  refine ⟨by decide, ?_⟩
  unfold LiesIn
  decide

end Devserver
