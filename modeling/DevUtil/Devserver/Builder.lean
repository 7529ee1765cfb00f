import Mathlib.Data.List.Dedup
import Mathlib.Logic.Function.Basic
import DevUtil.Lib.Prog
import DevUtil.Lib.Separators
import DevUtil.Lib.Text

/-!
# `builder.py`: the gmerge binhost

`UpdateGmergeBinhost` as a program over the commands and the calls of portage that it makes.
Each of them may fail, and may leave what it was writing half written.

    a package is listed with what it should be listed with   Sysroot.listed, Sysroot.wanted
    after a run in deep mode that succeeds they agree        (wp_updateGmergeBinhost)
    the index then agrees too, or nothing was changed        (upToDate_iff)
-/

namespace Builder

open Lib Prog

variable {Pkg Atom : Type} [DecidableEq Pkg]

/-! ## What portage and the commands work on -/

/-- The value of `BUILD_TIME` in the metadata of a package. -/
abbrev BuildTime := String

/-- A package file; without metadata portage does not take it for a package. -/
structure PackageFile where
  metadata : Option BuildTime
deriving DecidableEq

structure Sysroot (Pkg : Type) where
  installed : Pkg → Bool
  /-- the built binhost -/
  built : Pkg → Option BuildTime
  /-- the files of `gmerge-packages` -/
  gmerge : Pkg → Option PackageFile
  /-- its `Packages` file -/
  index : Pkg → Option BuildTime

/-- What `eclean -d packages` removes, which depends on what is installed. -/
structure Eclean (Pkg : Type) where
  removes : (Pkg → Bool) → Pkg → Bool
  notInstalled : ∀ installed pkg, removes installed pkg = true → installed pkg = false

namespace Sysroot

/-- The packages of `gmerge-packages`. -/
def listed (d : Sysroot Pkg) (pkg : Pkg) : Option BuildTime :=
  (d.gmerge pkg).bind PackageFile.metadata

/-- The packages that are both installed and in the built binhost. -/
def wanted (d : Sysroot Pkg) (pkg : Pkg) : Option BuildTime :=
  if d.installed pkg then d.built pkg else none

def setGmerge (d : Sysroot Pkg) (pkg : Pkg) (file : Option PackageFile) : Sysroot Pkg :=
  { d with gmerge := Function.update d.gmerge pkg file }

/-- `d` without the built packages that are to go. -/
def removeBuilt (d : Sysroot Pkg) (gone : Pkg → Bool) : Sysroot Pkg :=
  { d with built := fun pkg => if gone pkg then none else d.built pkg }

end Sysroot

/-! ## Operations -/

/-- The trees after `populate`, each with its packages in some order. -/
structure Trees (Pkg : Type) where
  vartree : List Pkg
  bintree : List (Pkg × BuildTime)
  gmergeTree : List (Pkg × BuildTime)

/-- The first commands, which make the directory ready. -/
inductive Setup
  /-- `sudo mkdir -p` of gmerge-packages -/
  | mkdir
  /-- `sudo ln -snf` of stripped-packages -/
  | link
  /-- `sudo chown username` of gmerge-packages -/
  | chown (username : String)

/-- Each operation with its answer; `false` and `none` are failures, `exists` apart. -/
inductive PortageOp (Pkg : Type) : Type → Type
  | setup (command : Setup) : PortageOp Pkg Bool
  | createTrees : PortageOp Pkg (Option (Trees Pkg))
  | eclean : PortageOp Pkg Bool
  /-- `os.path.exists(gmerge_tree.getname(pkg))` -/
  | exists (pkg : Pkg) : PortageOp Pkg Bool
  | unlink (pkg : Pkg) : PortageOp Pkg Bool
  /-- the metadata of the built package -/
  | getData (pkg : Pkg) : PortageOp Pkg (Option BuildTime)
  /-- `mkdir -p` of the package's directory -/
  | mkdirPackage (pkg : Pkg) : PortageOp Pkg Bool
  | mkdtemp : PortageOp Pkg Bool
  /-- `pbzip2 -dc` of the built package into the temporary directory -/
  | extract (pkg : Pkg) (excludes : String) : PortageOp Pkg Bool
  /-- `tar -c` of the temporary directory to the package's file -/
  | writeTar (pkg : Pkg) : PortageOp Pkg Bool
  /-- `sudo rm -rf` of the temporary directory -/
  | removeTemp : PortageOp Pkg Bool
  | recomposeMem (pkg : Pkg) (xpak : BuildTime) : PortageOp Pkg Bool
  /-- `emaint -f binhost` with `PKGDIR` set -/
  | emaint : PortageOp Pkg Bool

inductive Error
  | calledProcessError
  | osError
  | keyError
  | portageError
deriving DecidableEq

abbrev M (Pkg : Type) := Prog (PortageOp Pkg) Error

def check (o : PortageOp Pkg Bool) (e : Error) : M Pkg Unit :=
  .op o fun done => if done then .ret () else .raise e

def expect {α : Type} (o : PortageOp Pkg (Option α)) (e : Error) : M Pkg α :=
  .op o fun answer => match answer with
    | some a => .ret a
    | none => .raise e

/-! ## The functions -/

/-- The environment that the functions read. -/
structure Environ where
  portageUsername : Option String
  defaultInstallMask : String := ""

/-- The files that tar leaves out. -/
def excludes (env : Environ) : String :=
  let masks := fields env.defaultInstallMask.toList
  let masks :=
    masks.map fun mask => "--exclude=\"./" ++ String.ofList (Separators.trim (· = '/') mask) ++ "\""
  "--anchored " ++ " ".intercalate masks

def filterInstallMaskFromPackage (env : Environ) (pkg : Pkg) : M Pkg Unit := do
  let myXpak ← expect (.getData pkg) .portageError
  check (.mkdirPackage pkg) .calledProcessError
  check .mkdtemp .osError
  (do
    check (.extract pkg (excludes env)) .calledProcessError
    check (.writeTar pkg) .calledProcessError).ensuring (check .removeTemp .calledProcessError)
  check (.recomposeMem pkg myXpak) .portageError

/-- What a run finds: the packages of the gmerge binhost, of the built one, and those of the built
one that are installed. -/
structure Matches (Pkg : Type) where
  gmergeMatches : List Pkg
  bindbMatches : List Pkg
  installedMatches : List Pkg

/-- The packages of the gmerge binhost that are not installed any more. -/
def Matches.stale (m : Matches Pkg) : List Pkg := m.gmergeMatches.filter (· ∉ m.installedMatches)

/-- In deep mode all packages, else those that match one of `pkgs`. -/
def matchPackages (matching : Atom → Pkg → Bool) (trees : Trees Pkg) (pkgs : List Atom)
    (deep : Bool) : Matches Pkg :=
  let gmerge := trees.gmergeTree.map Prod.fst
  let bindb := trees.bintree.map Prod.fst
  if deep then
    ⟨gmerge.dedup, bindb.dedup, (trees.vartree.filter (· ∈ bindb)).dedup⟩
  else
    pkgs.foldl (fun m pkg =>
      let bindbMatches := (m.bindbMatches ++ bindb.filter (matching pkg)).dedup
      ⟨(m.gmergeMatches ++ gmerge.filter (matching pkg)).dedup, bindbMatches,
        (m.installedMatches ++ (trees.vartree.filter (matching pkg)).filter
          (· ∈ bindbMatches)).dedup⟩) ⟨[], [], []⟩

/-- Unlinks those of the packages that have a file. -/
def removeStale : List Pkg → Bool → M Pkg Bool
  | [], changed => .ret changed
  | pkg :: pkgs, changed => .op (.exists pkg) fun found =>
      if found then
        check (.unlink pkg) .osError >>= fun _ => removeStale pkgs true
      else
        removeStale pkgs changed

def auxGet (tree : List (Pkg × BuildTime)) (pkg : Pkg) : M Pkg BuildTime :=
  match tree.lookup pkg with
  | some buildTime => .ret buildTime
  | none => .raise .keyError

/-- Whether the package is in the gmerge binhost with this build time. -/
def hasBuildTime (trees : Trees Pkg) (gmergeMatches : List Pkg) (pkg : Pkg)
    (buildTime : BuildTime) : M Pkg Bool :=
  if pkg ∈ gmergeMatches then
    .op (.exists pkg) fun found =>
      if found then
        auxGet trees.gmergeTree pkg >>= fun oldBuildTime => .ret (decide (oldBuildTime = buildTime))
      else
        .ret false
  else
    .ret false

/-- Copies the packages that have been rebuilt. -/
def copyRebuilt (env : Environ) (trees : Trees Pkg) (gmergeMatches : List Pkg) :
    List Pkg → Bool → M Pkg Bool
  | [], changed => .ret changed
  | pkg :: pkgs, changed =>
    auxGet trees.bintree pkg >>= fun buildTime =>
    hasBuildTime trees gmergeMatches pkg buildTime >>= fun fresh =>
      if fresh then
        copyRebuilt env trees gmergeMatches pkgs changed
      else
        filterInstallMaskFromPackage env pkg >>= fun _ =>
          copyRebuilt env trees gmergeMatches pkgs true

/-- A command that runs only where there is a reason to. -/
def checkIf (needed : Bool) (o : PortageOp Pkg Bool) : M Pkg Unit :=
  if needed then check o .calledProcessError else .ret ()

def environGet (name : Option String) : M Pkg String :=
  match name with
  | some username => .ret username
  | none => .raise .keyError

/-- `UpdateGmergeBinhost(sysroot, pkgs, deep)`; `matching` is portage's `match`. -/
def updateGmergeBinhost (env : Environ) (matching : Atom → Pkg → Bool) (pkgs : List Atom)
    (deep : Bool) : M Pkg Bool := do
  check (.setup .mkdir) .calledProcessError
  check (.setup .link) .calledProcessError
  let username ← environGet env.portageUsername
  check (.setup (.chown username)) .calledProcessError
  let trees ← expect .createTrees .portageError
  let m := matchPackages matching trees pkgs deep
  checkIf (m.bindbMatches.any (· ∉ m.installedMatches)) .eclean
  let changed ← removeStale m.stale false
  let changed ← copyRebuilt env trees m.gmergeMatches m.installedMatches changed
  checkIf changed .emaint
  return !m.installedMatches.isEmpty

/-! ## What the operations do -/

/-- A list of the packages of a directory, with their build times. -/
def Lists (tree : List (Pkg × BuildTime)) (f : Pkg → Option BuildTime) : Prop :=
  ∀ pkg t, (pkg, t) ∈ tree ↔ f pkg = some t

structure Trees.Of (trees : Trees Pkg) (d : Sysroot Pkg) : Prop where
  vartree : ∀ pkg, pkg ∈ trees.vartree ↔ d.installed pkg = true
  bintree : Lists trees.bintree d.built
  gmergeTree : Lists trees.gmergeTree d.listed

/-- The file of `pkg` is overwritten by one without metadata. -/
def Spoils (pkg : Pkg) (d d' : Sysroot Pkg) : Prop := d' = d.setGmerge pkg (some ⟨none⟩)

def sem (ecl : Eclean Pkg) : Sem (PortageOp Pkg) (Sysroot Pkg) := fun _ o d b d' =>
  match o, b with
  | .setup _, _ => d' = d
  | .createTrees, none => d' = d
  | .createTrees, some trees => trees.Of d ∧ d' = d
  | .eclean, true => d' = d.removeBuilt (ecl.removes d.installed)
  | .eclean, false =>
    ∃ gone : Pkg → Bool, (∀ pkg, gone pkg = true → ecl.removes d.installed pkg = true) ∧
      d' = d.removeBuilt gone
  | .exists pkg, found => found = (d.gmerge pkg).isSome ∧ d' = d
  | .unlink pkg, true => d' = d.setGmerge pkg none
  | .unlink _, false => d' = d
  | .getData pkg, some xpak => d.built pkg = some xpak ∧ d' = d
  | .getData _, none => d' = d
  | .mkdirPackage _, _ => d' = d
  | .mkdtemp, _ => d' = d
  | .extract _ _, _ => d' = d
  | .writeTar pkg, true => Spoils pkg d d'
  | .writeTar pkg, false => d' = d ∨ Spoils pkg d d'
  | .removeTemp, _ => d' = d
  | .recomposeMem pkg xpak, true => d' = d.setGmerge pkg (some ⟨some xpak⟩)
  | .recomposeMem pkg xpak, false =>
    d' = d ∨ Spoils pkg d d' ∨ d' = d.setGmerge pkg (some ⟨some xpak⟩)
  | .emaint, true => d' = { d with index := d.listed }
  | .emaint, false => ∃ index, d' = { d with index := index }

/-! ## The packages of a tree -/

variable {ecl : Eclean Pkg} {d : Sysroot Pkg} {pkg : Pkg}

theorem Lists.lookup {tree : List (Pkg × BuildTime)} {f : Pkg → Option BuildTime}
    (h : Lists tree f) (pkg : Pkg) :
    tree.lookup pkg = f pkg := by
  cases hl : tree.lookup pkg with
  | none =>
    rw [List.lookup_eq_none_iff] at hl
    refine (Option.eq_none_iff_forall_ne_some.mpr fun t ht => ?_).symm
    simpa using hl (pkg, t) ((h pkg t).mpr ht)
  | some t =>
    obtain ⟨l₁, l₂, htree, -⟩ := List.lookup_eq_some_iff.mp hl
    exact ((h pkg t).mp (by simp [htree])).symm

omit [DecidableEq Pkg] in
theorem Lists.mem_map_fst {tree : List (Pkg × BuildTime)} {f : Pkg → Option BuildTime}
    (h : Lists tree f) (pkg : Pkg) :
    pkg ∈ tree.map Prod.fst ↔ f pkg ≠ none := by
  simp only [List.mem_map, Prod.exists, exists_and_right, exists_eq_right, h pkg]
  exact Option.ne_none_iff_exists'.symm

namespace Sysroot

omit [DecidableEq Pkg] in
theorem listed_eq_some {t : BuildTime} : d.listed pkg = some t ↔ d.gmerge pkg = some ⟨some t⟩ := by
  unfold listed
  cases hg : d.gmerge pkg with
  | none => simp
  | some file =>
    obtain ⟨metadata⟩ := file
    simp

theorem setGmerge_setGmerge (file file' : Option PackageFile) :
    (d.setGmerge pkg file).setGmerge pkg file' = d.setGmerge pkg file' := by
  simp [setGmerge]

theorem setGmerge_gmerge_of_ne {other : Pkg} (h : other ≠ pkg) (file : Option PackageFile) :
    (d.setGmerge pkg file).gmerge other = d.gmerge other :=
  Function.update_of_ne h _ _

theorem setGmerge_listed_of_ne {other : Pkg} (h : other ≠ pkg) (file : Option PackageFile) :
    (d.setGmerge pkg file).listed other = d.listed other := by
  simp only [listed, setGmerge_gmerge_of_ne h]

end Sysroot

/-! ## What each function does where it returns -/

theorem ensures_check {o : PortageOp Pkg Bool} {e : Error} {R : Unit → Sysroot Pkg → Prop}
    (h : ∀ d', sem ecl o d true d' → R () d') : Ensures (sem ecl) R (check o e) d := by
  refine ensures_op fun done d' ho => ?_
  cases done with
  | true => exact ensures_ret (h d' ho)
  | false => exact ensures_raise e d'

theorem ensures_checkThen {o : PortageOp Pkg Bool} {e : Error} {β : Type} {k : Unit → M Pkg β}
    {R : β → Sysroot Pkg → Prop} (h : ∀ d', sem ecl o d true d' → Ensures (sem ecl) R (k ()) d') :
    Ensures (sem ecl) R (check o e >>= k) d :=
  ensures_bind (R := fun _ d' => sem ecl o d true d')
    (ensures_check fun _ ho => ho) fun _ d' ho => h d' ho

theorem ensures_expect {α : Type} {o : PortageOp Pkg (Option α)} {e : Error}
    {R : α → Sysroot Pkg → Prop} (h : ∀ a d', sem ecl o d (some a) d' → R a d') :
    Ensures (sem ecl) R (expect o e) d := by
  refine ensures_op fun answer d' ho => ?_
  cases answer with
  | some a => exact ensures_ret (h a d' ho)
  | none => exact ensures_raise e d'

theorem ensures_auxGet {tree : List (Pkg × BuildTime)} :
    Ensures (sem ecl) (fun t d' => d' = d ∧ tree.lookup pkg = some t) (auxGet tree pkg) d := by
  unfold auxGet
  cases tree.lookup pkg with
  | none => exact ensures_raise _ d
  | some t => exact ensures_ret ⟨rfl, rfl⟩

theorem ensures_environGet {name : Option String} :
    Ensures (sem ecl) (fun _ d' => d' = d) (environGet name) d := by
  cases name with
  | none => exact ensures_raise _ d
  | some username => exact ensures_ret rfl

theorem ensures_filterInstallMask (env : Environ) :
    Ensures (sem ecl) (fun _ d' => ∃ t, d.built pkg = some t ∧ d' = d.setGmerge pkg (some ⟨some t⟩))
      (filterInstallMaskFromPackage env pkg) d := by
  refine ensures_bind (ensures_expect fun myXpak d₁ h₁ => h₁) fun myXpak d₁ h₁ => ?_
  obtain ⟨hbuilt, rfl⟩ := h₁
  refine ensures_checkThen fun d₂ h₂ => ?_
  obtain rfl : d₂ = d₁ := h₂
  refine ensures_checkThen fun d₃ h₃ => ?_
  obtain rfl : d₃ = d₂ := h₃
  have hfile : Ensures (sem ecl) (fun _ d₄ => Spoils pkg d₃ d₄) (do
      check (.extract pkg (excludes env)) .calledProcessError
      check (.writeTar pkg) .calledProcessError) d₃ := by
    refine ensures_checkThen fun d₄ h₄ => ?_
    obtain rfl : d₄ = d₃ := h₄
    exact ensures_check fun d₅ h₅ => h₅
  refine ensures_bind (ensures_ensuring hfile fun _ d₄ h₄ => ?_)
    fun _ d₄ (h₄ : Spoils pkg d₃ d₄) => ?_
  · refine ensures_check fun d₅ h₅ => ?_
    obtain rfl : d₅ = d₄ := h₅
    exact h₄
  · refine ensures_check fun d₅ h₅ => ⟨myXpak, hbuilt, ?_⟩
    have h₅ : d₅ = d₄.setGmerge pkg (some ⟨some myXpak⟩) := h₅
    rw [h₅, h₄, Sysroot.setGmerge_setGmerge]

/-- The gmerge binhost without these packages. -/
def Sysroot.unlinked (d : Sysroot Pkg) (pkgs : List Pkg) : Sysroot Pkg :=
  { d with gmerge := fun p => if p ∈ pkgs then none else d.gmerge p }

theorem Sysroot.listed_unlinked (d : Sysroot Pkg) (pkgs : List Pkg) (p : Pkg) :
    (d.unlinked pkgs).listed p = if p ∈ pkgs then none else d.listed p := by
  unfold listed unlinked
  by_cases hp : p ∈ pkgs <;> simp [hp]

theorem ensures_removeStale (pkgs : List Pkg) (changed : Bool) :
    Ensures (sem ecl) (fun changed' d' => d' = d.unlinked pkgs ∧
        (changed' = true ↔ changed = true ∨ ∃ p ∈ pkgs, d.gmerge p ≠ none))
      (removeStale pkgs changed) d := by
  induction pkgs generalizing changed d with
  | nil => exact ensures_ret ⟨by simp [Sysroot.unlinked], by simp⟩
  | cons pkg pkgs ih =>
    refine ensures_op fun found d₁ h₁ => ?_
    obtain ⟨hfound, rfl⟩ := h₁
    cases found with
    | true =>
      have hsome : d₁.gmerge pkg ≠ none := by
        intro hnone
        rw [hnone] at hfound
        cases hfound
      refine ensures_checkThen fun d₂ h₂ => ?_
      obtain rfl : d₂ = d₁.setGmerge pkg none := h₂
      refine (ih true).mono fun changed' d' h => ⟨?_, ?_⟩
      · rw [h.1]
        simp only [Sysroot.unlinked, Sysroot.setGmerge, Sysroot.mk.injEq, true_and, and_true]
        funext p
        by_cases hp : p = pkg <;> simp [hp]
      · rw [h.2]
        exact ⟨fun _ => .inr ⟨pkg, List.mem_cons_self, hsome⟩, fun _ => .inl rfl⟩
    | false =>
      have hnone : d₁.gmerge pkg = none := by simpa using hfound.symm
      refine (ih changed).mono fun changed' d' h => ⟨?_, ?_⟩
      · rw [h.1]
        simp only [Sysroot.unlinked, Sysroot.mk.injEq, true_and, and_true]
        funext p
        by_cases hp : p = pkg <;> simp [hp, hnone]
      · rw [h.2]
        simp [hnone]

theorem ensures_hasBuildTime {trees : Trees Pkg} {gmergeMatches : List Pkg}
    (hmem : pkg ∈ gmergeMatches ↔ d.listed pkg ≠ none)
    (hget : trees.gmergeTree.lookup pkg = d.listed pkg) (t : BuildTime) :
    Ensures (sem ecl) (fun fresh d' => d' = d ∧ (fresh = true ↔ d.listed pkg = some t))
      (hasBuildTime trees gmergeMatches pkg t) d := by
  unfold hasBuildTime
  by_cases hin : pkg ∈ gmergeMatches
  · rw [if_pos hin]
    refine ensures_op fun found d₁ h₁ => ?_
    obtain ⟨hfound, rfl⟩ := h₁
    obtain ⟨t', ht'⟩ := Option.ne_none_iff_exists'.mp (hmem.mp hin)
    obtain rfl : found = true := by rw [hfound, Sysroot.listed_eq_some.mp ht', Option.isSome_some]
    refine ensures_bind ensures_auxGet fun old d₂ h₂ => ?_
    obtain ⟨rfl, hold⟩ := h₂
    refine ensures_ret ⟨rfl, ?_⟩
    rw [decide_eq_true_iff, ← hget, hold, Option.some.injEq]
  · rw [if_neg hin]
    refine ensures_ret ⟨rfl, ?_⟩
    have hnone : d.listed pkg = none := by
      by_contra hne
      exact hin (hmem.mpr hne)
    simp [hnone]

/-- What the trees say of a package, against the sysroot when its turn comes. -/
structure Trees.Says (trees : Trees Pkg) (gmergeMatches : List Pkg) (d : Sysroot Pkg) (pkg : Pkg) :
    Prop where
  built : trees.bintree.lookup pkg = d.built pkg
  listed : trees.gmergeTree.lookup pkg = d.listed pkg
  mem_gmerge : pkg ∈ gmergeMatches ↔ d.listed pkg ≠ none

theorem Trees.Says.setGmerge {trees : Trees Pkg} {gmergeMatches : List Pkg} {other : Pkg}
    (h : trees.Says gmergeMatches d other) (hne : other ≠ pkg) (file : Option PackageFile) :
    trees.Says gmergeMatches (d.setGmerge pkg file) other where
  built := h.built
  listed := by rw [Sysroot.setGmerge_listed_of_ne hne, h.listed]
  mem_gmerge := by rw [Sysroot.setGmerge_listed_of_ne hne, h.mem_gmerge]

/-- The gmerge binhost with these packages as they are in the built one. -/
def Sysroot.copied (d : Sysroot Pkg) (pkgs : List Pkg) : Sysroot Pkg :=
  { d with gmerge := fun p => if p ∈ pkgs then (d.built p).map fun t => ⟨some t⟩ else d.gmerge p }

theorem Sysroot.listed_copied (d : Sysroot Pkg) (pkgs : List Pkg) (p : Pkg) :
    (d.copied pkgs).listed p = if p ∈ pkgs then d.built p else d.listed p := by
  unfold listed copied
  by_cases hp : p ∈ pkgs
  · simp only [if_pos hp]
    cases d.built p <;> rfl
  · simp only [if_neg hp]

theorem ensures_copyRebuilt (env : Environ) {trees : Trees Pkg} {gmergeMatches : List Pkg} :
    ∀ {pkgs : List Pkg} (changed : Bool) {d : Sysroot Pkg}, pkgs.Nodup →
      (∀ p ∈ pkgs, trees.Says gmergeMatches d p) →
      Ensures (sem ecl) (fun changed' d' => d' = d.copied pkgs ∧
          (changed' = true ↔ changed = true ∨ ∃ p ∈ pkgs, d.listed p ≠ d.built p))
        (copyRebuilt env trees gmergeMatches pkgs changed) d := by
  intro pkgs
  induction pkgs with
  | nil => exact fun changed d _ _ => ensures_ret ⟨by simp [Sysroot.copied], by simp⟩
  | cons pkg pkgs ih =>
    intro changed d hnodup hknown
    obtain ⟨hnotin, hnodup⟩ := List.nodup_cons.mp hnodup
    have hpkg := hknown pkg List.mem_cons_self
    refine ensures_bind ensures_auxGet fun t d₁ h₁ => ?_
    obtain ⟨rfl, ht⟩ := h₁
    have hbuilt : d₁.built pkg = some t := by rw [← hpkg.built, ht]
    refine ensures_bind (ensures_hasBuildTime hpkg.mem_gmerge hpkg.listed t) fun fresh d₂ h₂ => ?_
    obtain ⟨rfl, hfresh⟩ := h₂
    cases fresh with
    | true =>
      have hlisted := hfresh.mp rfl
      refine (ih changed hnodup fun p hp => hknown p (List.mem_cons_of_mem _ hp)).mono
        fun changed' d' h => ⟨?_, ?_⟩
      · rw [h.1]
        simp only [Sysroot.copied, Sysroot.mk.injEq, true_and, and_true]
        funext p
        by_cases hp : p = pkg
        · simp [hp, hbuilt, Sysroot.listed_eq_some.mp hlisted]
        · simp [hp]
      · rw [h.2]
        simp [hlisted, hbuilt]
    | false =>
      have hlisted : d₂.listed pkg ≠ some t := fun hl => by simpa using hfresh.mpr hl
      refine ensures_bind (ensures_filterInstallMask env) fun _ d₃ h₃ => ?_
      obtain ⟨t', ht', rfl⟩ := h₃
      obtain rfl : t = t' := Option.some.inj (hbuilt.symm.trans ht')
      have hne : ∀ p ∈ pkgs, p ≠ pkg := fun p hp heq => hnotin (heq ▸ hp)
      refine (ih true hnodup fun p hp => (hknown p (List.mem_cons_of_mem _ hp)).setGmerge
        (hne p hp) _).mono
        fun changed' d' h => ⟨?_, ?_⟩
      · rw [h.1]
        simp only [Sysroot.copied, Sysroot.setGmerge, Sysroot.mk.injEq, true_and, and_true]
        funext p
        by_cases hp : p = pkg
        · simp [hp, hbuilt, hnotin]
        · simp [hp]
      · rw [h.2]
        exact ⟨fun _ => .inr ⟨pkg, List.mem_cons_self, by rwa [hbuilt]⟩, fun _ => .inl rfl⟩

theorem ensures_checkIf {needed : Bool} {o : PortageOp Pkg Bool} :
    Ensures (sem ecl) (fun _ d' => (needed = true → sem ecl o d true d') ∧
      (needed = false → d' = d)) (checkIf needed o) d := by
  cases needed with
  | true => exact ensures_check fun d' ho => ⟨fun _ => ho, fun h => (by cases h)⟩
  | false => exact ensures_ret ⟨fun h => (by cases h), fun _ => rfl⟩

/-! ## A run in deep mode -/

/-- Something is listed that should not be, or not listed as it should be. -/
def Sysroot.SomethingToDo (d : Sysroot Pkg) : Prop := ∃ pkg, d.listed pkg ≠ d.wanted pkg

/-- What is found in deep mode. -/
structure Matches.Of (m : Matches Pkg) (d : Sysroot Pkg) : Prop where
  gmerge : ∀ pkg, pkg ∈ m.gmergeMatches ↔ d.listed pkg ≠ none
  bindb : ∀ pkg, pkg ∈ m.bindbMatches ↔ d.built pkg ≠ none
  installed : ∀ pkg, pkg ∈ m.installedMatches ↔ d.wanted pkg ≠ none
  nodup : m.installedMatches.Nodup

theorem matches_of {trees : Trees Pkg} (h : trees.Of d) (matching : Atom → Pkg → Bool)
    (pkgs : List Atom) :
    (matchPackages matching trees pkgs true).Of d where
  gmerge pkg := List.mem_dedup.trans (h.gmergeTree.mem_map_fst pkg)
  bindb pkg := List.mem_dedup.trans (h.bintree.mem_map_fst pkg)
  installed pkg := by
    show pkg ∈ List.dedup _ ↔ _
    rw [List.mem_dedup, List.mem_filter, h.vartree, decide_eq_true_iff, h.bintree.mem_map_fst,
      Sysroot.wanted]
    by_cases hi : d.installed pkg = true <;> simp [hi]
  nodup := List.nodup_dedup _

/-- The packages to unlink. -/
theorem Matches.Of.mem_stale {m : Matches Pkg} (h : m.Of d) (pkg : Pkg) :
    pkg ∈ m.stale ↔ d.listed pkg ≠ none ∧ d.wanted pkg = none := by
  rw [Matches.stale, List.mem_filter, h.gmerge, decide_eq_true_iff, h.installed, not_not]

/-- After `eclean` has run, or was not needed. -/
structure Cleaned (ecl : Eclean Pkg) (d d' : Sysroot Pkg) : Prop where
  installed : d'.installed = d.installed
  gmerge : d'.gmerge = d.gmerge
  index : d'.index = d.index
  built : ∀ pkg, d.installed pkg = true → d'.built pkg = d.built pkg
  removed : ∀ pkg, ecl.removes d.installed pkg = true → d'.built pkg = none

omit [DecidableEq Pkg] in
theorem Cleaned.wanted {d' : Sysroot Pkg} (h : Cleaned ecl d d') : d'.wanted = d.wanted := by
  funext pkg
  unfold Sysroot.wanted
  rw [h.installed]
  by_cases hi : d.installed pkg = true
  · rw [if_pos hi, if_pos hi, h.built pkg hi]
  · rw [if_neg hi, if_neg hi]

theorem ensures_eclean {m : Matches Pkg} (h : m.Of d) :
    Ensures (sem ecl) (fun _ => Cleaned ecl d)
      (checkIf (m.bindbMatches.any (· ∉ m.installedMatches)) .eclean) d := by
  refine ensures_checkIf.mono fun _ d' hd' => ?_
  cases hneeded : m.bindbMatches.any (· ∉ m.installedMatches) with
  | true =>
    obtain rfl : d' = d.removeBuilt (ecl.removes d.installed) := hd'.1 hneeded
    refine ⟨rfl, rfl, rfl, fun pkg hi => if_neg fun hr => ?_, fun pkg hr => if_pos hr⟩
    rw [ecl.notInstalled _ pkg hr] at hi
    cases hi
  | false =>
    obtain rfl : d' = d := hd'.2 hneeded
    refine ⟨rfl, rfl, rfl, fun _ _ => rfl, fun pkg hr => ?_⟩
    -- a package that eclean would remove is not installed, and all that are built are
    by_contra hb
    have hmem := List.any_eq_false.mp hneeded pkg ((h.bindb pkg).mpr hb)
    rw [decide_eq_true_iff, not_not, h.installed, Sysroot.wanted, ecl.notInstalled _ pkg hr] at hmem
    exact hmem rfl

/-- After a run in deep mode. -/
structure Updated (ecl : Eclean Pkg) (d d' : Sysroot Pkg) : Prop where
  installed : d'.installed = d.installed
  wanted : d'.wanted = d.wanted
  listed : d'.listed = d.wanted
  removed : ∀ pkg, ecl.removes d.installed pkg = true → d'.built pkg = none
  index_of_changed : d.SomethingToDo → d'.index = d'.listed
  index_of_unchanged : ¬d.SomethingToDo → d'.index = d.index

omit [DecidableEq Pkg] in
theorem Matches.Of.installed_of_mem {m : Matches Pkg} (h : m.Of d) (hp : pkg ∈ m.installedMatches) :
    d.installed pkg = true := by
  by_contra hi
  exact (h.installed pkg).mp hp (by rw [Sysroot.wanted, if_neg hi])

omit [DecidableEq Pkg] in
theorem Cleaned.listed {d' : Sysroot Pkg} (h : Cleaned ecl d d') : d'.listed = d.listed := by
  funext p
  rw [Sysroot.listed, Sysroot.listed, h.gmerge]

/-- What is listed between the two loops. -/
theorem Matches.Of.listed_unlinked {m : Matches Pkg} (h : m.Of d) {d₁ : Sysroot Pkg}
    (h₁ : Cleaned ecl d d₁) (p : Pkg) :
    (d₁.unlinked m.stale).listed p =
      if d.wanted p = none then none else d.listed p := by
  rw [Sysroot.listed_unlinked, h₁.listed]
  by_cases hw : d.wanted p = none
  · rw [if_pos hw]
    by_cases hl : d.listed p = none
    · rw [hl, ite_self]
    · rw [if_pos ((h.mem_stale p).mpr ⟨hl, hw⟩)]
  · rw [if_neg hw, if_neg fun hs => hw ((h.mem_stale p).mp hs).2]

/-- What the second loop makes of that. -/
theorem ensures_copy (env : Environ) {trees : Trees Pkg} {m : Matches Pkg} (htrees : trees.Of d)
    (hm : m.Of d) {d₁ : Sysroot Pkg} (h₁ : Cleaned ecl d d₁) (changed : Bool) :
    Ensures (sem ecl)
      (fun changed' d' => Cleaned ecl d { d' with gmerge := d.gmerge } ∧ d'.listed = d.wanted ∧
        (changed' = true ↔ changed = true ∨ ∃ p, d.wanted p ≠ none ∧ d.listed p ≠ d.wanted p))
      (copyRebuilt env trees m.gmergeMatches m.installedMatches changed)
      (d₁.unlinked m.stale) := by
  have hbuilt : ∀ p ∈ m.installedMatches, d₁.built p = d.wanted p := by
    intro p hp
    rw [h₁.built p (hm.installed_of_mem hp), Sysroot.wanted, if_pos (hm.installed_of_mem hp)]
  have hlisted : ∀ p ∈ m.installedMatches,
      (d₁.unlinked m.stale).listed p = d.listed p := by
    intro p hp
    rw [hm.listed_unlinked h₁, if_neg ((hm.installed p).mp hp)]
  have hknown : ∀ p ∈ m.installedMatches, trees.Says m.gmergeMatches (d₁.unlinked m.stale) p := by
    intro p hp
    refine ⟨?_, by rw [htrees.gmergeTree.lookup, hlisted p hp], by rw [hm.gmerge, hlisted p hp]⟩
    rw [htrees.bintree.lookup]
    exact (h₁.built p (hm.installed_of_mem hp)).symm
  refine (ensures_copyRebuilt env changed hm.nodup hknown).mono fun changed' d' h => ?_
  obtain ⟨rfl, hchanged⟩ := h
  refine ⟨?_, ?_, ?_⟩
  · rw [← h₁.gmerge]
    exact h₁
  · funext p
    rw [Sysroot.listed_copied]
    by_cases hp : p ∈ m.installedMatches
    · rw [if_pos hp]
      exact hbuilt p hp
    · have hw : d.wanted p = none := not_not.mp fun hw => hp ((hm.installed p).mpr hw)
      rw [if_neg hp, hm.listed_unlinked h₁, if_pos hw, hw]
  · rw [hchanged]
    refine or_congr Iff.rfl (exists_congr fun p => ?_)
    rw [← hm.installed p]
    refine and_congr_right fun hp => ?_
    rw [hlisted p hp]
    exact not_congr (by rw [← hbuilt p hp]; exact Iff.rfl)

/-- The two loops change something where there is something to do. -/
theorem somethingToDo_iff {m : Matches Pkg} (hm : m.Of d) :
    ((∃ p ∈ m.stale, d.gmerge p ≠ none) ∨
      ∃ p, d.wanted p ≠ none ∧ d.listed p ≠ d.wanted p) ↔ d.SomethingToDo := by
  constructor
  · rintro (⟨p, hp, -⟩ | ⟨p, -, hne⟩)
    · obtain ⟨hl, hw⟩ := (hm.mem_stale p).mp hp
      exact ⟨p, by rwa [hw]⟩
    · exact ⟨p, hne⟩
  · rintro ⟨p, hne⟩
    by_cases hw : d.wanted p = none
    · have hl : d.listed p ≠ none := by rwa [hw] at hne
      refine .inl ⟨p, (hm.mem_stale p).mpr ⟨hl, hw⟩, fun hg => hl ?_⟩
      rw [Sysroot.listed, hg]
      rfl
    · exact .inr ⟨p, hw, hne⟩

theorem ensures_updateGmergeBinhost (env : Environ) (matching : Atom → Pkg → Bool)
    (pkgs : List Atom) (d : Sysroot Pkg) :
    Ensures (sem ecl) (fun _ => Updated ecl d) (updateGmergeBinhost env matching pkgs true) d := by
  refine ensures_checkThen fun d₁ h₁ => ?_
  obtain rfl : d₁ = d := h₁
  refine ensures_checkThen fun d₂ h₂ => ?_
  obtain rfl : d₂ = d₁ := h₂
  refine ensures_bind ensures_environGet fun username d₃ h₃ => ?_
  obtain rfl := h₃
  refine ensures_checkThen fun d₄ h₄ => ?_
  obtain rfl : d₄ = d₃ := h₄
  refine ensures_bind (ensures_expect fun trees d₅ h₅ => h₅) fun trees d₅ h₅ => ?_
  obtain ⟨htrees, rfl⟩ := h₅
  have hm := matches_of htrees matching pkgs
  refine ensures_bind (ensures_eclean hm) fun _ d₆ h₆ => ?_
  refine ensures_bind (ensures_removeStale _ _) fun changed d₇ h₇ => ?_
  obtain ⟨rfl, hchanged⟩ := h₇
  refine ensures_bind (ensures_copy env htrees hm h₆ changed) fun changed' d₈ h₈ => ?_
  obtain ⟨hcleaned, hlisted, hchanged'⟩ := h₈
  rw [hchanged, h₆.gmerge, or_iff_right (Bool.false_ne_true), somethingToDo_iff hm] at hchanged'
  refine ensures_bind ensures_checkIf fun _ d₉ h₉ => ensures_ret ?_
  have hwanted : d₈.wanted = d₅.wanted := hcleaned.wanted
  cases changed' with
  | true =>
    obtain rfl : d₉ = { d₈ with index := d₈.listed } := h₉.1 rfl
    exact ⟨hcleaned.installed, hwanted, hlisted, hcleaned.removed,
      fun _ => rfl, fun hn => absurd (hchanged'.mp rfl) hn⟩
  | false =>
    obtain rfl : d₉ = d₈ := h₉.2 rfl
    refine ⟨hcleaned.installed, hwanted, hlisted, hcleaned.removed,
      fun h => ?_, fun _ => hcleaned.index⟩
    cases hchanged'.mpr h

/-! ## A run that changes nothing -/

/-- From `d`, `p` changes nothing wherever it stops; what it returns satisfies `R`. -/
def Frozen {α : Type} (ecl : Eclean Pkg) (R : α → Prop) (p : M Pkg α) (d : Sysroot Pkg) : Prop :=
  wp (sem ecl) (fun d' => d' = d) (fun r d' => d' = d ∧ ∀ a, r = .ok a → R a) p d

theorem frozen_ret {α : Type} {R : α → Prop} {a : α} (h : R a) : Frozen ecl R (.ret a) d :=
  ⟨rfl, fun _ ha => Except.ok.inj ha ▸ h⟩

theorem frozen_raise {α : Type} {R : α → Prop} (e : Error) : Frozen ecl R (.raise e) d :=
  ⟨rfl, fun _ h => (by cases h)⟩

theorem frozen_op {α β : Type} {R : α → Prop} {o : PortageOp Pkg β} {k : β → M Pkg α}
    (h : ∀ b d', sem ecl o d b d' → d' = d ∧ Frozen ecl R (k b) d) : Frozen ecl R (.op o k) d := by
  intro b d' ho
  obtain ⟨rfl, hk⟩ := h b d' ho
  exact ⟨rfl, hk⟩

theorem frozen_bind {α β : Type} {R : α → Prop} {R' : β → Prop} {p : M Pkg α} {f : α → M Pkg β}
    (hp : Frozen ecl R p d) (hf : ∀ a, R a → Frozen ecl R' (f a) d) :
    Frozen ecl R' (p >>= f) d := by
  unfold Frozen
  rw [wp_bind]
  refine wp_mono ?_ hp
  rintro r d' ⟨rfl, hr⟩
  cases r with
  | ok a => exact hf a (hr a rfl)
  | error e => exact ⟨rfl, fun _ h => (by cases h)⟩

theorem frozen_checkThen {β : Type} {R : β → Prop} {o : PortageOp Pkg Bool} {e : Error}
    {k : Unit → M Pkg β} (ho : ∀ b d', sem ecl o d b d' → d' = d) (hk : Frozen ecl R (k ()) d) :
    Frozen ecl R (check o e >>= k) d := by
  refine frozen_op fun done d' hd' => ⟨ho done d' hd', ?_⟩
  cases done with
  | true => exact hk
  | false => exact frozen_raise e

theorem frozen_auxGet {tree : List (Pkg × BuildTime)} :
    Frozen ecl (fun t => tree.lookup pkg = some t) (auxGet tree pkg) d := by
  unfold auxGet
  cases tree.lookup pkg with
  | none => exact frozen_raise _
  | some t => exact frozen_ret rfl

theorem frozen_hasBuildTime {trees : Trees Pkg} {gmergeMatches : List Pkg}
    (h : trees.Says gmergeMatches d pkg) {t : BuildTime} (hlisted : d.listed pkg = some t) :
    Frozen ecl (fun fresh => fresh = true) (hasBuildTime trees gmergeMatches pkg t) d := by
  unfold hasBuildTime
  rw [if_pos (h.mem_gmerge.mpr (by rw [hlisted]; exact Option.some_ne_none t))]
  refine frozen_op fun found d' hfound => ⟨hfound.2, ?_⟩
  obtain rfl : found = true := by
    rw [hfound.1, Sysroot.listed_eq_some.mp hlisted, Option.isSome_some]
  refine frozen_bind frozen_auxGet fun old hold => frozen_ret ?_
  rw [h.listed, hlisted, Option.some.injEq] at hold
  exact decide_eq_true hold.symm

theorem frozen_copyRebuilt (env : Environ) {trees : Trees Pkg} {gmergeMatches : List Pkg}
    (changed : Bool) :
    ∀ {pkgs : List Pkg}, (∀ p ∈ pkgs, trees.Says gmergeMatches d p ∧ d.listed p = d.built p) →
      Frozen ecl (fun changed' => changed' = changed)
        (copyRebuilt env trees gmergeMatches pkgs changed) d := by
  intro pkgs
  induction pkgs with
  | nil => exact fun _ => frozen_ret rfl
  | cons pkg pkgs ih =>
    intro h
    obtain ⟨hknown, hlisted⟩ := h pkg List.mem_cons_self
    refine frozen_bind frozen_auxGet fun t ht => ?_
    rw [hknown.built, ← hlisted] at ht
    refine frozen_bind (frozen_hasBuildTime hknown ht) fun fresh hfresh => ?_
    subst hfresh
    exact ih fun p hp => h p (List.mem_cons_of_mem _ hp)

theorem frozen_createTrees : Frozen ecl (fun trees => trees.Of d)
    (expect .createTrees .portageError) d := by
  refine frozen_op fun answer d' hanswer => ?_
  cases answer with
  | none => exact ⟨hanswer, frozen_raise _⟩
  | some trees => exact ⟨hanswer.2, frozen_ret hanswer.1⟩

omit [DecidableEq Pkg] in
theorem Sysroot.removeBuilt_eq_self {gone : Pkg → Bool}
    (h : ∀ pkg, gone pkg = true → d.built pkg = none) :
    d.removeBuilt gone = d := by
  have hbuilt : (d.removeBuilt gone).built = d.built := by
    funext pkg
    show (if gone pkg = true then none else d.built pkg) = d.built pkg
    by_cases hg : gone pkg = true
    · rw [if_pos hg, h pkg hg]
    · rw [if_neg hg]
  calc d.removeBuilt gone = { d with built := (d.removeBuilt gone).built } := rfl
    _ = d := by rw [hbuilt]

theorem frozen_eclean (needed : Bool)
    (hremoved : ∀ pkg, ecl.removes d.installed pkg = true → d.built pkg = none) :
    Frozen ecl (fun _ => True) (checkIf needed .eclean) d := by
  unfold checkIf
  split
  · refine frozen_op fun done d' hd' => ?_
    cases done with
    | true =>
      obtain rfl : d' = d.removeBuilt (ecl.removes d.installed) := hd'
      exact ⟨Sysroot.removeBuilt_eq_self hremoved, frozen_ret trivial⟩
    | false =>
      obtain ⟨gone, hgone, rfl⟩ := hd'
      exact ⟨Sysroot.removeBuilt_eq_self fun pkg hg => hremoved pkg (hgone pkg hg), frozen_raise _⟩
  · exact frozen_ret trivial

/-- Where all is listed as it should be and `eclean` finds nothing to remove, a run changes
nothing. -/
theorem frozen_updateGmergeBinhost (env : Environ) (matching : Atom → Pkg → Bool)
    (pkgs : List Atom) (hlisted : d.listed = d.wanted)
    (hremoved : ∀ pkg, ecl.removes d.installed pkg = true → d.built pkg = none) :
    Frozen ecl (fun _ => True) (updateGmergeBinhost env matching pkgs true) d := by
  refine frozen_checkThen (fun _ _ h => h) (frozen_checkThen (fun _ _ h => h) ?_)
  have husername : Frozen ecl (fun _ => True) (environGet env.portageUsername) d := by
    unfold environGet
    cases env.portageUsername with
    | none => exact frozen_raise _
    | some username => exact frozen_ret trivial
  refine frozen_bind husername fun username _ => frozen_checkThen (fun _ _ h => h) ?_
  refine frozen_bind frozen_createTrees fun trees htrees => ?_
  have hm := matches_of htrees matching pkgs
  have hstale : (matchPackages matching trees pkgs true).stale = [] := by
    refine List.eq_nil_iff_forall_not_mem.mpr fun p hp => ?_
    obtain ⟨hl, hw⟩ := (hm.mem_stale p).mp hp
    exact hl (by rw [hlisted, hw])
  have hpkgs : ∀ p ∈ (matchPackages matching trees pkgs true).installedMatches,
      trees.Says (matchPackages matching trees pkgs true).gmergeMatches d p ∧
          d.listed p = d.built p := by
    intro p hp
    refine ⟨⟨htrees.bintree.lookup p, htrees.gmergeTree.lookup p, hm.gmerge p⟩, ?_⟩
    rw [hlisted, Sysroot.wanted, if_pos (hm.installed_of_mem hp)]
  refine frozen_bind (frozen_eclean _ hremoved) fun _ _ => ?_
  rw [hstale]
  refine frozen_bind (frozen_ret (rfl : false = false)) fun changed hchanged => ?_
  subst hchanged
  refine frozen_bind (frozen_copyRebuilt env false hpkgs) fun changed' hchanged' => ?_
  subst hchanged'
  have hindex : Frozen ecl (fun _ => True) (checkIf false .emaint) d := frozen_ret trivial
  exact frozen_bind hindex fun _ _ => frozen_ret trivial

/-! ## Histories of runs -/

/-- The packages listed are those to be listed, with their build times, and the index is theirs. -/
def Sysroot.UpToDate (d : Sysroot Pkg) : Prop := d.listed = d.wanted ∧ d.index = d.listed

/-- The runs of a history, in any mode. -/
def Run (matching : Atom → Pkg → Bool) (p : M Pkg Unit) : Prop :=
  ∃ env pkgs deep, p = (updateGmergeBinhost env matching pkgs deep >>= fun _ => .ret ())

/-- Between two runs packages are built, installed and removed. -/
def Surroundings (d d' : Sysroot Pkg) : Prop := d'.gmerge = d.gmerge ∧ d'.index = d.index

/-- After a run that succeeds the gmerge binhost is up to date and stays so, exactly if the index
was already that of the directory or the run had something to do. -/
theorem upToDate_iff (ecl : Eclean Pkg) (matching : Atom → Pkg → Bool) (d₀ : Sysroot Pkg) :
    ∀ d, Session (sem ecl) (Run matching) Surroundings d₀ d →
      ∀ env pkgs found d', Exec (sem ecl) (updateGmergeBinhost env matching pkgs true) d
        (.ok found) d' →
        ((d'.UpToDate ∧ ∀ env' pkgs' p d'',
          Steps (sem ecl) (updateGmergeBinhost env' matching pkgs' true) d' p d'' → d'' = d') ↔
          d.index = d.listed ∨ d.SomethingToDo) := by
  intro d _ env pkgs found d' hx
  have h : Updated ecl d d' := (ensures_updateGmergeBinhost env matching pkgs d).exec hx
  have hlisted : d'.listed = d'.wanted := by rw [h.listed, h.wanted]
  have hremoved : ∀ pkg, ecl.removes d'.installed pkg = true → d'.built pkg = none := by
    rw [h.installed]
    exact h.removed
  have hstays : ∀ env' pkgs' p d'',
      Steps (sem ecl) (updateGmergeBinhost env' matching pkgs' true) d' p d'' → d'' = d' := by
    intro env' pkgs' p d'' hs
    have hfrozen := frozen_updateGmergeBinhost env' matching pkgs' hlisted hremoved
    exact wp_steps (I := fun s => s = d') hfrozen rfl hs
  rw [and_iff_left hstays, Sysroot.UpToDate, and_iff_right hlisted]
  by_cases hdo : d.SomethingToDo
  · exact iff_of_true (h.index_of_changed hdo) (.inr hdo)
  · have hsame : d'.listed = d.listed := by
      rw [h.listed]
      funext p
      exact (not_not.mp fun hne => hdo ⟨p, hne⟩).symm
    rw [h.index_of_unchanged hdo, hsame, or_iff_left hdo]

/-- Removes what is not installed. -/
def removesUninstalled : Eclean String where
  removes installed pkg := !installed pkg
  notInstalled _ _ h := by simpa using h

/-- One package. -/
def onePackage (t : BuildTime) : String → Option BuildTime :=
  fun pkg => if pkg = "sys-apps/mosys-1" then some t else none

def user : Environ where
  portageUsername := some "portage"

def sameName (atom pkg : String) : Bool := decide (atom = pkg)

theorem listed_map (f : String → Option BuildTime) (i : String → Bool)
    (b x : String → Option BuildTime) :
    (⟨i, b, fun pkg => (f pkg).map fun t => ⟨some t⟩, x⟩ : Sysroot String).listed = f := by
  funext pkg
  show ((f pkg).map _).bind _ = f pkg
  cases f pkg <;> rfl

theorem lists_onePackage (t : BuildTime) : Lists [("sys-apps/mosys-1", t)] (onePackage t) := by
  intro pkg t'
  unfold onePackage
  by_cases hp : pkg = "sys-apps/mosys-1" <;> simp [hp, eq_comm]

/-- Two packages. -/
def twoPackages (t u : BuildTime) (pkg : String) : Option BuildTime :=
  if pkg = "sys-apps/flashrom-1" then some u else onePackage t pkg

theorem lists_twoPackages (t u : BuildTime) :
    Lists [("sys-apps/mosys-1", t), ("sys-apps/flashrom-1", u)] (twoPackages t u) := by
  intro pkg t'
  unfold twoPackages onePackage
  by_cases hf : pkg = "sys-apps/flashrom-1"
  · simp [hf, eq_comm]
  · by_cases hp : pkg = "sys-apps/mosys-1" <;> simp [hf, hp, eq_comm]

/-- One package has been built again since it was listed, the other one has been uninstalled. -/
def outdated : Sysroot String where
  installed pkg := decide (pkg = "sys-apps/mosys-1")
  built := twoPackages "1600000000" "1500000000"
  gmerge pkg := (twoPackages "1500000000" "1500000000" pkg).map fun t => ⟨some t⟩
  index := onePackage "1500000000"

def outdatedTrees : Trees String where
  vartree := ["sys-apps/mosys-1"]
  bintree := [("sys-apps/mosys-1", "1600000000"), ("sys-apps/flashrom-1", "1500000000")]
  gmergeTree := [("sys-apps/mosys-1", "1500000000"), ("sys-apps/flashrom-1", "1500000000")]

theorem outdatedTrees_of : outdatedTrees.Of outdated where
  vartree := by simp [outdatedTrees, outdated]
  bintree := lists_twoPackages _ _
  gmergeTree := by
    rw [outdated, listed_map]
    exact lists_twoPackages _ _

/-- The run removes one file and writes the other. -/
theorem exec_outdated :
    ∃ d, Exec (sem removesUninstalled) (updateGmergeBinhost user sameName [] true) outdated
      (.ok true) d := by
  have hsetup : ∀ c, sem removesUninstalled (.setup c) outdated true outdated := fun _ => rfl
  have htrees : sem removesUninstalled .createTrees outdated (some outdatedTrees) outdated :=
    ⟨outdatedTrees_of, rfl⟩
  let removed := outdated.removeBuilt (removesUninstalled.removes outdated.installed)
  let unlinked := removed.setGmerge "sys-apps/flashrom-1" none
  let spoiled := unlinked.setGmerge "sys-apps/mosys-1" (some ⟨none⟩)
  let written := spoiled.setGmerge "sys-apps/mosys-1" (some ⟨some "1600000000"⟩)
  have heclean : sem removesUninstalled .eclean outdated true removed := rfl
  have hstale : sem removesUninstalled (.exists "sys-apps/flashrom-1") removed true removed :=
    ⟨rfl, rfl⟩
  have hunlink : sem removesUninstalled (.unlink "sys-apps/flashrom-1") removed true unlinked := rfl
  have hthere : sem removesUninstalled (.exists "sys-apps/mosys-1") unlinked true unlinked :=
    ⟨rfl, rfl⟩
  have hdata : sem removesUninstalled (.getData "sys-apps/mosys-1") unlinked
    (some "1600000000") unlinked := ⟨rfl, rfl⟩
  have hmkdir : sem removesUninstalled (.mkdirPackage "sys-apps/mosys-1") unlinked true unlinked :=
    rfl
  have hmkdtemp : sem removesUninstalled .mkdtemp unlinked true unlinked := rfl
  have hextract : sem removesUninstalled (.extract "sys-apps/mosys-1" (excludes user)) unlinked true
    unlinked := rfl
  have hwrite : sem removesUninstalled (.writeTar "sys-apps/mosys-1") unlinked true spoiled := rfl
  have hremove : sem removesUninstalled .removeTemp spoiled true spoiled := rfl
  have hrecompose : sem removesUninstalled (.recomposeMem "sys-apps/mosys-1" "1600000000") spoiled
    true written := rfl
  have hemaint : sem removesUninstalled .emaint written true
    { written with index := written.listed } := rfl
  refine ⟨{ written with index := written.listed }, ?_⟩
  refine .op (hsetup _)
    (.op (hsetup _) (.op (hsetup _) (.op htrees (.op heclean (.op hstale (.op hunlink ?_))))))
  refine .op hthere
    (.op hdata (.op hmkdir (.op hmkdtemp (.op hextract (.op hwrite (.op hremove ?_))))))
  exact .op hrecompose (.op hemaint .ret)

theorem upToDate_iff_outdated :
    ∃ d, Exec (sem removesUninstalled) (updateGmergeBinhost user sameName [] true) outdated
      (.ok true) d ∧ d.UpToDate := by
  obtain ⟨d, h⟩ := exec_outdated
  have hdo : outdated.SomethingToDo := ⟨"sys-apps/mosys-1", by decide⟩
  exact ⟨d, h,
    ((upToDate_iff removesUninstalled sameName outdated outdated .start user [] true d h).mpr
      (.inr hdo)).1⟩

/-- A package that is listed and in the index, and not installed any more. -/
def abandoned : Sysroot String where
  installed _ := false
  built _ := none
  gmerge pkg := (onePackage "1500000000" pkg).map fun t => ⟨some t⟩
  index := onePackage "1500000000"

/-- What a run leaves that unlinks the package and fails at `emaint`. -/
def halfway : Sysroot String := abandoned.setGmerge "sys-apps/mosys-1" none

theorem halfway_listed : halfway.listed = fun _ => none := by
  funext pkg
  by_cases hp : pkg = "sys-apps/mosys-1"
  · subst hp
    rfl
  · rw [halfway, Sysroot.setGmerge_listed_of_ne hp, abandoned, listed_map, onePackage, if_neg hp]

theorem steps_halfway : ∃ p, Steps (sem removesUninstalled)
    (updateGmergeBinhost user sameName [] true >>= fun _ => .ret ()) abandoned p halfway := by
  have hsetup : ∀ c, sem removesUninstalled (.setup c) abandoned true abandoned := fun _ => rfl
  have htrees : sem removesUninstalled .createTrees abandoned
      (some ⟨[], [], [("sys-apps/mosys-1", "1500000000")]⟩) abandoned := by
    refine ⟨⟨by simp [abandoned], by simp [Lists, abandoned], ?_⟩, rfl⟩
    rw [abandoned, listed_map]
    exact lists_onePackage _
  have hexists : sem removesUninstalled (.exists "sys-apps/mosys-1") abandoned true abandoned :=
    ⟨rfl, rfl⟩
  have hunlink : sem removesUninstalled (.unlink "sys-apps/mosys-1") abandoned true halfway := rfl
  have hemaint : sem removesUninstalled .emaint halfway false halfway := ⟨halfway.index, rfl⟩
  exact ⟨_, .op (hsetup _)
    (.op (hsetup _) (.op (hsetup _) (.op htrees (.op hexists (.op hunlink (.op hemaint .refl))))))⟩

theorem exec_halfway : Exec (sem removesUninstalled)
    (updateGmergeBinhost user sameName [] true) halfway (.ok false) halfway := by
  have hsetup : ∀ c, sem removesUninstalled (.setup c) halfway true halfway := fun _ => rfl
  have htrees : sem removesUninstalled .createTrees halfway (some ⟨[], [], []⟩) halfway := by
    refine ⟨⟨by
        simp [halfway, abandoned, Sysroot.setGmerge], by
          simp [Lists, halfway, abandoned, Sysroot.setGmerge], ?_⟩, rfl⟩
    rw [halfway_listed]
    simp [Lists]
  exact .op (hsetup _) (.op (hsetup _) (.op (hsetup _) (.op htrees .ret)))

/-- The run that removes the package fails at `emaint`; the next one succeeds and leaves the package
in the index. -/
theorem index_left_behind :
    abandoned.index = abandoned.listed ∧ Session (sem removesUninstalled)
      (Run sameName) Surroundings abandoned halfway ∧
      Exec (sem removesUninstalled) (updateGmergeBinhost user sameName [] true) halfway
        (.ok false) halfway ∧
      halfway.index "sys-apps/mosys-1" = some "1500000000" ∧
        halfway.listed "sys-apps/mosys-1" = none := by
  obtain ⟨p, hp⟩ := steps_halfway
  refine ⟨?_, .command .start ⟨user, [], true, rfl⟩ hp, exec_halfway, by decide, by decide⟩
  rw [abandoned, listed_map]

end Builder
