import DevUtil.Lib.Dict
import DevUtil.Lib.PosixPath
import DevUtil.Lib.Text
import DevUtil.Lib.WorkList

/-!
# Reading the manifests of a repo tree

`getRepoManifest` of `willis.go`: the files that are still to be read are a work list, and an
include element puts its file at the end of it. A file that includes itself, directly or not, is
read again and again.

    it does to the manifest what the work list hands out         (readFiles_eq)
    it returns, and with every project ↔ no file that
      `default.xml` needs includes itself                        (getRepoManifest_iff)
-/

namespace Willis

open Lib

/-! ## Paths -/

/-- Go's `path.Clean` -/
def clean (path : Text) : Text :=
  let rooted := decide (path.head? = some '/')
  let comps := (path.splitOn '/').foldl (PosixPath.normStep rooted) []
  let out := (if rooted then ['/'] else []) ++ ['/'].intercalate comps
  if out = [] then ['.'] else out

/-- Go's `path.Join`: the elements from the first one on that is not empty. -/
def join (elems : List Text) : Text :=
  match elems.dropWhile List.isEmpty with
  | [] => []
  | elems => clean (['/'].intercalate elems)

/-! ## Manifests -/

structure Project where
  remote : Text
  path : Text
  revision : Text
  name : Text
  tracking : Text := []
deriving DecidableEq

structure DefaultTracking where
  revision : Text := []
  remote : Text := []

structure RemoteServer where
  name : Text
  aliasName : Text

structure Manifest where
  dflt : DefaultTracking := {}
  includes : List Text := []
  projects : List Project := []
  remotes : List RemoteServer := []

/-- The elements of a manifest file; of a `default` element, the attributes that it has. -/
structure Document where
  dflts : List (Option Text × Option Text) := []
  includes : List Text := []
  projects : List Project := []
  remotes : List RemoteServer := []

/-- `xml.Unmarshal` into a manifest that is not empty. -/
def unmarshal (doc : Document) (m : Manifest) : Manifest where
  dflt := doc.dflts.foldl (fun d attrs =>
    { revision := attrs.1.getD d.revision, remote := attrs.2.getD d.remote }) m.dflt
  includes := m.includes ++ doc.includes
  projects := m.projects ++ doc.projects
  remotes := m.remotes ++ doc.remotes

section

variable {Err : Type} (readFile : Text → Except Err Document) (rootDir : Text)

/-- The loop of `getRepoManifest`; `readFile` reads a file and parses it. -/
def readFiles : Nat → List Text → Manifest → Option (Except Err Manifest)
  | 0, _, _ => none
  | _ + 1, [], manifest => some (.ok manifest)
  | fuel + 1, file :: files, manifest =>
    match readFile file with
    | .error err => some (.error err)
    | .ok doc =>
      let manifest := unmarshal doc manifest
      readFiles fuel (files ++ manifest.includes.map fun name => join [rootDir, name])
        { manifest with includes := [] }

def getRepoManifest (fuel : Nat) : Option (Except Err Manifest) :=
  readFiles readFile rootDir fuel [join [rootDir, "default.xml".toList]] {}

end

/-! ## Sets of files -/

/-- A finite set of manifest files, which include each other, and `default.xml`. -/
structure ManifestFiles where
  rootDir : Text
  files : Dict Text Document
  default : join [rootDir, "default.xml".toList] ∈ files.keys
  closed : ∀ path doc, files.get? path = some doc →
    ∀ name ∈ doc.includes, join [rootDir, name] ∈ files.keys

namespace ManifestFiles

/-- `ioutil.ReadFile` fails for a file that is not there. -/
def readFile (s : ManifestFiles) (path : Text) : Except Text Document :=
  match s.files.get? path with
  | some doc => .ok doc
  | none => .error ("open ".toList ++ path ++ ": no such file or directory".toList)

def defaultPath (s : ManifestFiles) : Text := join [s.rootDir, "default.xml".toList]

/-- The files that a file includes. -/
def next (s : ManifestFiles) (path : Text) : List Text :=
  ((s.files.get? path).getD {}).includes.map fun name => join [s.rootDir, name]

/-- `default.xml` includes the file, directly or not, or is it. -/
def Included (s : ManifestFiles) (path : Text) : Prop := WorkList.Reach s.next s.defaultPath path

/-- The manifest has the projects of all files. -/
def Complete (s : ManifestFiles) (m : Manifest) : Prop :=
  ∀ path doc, s.Included path → s.files.get? path = some doc → ∀ p ∈ doc.projects, p ∈ m.projects

/-- The call returns, with every project of every included file. -/
def Reads (s : ManifestFiles) : Prop :=
  ∃ fuel m, getRepoManifest s.readFile s.rootDir fuel = some (.ok m) ∧ s.Complete m

/-- No file that is included includes itself, directly or not. -/
def Acyclic (s : ManifestFiles) : Prop := ∀ path, s.Included path → ¬WorkList.Returns s.next path

/-! ## The loop is a work list -/

/-- The manifest after the files. -/
def collect (s : ManifestFiles) (done : List Text) : Manifest :=
  done.foldl (fun m path => { unmarshal ((s.files.get? path).getD {}) m with includes := [] }) {}

variable {s : ManifestFiles}

theorem collect_concat (s : ManifestFiles) (done : List Text) (path : Text) :
    s.collect (done ++ [path]) =
      { unmarshal ((s.files.get? path).getD {}) (s.collect done) with includes := [] } := by
  rw [collect, List.foldl_append]
  rfl

/-- The loop begins a round with nothing left to include. -/
theorem collect_includes (s : ManifestFiles) (done : List Text) :
    (s.collect done).includes = [] := by
  induction done using List.reverseRecOn with
  | nil => rfl
  | append_singleton done path _ => rw [collect_concat]

theorem mem_collect {done : List Text} {path : Text} (h : path ∈ done) {p : Project}
    (hp : p ∈ ((s.files.get? path).getD {}).projects) : p ∈ (s.collect done).projects := by
  induction done using List.reverseRecOn with
  | nil => cases h
  | append_singleton done last ih =>
    rw [collect_concat]
    rcases List.mem_append.mp h with h | h
    · exact List.mem_append_left _ (ih h)
    · rw [← List.mem_singleton.mp h]
      exact List.mem_append_right _ hp

theorem next_mem {path : Text} (hpath : path ∈ s.files.keys) :
    ∀ b ∈ s.next path, b ∈ s.files.keys := by
  intro b hb
  obtain ⟨doc, hdoc⟩ := Dict.mem_keys.mp hpath
  rw [next, hdoc] at hb
  obtain ⟨name, hname, rfl⟩ := List.mem_map.mp hb
  exact s.closed path doc hdoc name hname

theorem readFiles_eq {fuel : Nat} {files done : List Text}
    (h : ∀ path ∈ files, path ∈ s.files.keys) :
    readFiles s.readFile s.rootDir fuel files (s.collect done) =
      (WorkList.drain s.next fuel files done).map fun done => .ok (s.collect done) := by
  induction fuel generalizing files done with
  | zero => rfl
  | succ fuel ih =>
    cases files with
    | nil => rfl
    | cons file files =>
      obtain ⟨doc, hdoc⟩ := Dict.mem_keys.mp (h file List.mem_cons_self)
      have hread : s.readFile file = .ok doc := by rw [readFile, hdoc]
      have hrest : ∀ path ∈ files ++ s.next file, path ∈ s.files.keys := by
        intro path hpath
        rcases List.mem_append.mp hpath with hpath | hpath
        · exact h path (List.mem_cons_of_mem file hpath)
        · exact next_mem (h file List.mem_cons_self) path hpath
      have hnext : ((unmarshal doc (s.collect done)).includes.map fun name =>
          join [s.rootDir, name]) = s.next file := by
        rw [next, hdoc, unmarshal, collect_includes]
        rfl
      have hcollect : { unmarshal doc (s.collect done) with includes := [] } =
          s.collect (done ++ [file]) := by
        rw [collect_concat, hdoc]
        rfl
      rw [readFiles, hread, WorkList.drain, ← ih hrest]
      simp only [hnext, hcollect]

theorem getRepoManifest_eq (s : ManifestFiles) (fuel : Nat) :
    getRepoManifest s.readFile s.rootDir fuel =
      (WorkList.drain s.next fuel [s.defaultPath] []).map fun done => .ok (s.collect done) := by
  have hdefault : ∀ path ∈ [s.defaultPath], path ∈ s.files.keys := by
    intro path hpath
    rw [List.mem_singleton.mp hpath]
    exact s.default
  exact @readFiles_eq s fuel [s.defaultPath] [] hdefault

/-! ## Cycles of includes -/

/-- A file of a cycle is read again and again. -/
theorem getRepoManifest_none {path : Text} (h : s.Included path)
    (hcycle : WorkList.Returns s.next path) (fuel : Nat) :
    getRepoManifest s.readFile s.rootDir fuel = none := by
  have hnone : WorkList.drain s.next fuel [s.defaultPath] [] = none := by
    apply WorkList.drain_none
      (B := fun a => ∃ b, WorkList.Reach s.next a b ∧ WorkList.Returns s.next b)
    · rintro a ⟨b, hreach, hb⟩
      exact WorkList.exists_next_of_cycle hreach hb
    · exact ⟨s.defaultPath, List.mem_singleton.mpr rfl, path, h, hcycle⟩
  rw [getRepoManifest_eq, hnone]
  rfl

/-- **The manifest is read, with all projects, exactly if no file that it needs includes
itself.** -/
theorem getRepoManifest_iff (s : ManifestFiles) : s.Reads ↔ s.Acyclic := by
  constructor
  · rintro ⟨fuel, m, hrun, -⟩ path hpath hcycle
    rw [getRepoManifest_none hpath hcycle] at hrun
    cases hrun
  · intro hacyclic
    have hacc : ∀ a ∈ [s.defaultPath], Acc (WorkList.Follows s.next) a := by
      intro a ha
      rw [List.mem_singleton.mp ha]
      exact WorkList.acc_of_acyclic (fun a ha => next_mem ha) s.default hacyclic
    obtain ⟨fuel, done, hdrain⟩ := WorkList.drain_returns hacc []
    refine ⟨fuel, s.collect done, by rw [getRepoManifest_eq, hdrain]; rfl, ?_⟩
    intro path doc hpath hdoc p hp
    have hdone : path ∈ done := WorkList.mem_of_drain hdrain (List.mem_singleton.mpr rfl) hpath
    exact mem_collect hdone (by rw [hdoc]; exact hp)

/-- `default.xml` includes itself. -/
def selfInclude : ManifestFiles where
  rootDir := "/src/.repo/manifests".toList
  files :=
    ⟨[("/src/.repo/manifests/default.xml".toList, { includes := ["default.xml".toList] })], by
        decide⟩
  default := by decide
  closed path doc h name hname := by
    have hmem := List.mem_singleton.mp (Dict.mem_items.mpr h)
    cases hmem
    rw [List.mem_singleton.mp hname]
    decide

theorem not_reads : ¬∀ s : ManifestFiles, s.Reads := by
  intro h
  obtain ⟨fuel, m, hrun, -⟩ := h selfInclude
  have hcycle : WorkList.Returns selfInclude.next selfInclude.defaultPath :=
    Relation.TransGen.single (by decide)
  rw [getRepoManifest_none Relation.ReflTransGen.refl hcycle fuel] at hrun
  cases hrun

end ManifestFiles

end Willis
