import DevUtil.Lib.PosixPath
import DevUtil.Lib.Separators
import DevUtil.Lib.Text

/-!
# The archive URL of a telemetry setup

What `TelemetrySetup` makes of `gs://<gs_bucket>/<build_name>`: the requests of the
dependencies and the directory of the build.  The prefix is taken off with
`strip('gs://')`, which takes off any of its characters at both ends.

    bucket and build come back exactly if neither end has such a character   (getBucketAndBuild_iff)
-/

namespace GsCache.ArchiveUrl

open Lib Separators

/-- One of the characters that `strip('gs://')` takes off. -/
def inPrefix (c : Char) : Bool := "gs://".toList.contains c

/-- `_GetBucketAndBuild` -/
def getBucketAndBuild (archiveUrl : Text) : Text × Text :=
  let cleanUrl := trim inPrefix archiveUrl
  let parts := cleanUrl.splitOn '/'
  (parts.headD [], ['/'].intercalate parts.tail)

def gsCacheBaseUrl : Text := "http://127.0.0.1:8888/extract".toList

def baseDirPath : Text := "/home/chromeos-test/images".toList

def partialDependencyDirPath : Text := "autotest/packages".toList

/-- What the constructor sets, the temp dir apart. -/
structure TelemetrySetup where
  bucket : Text
  build : Text
  buildDir : Text
  tlmSrcDirPath : Text
deriving DecidableEq

/-- `TelemetrySetup(archive_url)` -/
def TelemetrySetup.init (archiveUrl : Text) : TelemetrySetup :=
  let (bucket, build) := getBucketAndBuild archiveUrl
  let buildDir := PosixPath.join baseDirPath build
  ⟨bucket, build, buildDir, PosixPath.join buildDir "telemetry_src".toList⟩

/-- `src_folder` of `Setup` -/
def TelemetrySetup.srcFolder (t : TelemetrySetup) : Text :=
  PosixPath.join t.tlmSrcDirPath "src".toList

/-- The URL that `_DownloadFilesFromTar` requests. -/
def TelemetrySetup.requestUrl (t : TelemetrySetup) (filename : Text) : Text :=
  let params := "file=".toList ++ partialDependencyDirPath ++ '/' :: filename
  let partialUrl := gsCacheBaseUrl ++ '/' :: t.bucket ++ '/' :: t.build ++
    "/autotest_packages.tar".toList
  partialUrl ++ '?' :: params

/-! ## When bucket and build come back -/

/-- The bucket begins, and the build ends (the bucket, if there is no build), with a character that
stays. -/
structure Stays (bucket build : Text) : Prop where
  bucket_head : ∀ c ∈ bucket.head?, inPrefix c = false
  build_last : ∀ c ∈ build.getLast?, inPrefix c = false
  bucket_last : build = [] → ∀ c ∈ bucket.getLast?, inPrefix c = false

def archiveUrl (bucket build : Text) : Text := "gs://".toList ++ (bucket ++ '/' :: build)

theorem getBucketAndBuild_eq {url clean : Text} (hclean : trim inPrefix url = clean) :
    getBucketAndBuild url =
      ((clean.splitOn '/').headD [], ['/'].intercalate (clean.splitOn '/').tail) := by
  subst hclean
  rfl

theorem getBucketAndBuild_of_clean {bucket build url : Text} (hslash : '/' ∉ bucket)
    (hclean : trim inPrefix url = bucket ++ '/' :: build) :
    getBucketAndBuild url = (bucket, build) := by
  rw [getBucketAndBuild_eq hclean, List.splitOn_append_cons_self_of_not_mem hslash]
  show (bucket, ['/'].intercalate (build.splitOn '/')) = (bucket, build)
  rw [List.intercalate_splitOn]

/-- What was stripped, from bucket and build. -/
theorem clean_of_getBucketAndBuild {bucket build url : Text}
    (h : getBucketAndBuild url = (bucket, build)) :
    trim inPrefix url = bucket ++ '/' :: build ∨ (trim inPrefix url = bucket ∧ build = []) := by
  have hjoin : ['/'].intercalate ((trim inPrefix url).splitOn '/') = trim inPrefix url :=
    List.intercalate_splitOn '/'
  rw [getBucketAndBuild_eq rfl] at h
  cases hparts : (trim inPrefix url).splitOn '/' with
  | nil => exact absurd hparts (List.splitOn_ne_nil _ _)
  | cons part parts =>
    rw [hparts] at h hjoin
    obtain ⟨rfl, rfl⟩ := Prod.mk.inj h
    cases parts with
    | nil => exact .inr ⟨by simpa using hjoin.symm, rfl⟩
    | cons part' parts => exact .inl (by rw [← hjoin]; rfl)

theorem getBucketAndBuild_iff {bucket build : Text} (hne : bucket ≠ []) (hslash : '/' ∉ bucket) :
    getBucketAndBuild (archiveUrl bucket build) = (bucket, build) ↔ Stays bucket build := by
  have hprefix : ∀ c ∈ "gs://".toList, inPrefix c = true := fun c hc => List.contains_iff_mem.mpr hc
  constructor
  · intro h
    have hclean := clean_of_getBucketAndBuild h
    have hnil : trim inPrefix (archiveUrl bucket build) ≠ [] := by
      rcases hclean with hclean | ⟨hclean, -⟩ <;> simp [hclean, hne]
    have hhead := trim_head hnil
    have hlast := trim_last (p := inPrefix) (s := archiveUrl bucket build)
    rcases hclean with hclean | ⟨hclean, rfl⟩
    · rw [hclean] at hhead hlast
      have hbuild : build ≠ [] := by
        rintro rfl
        -- the last character would be the slash
        have hslashKept := hlast '/' (by simp)
        cases hslashKept
      refine ⟨fun c hc => hhead c ?_, fun c hc => hlast c ?_, fun hb => absurd hb hbuild⟩
      · rw [List.head?_append, Option.mem_def.mp hc]
        rfl
      · rw [List.getLast?_append, List.getLast?_cons_of_ne_nil hbuild, Option.mem_def.mp hc]
        rfl
    · rw [hclean] at hhead hlast
      exact ⟨hhead, fun c hc => (by cases hc), fun _ => hlast⟩
  · intro h
    by_cases hb : build = []
    · subst hb
      have hclean : trim inPrefix (archiveUrl bucket []) = bucket :=
        trim_eq hprefix (List.all_eq_true.mp (by decide)) hne h.bucket_head (h.bucket_last rfl)
      rw [getBucketAndBuild_eq hclean, List.splitOn_eq_singleton hslash]
      rfl
    · refine getBucketAndBuild_of_clean hslash ?_
      have htrim : trim inPrefix ("gs://".toList ++ ((bucket ++ '/' :: build) ++ [])) = bucket ++
          '/' :: build := by
        refine trim_eq hprefix (by simp) (by simp)
          (NoSepHead.append h.bucket_head hne _) fun c hc => h.build_last c ?_
        rw [List.getLast?_append, List.getLast?_cons_of_ne_nil hb] at hc
        cases hl : build.getLast? with
        | none => exact absurd (List.getLast?_eq_none_iff.mp hl) hb
        | some last =>
          rw [hl] at hc
          exact hc
      rwa [List.append_nil] at htrim

/-! ## Where a dependency comes from and goes to -/

/-- The directory of the build as the text says it. -/
theorem join_baseDirPath {build : Text} :
    PosixPath.join baseDirPath build = baseDirPath ++ '/' :: build ↔ build.head? ≠ some '/' := by
  unfold PosixPath.join
  by_cases hhead : build.head? = some '/'
  · rw [if_pos hhead]
    refine iff_of_false (fun heq => ?_) (fun hn => hn hhead)
    have hlen := congrArg List.length heq
    rw [List.length_append, List.length_cons] at hlen
    omega
  · rw [if_neg hhead, if_neg (by decide)]
    exact iff_of_true rfl hhead

/-- All the paths of a setup, from bucket and build. -/
structure Placed (t : TelemetrySetup) (bucket build : Text) : Prop where
  bucket_eq : t.bucket = bucket
  build_eq : t.build = build
  requestUrl_eq : ∀ filename, t.requestUrl filename = gsCacheBaseUrl ++ '/' :: bucket ++
    '/' :: build ++
    "/autotest_packages.tar".toList ++ "?file=autotest/packages/".toList ++ filename
  buildDir_eq : t.buildDir = baseDirPath ++ '/' :: build
  tlmSrcDirPath_eq : t.tlmSrcDirPath = PosixPath.join
    (baseDirPath ++ '/' :: build) "telemetry_src".toList
  srcFolder_eq : t.srcFolder = PosixPath.join
    (PosixPath.join (baseDirPath ++ '/' :: build) "telemetry_src".toList) "src".toList

/-- Bucket and build reach the requests and the directory unchanged exactly if `strip` leaves them
alone and the build is not an absolute path. -/
theorem placed_iff {bucket build : Text} (hne : bucket ≠ []) (hslash : '/' ∉ bucket) :
    Placed (.init (archiveUrl bucket build)) bucket build ↔
      Stays bucket build ∧ build.head? ≠ some '/' := by
  rw [← getBucketAndBuild_iff hne hslash, ← join_baseDirPath]
  constructor
  · intro h
    have hpair : getBucketAndBuild (archiveUrl bucket build) = (bucket, build) :=
      Prod.ext h.bucket_eq h.build_eq
    refine ⟨hpair, ?_⟩
    have hdir := h.buildDir_eq
    rw [TelemetrySetup.init, hpair] at hdir
    exact hdir
  · rintro ⟨hpair, hdir⟩
    have hinit : TelemetrySetup.init (archiveUrl bucket build) =
        ⟨bucket, build, baseDirPath ++ '/' :: build,
            PosixPath.join (baseDirPath ++ '/' :: build) "telemetry_src".toList⟩ := by
      rw [TelemetrySetup.init, hpair]
      show TelemetrySetup.mk bucket build (PosixPath.join baseDirPath build) _ = _
      rw [hdir]
    have hparams : "?file=autotest/packages/".toList =
        '?' :: ("file=".toList ++ (partialDependencyDirPath ++ ['/'])) := by
      decide
    rw [hinit]
    refine ⟨rfl, rfl, fun filename => ?_, rfl, rfl, rfl⟩
    simp only [TelemetrySetup.requestUrl, hparams, List.append_assoc, List.cons_append,
      List.nil_append]

theorem placed_iff_release :
    Placed (.init (archiveUrl "chromeos-image-archive".toList "lumpy-release/R30-4100.0.0".toList))
      "chromeos-image-archive".toList
        "lumpy-release/R30-4100.0.0".toList ↔
      Stays "chromeos-image-archive".toList "lumpy-release/R30-4100.0.0".toList ∧
        "lumpy-release/R30-4100.0.0".toList.head? ≠ some '/' :=
  placed_iff (by decide) (by decide)

/-- The bucket loses its first letter. -/
theorem bucket_cut : "staging-images".toList ≠ [] ∧ '/' ∉ "staging-images".toList ∧
    ¬Placed (.init (archiveUrl "staging-images".toList "lumpy-release/R30-4100.0.0".toList))
      "staging-images".toList
      "lumpy-release/R30-4100.0.0".toList := by
  refine ⟨by decide, by decide, fun h => ?_⟩
  have hcut : (TelemetrySetup.init
    (archiveUrl "staging-images".toList "lumpy-release/R30-4100.0.0".toList)).bucket =
    "taging-images".toList := by decide
  rw [h.bucket_eq] at hcut
  exact absurd hcut (by decide)

end GsCache.ArchiveUrl
