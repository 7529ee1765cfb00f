import DevUtil.Lib.PosixPath

/-!
# The archive server

The RPCs of `gs_archive_server.py` that a request for a file in an archive goes through.
The caching server in front of them forwards every request to the RPC it is for.

    extract accepts a path → the chain downloads that path, through its own tool
      ↔ the name has a stem, and the client does not send the header itself   (extract_chain_iff)
-/

namespace GsCache

open Lib.PosixPath

abbrev Path := List Char

/-! ## Requests -/

inductive Rpc
  | download
  | extract
  | decompress
deriving DecidableEq

structure Request where
  rpc : Rpc
  path : Path
  /-- `X-Compressed-Tar-Ext` -/
  compressedTarExt : Option (List Char)

/-- The command lines that decompress a file. -/
inductive Tool
  | gzip
  | xz
  | bzip2
deriving DecidableEq

/-- Data from Google Storage: its path there, and the tools it has gone through. -/
structure Fetched where
  path : Path
  tools : List Tool
deriving DecidableEq

inductive Error
  | badRequest
  | keyError
  | outOfFuel
deriving DecidableEq

/-! ## The caching server -/

def downloadAndDecompressTar (path : Path) (extName : List Char) : Request :=
  let path := if extName = ".tgz".toList then (splitext path).1 else path
  ⟨.decompress, path ++ extName, none⟩

/-- `_CachingServer.download`, with what the headers have of the extension. `_call` puts the path
into the url as it is: the request comes with the same path where the url keeps it, so without a
`?`, a `#` or a `%` in it. -/
def cachingDownload (path : Path) : Option (List Char) → Request
  | none => ⟨.download, path, none⟩
  | some extName =>
    if extName ≠ [] then downloadAndDecompressTar path extName else ⟨.download, path, none⟩

/-! ## The RPCs -/

def checkFileExtension (filename : Path) (extNames : List String) : Except Error Path :=
  if filename = [] then .error .badRequest
  else if extNames = [] then .ok filename
  else if extNames.any fun extName => decide (extName.toList <:+ filename) then .ok filename
  else .error .badRequest

def extractExtNames : List String := [".tar", ".tar.gz", ".tgz", ".tar.bz2", ".tar.xz"]

def decompressExtNames : List String := [".tar.gz", ".tar.bz2", ".tar.xz", ".tgz"]

/-- The request that `extract` makes for one file. -/
def extractRequest (archive : Path) (compressedTarExt : Option (List Char)) : Request :=
  let (archiveBasename, archiveExtname) := splitext archive
  if archiveExtname = ".tar".toList then cachingDownload archive compressedTarExt
  else if archiveExtname = ".tgz".toList then
    cachingDownload (archiveBasename ++ ".tar".toList) (some archiveExtname)
  else cachingDownload archiveBasename (some archiveExtname)

/-- `commands[extname]` -/
def commands (extname : List Char) : Except Error Tool :=
  if extname = ".gz".toList then .ok .gzip
  else if extname = ".tgz".toList then .ok .gzip
  else if extname = ".xz".toList then .ok .xz
  else if extname = ".bz2".toList then .ok .bzip2
  else .error .keyError

/-- The answer to a request, after at most so many RPCs. -/
def serve : Nat → Request → Except Error Fetched
  | 0, _ => .error .outOfFuel
  | fuel + 1, request =>
    match request.rpc with
    | .download => do
      let path ← checkFileExtension request.path []
      return ⟨path, []⟩
    | .extract => do
      let archive ← checkFileExtension request.path extractExtNames
      serve fuel (extractRequest archive request.compressedTarExt)
    | .decompress => do
      let zarchive ← checkFileExtension request.path decompressExtNames
      let got ← serve fuel (cachingDownload zarchive request.compressedTarExt)
      let tool ← commands (splitext (basename zarchive)).2
      return ⟨got.path, got.tools ++ [tool]⟩

/-! ## What the chain is for -/

/-- The tool for the extension, if it is a compressed one; read from the end. -/
def ownTools (path : Path) : List Tool :=
  match path.reverse with
  | 'z' :: 'g' :: '.' :: 'r' :: 'a' :: 't' :: '.' :: _ => [.gzip]
  | 'z' :: 'g' :: 't' :: '.' :: _ => [.gzip]
  | '2' :: 'z' :: 'b' :: '.' :: 'r' :: 'a' :: 't' :: '.' :: _ => [.bzip2]
  | 'z' :: 'x' :: '.' :: 'r' :: 'a' :: 't' :: '.' :: _ => [.xz]
  | _ => []

/-- The name has something else than dots in it. -/
def HasStem (q : Path) : Prop := (basename q).any (· ≠ '.') = true

instance decidableHasStem (q : Path) : Decidable (HasStem q) := instDecidableEqBool _ _

/-- When the chain does what it is for. -/
structure ChainFits (path : Path) (compressedTarExt : Option (List Char)) : Prop where
  /-- `.tgz` does not follow a name of dots only -/
  tgz : ∀ q, path = q ++ ".tgz".toList → HasStem q
  /-- for an archive that is not compressed the client does not send the header -/
  tar : ∀ q, path = q ++ ".tar".toList → HasStem q → compressedTarExt.getD [] = []

/-! ## Names -/

theorem hasStem_append {q e : Path} (he : '/' ∉ e) (hne : e.any (· ≠ '.') = true) :
    HasStem (q ++ e) := by
  unfold HasStem
  rw [basename_append he, List.any_append, hne, Bool.or_true]

theorem hasStem_basename {q : Path} (h : HasStem q) : HasStem (basename q) := by
  unfold HasStem
  rw [show basename (basename q) = basename q from List.rtakeWhile_idempotent _ _]
  exact h

theorem splitext_hasStem {q e : Path} (hdot : '.' ∉ e) (hslash : '/' ∉ e) (h : HasStem q) :
    splitext (q ++ '.' :: e) = (q, '.' :: e) := by
  exact (splitext_dot hdot hslash).trans (if_pos h)

theorem splitext_noStem {q e : Path} (hdot : '.' ∉ e) (hslash : '/' ∉ e) (h : ¬HasStem q) :
    splitext (q ++ '.' :: e) = (q ++ '.' :: e, []) := by
  exact (splitext_dot hdot hslash).trans (if_neg h)

/-! ## RPCs -/

theorem check_download {path : Path} (h : path ≠ []) : checkFileExtension path [] = .ok path := by
  simp [checkFileExtension, h]

theorem check_suffix {q : Path} {ext : String} {extNames : List String} (hmem : ext ∈ extNames)
    (hne : q ++ ext.toList ≠ []) :
    checkFileExtension (q ++ ext.toList) extNames = .ok (q ++ ext.toList) := by
  have hany : (extNames.any fun extName => decide (extName.toList <:+ q ++ ext.toList)) = true :=
    List.any_eq_true.mpr ⟨ext, hmem, decide_eq_true (List.suffix_append _ _)⟩
  rw [checkFileExtension, if_neg hne, if_neg (List.ne_nil_of_mem hmem), if_pos hany]

/-- What `extract` accepts. -/
theorem check_extract_cases {path : Path} (h : checkFileExtension path extractExtNames = .ok path) :
    ∃ q, ∃ ext ∈ extractExtNames, path = q ++ ext.toList := by
  unfold checkFileExtension at h
  split at h
  · cases h
  · split at h
    · next hnil => cases hnil
    · split at h
      · next hany =>
        obtain ⟨ext, hext, hsuffix⟩ := List.any_eq_true.mp hany
        obtain ⟨q, hq⟩ := of_decide_eq_true hsuffix
        exact ⟨q, ext, hext, hq.symm⟩
      · cases h

theorem serve_download (fuel : Nat) {path : Path} (h : path ≠ []) (ext : Option (List Char)) :
    serve (fuel + 1) ⟨.download, path, ext⟩ = .ok ⟨path, []⟩ := by
  unfold serve
  simp only [check_download h]
  rfl

theorem serve_decompress (fuel : Nat) (path : Path) (ext : Option (List Char)) :
    serve (fuel + 1) ⟨.decompress, path, ext⟩ =
      (checkFileExtension path decompressExtNames).bind fun zarchive =>
        (serve fuel (cachingDownload zarchive ext)).bind fun got =>
          (commands (splitext (basename zarchive)).2).bind fun tool =>
            .ok ⟨got.path, got.tools ++ [tool]⟩ := rfl

/-- What comes out of `decompress` has gone through a tool. -/
theorem serve_decompress_tools {fuel : Nat} {path : Path} {ext : Option (List Char)} {got : Fetched}
    (h : serve fuel ⟨.decompress, path, ext⟩ = .ok got) : got.tools ≠ [] := by
  cases fuel with
  | zero => cases h
  | succ fuel =>
    rw [serve_decompress] at h
    cases hcheck : checkFileExtension path decompressExtNames with
    | error e =>
      rw [hcheck] at h
      cases h
    | ok zarchive =>
      rw [hcheck, Except.bind] at h
      cases hgot : serve fuel (cachingDownload zarchive ext) with
      | error e =>
        rw [hgot] at h
        cases h
      | ok got' =>
        rw [hgot, Except.bind] at h
        cases htool : commands (splitext (basename zarchive)).2 with
        | error e =>
          rw [htool] at h
          cases h
        | ok tool =>
          rw [htool, Except.bind] at h
          cases h
          simp

/-- An extension: no dot and no slash after the first dot. -/
def IsExt (e : Path) : Prop := '.' ∉ e ∧ '/' ∉ e

theorem serve_decompress_own (fuel : Nat) {q e : Path} {tool : Tool} (he : IsExt e) (hq : HasStem q)
    (hcheck : checkFileExtension (q ++ '.' :: e) decompressExtNames = .ok (q ++ '.' :: e))
    (htool : commands ('.' :: e) = .ok tool) :
    serve (fuel + 2) ⟨.decompress, q ++ '.' :: e, none⟩ = .ok ⟨q ++ '.' :: e, [tool]⟩ := by
  have hslash : '/' ∉ '.' :: e := fun h => (List.mem_cons.mp h).elim (by decide) he.2
  have hgot : serve (fuel + 1) (cachingDownload (q ++ '.' :: e) none) = .ok ⟨q ++ '.' :: e, []⟩ :=
    serve_download fuel (List.append_ne_nil_of_right_ne_nil q (List.cons_ne_nil '.' e)) none
  rw [serve_decompress, hcheck, Except.bind, hgot, Except.bind, basename_append hslash,
    splitext_hasStem he.1 he.2 (hasStem_basename hq), htool]
  rfl

theorem serve_extract (fuel : Nat) {path : Path} (ext : Option (List Char))
    (h : checkFileExtension path extractExtNames = .ok path) :
    serve (fuel + 1) ⟨.extract, path, ext⟩ = serve fuel (extractRequest path ext) := by
  show (checkFileExtension path extractExtNames).bind
    (fun archive => serve fuel (extractRequest archive ext)) = _
  rw [h]
  rfl

/-! ## The requests of `extract` -/

/-- `foo.tar.gz` and the like: the last extension goes, and comes back. -/
theorem extractRequest_compressed {q e : Path} (ext : Option (List Char)) (he : IsExt e)
    (hq : HasStem q)
    (htar : '.' :: e ≠ ".tar".toList) (htgz : '.' :: e ≠ ".tgz".toList) :
    extractRequest (q ++ '.' :: e) ext = ⟨.decompress, q ++ '.' :: e, none⟩ := by
  unfold extractRequest
  rw [splitext_hasStem he.1 he.2 hq]
  show (if '.' :: e = ".tar".toList then _ else if '.' :: e = ".tgz".toList then _ else _) = _
  rw [if_neg htar, if_neg htgz, cachingDownload, if_pos (List.cons_ne_nil '.' e),
    downloadAndDecompressTar]
  simp only [if_neg htgz]

/-- `foo.tgz` becomes `foo.tar`, and comes back. -/
theorem extractRequest_tgz {q : Path} (ext : Option (List Char)) (hq : HasStem q) :
    extractRequest (q ++ ".tgz".toList) ext = ⟨.decompress, q ++ ".tgz".toList, none⟩ := by
  have hsplit : splitext (q ++ ".tgz".toList) = (q, ".tgz".toList) :=
    splitext_hasStem (e := ['t', 'g', 'z']) (by decide) (by decide) hq
  have hback : splitext (q ++ ".tar".toList) = (q, ".tar".toList) :=
    splitext_hasStem (e := ['t', 'a', 'r']) (by decide) (by decide) hq
  unfold extractRequest
  rw [hsplit]
  show (if ".tgz".toList = ".tar".toList then _ else if ".tgz".toList = ".tgz".toList then
    _ else _) = _
  rw [if_neg (by decide), if_pos rfl, cachingDownload, if_pos (by decide), downloadAndDecompressTar]
  simp only [if_pos, hback]

/-- A name of dots only has no extension, and nothing is compressed. -/
theorem extractRequest_noStem {q e : Path} (ext : Option (List Char)) (he : IsExt e)
    (hq : ¬HasStem q) :
    extractRequest (q ++ '.' :: e) ext = ⟨.download, q ++ '.' :: e, none⟩ := by
  unfold extractRequest
  rw [splitext_noStem he.1 he.2 hq]
  show (if ([] : Path) = ".tar".toList then _ else if ([] : Path) = ".tgz".toList then _ else _) = _
  rw [if_neg (by decide), if_neg (by decide), cachingDownload]
  rfl

theorem extractRequest_tar {q : Path} (ext : Option (List Char)) (hq : HasStem q) :
    extractRequest (q ++ ".tar".toList) ext = cachingDownload (q ++ ".tar".toList) ext := by
  have hsplit : splitext (q ++ ".tar".toList) = (q, ".tar".toList) :=
    splitext_hasStem (e := ['t', 'a', 'r']) (by decide) (by decide) hq
  unfold extractRequest
  rw [hsplit]
  show (if ".tar".toList = ".tar".toList then _ else _) = _
  rw [if_pos rfl]

/-! ## The chain -/

/-- The chain for `path` ends in downloading it, through the tool for its own extension. -/
def ChainRight (fuel : Nat) (path : Path) (ext : Option (List Char)) : Prop :=
  serve (fuel + 3) ⟨.extract, path, ext⟩ = .ok ⟨path, ownTools path⟩

theorem chain_compressed (fuel : Nat) {q e : Path} {tool : Tool} (ext : Option (List Char))
    (he : IsExt e)
    (hq : HasStem q) (htar : '.' :: e ≠ ".tar".toList) (htgz : '.' :: e ≠ ".tgz".toList)
    (hextract : checkFileExtension (q ++ '.' :: e) extractExtNames = .ok (q ++ '.' :: e))
    (hdecompress : checkFileExtension (q ++ '.' :: e) decompressExtNames = .ok (q ++ '.' :: e))
    (htool : commands ('.' :: e) = .ok tool) (hown : ownTools (q ++ '.' :: e) = [tool]) :
    ChainRight fuel (q ++ '.' :: e) ext := by
  unfold ChainRight
  rw [serve_extract (fuel + 2) ext hextract, extractRequest_compressed ext he hq htar htgz,
    serve_decompress_own fuel he hq hdecompress htool, hown]

/-- Nothing is decompressed for a name of dots only. -/
theorem chain_noStem (fuel : Nat) {q e : Path} (ext : Option (List Char)) (he : IsExt e)
    (hq : ¬HasStem q)
    (hextract : checkFileExtension (q ++ '.' :: e) extractExtNames = .ok (q ++ '.' :: e)) :
    serve (fuel + 3) ⟨.extract, q ++ '.' :: e, ext⟩ = .ok ⟨q ++ '.' :: e, []⟩ := by
  rw [serve_extract (fuel + 2) ext hextract, extractRequest_noStem ext he hq]
  exact serve_download (fuel + 1)
    (List.append_ne_nil_of_right_ne_nil q (List.cons_ne_nil '.' e)) none

/-- Only the end of the name counts. -/
theorem ownTools_append (q : Path) :
    ownTools (q ++ ".tar".toList) = [] ∧ ownTools (q ++ ".tgz".toList) = [.gzip] ∧
      ownTools (q ++ ".tar.gz".toList) = [.gzip] ∧ ownTools (q ++ ".tar.bz2".toList) = [.bzip2] ∧
      ownTools (q ++ ".tar.xz".toList) = [.xz] := by
  refine ⟨?_, ?_, ?_, ?_, ?_⟩ <;>
    · rw [ownTools, List.reverse_append]
      rfl

theorem chain_tgz (fuel : Nat) {q : Path} (ext : Option (List Char))
    (hextract : checkFileExtension (q ++ ".tgz".toList) extractExtNames =
      .ok (q ++ ".tgz".toList)) :
    ChainRight fuel (q ++ ".tgz".toList) ext ↔ HasStem q := by
  have he : IsExt ['t', 'g', 'z'] := ⟨by decide, by decide⟩
  obtain ⟨-, hown, -⟩ := ownTools_append q
  unfold ChainRight
  rw [hown]
  constructor
  · intro h
    by_contra hq
    have hnone : serve (fuel + 3) ⟨.extract, q ++ ".tgz".toList, ext⟩ =
        .ok ⟨q ++ ".tgz".toList, []⟩ :=
      chain_noStem fuel ext he hq hextract
    rw [hnone] at h
    cases h
  · intro hq
    have hcheck : checkFileExtension (q ++ ".tgz".toList) decompressExtNames =
        .ok (q ++ ".tgz".toList) :=
      check_suffix (by decide) (List.append_ne_nil_of_right_ne_nil q (by decide))
    rw [serve_extract (fuel + 2) ext hextract, extractRequest_tgz ext hq]
    exact serve_decompress_own fuel he hq hcheck (by decide)

theorem chain_tar (fuel : Nat) {q : Path} (ext : Option (List Char))
    (hextract : checkFileExtension (q ++ ".tar".toList) extractExtNames =
      .ok (q ++ ".tar".toList)) :
    ChainRight fuel (q ++ ".tar".toList) ext ↔ (HasStem q → ext.getD [] = []) := by
  have he : IsExt ['t', 'a', 'r'] := ⟨by decide, by decide⟩
  have hne : q ++ ".tar".toList ≠ [] := List.append_ne_nil_of_right_ne_nil q (by decide)
  obtain ⟨hown, -⟩ := ownTools_append q
  unfold ChainRight
  rw [hown]
  by_cases hq : HasStem q
  · rw [serve_extract (fuel + 2) ext hextract, extractRequest_tar ext hq]
    cases ext with
    | none => exact iff_of_true (serve_download (fuel + 1) hne none) (fun _ => rfl)
    | some extName =>
      by_cases hext : extName = []
      · rw [cachingDownload, if_neg (not_not.mpr hext)]
        exact iff_of_true (serve_download (fuel + 1) hne none) (fun _ => hext)
      · rw [cachingDownload, if_pos hext]
        constructor
        · intro h
          exact absurd rfl (serve_decompress_tools h)
        · intro h
          exact absurd (h hq) hext
  · exact iff_of_true (chain_noStem fuel ext he hq hextract) (fun h => absurd h hq)

/-- A name ends in an extension only if its own one does. -/
theorem suffix_own {q q' e e' : Path} (h : q ++ e = q' ++ e') (hlen : e'.length ≤ e.length) :
    e' <:+ e :=
  List.suffix_of_suffix_length_le ⟨q', h.symm⟩ (List.suffix_append q e) hlen

theorem fits_compressed {q e : Path} (ext : Option (List Char)) (hlen : 4 ≤ e.length)
    (htgz : ¬".tgz".toList <:+ e) (htar : ¬".tar".toList <:+ e) : ChainFits (q ++ e) ext where
  tgz _ h := absurd (suffix_own h hlen) htgz
  tar _ h _ := absurd (suffix_own h hlen) htar

theorem fits_tgz (q : Path) (ext : Option (List Char)) :
    ChainFits (q ++ ".tgz".toList) ext ↔ HasStem q := by
  constructor
  · intro h
    exact h.tgz q rfl
  · intro hq
    refine ⟨fun q' h => ?_, fun q' h => ?_⟩
    · rw [← (List.append_inj' h (by decide)).1]
      exact hq
    · exact absurd (List.append_inj' h (by decide)).2 (by decide)

theorem fits_tar (q : Path) (ext : Option (List Char)) :
    ChainFits (q ++ ".tar".toList) ext ↔ (HasStem q → ext.getD [] = []) := by
  constructor
  · intro h
    exact h.tar q rfl
  · intro hq
    refine ⟨fun q' h => ?_, fun q' h => ?_⟩
    · exact absurd (List.append_inj' h (by decide)).2 (by decide)
    · rw [← (List.append_inj' h (by decide)).1]
      exact hq

/-- `.tar.gz` and the like have their tool for every name, since `.tar` is a stem. -/
theorem chain_iff_tarCompressed (fuel : Nat) {q e : Path} {extName : String} {tool : Tool}
    (ext : Option (List Char))
    (he : IsExt e) (hname : extName.toList = ".tar".toList ++ '.' :: e)
    (hmem : extName ∈ decompressExtNames)
    (htar : ¬".tar".toList <:+ extName.toList) (htgz : ¬".tgz".toList <:+ extName.toList)
    (hextract : checkFileExtension (q ++ extName.toList) extractExtNames =
      .ok (q ++ extName.toList))
    (htool : commands ('.' :: e) = .ok tool) (hown : ownTools (q ++ extName.toList) = [tool]) :
    ChainRight fuel (q ++ extName.toList) ext ↔ ChainFits (q ++ extName.toList) ext := by
  have hne : q ++ extName.toList ≠ [] := List.append_ne_nil_of_right_ne_nil q (by simp [hname])
  have hdecompress : checkFileExtension (q ++ extName.toList) decompressExtNames =
      .ok (q ++ extName.toList) :=
    check_suffix hmem hne
  have hlen : 4 ≤ extName.toList.length := by simp [hname]
  have hown_suffix : '.' :: e <:+ extName.toList := ⟨_, hname.symm⟩
  refine iff_of_true ?_ (fits_compressed ext hlen htgz htar)
  rw [hname, ← List.append_assoc] at hextract hdecompress hown ⊢
  exact chain_compressed fuel ext he (hasStem_append (by decide) (by decide))
    (fun h => htar (h ▸ hown_suffix))
    (fun h => htgz (h ▸ hown_suffix)) hextract hdecompress htool hown

/-- The chain of `extract` is right exactly if the name before `.tgz` has a stem, and the client
leaves out the header for a `.tar`. -/
theorem extract_chain_iff (fuel : Nat) (path : Path) (ext : Option (List Char))
    (haccepts : checkFileExtension path extractExtNames = .ok path) :
    ChainRight fuel path ext ↔ ChainFits path ext := by
  obtain ⟨q, extName, hmem, rfl⟩ := check_extract_cases haccepts
  simp only [extractExtNames, List.mem_cons, List.not_mem_nil, or_false] at hmem
  rcases hmem with rfl | rfl | rfl | rfl | rfl
  · rw [chain_tar fuel ext haccepts, fits_tar]
  · exact chain_iff_tarCompressed fuel (e := ['g', 'z']) ext ⟨by decide, by decide⟩ rfl
      (by decide) (by decide)
      (by decide) haccepts rfl (ownTools_append q).2.2.1
  · rw [chain_tgz fuel ext haccepts, fits_tgz]
  · exact chain_iff_tarCompressed fuel (e := ['b', 'z', '2']) ext ⟨by decide, by decide⟩ rfl
      (by decide) (by decide)
      (by decide) haccepts rfl (ownTools_append q).2.2.2.1
  · exact chain_iff_tarCompressed fuel (e := ['x', 'z']) ext ⟨by decide, by decide⟩ rfl
      (by decide) (by decide)
      (by decide) haccepts rfl (ownTools_append q).2.2.2.2

theorem extract_chain_iff_foo : ChainRight 0 "bucket/foo.tgz".toList none ↔
    ChainFits "bucket/foo.tgz".toList none :=
  extract_chain_iff 0 "bucket/foo.tgz".toList none (by decide)

/-- `.tgz` is downloaded, and goes on to `tar` as it is. -/
theorem not_chainRight : checkFileExtension "bucket/.tgz".toList extractExtNames =
    .ok "bucket/.tgz".toList ∧
    serve 3 ⟨.extract, "bucket/.tgz".toList, none⟩ = .ok ⟨"bucket/.tgz".toList, []⟩ ∧
    ¬ChainRight 0 "bucket/.tgz".toList none := by
  refine ⟨by decide, by decide, ?_⟩
  unfold ChainRight
  decide

end GsCache
