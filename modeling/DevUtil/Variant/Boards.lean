import DevUtil.Variant.StepSpecs

/-!
# The supported boards

The modules that `get_status` can import, and what a status keeps of the one that it was
made from.
-/

namespace Variant

open Lib

def hatch : Board where
  base := "hatch"
  corebootDir := "third_party/coreboot"
  cbConfigDir := none
  fitimageDir :=
    some "private-overlays/baseboard-hatch-private/sys-boot/coreboot-private-files-hatch"
  fitimageOutputsDir := some "asset_generation/outputs"
  privateYamlDir :=
    some "~/trunk/src/private-overlays/overlay-hatch-private/chromeos-base/chromeos-config-bsp-hatch-private"
  stepList := [.cbVariant, .cbConfig, .addFit, .genFit, .commitFit, .ecImage, .addPubYaml,
    .addPrivYaml, .buildConfig,
    .emerge, .push, .upload, .find, .calcCqDepend, .addCqDepend, .reUpload, .cleanUp]
  repoUploadList := [.cbConfig, .commitFit, .ecImage, .addPubYaml, .addPrivYaml]
  corebootPushList := [.cbVariant]
  depends := ⟨[(.cbConfig, [.find]), (.addPubYaml, [.addPrivYaml, .cbConfig, .commitFit, .ecImage]),
    (.addPrivYaml, [.addPubYaml, .cbConfig, .commitFit, .ecImage])], by decide⟩

def puff : Board where
  base := "puff"
  corebootDir := "third_party/coreboot"
  cbConfigDir := none
  fitimageDir := some "private-overlays/baseboard-puff-private/sys-boot/coreboot-private-files-puff"
  fitimageOutputsDir := some "asset_generation/outputs"
  privateYamlDir := none
  stepList := [.projectConfig, .fwBuildConfig, .cbVariant, .cbConfig, .addFit, .genFit, .commitFit,
    .emerge, .push,
    .upload, .find, .calcCqDepend, .addCqDepend, .reUpload, .cleanUp]
  repoUploadList := [.cbConfig, .commitFit, .fwBuildConfig]
  corebootPushList := [.cbVariant]
  depends := ⟨[(.cbConfig, [.find]), (.fwBuildConfig, [.find, .cbConfig, .commitFit])], by decide⟩

/-- Its firmware is with that of `puff`. -/
def ambassador : Board := { puff with base := "ambassador" }

def trembyle : Board where
  base := "zork"
  corebootDir := "third_party/coreboot"
  cbConfigDir := none
  fitimageDir := none
  fitimageOutputsDir := none
  privateYamlDir := none
  stepList := [.projectConfig, .fwBuildConfig, .cbVariant, .cbConfig, .crasConfig, .ecImage,
    .emerge, .push, .find,
    .upload, .calcCqDepend, .addCqDepend, .reUpload, .cleanUp]
  repoUploadList := [.cbConfig, .crasConfig, .ecImage, .fwBuildConfig]
  corebootPushList := [.cbVariant]
  depends :=
    ⟨[(.cbConfig, [.find]),
      (.fwBuildConfig, [.find, .cbConfig, .crasConfig, .ecImage, .commitFit])],
    by decide⟩

def volteer : Board where
  base := "volteer"
  corebootDir := "third_party/coreboot"
  cbConfigDir := none
  fitimageDir :=
    some "private-overlays/baseboard-volteer-private/sys-boot/coreboot-private-files-baseboard-volteer"
  fitimageOutputsDir := some "asset_generation/outputs"
  privateYamlDir := none
  stepList := [.projectConfig, .fwBuildConfig, .cbVariant, .cbConfig, .addFit, .genFit, .commitFit,
    .ecImage, .emerge,
    .push, .upload, .find, .calcCqDepend, .addCqDepend, .reUpload, .cleanUp]
  repoUploadList := [.cbConfig, .commitFit, .ecImage, .fwBuildConfig]
  corebootPushList := [.cbVariant]
  depends :=
    ⟨[(.cbConfig, [.find]), (.fwBuildConfig, [.find, .cbConfig, .commitFit, .ecImage])], by decide⟩

def waddledee : Board :=
  { volteer with
    base := "dedede"
    fitimageDir :=
      some "private-overlays/baseboard-dedede-private/sys-boot/coreboot-private-files-baseboard-dedede"
    fitimageOutputsDir := some "files/blobs" }

/-- The modules next to `new_variant.py`. -/
def boards : List Board := [hatch, puff, ambassador, trembyle, volteer, waddledee]

theorem boards_last {b : Board} (hb : b ∈ boards) : b.stepList.getLast? = some .cleanUp := by
  simp only [boards, List.mem_cons, List.not_mem_nil, or_false] at hb
  rcases hb with rfl | rfl | rfl | rfl | rfl | rfl <;> rfl

theorem boards_nodup {b : Board} (hb : b ∈ boards) : b.stepList.Nodup := by
  simp only [boards, List.mem_cons, List.not_mem_nil, or_false] at hb
  rcases hb with rfl | rfl | rfl | rfl | rfl | rfl <;> decide

theorem boards_no_abort {b : Board} (hb : b ∈ boards) : StepName.abort ∉ b.stepList := by
  simp only [boards, List.mem_cons, List.not_mem_nil, or_false] at hb
  rcases hb with rfl | rfl | rfl | rfl | rfl | rfl <;> decide

/-- A status of the board `b`. The file may have sorted what depends on what. -/
structure OfBoard (b : Board) (s : Status) : Prop where
  stepList : s.board.stepList = b.stepList
  repoUploadList : s.board.repoUploadList = b.repoUploadList
  corebootPushList : s.board.corebootPushList = b.corebootPushList
  depends : ∀ key, s.board.depends.get? key = b.depends.get? key

theorem OfBoard.of_eq {b : Board} {s : Status} (h : s.board = b) : OfBoard b s :=
  ⟨by rw [h], by rw [h], by rw [h], fun _ => by rw [h]⟩

theorem OfBoard.dumped {b : Board} {s : Status} (h : OfBoard b s) : OfBoard b s.dumped :=
  ⟨h.stepList, h.repoUploadList, h.corebootPushList,
    fun key => (Status.dumped_depends s key).trans (h.depends key)⟩

theorem closed_ofBoard (b : Board) : Closed (OfBoard b) where
  dumped := fun _ h => h.dumped
  made := fun _ _ _ _ _ h _ => ⟨h.stepList, h.repoUploadList, h.corebootPushList, h.depends⟩
  upstream := fun _ _ h => ⟨h.stepList, h.repoUploadList, h.corebootPushList, h.depends⟩
  withCl := fun _ _ _ _ h _ => ⟨h.stepList, h.repoUploadList, h.corebootPushList, h.depends⟩
  cqDepend := fun _ _ _ _ h _ => ⟨h.stepList, h.repoUploadList, h.corebootPushList, h.depends⟩
  needsReUpload :=
    fun _ _ _ _ h _ _ => ⟨h.stepList, h.repoUploadList, h.corebootPushList, h.depends⟩

end Variant
