import DevUtil.Lib.Fields
import DevUtil.Lib.Sections
import DevUtil.Lib.Text

/-!
# Adding a variant to coreboot's `Kconfig`

`add_to_kconfig` waits in each of two sections for a blank line, which is to be the end of the
section, and prints the option of the variant before it.

A section that goes to the next entry, or to the end of the file, without a blank line gets no
option, or one that is in another section.

    both sections have a blank line ↔ each gets its option  (addToKconfig_iff)
-/

namespace Variant.Kconfig

open Lib

abbrev Line := List Char

/-! ## Reading -/

/-- `rawline.rstrip()` for each line of the file. -/
def inputLines (infile : List Char) : List Line :=
  (Fields.readlines (universalNewlines infile)).map fun rawline => rawline.rdropWhile isSpace

/-- `upper`, `lower` and `capitalize` of a `str`. -/
structure Casing where
  upper : List Char → List Char
  lower : List Char → List Char
  capitalize : List Char → List Char

/-! ## `add_to_kconfig` -/

def mainboardPartNumber : Line := "config MAINBOARD_PART_NUMBER".toList

def variantDir : Line := "config VARIANT_DIR".toList

/-- `f'\tdefault "{name}" if {BOARD}'` -/
def defaultLine (name board : List Char) : Line :=
  "\tdefault \"".toList ++ name ++ "\" if ".toList ++ board

/-- The two options of the variant. -/
structure Options where
  capitalized : Line
  lowercase : Line

def options (casing : Casing) (variantName : List Char) : Options :=
  let board := "BOARD_GOOGLE_".toList ++ casing.upper variantName
  let lowercase := casing.lower variantName
  let capitalized := casing.capitalize lowercase
  { capitalized := defaultLine capitalized board, lowercase := defaultLine lowercase board }

/-- The sections of interest that the line is in. -/
structure Flags where
  inMainboardPartNumber : Bool := false
  inVariantDir : Bool := false

/-- A line of the file: what is printed, and the flags after it. -/
def lineStep (o : Options) (flags : Flags) (line : Line) : List Line × Flags :=
  let flags := if line = mainboardPartNumber then { flags with inMainboardPartNumber := true }
    else flags
  let flags := if line = variantDir then { flags with inVariantDir := true } else flags
  if line = [] then
    let partNumber := if flags.inMainboardPartNumber then [o.capitalized] else []
    let variant := if flags.inVariantDir then [o.lowercase] else []
    (partNumber ++ variant ++ [line], { inMainboardPartNumber := false, inVariantDir := false })
  else ([line], flags)

def copyLines (o : Options) : Flags → List Line → List Line
  | _, [] => []
  | flags, line :: lines => (lineStep o flags line).1 ++ copyLines o (lineStep o flags line).2 lines

/-- The lines of `Kconfig.new`. -/
def addToKconfig (casing : Casing) (variantName infile : List Char) : List Line :=
  copyLines (options casing variantName) {} (inputLines infile)

/-! ## Sections -/

/-- `config` begins an entry. -/
def isEntry (line : Line) : Bool := "config ".toList.isPrefixOf line

/-- The file is copied, and each option added in its section. -/
def AddsInSections (o : Options) (lines outfile : List Line) : Prop :=
  ∃ mid, AddedIn isEntry mainboardPartNumber o.capitalized lines mid ∧
    AddedIn isEntry variantDir o.lowercase mid outfile

/-- A blank line between the header and the next entry. -/
def HasBlank (header : Line) (lines : List Line) : Prop := [] ∈ sectionOf isEntry header lines

theorem hasBlank_iff {header : Line} {lines : List Line} :
    HasBlank header lines ↔ ∃ line ∈ sectionOf isEntry header lines, line.isEmpty = true := by
  simp [HasBlank]

theorem isEntry_partNumber : isEntry mainboardPartNumber = true := by decide

theorem isEntry_variantDir : isEntry variantDir = true := by decide

theorem headers_ne : mainboardPartNumber ≠ variantDir := by decide

theorem isEntry_defaultLine (name board : List Char) : isEntry (defaultLine name board) = false :=
  rfl

theorem defaultLine_ne {line : Line} (h : isEntry line = true) (name board : List Char) :
    defaultLine name board ≠ line := by
  intro heq
  rw [← heq, isEntry_defaultLine] at h
  exact Bool.false_ne_true h

theorem new_ne {line : Line} (h : isEntry line = true) (casing : Casing) (variantName : List Char) :
    (options casing variantName).capitalized ≠ line ∧
      (options casing variantName).lowercase ≠ line :=
  ⟨defaultLine_ne h _ _, defaultLine_ne h _ _⟩

theorem isEntry_of_isEmpty (line : Line) (h : line.isEmpty = true) : isEntry line = false := by
  rw [List.isEmpty_iff.mp h]
  rfl

/-! ## The two flags -/

/-- The flags do not depend on each other. -/
theorem copyLines_eq {o : Options} (hpart : o.capitalized ≠ variantDir)
    (hblank : o.capitalized ≠ []) (flags : Flags) (lines : List Line) :
    copyLines o flags lines =
      addBefore List.isEmpty variantDir o.lowercase flags.inVariantDir
        (addBefore List.isEmpty mainboardPartNumber o.capitalized flags.inMainboardPartNumber
          lines) := by
  induction lines generalizing flags with
  | nil => rfl
  | cons line lines ih =>
    obtain ⟨part, dir⟩ := flags
    by_cases hline : line = []
    · subst hline
      have hne : ([] : Line) ≠ mainboardPartNumber := by decide
      have hne' : ([] : Line) ≠ variantDir := by decide
      cases part <;> cases dir <;> simp [copyLines, lineStep, addBefore, ih, hne, hne',
        hpart, hblank]
    · by_cases hp : line = mainboardPartNumber
      · subst hp
        simp [copyLines, lineStep, addBefore, ih, hline, headers_ne]
      · by_cases hd : line = variantDir
        · subst hd
          simp [copyLines, lineStep, addBefore, ih, hline, hp]
        · simp [copyLines, lineStep, addBefore, ih, hline, hp, hd]

theorem addToKconfig_eq (casing : Casing) (variantName infile : List Char) :
    addToKconfig casing variantName infile =
      addBefore List.isEmpty variantDir (options casing variantName).lowercase false
        (addBefore List.isEmpty mainboardPartNumber (options casing variantName).capitalized false
          (inputLines infile)) :=
  copyLines_eq (new_ne isEntry_variantDir casing variantName).1 (fun h => by cases h) {}
    (inputLines infile)

/-! ## Where the options go -/

/-- A section without a blank line is copied as it is. -/
theorem sectionOf_addToKconfig {header : Line} (hheader : isEntry header = true)
    {infile : List Char} (h : ¬HasBlank header (inputLines infile)) (casing : Casing)
    (variantName : List Char) :
    sectionOf isEntry header (addToKconfig casing variantName infile) =
      sectionOf isEntry header (inputLines infile) := by
  have hfull : header.isEmpty = false := by
    cases hempty : header.isEmpty with
    | false => rfl
    | true => rw [isEntry_of_isEmpty header hempty] at hheader; cases hheader
  have hsection : ∀ line ∈ sectionOf isEntry header (inputLines infile), line.isEmpty = false := by
    intro line hline
    cases hempty : line.isEmpty with
    | false => rfl
    | true => exact absurd (hasBlank_iff.mpr ⟨line, hline, hempty⟩) h
  have hpart := sectionOf_addBefore mainboardPartNumber hsection isEntry_of_isEmpty hfull
    (new_ne hheader casing variantName).1 false
  rw [addToKconfig_eq, sectionOf_addBefore variantDir (hpart ▸ hsection) isEntry_of_isEmpty hfull
    (new_ne hheader casing variantName).2,
    hpart]

theorem addToKconfig_iff (casing : Casing) (variantName infile : List Char)
    (hpart : (inputLines infile).count mainboardPartNumber = 1)
    (hdir : (inputLines infile).count variantDir = 1) :
    AddsInSections (options casing variantName) (inputLines infile)
      (addToKconfig casing variantName infile) ↔
      HasBlank mainboardPartNumber (inputLines infile) ∧
        HasBlank variantDir (inputLines infile) := by
  have hcapitalized : isEntry (options casing variantName).capitalized = false := rfl
  have hlowercase : isEntry (options casing variantName).lowercase = false := rfl
  have hcapitalized_ne : (options casing variantName).capitalized ≠ variantDir :=
    (new_ne isEntry_variantDir casing variantName).1
  constructor
  · rintro ⟨mid, hmid, hout⟩
    -- each section is one line longer than it was
    have hcount : mid.count variantDir = 1 := by rw [hmid.count hcapitalized_ne, hdir]
    have hpart_length := hmid.length_sectionOf hpart hcapitalized
    have hdir_length := hout.length_sectionOf hcount hlowercase
    rw [← hout.sectionOf_other isEntry_variantDir isEntry_partNumber hlowercase headers_ne.symm]
      at hpart_length
    rw [hmid.sectionOf_other isEntry_partNumber isEntry_variantDir hcapitalized headers_ne]
      at hdir_length
    constructor
    · by_contra h
      rw [sectionOf_addToKconfig isEntry_partNumber h] at hpart_length
      omega
    · by_contra h
      rw [sectionOf_addToKconfig isEntry_variantDir h] at hdir_length
      omega
  · rintro ⟨hpart_blank, hdir_blank⟩
    have hmid : AddedIn isEntry mainboardPartNumber (options casing variantName).capitalized
        (inputLines infile) _ :=
      addBefore_addedIn hpart (show mainboardPartNumber.isEmpty = false from rfl)
        (hasBlank_iff.mp hpart_blank)
    have hcount := hmid.count hcapitalized_ne
    have hsection :=
      hmid.sectionOf_other isEntry_partNumber isEntry_variantDir hcapitalized headers_ne
    rw [HasBlank, ← hsection] at hdir_blank
    refine ⟨_, hmid, ?_⟩
    rw [addToKconfig_eq]
    exact addBefore_addedIn (hcount.trans hdir) rfl (hasBlank_iff.mp hdir_blank)

/-! ## A file -/

def ascii : Casing := { upper := List.map Char.toUpper, lower := List.map Char.toLower,
                        capitalize := List.modifyHead Char.toUpper }

/-- Both sections end in a blank line. -/
def blankLines : List Char :=
  "config MAINBOARD_PART_NUMBER\n\tstring \n\nconfig VARIANT_DIR\n\tstring\n\n".toList

theorem addToKconfig_iff_kohaku : AddsInSections (options ascii "kohaku".toList)
    (inputLines blankLines)
    (addToKconfig ascii "kohaku".toList blankLines) := by
  have hpart : HasBlank mainboardPartNumber (inputLines blankLines) := by
    rw [hasBlank_iff]
    decide
  have hdir : HasBlank variantDir (inputLines blankLines) := by
    rw [hasBlank_iff]
    decide
  exact (addToKconfig_iff ascii "kohaku".toList blankLines (by decide) (by decide)).mpr
    ⟨hpart, hdir⟩

/-- One section ends at the other, and that one at the end of the file. -/
def noBlankLines : List Char :=
  "config MAINBOARD_PART_NUMBER\n\tstring\nconfig VARIANT_DIR\n\tstring\n".toList

/-- Nothing is added. -/
theorem not_addsInSections : ¬∀ casing variantName infile,
    (inputLines infile).count mainboardPartNumber = 1 →
    (inputLines infile).count variantDir = 1 →
    AddsInSections (options casing variantName) (inputLines infile)
      (addToKconfig casing variantName infile) := by
  intro h
  obtain ⟨mid, hmid, hout⟩ := h ascii "kohaku".toList noBlankLines (by decide) (by decide)
  have hlength : (addToKconfig ascii "kohaku".toList noBlankLines).length =
    (inputLines noBlankLines).length := by decide
  have hmid := hmid.length
  have hout := hout.length
  omega

end Variant.Kconfig
