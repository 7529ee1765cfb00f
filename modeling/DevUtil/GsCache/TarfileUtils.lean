import Mathlib.Data.Int.Bitwise
import DevUtil.Lib.Fields
import DevUtil.Lib.Separators

/-!
# Listing the members of a tar archive

`tarfile_utils.py`: what `list_tar_members` makes of the output of `tar tvR`, and what is
true of the archive.

    list_tar_members (listing of the members) = their records, without gap or overlap
      ↔ no name begins with a separator, no owner has one inside      (listTarMembers_inverts_iff)
-/

namespace GsCache

open Lib.Fields Lib.Separators

/-! ## The parser -/

/-- `[ \t:]` -/
def isSeparator (c : Char) : Bool := [' ', '\t', ':'].contains c

def roundUpTo512 (number : Int) : Int := Int.land (number + 511) (-512)

def blockToBytes (blockNum : Int) : Int := blockNum <<< (9 : Nat)

structure TarMemberInfo where
  filename : List Char
  recordStart : Int
  recordSize : Int
  contentStart : Int
  size : Int
deriving DecidableEq

structure TarListCommandResult where
  block : List Char
  blockNum : List Char
  mode : List Char
  ownership : List Char
  sizeStr : List Char
  date : List Char
  hour : List Char
  min : List Char
  filename : List Char

namespace TarListCommandResult

/-- `_fields` -/
def fieldNames : List (List Char) :=
  ["block", "block_num", "mode", "ownership", "size_str", "date", "hour", "min", "filename"].map
    String.toList

/-- `_make`; `none` is a `TypeError`. -/
def make : List (List Char) → Option TarListCommandResult
  | [block, blockNum, mode, ownership, sizeStr, date, hour, min, filename] =>
    some ⟨block, blockNum, mode, ownership, sizeStr, date, hour, min, filename⟩
  | _ => none

/-- `none` is a `ValueError`. -/
def recordStart (r : TarListCommandResult) : Option Int := (int r.blockNum).map blockToBytes

def size (r : TarListCommandResult) : Option Int := int r.sizeStr

end TarListCommandResult

/-- The last line has not enough fields, and is filled up. -/
def makeFilled (fields : List (List Char)) : Option TarListCommandResult :=
  match TarListCommandResult.make fields with
  | some r => some r
  | none => TarListCommandResult.make (fields ++ TarListCommandResult.fieldNames.drop fields.length)

def getCommandResultFromTarTvR (line : List Char) : Option TarListCommandResult :=
  makeFilled (splitRuns isSeparator (TarListCommandResult.fieldNames.length - 1)
    (line.rdropWhile (· == '\n')))

def getPrevContentStart (curRecordStart prevSize : Int) : Int :=
  curRecordStart - roundUpTo512 prevSize

/-- The loop of `list_tar_members`. -/
def listFrom (prev : TarListCommandResult) : List (List Char) → Option (List TarMemberInfo)
  | [] => some []
  | line :: lines => do
    let cur ← getCommandResultFromTarTvR line
    let curStart ← cur.recordStart
    let prevSize ← prev.size
    let prevStart ← prev.recordStart
    let rest ← listFrom cur lines
    return ⟨prev.filename, prevStart, curStart - prevStart, getPrevContentStart curStart prevSize,
      prevSize⟩ :: rest

/-- What is yielded; `none` is an exception on the way. -/
def listTarMembers (output : List Char) : Option (List TarMemberInfo) :=
  match readlines output with
  | [] => (getCommandResultFromTarTvR []).bind fun prev => listFrom prev []
  | line :: lines => (getCommandResultFromTarTvR line).bind fun prev => listFrom prev lines

/-! ## Archives -/

/-- What stands between two separators. -/
def IsField (s : List Char) : Prop := s ≠ [] ∧ ∀ c ∈ s, isSeparator c = false ∧ c ≠ '\n'

instance decidableIsField (s : List Char) : Decidable (IsField s) :=
  @instDecidableAnd _ _ inferInstance (List.decidableBAll _ s)

/-- A name of a user or a group: no space, no colon. -/
def IsAccount (s : List Char) : Prop := ∀ c ∈ s, c ≠ ' ' ∧ c ≠ ':' ∧ c ≠ '\n'

instance decidableIsAccount (s : List Char) : Decidable (IsAccount s) := List.decidableBAll _ s

/-- A regular file or a directory in an archive. -/
structure Member where
  mode : List Char
  user : List Char
  group : List Char
  size : Nat
  date : List Char
  hour : List Char
  min : List Char
  name : List Char
  /-- the blocks of its header -/
  headerBlocks : Nat
  mode_field : IsField mode
  user_account : IsAccount user
  group_account : IsAccount group
  date_field : IsField date
  hour_field : IsField hour
  min_field : IsField min
  name_line : '\n' ∉ name

namespace Member

def owner (m : Member) : List Char := m.user ++ '/' :: m.group

def contentBlocks (m : Member) : Nat := (m.size + 511) / 512

def blocks (m : Member) : Nat := m.headerBlocks + m.contentBlocks

/-- `size date HH:MM name` -/
def afterOwner (m : Member) : List Char :=
  Nat.toDigits 10 m.size ++ ' ' :: (m.date ++ ' ' :: (m.hour ++ ':' :: (m.min ++ ' ' :: m.name)))

/-- `block N: mode owner size date HH:MM name` -/
def line (m : Member) (block : Nat) : List Char :=
  "block ".toList ++
    (Nat.toDigits 10 block ++ (": ".toList ++ (m.mode ++ ' ' :: (m.owner ++ ' ' :: m.afterOwner))))

/-- What is true of the member when its record begins at `block`. -/
def info (m : Member) (block : Nat) : TarMemberInfo where
  filename := m.name
  recordStart := 512 * block
  recordSize := 512 * m.blocks
  contentStart := 512 * (block + m.headerBlocks)
  size := m.size

end Member

/-- `block N: ** Block of NULs **` -/
def lastLine (block : Nat) : List Char :=
  "block ".toList ++ (Nat.toDigits 10 block ++ ": ** Block of NULs **".toList)

/-- The lines for the members from `block` on. -/
def tarLines : Nat → List Member → List (List Char)
  | block, [] => [lastLine block]
  | block, m :: ms => m.line block :: tarLines (block + m.blocks) ms

/-- The output of `tar tvR`. -/
def tarTvR (ms : List Member) : List Char := (tarLines 0 ms).flatMap fun line => line ++ ['\n']

def infos : Nat → List Member → List TarMemberInfo
  | _, [] => []
  | block, m :: ms => m.info block :: infos (block + m.blocks) ms

/-- The records lie one after the other, each with its content inside. -/
def Tiles : Int → List TarMemberInfo → Int → Prop
  | start, [], stop => start = stop
  | start, r :: rs, stop => r.recordStart = start ∧ start ≤ r.contentStart ∧
    r.contentStart + r.size ≤ start + r.recordSize ∧ Tiles (start + r.recordSize) rs stop

/-- `list_tar_members` gives the members of the archive back. -/
def Inverts (ms : List Member) : Prop :=
  listTarMembers (tarTvR ms) = some (infos 0 ms) ∧
    Tiles 0 (infos 0 ms) (512 * ((ms.map Member.blocks).sum : Nat))

/-- What the parser can tell apart: the name does not begin with a separator, and the owner has none
inside. -/
structure Member.Plain (m : Member) : Prop where
  name : NoSepHead isSeparator m.name
  owner : NoSep isSeparator (trim isSeparator m.owner)

/-! ## Arithmetic -/

/-- Without the lowest bits. -/
theorem ldiff_mask (n k : Nat) : Nat.ldiff n (2 ^ k - 1) = n / 2 ^ k * 2 ^ k := by
  apply Nat.eq_of_testBit_eq
  intro i
  rw [Nat.testBit_ldiff, Nat.testBit_two_pow_sub_one, Nat.testBit_mul_two_pow,
    Nat.testBit_div_two_pow]
  by_cases hi : i < k
  · simp [hi]
  · have hk : k ≤ i := by omega
    simp [hi, hk]

theorem roundUpTo512_eq (n : Nat) : roundUpTo512 n = ((512 * ((n + 511) / 512) : Nat) : Int) := by
  have hmask : Nat.ldiff (n + 511) 511 = (n + 511) / 2 ^ 9 * 2 ^ 9 := ldiff_mask (n + 511) 9
  have hland : roundUpTo512 n = ((Nat.ldiff (n + 511) 511 : Nat) : Int) := rfl
  rw [hland, hmask]
  congr 1
  omega

theorem blockToBytes_eq (n : Nat) : blockToBytes n = ((512 * n : Nat) : Int) := by
  rw [blockToBytes, Int.shiftLeft_eq]
  push_cast
  omega

/-! ## One line -/

theorem noSep_of_isField {s : List Char} (h : IsField s) : NoSep isSeparator s :=
  fun c hc => (h.2 c hc).1

theorem noSep_toDigits (n : Nat) : NoSep isSeparator (Nat.toDigits 10 n) := by
  intro c hc
  have hdigit := digits_toDigits n c hc
  by_contra h
  have htrue : isSeparator c = true := by simpa using h
  have hmem : c ∈ [' ', '\t', ':'] := List.contains_iff_mem.mp htrue
  have hnot : ∀ d ∈ [' ', '\t', ':'], d.isDigit = false := forall_eq_false_of_all (by decide)
  rw [hnot c hmem] at hdigit
  cases hdigit

/-- Without the separators that it begins with. -/
theorem splitRuns_name (m : Member) :
    splitRuns isSeparator 1 (m.min ++ ' ' :: m.name) = [m.min, m.name.dropWhile isSeparator] := by
  have hs : m.min ++ ' ' :: m.name =
      m.min ++ (' ' :: m.name.takeWhile isSeparator ++ m.name.dropWhile isSeparator) := by
    rw [List.cons_append, List.takeWhile_append_dropWhile]
  refine splitRuns_step hs (noSep_of_isField m.min_field) (List.cons_ne_nil _ _) ?_ ?_ 0
  · intro c hc
    rcases List.mem_cons.mp hc with rfl | hc
    · rfl
    · exact List.mem_takeWhile_imp hc
  · exact noSepHead_iff.mpr (List.dropWhile_idempotent _ _)

/-- One field of a line and a single separator. -/
theorem splitRuns_field {f t : List Char} {c : Char} (hf : IsField f) (hc : isSeparator c = true)
    (ht : NoSepHead isSeparator t) (n : Nat) :
    splitRuns isSeparator (n + 1) (f ++ c :: t) = f :: splitRuns isSeparator n t :=
  splitRuns_step (r := [c]) rfl (noSep_of_isField hf) (List.cons_ne_nil c [])
    (by simpa using hc) ht n

theorem isField_toDigits (n : Nat) : IsField (Nat.toDigits 10 n) := by
  refine ⟨Nat.toDigits_ne_nil, fun c hc => ⟨noSep_toDigits n c hc, ?_⟩⟩
  rintro rfl
  exact absurd (digits_toDigits n _ hc) (by decide)

theorem head_of_isField {f : List Char} (hf : IsField f) (t : List Char) :
    NoSepHead isSeparator (f ++ t) :=
  (noSep_of_isField hf).head.append hf.1 t

theorem splitRuns_afterOwner (m : Member) : splitRuns isSeparator 4 m.afterOwner =
    [Nat.toDigits 10 m.size, m.date, m.hour, m.min, m.name.dropWhile isSeparator] := by
  rw [Member.afterOwner, splitRuns_field (isField_toDigits m.size) rfl
    (head_of_isField m.date_field _),
    splitRuns_field m.date_field rfl (head_of_isField m.hour_field _),
    splitRuns_field m.hour_field rfl (head_of_isField m.min_field _), splitRuns_name]

theorem head_afterOwner (m : Member) : NoSepHead isSeparator m.afterOwner :=
  head_of_isField (isField_toDigits m.size) _

theorem name_suffix_afterOwner (m : Member) : m.min ++ ' ' :: m.name <:+ m.afterOwner :=
  ⟨Nat.toDigits 10 m.size ++ ' ' :: (m.date ++ ' ' :: (m.hour ++ [':'])), by
      simp [Member.afterOwner]⟩

/-- With less than four splits the last field has the name in it, and more. -/
theorem endsIn_afterOwner (m : Member) :
    ∀ j, j ≤ 3 → EndsIn isSeparator (m.min ++ ' ' :: m.name) j m.afterOwner := by
  have hstep : ∀ {j : Nat} {f t : List Char} {c : Char},
    EndsIn isSeparator (m.min ++ ' ' :: m.name) j t → IsField f →
      isSeparator c = true → NoSepHead isSeparator t →
          EndsIn isSeparator (m.min ++ ' ' :: m.name) (j + 1) (f ++ c :: t) := by
    intro j f t c h hf hc ht
    exact h.step (r := [c]) rfl (noSep_of_isField hf) (List.cons_ne_nil c []) (by simpa using hc) ht
  intro j hj
  have hdate := head_of_isField m.date_field (' ' :: (m.hour ++ ':' :: (m.min ++ ' ' :: m.name)))
  have hhour := head_of_isField m.hour_field (':' :: (m.min ++ ' ' :: m.name))
  have hmin := head_of_isField m.min_field (' ' :: m.name)
  have hsuffix₁ : m.min ++ ' ' :: m.name <:+ m.hour ++ ':' :: (m.min ++ ' ' :: m.name) :=
    (List.suffix_cons _ _).trans (List.suffix_append _ _)
  have hsuffix₂ : m.min ++ ' ' :: m.name <:+ m.date ++
      ' ' :: (m.hour ++ ':' :: (m.min ++ ' ' :: m.name)) :=
    (hsuffix₁.trans (List.suffix_cons _ _)).trans (List.suffix_append _ _)
  match j, hj with
  | 0, _ => exact endsIn_zero (name_suffix_afterOwner m)
  | 1, _ => exact hstep (endsIn_zero hsuffix₂) (isField_toDigits m.size) rfl hdate
  | 2, _ =>
    exact hstep (hstep (endsIn_zero hsuffix₁) m.date_field rfl hhour)
      (isField_toDigits m.size) rfl hdate
  | 3, _ =>
    have hone := hstep (c := ':') (endsIn_zero (List.suffix_refl _)) m.hour_field rfl hmin
    exact hstep (hstep hone m.date_field rfl hhour) (isField_toDigits m.size) rfl hdate

theorem owner_nonSep (m : Member) : ∃ c ∈ m.owner, isSeparator c = false :=
  ⟨'/', List.mem_append_right _ List.mem_cons_self, rfl⟩

/-- The fields before the owner. -/
theorem splitRuns_line (m : Member) (block k : Nat) : ∃ trail, (∀ c ∈ trail, isSeparator c = true) ∧
    splitRuns isSeparator (k + 3) (m.line block) =
      "block".toList :: Nat.toDigits 10 block :: m.mode ::
      splitRuns isSeparator k (trim isSeparator m.owner ++ (trail ++ ' ' :: m.afterOwner)) := by
  obtain ⟨lead, trail, howner, hlead, htrail, hne, hhead, -⟩ := exists_trim (owner_nonSep m)
  refine ⟨trail, htrail, ?_⟩
  have hmode : m.mode ++ ' ' :: (m.owner ++ ' ' :: m.afterOwner) =
      m.mode ++ (' ' :: lead ++ (trim isSeparator m.owner ++ (trail ++ ' ' :: m.afterOwner))) := by
    nth_rewrite 1 [howner]
    simp
  have hseps : ∀ c ∈ ' ' :: lead, isSeparator c = true := by
    intro c hc
    rcases List.mem_cons.mp hc with rfl | hc
    · rfl
    · exact hlead c hc
  have h₁ := splitRuns_step (p := isSeparator) (s := m.line block) (f := "block".toList)
    (r := [' ']) rfl
    (forall_eq_false_of_all (by decide)) (by decide) (List.all_eq_true.mp (by decide))
    (head_of_isField (isField_toDigits block) _) (k + 2)
  have h₂ := splitRuns_step (p := isSeparator) (f := Nat.toDigits 10 block) (r := [':', ' ']) rfl
    (noSep_toDigits block) (by decide) (List.all_eq_true.mp (by decide))
    (head_of_isField m.mode_field (' ' :: (m.owner ++ ' ' :: m.afterOwner))) (k + 1)
  have h₃ := splitRuns_step hmode (noSep_of_isField m.mode_field) (List.cons_ne_nil _ _) hseps
    (hhead.append hne _) k
  exact h₁.trans (congrArg _ (h₂.trans (congrArg _ h₃)))

/-! ## The lines of a listing -/

/-- No line ends in the middle of `s`. -/
def OneLine (s : List Char) : Prop := '\n' ∉ s

theorem OneLine.append {s t : List Char} (hs : OneLine s) (ht : OneLine t) : OneLine (s ++ t) :=
  fun h => (List.mem_append.mp h).elim hs ht

theorem OneLine.cons {c : Char} {s : List Char} (hc : '\n' ≠ c) (hs : OneLine s) :
    OneLine (c :: s) :=
  fun h => (List.mem_cons.mp h).elim hc hs

theorem IsField.oneLine {f : List Char} (hf : IsField f) : OneLine f := fun h => (hf.2 _ h).2 rfl

theorem IsAccount.oneLine {s : List Char} (hs : IsAccount s) : OneLine s :=
  fun h => (hs _ h).2.2 rfl

theorem oneLine_block (block : Nat) {t : List Char} (ht : OneLine t) :
    OneLine ("block ".toList ++ (Nat.toDigits 10 block ++ t)) := by
  have hblock : '\n' ∉ "block ".toList := by decide
  exact OneLine.append hblock ((isField_toDigits block).oneLine.append ht)

theorem oneLine_line (m : Member) (block : Nat) : OneLine (m.line block) := by
  have howner : OneLine m.owner :=
    m.user_account.oneLine.append (.cons (by decide) m.group_account.oneLine)
  have hmin : OneLine (m.min ++ ' ' :: m.name) :=
    m.min_field.oneLine.append (.cons (by decide) m.name_line)
  have hdate : OneLine (m.date ++ ' ' :: (m.hour ++ ':' :: (m.min ++ ' ' :: m.name))) :=
    m.date_field.oneLine.append
      (.cons (by decide) (m.hour_field.oneLine.append (.cons (by decide) hmin)))
  have hafter : OneLine m.afterOwner :=
    (isField_toDigits m.size).oneLine.append (.cons (by decide) hdate)
  have hmode : OneLine (m.mode ++ ' ' :: (m.owner ++ ' ' :: m.afterOwner)) :=
    m.mode_field.oneLine.append (.cons (by decide) (howner.append (.cons (by decide) hafter)))
  exact oneLine_block block (.cons (by decide) (.cons (by decide) hmode))

theorem oneLine_lastLine (block : Nat) : OneLine (lastLine block) :=
  oneLine_block block (show '\n' ∉ ": ** Block of NULs **".toList by decide)

theorem rdropWhile_newline {line : List Char} (h : OneLine line) :
    (line ++ ['\n']).rdropWhile (· == '\n') = line := by
  rw [List.rdropWhile_concat_pos _ _ _ (by decide), List.rdropWhile_eq_self_iff]
  intro hne hlast
  have heq : line.getLast hne = '\n' := by simpa using hlast
  exact h (heq ▸ List.getLast_mem hne)

theorem getCommandResult_line (m : Member) (block : Nat) :
    getCommandResultFromTarTvR (m.line block ++ ['\n']) =
      makeFilled (splitRuns isSeparator 8 (m.line block)) := by
  unfold getCommandResultFromTarTvR
  rw [rdropWhile_newline (oneLine_line m block)]
  rfl

/-- What the parser makes of a line. -/
structure Parsed (m : Member) (block : Nat) (r : TarListCommandResult) : Prop where
  blockNum : r.blockNum = Nat.toDigits 10 block
  sizeStr : m.Plain → r.sizeStr = Nat.toDigits 10 m.size
  filename : r.filename = m.name ↔ m.Plain

theorem parsed_of_owner {m : Member} (block : Nat)
    (h : NoSep isSeparator (trim isSeparator m.owner)) :
    ∃ r, getCommandResultFromTarTvR (m.line block ++ ['\n']) = some r ∧ Parsed m block r := by
  obtain ⟨trail, htrail, hline⟩ := splitRuns_line m block 5
  have hseps : ∀ c ∈ trail ++ [' '], isSeparator c = true := by
    intro c hc
    rcases List.mem_append.mp hc with hc | hc
    · exact htrail c hc
    · exact List.mem_singleton.mp hc ▸ rfl
  have howner :=
    splitRuns_step (s := trim isSeparator m.owner ++ (trail ++ ' ' :: m.afterOwner)) (by simp) h
    (List.append_ne_nil_of_right_ne_nil trail (List.cons_ne_nil ' ' [])) hseps (head_afterOwner m) 4
  rw [howner, splitRuns_afterOwner] at hline
  refine ⟨⟨"block".toList, Nat.toDigits 10 block, m.mode, trim isSeparator m.owner,
    Nat.toDigits 10 m.size, m.date,
    m.hour, m.min, m.name.dropWhile isSeparator⟩, ?_, rfl, fun _ => rfl, ?_⟩
  · rw [getCommandResult_line, hline]
    rfl
  · exact ⟨fun heq => ⟨noSepHead_iff.mpr heq, h⟩, fun hplain => noSepHead_iff.mp hplain.name⟩

theorem parsed_of_not_owner {m : Member} (block : Nat)
    (h : ¬NoSep isSeparator (trim isSeparator m.owner)) :
    ∃ r, getCommandResultFromTarTvR (m.line block ++ ['\n']) = some r ∧ Parsed m block r := by
  obtain ⟨trail, htrail, hline⟩ := splitRuns_line m block 5
  obtain ⟨-, -, -, -, -, -, -, hlast⟩ := exists_trim (owner_nonSep m)
  have hsep : ∃ c ∈ trim isSeparator m.owner, isSeparator c = true := by
    simpa [NoSep] using h
  obtain ⟨f, r, t, htrim, hf, hne, hr, ht, -⟩ := exists_first hsep
  have htne : t ≠ [] := by
    rintro rfl
    have hin : r.getLast hne ∈ (trim isSeparator m.owner).getLast? := by
      rw [htrim, List.append_nil, List.getLast?_append, List.getLast?_eq_some_getLast hne]
      rfl
    have hfalse := hlast _ hin
    rw [hr _ (List.getLast_mem hne)] at hfalse
    cases hfalse
  have howner := splitRuns_step (s := trim isSeparator m.owner ++ (trail ++ ' ' :: m.afterOwner))
    (f := f) (r := r) (t := t ++ (trail ++ ' ' :: m.afterOwner)) (by simp [htrim]) hf hne hr
      (ht.append htne _) 4
  have hspace : ∀ c ∈ (t ++ (trail ++ [' '])).getLast?, isSeparator c = true := by
    intro c hc
    rw [← List.append_assoc, List.getLast?_append] at hc
    cases hc
    rfl
  have hends := EndsIn.prepend_field (head_afterOwner m) (name_suffix_afterOwner m)
    (endsIn_afterOwner m)
    (List.append_ne_nil_of_left_ne_nil htne (trail ++ [' '])) hspace
  obtain ⟨fields, last, hsplit, hlen, hsuffix⟩ := hends
  have hrest : t ++ (trail ++ [' ']) ++ m.afterOwner = t ++ (trail ++ ' ' :: m.afterOwner) := by
    simp
  rw [hrest] at hsplit
  rw [howner, hsplit] at hline
  obtain ⟨a, b, c, d, rfl⟩ : ∃ a b c d, fields = [a, b, c, d] := by
    match fields, hlen with
    | [a, b, c, d], _ => exact ⟨a, b, c, d, rfl⟩
  have hname : last ≠ m.name := by
    rintro rfl
    have hle := hsuffix.length_le
    rw [List.length_append, List.length_cons] at hle
    omega
  refine ⟨⟨"block".toList, Nat.toDigits 10 block, m.mode, f, a, b, c, d, last⟩, ?_, rfl, ?_, ?_⟩
  · rw [getCommandResult_line, hline]
    rfl
  · exact fun hplain => absurd hplain.owner h
  · exact ⟨fun heq => absurd heq hname, fun hplain => absurd hplain.owner h⟩

theorem parsed_line (m : Member) (block : Nat) :
    ∃ r, getCommandResultFromTarTvR (m.line block ++ ['\n']) = some r ∧ Parsed m block r := by
  by_cases h : NoSep isSeparator (trim isSeparator m.owner)
  · exact parsed_of_owner block h
  · exact parsed_of_not_owner block h

/-- Of the last line only the block is used. -/
theorem parsed_lastLine (block : Nat) :
    ∃ r, getCommandResultFromTarTvR (lastLine block ++ ['\n']) = some r ∧
      r.blockNum = Nat.toDigits 10 block := by
  have h₁ := splitRuns_step (p := isSeparator) (s := lastLine block) (f := "block".toList)
    (r := [' ']) rfl
    (forall_eq_false_of_all (by decide)) (by decide) (List.all_eq_true.mp (by decide))
    (head_of_isField (isField_toDigits block) _) 7
  have h₂ := splitRuns_step (p := isSeparator) (f := Nat.toDigits 10 block) (r := [':', ' ']) rfl
    (noSep_toDigits block) (by decide) (List.all_eq_true.mp (by decide))
    (show NoSepHead isSeparator "** Block of NULs **".toList from noSepHead_iff.mpr (by decide)) 6
  have h₃ : splitRuns isSeparator 6 "** Block of NULs **".toList =
      ["**", "Block", "of", "NULs", "**"].map String.toList := by
    decide
  have hline := h₁.trans (congrArg _ (h₂.trans (congrArg _ h₃)))
  refine ⟨⟨"block".toList, Nat.toDigits 10 block, "**".toList, "Block".toList, "of".toList,
    "NULs".toList, "**".toList,
    "min".toList, "filename".toList⟩, ?_, rfl⟩
  unfold getCommandResultFromTarTvR
  rw [rdropWhile_newline (oneLine_lastLine block)]
  show makeFilled (splitRuns isSeparator 8 (lastLine block)) = _
  rw [hline]
  rfl

/-! ## The loop -/

theorem recordStart_of_blockNum {r : TarListCommandResult} {block : Nat}
    (h : r.blockNum = Nat.toDigits 10 block) :
    r.recordStart = some ((512 * block : Nat) : Int) := by
  rw [TarListCommandResult.recordStart, h, int_toDigits, Option.map_some, blockToBytes_eq]

theorem prevContentStart_eq (m : Member) (block : Nat) :
    getPrevContentStart ((512 * (block + m.blocks) : Nat) : Int) m.size =
      ((512 * (block + m.headerBlocks) : Nat) : Int) := by
  rw [getPrevContentStart, roundUpTo512_eq]
  unfold Member.blocks Member.contentBlocks
  omega

/-- One turn: the member before is yielded right if it is plain. -/
theorem listFrom_cons {m : Member} {block : Nat} {prev cur : TarListCommandResult}
    {line : List Char} {lines : List (List Char)} {rs : List TarMemberInfo}
    (hprev : Parsed m block prev) (hline : getCommandResultFromTarTvR line = some cur)
    (hcur : cur.blockNum = Nat.toDigits 10 (block + m.blocks)) :
    listFrom prev (line :: lines) = some (m.info block :: rs) ↔
      m.Plain ∧ listFrom cur lines = some rs := by
  have hstart := recordStart_of_blockNum hcur
  have hprevStart := recordStart_of_blockNum hprev.blockNum
  simp only [listFrom, hline, hstart, hprevStart, Option.bind_eq_bind, Option.bind_some,
    Option.bind_eq_some_iff]
  constructor
  · rintro ⟨size, hsize, rest, hrest, heq⟩
    obtain ⟨hinfo, rfl⟩ := List.cons.inj (Option.some.inj heq)
    have hname : prev.filename = m.name := congrArg TarMemberInfo.filename hinfo
    exact ⟨hprev.filename.mp hname, hrest⟩
  · rintro ⟨hplain, hrest⟩
    have hsize : prev.size = some (m.size : Int) := by
      rw [TarListCommandResult.size, hprev.sizeStr hplain, int_toDigits]
    refine ⟨m.size, hsize, rs, hrest, ?_⟩
    rw [hprev.filename.mpr hplain, prevContentStart_eq]
    congr 3
    omega

theorem listFrom_iff (ms : List Member) :
    ∀ {m : Member} {block : Nat} {prev : TarListCommandResult},
    Parsed m block prev →
      (listFrom prev ((tarLines (block + m.blocks) ms).map fun line => line ++ ['\n']) =
      some (infos block (m :: ms)) ↔ ∀ m' ∈ m :: ms, m'.Plain) := by
  induction ms with
  | nil =>
    intro m block prev hprev
    obtain ⟨cur, hline, hcur⟩ := parsed_lastLine (block + m.blocks)
    show listFrom prev [lastLine (block + m.blocks) ++ ['\n']] = some [m.info block] ↔ _
    rw [listFrom_cons hprev hline hcur]
    simp [listFrom]
  | cons m' ms ih =>
    intro m block prev hprev
    obtain ⟨cur, hline, hcur⟩ := parsed_line m' (block + m.blocks)
    have hrest := ih hcur
    show listFrom prev ((m'.line (block + m.blocks) ++ ['\n']) :: _) =
      some (m.info block :: infos (block + m.blocks) (m' :: ms)) ↔ _
    rw [listFrom_cons hprev hline hcur.blockNum, hrest]
    exact List.forall_mem_cons.symm

theorem oneLine_tarLines (ms : List Member) : ∀ block, ∀ line ∈ tarLines block ms, '\n' ∉ line := by
  induction ms with
  | nil =>
    intro block line hline
    rw [List.mem_singleton.mp hline]
    exact oneLine_lastLine block
  | cons m ms ih =>
    intro block line hline
    rcases List.mem_cons.mp hline with rfl | hline
    · exact oneLine_line m block
    · exact ih _ line hline

theorem tiles_infos (ms : List Member) : ∀ block : Nat,
    Tiles ((512 * block : Nat) : Int) (infos block ms)
      ((512 * (block + (ms.map Member.blocks).sum) : Nat) : Int) := by
  induction ms with
  | nil => exact fun _ => rfl
  | cons m ms ih =>
    intro block
    have hcontent : m.size ≤ 512 * m.contentBlocks := by
      unfold Member.contentBlocks
      omega
    have hblocks : m.blocks = m.headerBlocks + m.contentBlocks := rfl
    have hnext : ((512 * block : Nat) : Int) + 512 * m.blocks =
      ((512 * (block + m.blocks) : Nat) : Int) := by omega
    refine ⟨?_, ?_, ?_, ?_⟩
    · show (512 * block : Int) = _
      omega
    · show ((512 * block : Nat) : Int) ≤ 512 * (block + m.headerBlocks)
      omega
    · show (512 * (block + m.headerBlocks) : Int) + m.size ≤
        ((512 * block : Nat) : Int) + 512 * m.blocks
      omega
    · show Tiles (((512 * block : Nat) : Int) + 512 * m.blocks) (infos (block + m.blocks) ms) _
      rw [hnext, List.map_cons, List.sum_cons, ← Nat.add_assoc]
      exact ih (block + m.blocks)

/-- The listing is inverted exactly if every member is plain. -/
theorem listTarMembers_inverts_iff (ms : List Member) : Inverts ms ↔ ∀ m ∈ ms, m.Plain := by
  have htiles := tiles_infos ms 0
  rw [Nat.zero_add] at htiles
  have hlines : readlines (tarTvR ms) = (tarLines 0 ms).map fun line => line ++ ['\n'] :=
    readlines_lines (oneLine_tarLines ms 0)
  have hlist : listTarMembers (tarTvR ms) = some (infos 0 ms) ↔ ∀ m ∈ ms, m.Plain := by
    unfold listTarMembers
    rw [hlines]
    cases ms with
    | nil =>
      obtain ⟨r, hr, -⟩ := parsed_lastLine 0
      show (getCommandResultFromTarTvR (lastLine 0 ++ ['\n'])).bind _ = _ ↔ _
      rw [hr]
      simp [listFrom, infos]
    | cons m ms =>
      obtain ⟨r, hr, hparsed⟩ := parsed_line m 0
      show (getCommandResultFromTarTvR (m.line 0 ++ ['\n'])).bind _ = _ ↔ _
      rw [hr, Option.bind_some, Nat.zero_add]
      have hiff := listFrom_iff ms hparsed
      rw [Nat.zero_add] at hiff
      exact hiff
  rw [← hlist]
  exact and_iff_left htiles

/-- A file whose name begins with a space. -/
def spaceMember : Member where
  mode := "-rw-r--r--".toList
  user := "user".toList
  group := "group".toList
  size := 123
  date := "2018-01-01".toList
  hour := "12".toList
  min := "34".toList
  name := " file".toList
  headerBlocks := 1
  mode_field := by decide
  user_account := by decide
  group_account := by decide
  date_field := by decide
  hour_field := by decide
  min_field := by decide
  name_line := by decide

/-- Its name is listed without the space. -/
theorem not_inverts : ¬∀ ms, Inverts ms := by
  intro h
  have hlist := (h [spaceMember]).1
  have hdecide : listTarMembers (tarTvR [spaceMember]) ≠ some (infos 0 [spaceMember]) := by decide
  exact hdecide hlist

end GsCache
