import DevUtil.Roafteriniter.Cache

/-!
# Mapping the cache

`cache_map` of `cache.h`, with the bytes of the backing file.  A file that is there is taken
for a cache; one that is not there is created, sized, mapped and zeroed.

    the file is absent or a cache, and no sizing of a new file
      fails → so it is afterwards                                         (cacheMap_keeps)
    a failed call is made good by the next one ↔ it was not the sizing
      of a new file that failed                                           (cacheMap_recovers_iff)

The file of which the sizing failed is empty, and the next call maps it.
-/

namespace Roafteriniter

/-! ## The file -/

abbrev Bytes := List Char

/-- A number in memory, the low byte first. -/
def word (bytes : Bytes) : Nat := bytes.foldr (fun c n => c.toNat + 256 * n) 0

/-- What a mapping of a file of its size shows. -/
def image (m : Mapping) (bytes : Bytes) (h : bytes.length = m.size) : Cache where
  map := m
  length := word (bytes.take 8)
  count := word ((bytes.drop 8).take 8)
  data := bytes.drop headerSize
  data_length := by
    have hle := m.headerSize_le
    rw [List.length_drop]
    omega

/-- The file has the full size, and its header and data are those of some contents. -/
def ValidFile (size : Nat) (bytes : Bytes) : Prop :=
  ∃ (m : Mapping) (h : bytes.length = m.size) (k : Contents), m.size = size ∧
    Holds (image m bytes h) k

/-- `ftruncate(fd, size)` -/
def ftruncate (bytes : Bytes) (size : Nat) : Bytes :=
  bytes.take size ++ List.replicate (size - bytes.length) NUL

/-- `memset(hdr, 0, size)`, seen in the file -/
def zeros (size : Nat) : Bytes := List.replicate size NUL

/-! ## `cache_map` -/

inductive MapRet
  | opSuccess
  | openFailed
  | ftruncFailed
  | mapFailed
  | lockInitFailed
  | einval
deriving DecidableEq

/-- `false` and `none` are `NULL`. -/
structure MapArgs where
  cache : Bool
  fname : Option CStr
  lockname : Option CStr
  size : Nat

def MapArgs.Accepted (args : MapArgs) : Prop :=
  args.cache = true ∧ args.fname ≠ none ∧ args.lockname ≠ none ∧ args.size ≠ 0 ∧
    args.size % 0x1000 = 0

instance (args : MapArgs) : Decidable args.Accepted := by
  unfold MapArgs.Accepted
  infer_instance

/-- A mapping of the size asked for. -/
abbrev Mapped (size : Nat) := { m : Mapping // m.size = size }

/-- Whether the system calls succeed; the first `open` can only where there is a file. -/
structure Answers (size : Nat) where
  semOpen : Bool
  open₁ : Bool
  /-- with `O_CREAT` -/
  open₂ : Bool
  ftruncate : Bool
  mmap : Option (Mapped size)

/-- No failure. -/
def Answers.Good {size : Nat} (ans : Answers size) : Prop :=
  ans.semOpen = true ∧ ans.open₁ = true ∧ ans.open₂ = true ∧ ans.ftruncate = true ∧ ans.mmap ≠ none

structure MapOutcome (size : Nat) where
  ret : MapRet
  /-- `cache->hdr` and `cache->size`, where the call succeeds -/
  mapped : Option (Mapped size)
  file : Option Bytes

/-- The branch for a file that is there. -/
def mapFile {size : Nat} (ans : Answers size) (bytes : Bytes) : MapOutcome size :=
  match ans.mmap with
  | none => ⟨.mapFailed, none, some bytes⟩
  | some m => ⟨.opSuccess, some m, some bytes⟩

/-- The branch with `O_CREAT`, which leaves a file that is there as it is. -/
def createFile (size : Nat) (ans : Answers size) (file : Option Bytes) : MapOutcome size :=
  if ans.open₂ then
    let bytes := file.getD []
    if ans.ftruncate then
      match ans.mmap with
      | none => ⟨.mapFailed, none, some (ftruncate bytes size)⟩
      | some m => ⟨.opSuccess, some m, some (zeros size)⟩
    else ⟨.ftruncFailed, none, some bytes⟩
  else ⟨.openFailed, none, file⟩

def cacheMap (args : MapArgs) (ans : Answers args.size) (file : Option Bytes) :
    MapOutcome args.size :=
  if args.Accepted then
    if ans.semOpen then
      match file with
      | none => createFile args.size ans none
      | some bytes => if ans.open₁ then mapFile ans bytes else createFile args.size ans (some bytes)
    else ⟨.lockInitFailed, none, file⟩
  else ⟨.einval, none, file⟩

/-! ## Valid files -/

theorem word_zeros (n : Nat) : word (List.replicate n NUL) = 0 := by
  induction n with
  | zero => rfl
  | succ n ih =>
    have hcons : word (List.replicate (n + 1) NUL) =
      NUL.toNat + 256 * word (List.replicate n NUL) := rfl
    rw [hcons, ih]
    rfl

theorem length_zeros (size : Nat) : (zeros size).length = size := List.length_replicate

/-- Zeros are a cache just created. -/
theorem image_zeros (m : Mapping) : image m (zeros m.size) (length_zeros m.size) = .fresh m := by
  have hlength : word ((zeros m.size).take 8) = 0 := by
    rw [zeros, List.take_replicate]
    exact word_zeros _
  have hcount : word (((zeros m.size).drop 8).take 8) = 0 := by
    rw [zeros, List.drop_replicate, List.take_replicate]
    exact word_zeros _
  have hdata : (zeros m.size).drop headerSize = List.replicate (m.size - headerSize) NUL :=
    List.drop_replicate
  unfold image Cache.fresh
  simp only [hlength, hcount, hdata]

theorem validFile_zeros (m : Mapping) : ValidFile m.size (zeros m.size) :=
  ⟨m, length_zeros m.size, .empty m, rfl, by rw [image_zeros]; exact .fresh m⟩

theorem ValidFile.length {size : Nat} {bytes : Bytes} (h : ValidFile size bytes) :
    bytes.length = size := by
  obtain ⟨m, hm, k, hsize, -⟩ := h
  rw [hm, hsize]

/-- A file of the size is not changed. -/
theorem ftruncate_of_length {size : Nat} {bytes : Bytes} (h : bytes.length = size) :
    ftruncate bytes size = bytes := by
  unfold ftruncate
  rw [← h, List.take_length, Nat.sub_self]
  exact List.append_nil bytes

theorem ftruncate_nil (size : Nat) : ftruncate [] size = zeros size := by
  unfold ftruncate
  rw [List.take_nil]
  rfl

/-! ## One call -/

/-- A new file is created, but gets no size. -/
def SizingFails (args : MapArgs) (ans : Answers args.size) (file : Option Bytes) : Prop :=
  args.Accepted ∧ file = none ∧ ans.semOpen = true ∧ ans.open₂ = true ∧ ans.ftruncate = false

section

variable {args : MapArgs} {ans : Answers args.size} {file : Option Bytes}

/-- A property of all files of the size that zeros have too. -/
theorem createFile_keeps {P : Bytes → Prop}
    (hlength : ∀ bytes, P bytes → bytes.length = args.size) (hzeros : P (zeros args.size))
    (hfile : ∀ bytes, file = some bytes → P bytes)
    (hsized : ¬(file = none ∧ ans.open₂ = true ∧ ans.ftruncate = false)) :
    ∀ bytes, (createFile args.size ans file).file = some bytes → P bytes := by
  unfold createFile
  by_cases hopen : ans.open₂ = true
  · rw [if_pos hopen]
    by_cases hftruncate : ans.ftruncate = true
    · rw [if_pos hftruncate]
      cases ans.mmap with
      | some m =>
        intro bytes h
        exact Option.some.inj h ▸ hzeros
      | none =>
        intro bytes h
        rw [← Option.some.inj h]
        cases file with
        | none =>
          rw [Option.getD_none, ftruncate_nil]
          exact hzeros
        | some old =>
          have hold := hfile old rfl
          rw [Option.getD_some, ftruncate_of_length (hlength old hold)]
          exact hold
    · rw [if_neg hftruncate]
      intro bytes h
      cases file with
      | none => exact absurd ⟨rfl, hopen, Bool.eq_false_iff.mpr hftruncate⟩ hsized
      | some old => exact Option.some.inj h ▸ hfile old rfl
  · rw [if_neg hopen]
    exact hfile

theorem cacheMap_keeps {P : Bytes → Prop} (hlength : ∀ bytes, P bytes → bytes.length = args.size)
    (hzeros : P (zeros args.size)) (hfile : ∀ bytes, file = some bytes → P bytes)
    (hsized : ¬SizingFails args ans file) :
    ∀ bytes, (cacheMap args ans file).file = some bytes → P bytes := by
  unfold cacheMap
  by_cases haccepted : args.Accepted
  · rw [if_pos haccepted]
    by_cases hsem : ans.semOpen = true
    · rw [if_pos hsem]
      cases file with
      | none =>
        exact createFile_keeps hlength hzeros hfile fun h => hsized ⟨haccepted, h.1, hsem, h.2⟩
      | some old =>
        by_cases hopen : ans.open₁ = true
        · simp only [if_pos hopen]
          intro bytes h
          unfold mapFile at h
          cases hmmap : ans.mmap with
          | none =>
            rw [hmmap] at h
            exact Option.some.inj h ▸ hfile old rfl
          | some m =>
            rw [hmmap] at h
            exact Option.some.inj h ▸ hfile old rfl
        · simp only [if_neg hopen]
          exact createFile_keeps hlength hzeros hfile fun h => absurd h.1 (Option.some_ne_none old)
    · rw [if_neg hsem]
      exact hfile
  · rw [if_neg haccepted]
    exact hfile

/-- A call that succeeds has mapped a file. -/
theorem cacheMap_success (h : (cacheMap args ans file).ret = .opSuccess) :
    ∃ m bytes, (cacheMap args ans file).mapped = some m ∧
      (cacheMap args ans file).file = some bytes := by
  have hcreate : ∀ file, (createFile args.size ans file).ret = .opSuccess →
      ∃ m bytes, (createFile args.size ans file).mapped = some m ∧
          (createFile args.size ans file).file = some bytes := by
    intro file h
    unfold createFile at h ⊢
    by_cases hopen : ans.open₂ = true
    · rw [if_pos hopen] at h ⊢
      by_cases hftruncate : ans.ftruncate = true
      · rw [if_pos hftruncate] at h ⊢
        cases hmmap : ans.mmap with
        | none =>
          rw [hmmap] at h
          cases h
        | some m => exact ⟨m, _, rfl, rfl⟩
      · rw [if_neg hftruncate] at h
        cases h
    · rw [if_neg hopen] at h
      cases h
  unfold cacheMap at h ⊢
  by_cases haccepted : args.Accepted
  · rw [if_pos haccepted] at h ⊢
    by_cases hsem : ans.semOpen = true
    · rw [if_pos hsem] at h ⊢
      cases file with
      | none => exact hcreate none h
      | some old =>
        by_cases hopen : ans.open₁ = true
        · simp only [if_pos hopen] at h ⊢
          unfold mapFile at h ⊢
          cases hmmap : ans.mmap with
          | none =>
            rw [hmmap] at h
            cases h
          | some m => exact ⟨m, old, rfl, rfl⟩
        · simp only [if_neg hopen] at h ⊢
          exact hcreate (some old) h
    · rw [if_neg hsem] at h
      cases h
  · rw [if_neg haccepted] at h
    cases h

end

/-! ## The next call -/

/-- The file is absent or a cache. -/
def FileOk (size : Nat) (file : Option Bytes) : Prop :=
  ∀ bytes, file = some bytes → ValidFile size bytes

/-- If the call fails, the next one that does not meet a failure fails too, or it maps a cache, of
zeros where none has been used. -/
def Recovers (args : MapArgs) (ans : Answers args.size) (file : Option Bytes) : Prop :=
  (cacheMap args ans file).ret ≠ .opSuccess → ∀ ans' : Answers args.size, ans'.Good →
    (cacheMap args ans' (cacheMap args ans file).file).ret ≠ .opSuccess ∨
      ∃ m bytes, (cacheMap args ans' (cacheMap args ans file).file).mapped = some m ∧
        (cacheMap args ans' (cacheMap args ans file).file).file = some bytes ∧
          ValidFile args.size bytes ∧
        (file = none → bytes = zeros args.size)

section

variable {args : MapArgs} {ans : Answers args.size} {file : Option Bytes}

theorem not_sizingFails_of_good {ans' : Answers args.size} (h : ans'.Good) :
    ¬SizingFails args ans' file := by
  rintro ⟨-, -, -, -, hfails⟩
  rw [h.2.2.2.1] at hfails
  cases hfails

/-- The file that was created is empty, and the next call maps it. -/
theorem not_recovers (hsize : args.size ≤ PTRDIFF_MAX) (h : SizingFails args ans file) :
    ¬Recovers args ans file := by
  obtain ⟨haccepted, rfl, hsem, hopen, hftruncate⟩ := h
  have hfirst : cacheMap args ans none = ⟨.ftruncFailed, none, some []⟩ := by
    unfold cacheMap createFile
    rw [if_pos haccepted, if_pos hsem]
    simp only [if_pos hopen, hftruncate]
    rfl
  have hinside : 0x1000 + args.size < 2 ^ 64 := by
    unfold PTRDIFF_MAX at hsize
    omega
  let m : Mapped args.size :=
    ⟨⟨0x1000, args.size, haccepted.2.2.2.1, haccepted.2.2.2.2, hsize, hinside⟩, rfl⟩
  let ans' : Answers args.size := ⟨true, true, true, true, some m⟩
  have hsecond : cacheMap args ans' (some []) = ⟨.opSuccess, some m, some []⟩ := by
    unfold cacheMap
    rw [if_pos haccepted]
    rfl
  intro hrec
  rw [Recovers, hfirst] at hrec
  have hgood : ans'.Good := ⟨rfl, rfl, rfl, rfl, Option.some_ne_none m⟩
  rcases hrec (fun h => by cases h) ans' hgood with hret | ⟨-, bytes, -, hbytes, hvalid, -⟩
  · rw [hsecond] at hret
    exact hret rfl
  · rw [hsecond] at hbytes
    obtain rfl := Option.some.inj hbytes
    exact haccepted.2.2.2.1 hvalid.length.symm

/-- A failed call is made good by the next one, unless it was the sizing of a new file that
failed. -/
theorem cacheMap_recovers_iff (hfile : FileOk args.size file) :
    Recovers args ans file ↔ ¬(args.size ≤ PTRDIFF_MAX ∧ SizingFails args ans file) := by
  constructor
  · rintro hrec ⟨hsize, hfails⟩
    exact not_recovers hsize hfails hrec
  · intro hnot _ ans' hgood
    by_cases hret : (cacheMap args ans' (cacheMap args ans file).file).ret = .opSuccess
    · obtain ⟨m, bytes, hmapped, hbytes⟩ := cacheMap_success hret
      have hsize : args.size ≤ PTRDIFF_MAX := m.2 ▸ m.1.small
      have hsized : ¬SizingFails args ans file := fun h => hnot ⟨hsize, h⟩
      have hzeros : ValidFile args.size (zeros args.size) := by
        have h := validFile_zeros m.1
        rw [m.2] at h
        exact h
      -- both calls keep the file a cache, and one of zeros if there was none
      have hvalid := cacheMap_keeps (fun bytes h => h.length) hzeros
        (cacheMap_keeps (fun bytes h => h.length) hzeros hfile hsized)
          (not_sizingFails_of_good hgood) bytes hbytes
      refine .inr ⟨m, bytes, hmapped, hbytes, hvalid, fun hnone => ?_⟩
      have hlength : ∀ bytes, bytes = zeros args.size → bytes.length = args.size :=
        fun bytes h => h ▸ length_zeros args.size
      have hnew : ∀ bytes, file = some bytes → bytes = zeros args.size := fun bytes h => by
        rw [hnone] at h
        cases h
      exact cacheMap_keeps (P := fun bytes => bytes = zeros args.size) hlength rfl
        (cacheMap_keeps (P := fun bytes => bytes = zeros args.size) hlength rfl hnew hsized)
          (not_sizingFails_of_good hgood)
        bytes hbytes
    · exact .inl hret

end

/-! ## Two failures of a first call -/

def firstArgs : MapArgs := ⟨true, some (lit "cache"), some (lit "lock"), 0x1000⟩

/-- Mapping the new file fails. -/
theorem cacheMap_recovers_mmap : Recovers firstArgs ⟨true, true, true, true, none⟩ none :=
  (cacheMap_recovers_iff fun _ h => by cases h).mpr fun h => by cases h.2.2.2.2.2

/-- Sizing the new file fails: the next call maps an empty file. -/
theorem not_cacheMap_recovers_ftruncate :
    ¬Recovers firstArgs ⟨true, true, true, false, none⟩ none :=
  not_recovers (by decide) ⟨⟨rfl, by decide, by decide, by decide, by decide⟩, rfl, rfl, rfl, rfl⟩

end Roafteriniter
