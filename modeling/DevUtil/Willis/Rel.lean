import DevUtil.Willis.Manifest

/-!
# Go's `filepath.Rel`

    from a rooted path it leads to every rooted path             (rel_rooted)
    it leads to different places by different paths              (rel_injective)
-/

namespace Willis

open Lib PosixPath

/-- The elements of both paths from the first one on that differs. -/
def dropCommon : List Text → List Text → List Text × List Text
  | b :: bs, t :: ts => if t = b then dropCommon bs ts else (b :: bs, t :: ts)
  | bs, ts => (bs, ts)

/-- `filepath.Rel`; none for its errors. -/
def rel (basepath targpath : Text) : Option Text :=
  let base := clean basepath
  let targ := clean targpath
  if targ = base then some ['.']
  else
    let base := if base = ['.'] then [] else base
    if decide (base.head? = some '/') ≠ decide (targ.head? = some '/') then none
    else
      let rest := dropCommon (components base) (components targ)
      if rest.1.head? = some ['.', '.'] then none
      else some (['/'].intercalate (List.replicate rest.1.length ['.', '.'] ++ rest.2))

/-! ## Rooted paths -/

/-- The elements of a rooted path that are left. -/
def partsOf (p : Text) : List Text := (AbsPath.ofChars p).parts

theorem fits_partsOf (p : Text) : ∀ part ∈ partsOf p, IsPart part := (AbsPath.ofChars p).fits

theorem clean_rooted {p : Text} (h : p.head? = some '/') :
    clean p = '/' :: ['/'].intercalate (partsOf p) := by
  unfold clean partsOf AbsPath.ofChars
  simp [h]

theorem components_clean {p : Text} (h : p.head? = some '/') :
    components (clean p) = partsOf p := by
  rw [clean_rooted h, components_slash, components_intercalate (fits_partsOf p)]

theorem clean_injective {p q : Text} (hp : p.head? = some '/') (hq : q.head? = some '/') :
    clean p = clean q ↔ partsOf p = partsOf q := by
  constructor
  · intro h
    rw [← components_clean hp, ← components_clean hq, h]
  · intro h
    rw [clean_rooted hp, clean_rooted hq, h]

theorem foldl_normStep_parts {parts : List Text} (h : ∀ part ∈ parts, IsPart part)
    (acc : List Text) :
    parts.foldl (normStep true) acc = acc ++ parts := by
  induction parts generalizing acc with
  | nil => simp
  | cons part parts ih =>
    have hpart := h part List.mem_cons_self
    have hstep : normStep true acc part = acc ++ [part] := by
      rw [normStep, if_neg (not_or.mpr ⟨hpart.ne_nil, hpart.ne_dot⟩), if_pos (.inl hpart.ne_dotdot)]
    rw [List.foldl_cons, hstep, ih fun q hq => h q (List.mem_cons_of_mem part hq),
      List.append_assoc, List.singleton_append]

/-- A path is cleaned once. -/
theorem clean_clean {p : Text} (h : p.head? = some '/') : clean (clean p) = clean p := by
  have hroot : (clean p).head? = some '/' := by
    rw [clean_rooted h]
    rfl
  rw [clean_injective hroot h, clean_rooted h]
  show (('/' :: ['/'].intercalate (partsOf p)).splitOn '/').foldl (normStep true) [] = partsOf p
  rw [List.splitOn_cons_eq_if_modifyHead, if_pos (by decide), List.foldl_cons]
  by_cases hnil : partsOf p = []
  · rw [hnil]
    rfl
  · rw [List.splitOn_intercalate '/' (fun part hpart => (fits_partsOf p part hpart).noSlash) hnil,
      foldl_normStep_parts (fits_partsOf p)]
    rfl

theorem join_rooted {root : Text} (hroot : root.head? = some '/') (path : Text) :
    (join [root, path]).head? = some '/' ∧ clean (join [root, path]) = join [root, path] := by
  have hne : root ≠ [] := by
    rintro rfl
    cases hroot
  have hjoin : join [root, path] = clean (root ++ '/' :: path) := by
    unfold join
    rw [List.dropWhile_cons_of_neg (by simpa using hne)]
    simp
  have hhead : (root ++ '/' :: path).head? = some '/' := by
    rw [List.head?_append_of_ne_nil _ hne, hroot]
  rw [hjoin, clean_clean hhead]
  refine ⟨?_, rfl⟩
  rw [clean_rooted hhead]
  rfl

theorem dropCommon_eq (bs ts : List Text) :
    ∃ common, bs = common ++ (dropCommon bs ts).1 ∧ ts = common ++ (dropCommon bs ts).2 := by
  induction bs generalizing ts with
  | nil => exact ⟨[], by simp [dropCommon]⟩
  | cons b bs ih =>
    cases ts with
    | nil => exact ⟨[], by simp [dropCommon]⟩
    | cons t ts =>
      rw [dropCommon]
      split
      · next h =>
        obtain ⟨common, hbs, hts⟩ := ih ts
        exact ⟨b :: common, by rw [List.cons_append, ← hbs], by rw [List.cons_append, ← hts, h]⟩
      · exact ⟨[], rfl, rfl⟩

/-- The elements of the path from `base` to `targ`. -/
def relParts (base targ : List Text) : List Text :=
  if targ = base then [['.']]
  else List.replicate (dropCommon base targ).1.length ['.', '.'] ++ (dropCommon base targ).2

theorem rel_rooted {basepath targpath : Text} (hbase : basepath.head? = some '/')
    (htarg : targpath.head? = some '/') :
    rel basepath targpath =
      some (['/'].intercalate (relParts (partsOf basepath) (partsOf targpath))) := by
  have hparts := clean_injective htarg hbase
  have hroot : ∀ {p : Text}, p.head? = some '/' → (clean p).head? = some '/' := by
    intro p hp
    rw [clean_rooted hp]
    rfl
  have hdot : clean basepath ≠ ['.'] := by
    rw [clean_rooted hbase]
    simp
  unfold rel relParts
  dsimp only
  by_cases hsame : clean targpath = clean basepath
  · rw [if_pos hsame, if_pos (hparts.mp hsame)]
    simp
  · rw [if_neg hsame, if_neg (mt hparts.mpr hsame), if_neg hdot, hroot hbase, hroot htarg,
      if_neg (by simp),
      components_clean hbase, components_clean htarg, if_neg]
    -- no `..` is left in a rooted path
    intro hhead
    obtain ⟨common, hcommon, -⟩ := dropCommon_eq (partsOf basepath) (partsOf targpath)
    have hmem : ['.', '.'] ∈ partsOf basepath := by
      rw [hcommon]
      exact List.mem_append_right common (List.mem_of_head? hhead)
    exact (fits_partsOf basepath _ hmem).ne_dotdot rfl

theorem count_dotdot {ps : List Text} (h : ∀ p ∈ ps, IsPart p) (n : Nat) :
    (List.replicate n ['.', '.'] ++ ps).count ['.', '.'] = n := by
  have hzero : ps.count ['.', '.'] = 0 :=
    List.count_eq_zero.mpr fun hmem => (h _ hmem).ne_dotdot rfl
  rw [List.count_append, List.count_replicate_self, hzero, Nat.add_zero]

theorem fits_dropCommon {base targ : List Text} (h : ∀ p ∈ targ, IsPart p) :
    ∀ p ∈ (dropCommon base targ).2, IsPart p := by
  obtain ⟨common, -, htarg⟩ := dropCommon_eq base targ
  intro p hp
  apply h
  rw [htarg]
  exact List.mem_append_right common hp

/-- The elements of a path elsewhere are not those of the path to where one is. -/
theorem relParts_ne_dot {base targ : List Text} (h : ∀ p ∈ targ, IsPart p) (hne : targ ≠ base) :
    relParts base targ ≠ [['.']] := by
  intro heq
  rw [relParts, if_neg hne] at heq
  cases hn : (dropCommon base targ).1.length with
  | zero =>
    rw [hn, List.replicate_zero, List.nil_append] at heq
    have hdot : ['.'] ∈ (dropCommon base targ).2 := by
      rw [heq]
      exact List.mem_singleton.mpr rfl
    exact (fits_dropCommon h _ hdot).ne_dot rfl
  | succ n =>
    rw [hn, List.replicate_succ, List.cons_append] at heq
    exact absurd (List.cons.inj heq).1 (by decide)

theorem relParts_injective {base targ targ' : List Text} (h : ∀ p ∈ targ, IsPart p)
    (h' : ∀ p ∈ targ', IsPart p) (heq : relParts base targ = relParts base targ') :
    targ = targ' := by
  by_cases hsame : targ = base
  · by_cases hsame' : targ' = base
    · rw [hsame, hsame']
    · rw [relParts, if_pos hsame] at heq
      exact absurd heq.symm (relParts_ne_dot h' hsame')
  · by_cases hsame' : targ' = base
    · rw [relParts, relParts, if_pos hsame'] at heq
      refine absurd ?_ (relParts_ne_dot h hsame)
      rw [relParts, heq]
    · rw [relParts, if_neg hsame, relParts, if_neg hsame'] at heq
      have hcount := congrArg (List.count ['.', '.']) heq
      rw [count_dotdot (fits_dropCommon h), count_dotdot (fits_dropCommon h')] at hcount
      rw [hcount] at heq
      have hrest := List.append_cancel_left heq
      obtain ⟨common, hbase, htarg⟩ := dropCommon_eq base targ
      obtain ⟨common', hbase', htarg'⟩ := dropCommon_eq base targ'
      -- as many elements of the base are left, so as many are common
      have hcommon : common = common' := (List.append_inj' (hbase.symm.trans hbase') hcount).1
      rw [htarg, htarg', hcommon, hrest]

theorem fits_relParts {base targ : List Text} (h : ∀ p ∈ targ, IsPart p) :
    relParts base targ ≠ [] ∧ ∀ p ∈ relParts base targ, '/' ∉ p := by
  rw [relParts]
  split
  · exact ⟨List.cons_ne_nil _ _, by simp⟩
  · next hne =>
    constructor
    · intro hnil
      obtain ⟨hbase, htarg⟩ := List.append_eq_nil_iff.mp hnil
      obtain ⟨common, hcommon, hcommon'⟩ := dropCommon_eq base targ
      rw [List.replicate_eq_nil_iff, List.length_eq_zero_iff] at hbase
      rw [hbase] at hcommon
      rw [htarg] at hcommon'
      exact hne (hcommon'.trans hcommon.symm)
    · intro p hp
      rcases List.mem_append.mp hp with hp | hp
      · rw [(List.mem_replicate.mp hp).2]
        decide
      · exact (fits_dropCommon h p hp).noSlash

/-- What two rooted paths have for the path to them, they are one place. -/
theorem rel_injective {basepath targpath targpath' : Text} (hbase : basepath.head? = some '/')
    (htarg : targpath.head? = some '/') (htarg' : targpath'.head? = some '/')
    (h : rel basepath targpath = rel basepath targpath') : clean targpath = clean targpath' := by
  rw [rel_rooted hbase htarg, rel_rooted hbase htarg'] at h
  obtain ⟨hne, hslash⟩ : relParts (partsOf basepath) (partsOf targpath) ≠ [] ∧ _ :=
    fits_relParts (fits_partsOf targpath)
  obtain ⟨hne', hslash'⟩ : relParts (partsOf basepath) (partsOf targpath') ≠ [] ∧ _ :=
    fits_relParts (fits_partsOf targpath')
  rw [clean_injective htarg htarg']
  apply relParts_injective (fits_partsOf targpath) (fits_partsOf targpath')
  show relParts (partsOf basepath) _ = relParts (partsOf basepath) _
  rw [← List.splitOn_intercalate '/' hslash hne, ← List.splitOn_intercalate '/' hslash' hne',
    Option.some.inj h]

end Willis
