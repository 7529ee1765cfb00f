import Mathlib.Data.List.Induction
import Mathlib.Data.List.Perm.Subperm
import Mathlib.Order.Defs.LinearOrder
import DevUtil.Lib.Dict
import DevUtil.Lib.Text

/-!
# Ebuilds that are not the latest version

`exclude_latest_version` of `cleanup_crates.py`: one pass over the packages, which keeps the latest
one of each name. A package with the version of the kept one is passed over, also when a newer one
comes later.

    what a step keeps                                        (kept_step)
    no package too many, none that is the latest             (count_le)
    the result has all packages with a newer version, in any
      order of the list ↔ each such version is listed once   (excludes_iff)
-/

namespace Crates

open Lib

/-- A package of portage. -/
structure Package where
  cp : Text
  versionNoRev : Text
  cpv : Text
deriving DecidableEq

section

variable {V : Type} [LinearOrder V] (lv : Text → V)

/-- The loop's `latest` and `results`. -/
structure Pass where
  latest : Dict Text Package
  results : List Package

def Pass.step (s : Pass) (pkg : Package) : Pass :=
  match s.latest.get? pkg.cp with
  | none => { s with latest := s.latest.set pkg.cp pkg }
  | some other =>
    if lv other.versionNoRev < lv pkg.versionNoRev then
      { latest := s.latest.set pkg.cp pkg, results := s.results ++ [other] }
    else if lv pkg.versionNoRev ≠ lv other.versionNoRev then
      { s with results := s.results ++ [pkg] }
    else s

/-- The pass over the packages; `lv` is `LooseVersion`. -/
def pass (packages : List Package) : Pass :=
  packages.foldl (Pass.step lv) { latest := Dict.empty, results := [] }

def excludeLatestVersion (packages : List Package) : List Package := (pass lv packages).results

/-! ## Versions -/

/-- There is a newer version of the package. -/
def Stale (packages : List Package) (p : Package) : Prop :=
  ∃ q ∈ packages, q.cp = p.cp ∧ lv p.versionNoRev < lv q.versionNoRev

instance (packages : List Package) (p : Package) : Decidable (Stale lv packages p) :=
  inferInstanceAs (Decidable (∃ q ∈ packages, _))

def sameVersion (p q : Package) : Bool :=
  decide (q.cp = p.cp ∧ lv q.versionNoRev = lv p.versionNoRev)

/-- The packages that have a newer version, as often as they are listed. -/
def stalePackages (packages : List Package) : List Package :=
  packages.filter fun p => decide (Stale lv packages p)

/-- The result for the list, and for every other order of it. -/
structure Excludes (packages : List Package) : Prop where
  result : (excludeLatestVersion lv packages).Perm (stalePackages lv packages)
  orders : ∀ packages', packages'.Perm packages →
    (excludeLatestVersion lv packages').Perm (excludeLatestVersion lv packages)

/-- Of a name, no version but the latest one is listed twice. -/
def StaleOnce (packages : List Package) : Prop :=
  ∀ p ∈ packages, Stale lv packages p → packages.countP (sameVersion lv p) = 1

end

section

variable {V : Type} [LinearOrder V] {lv : Text → V} {packages packages' seen : List Package}
  {p q x : Package}

theorem Stale.mono (h : Stale lv packages x) (hsub : ∀ p ∈ packages, p ∈ packages') :
    Stale lv packages' x := by
  obtain ⟨q, hq, hcp, hlt⟩ := h
  exact ⟨q, hsub q hq, hcp, hlt⟩

theorem stale_concat : Stale lv (seen ++ [p]) x ↔
    Stale lv seen x ∨ p.cp = x.cp ∧ lv x.versionNoRev < lv p.versionNoRev := by
  simp [Stale, List.mem_append, or_and_right, exists_or]

theorem stale_perm (h : packages.Perm packages') : Stale lv packages x ↔ Stale lv packages' x :=
  ⟨fun hx => hx.mono fun _ hp => h.mem_iff.mp hp, fun hx => hx.mono fun _ hp => h.mem_iff.mpr hp⟩

theorem sameVersion_self (p : Package) : sameVersion lv p p = true := by simp [sameVersion]

theorem count_stalePackages (packages : List Package) (x : Package) :
    (stalePackages lv packages).count x = if Stale lv packages x then packages.count x else 0 := by
  rw [stalePackages]
  by_cases h : Stale lv packages x
  · rw [if_pos h, List.count_filter (by simpa using h)]
  · rw [if_neg h, List.count_eq_zero, List.mem_filter]
    simp [h]

theorem stalePackages_perm (h : packages.Perm packages') :
    (stalePackages lv packages).Perm (stalePackages lv packages') := by
  rw [List.perm_iff_count]
  intro x
  rw [count_stalePackages, count_stalePackages, h.count_eq]
  simp only [stale_perm h]

theorem StaleOnce.perm (h : StaleOnce lv packages) (hperm : packages.Perm packages') :
    StaleOnce lv packages' := by
  intro p hp hstale
  rw [← hperm.countP_eq]
  exact h p (hperm.mem_iff.mpr hp) ((stale_perm hperm).mpr hstale)

/-- A part of the list has no version twice either. -/
theorem StaleOnce.of_concat (h : StaleOnce lv (seen ++ [p])) : StaleOnce lv seen := by
  intro q hq hstale
  have hone := h q (List.mem_append_left _ hq) (hstale.mono fun _ hp => List.mem_append_left _ hp)
  rw [List.countP_append] at hone
  have hpos : 0 < seen.countP (sameVersion lv q) :=
    List.countP_pos_iff.mpr ⟨q, hq, sameVersion_self q⟩
  omega

/-- The only package with a version. -/
theorem eq_of_countP_le_one (h : seen.countP (sameVersion lv p) ≤ 1) (hp : p ∈ seen) (hx : x ∈ seen)
    (hsame : sameVersion lv p x = true) : x = p ∧ seen.count x = 1 := by
  rw [List.countP_eq_length_filter] at h
  have hpmem : p ∈ seen.filter (sameVersion lv p) := List.mem_filter.mpr ⟨hp, sameVersion_self p⟩
  have hxmem : x ∈ seen.filter (sameVersion lv p) := List.mem_filter.mpr ⟨hx, hsame⟩
  have hcount := List.count_filter (l := seen) hsame
  cases hlist : seen.filter (sameVersion lv p) with
  | nil => simp [hlist] at hpmem
  | cons y rest =>
    rw [hlist, List.length_cons] at h
    have hrest : rest = [] := List.eq_nil_of_length_eq_zero (by omega)
    rw [hlist, hrest, List.mem_singleton] at hpmem hxmem
    rw [hlist, hrest, hxmem] at hcount
    exact ⟨by rw [hpmem, hxmem], by rw [hxmem, ← hcount]; simp⟩

/-! ## The pass -/

/-- The kept packages are the latest ones of `seen`. -/
structure Newest (lv : Text → V) (seen : List Package) (latest : Dict Text Package) : Prop where
  newest : ∀ name q, latest.get? name = some q →
    q ∈ seen ∧ q.cp = name ∧ ∀ x ∈ seen, x.cp = name → lv x.versionNoRev ≤ lv q.versionNoRev
  found : ∀ x ∈ seen, ∃ q, latest.get? x.cp = some q

/-- How often a package of `seen` is in the results. -/
structure Counted (lv : Text → V) (seen results : List Package) : Prop where
  not_stale : ∀ x, ¬Stale lv seen x → results.count x = 0
  le : ∀ x, results.count x ≤ seen.count x
  eq : StaleOnce lv seen → ∀ x, Stale lv seen x → results.count x = seen.count x

section

variable {latest : Dict Text Package} {results : List Package} {other : Package}

theorem Newest.set (h : Newest lv seen latest)
    (hmax : ∀ x ∈ seen, x.cp = p.cp → lv x.versionNoRev ≤ lv p.versionNoRev) :
    Newest lv (seen ++ [p]) (latest.set p.cp p) where
  newest name q hq := by
    rcases Dict.get?_set_cases hq with ⟨rfl, rfl⟩ | ⟨hname, hq⟩
    · refine ⟨by simp, rfl, ?_⟩
      intro x hx hcp
      rcases List.mem_append.mp hx with hx | hx
      · exact hmax x hx hcp
      · rw [List.mem_singleton.mp hx]
    · obtain ⟨hmem, hcp, hle⟩ := h.newest name q hq
      refine ⟨List.mem_append_left _ hmem, hcp, ?_⟩
      intro x hx hxcp
      rcases List.mem_append.mp hx with hx | hx
      · exact hle x hx hxcp
      · rw [List.mem_singleton.mp hx] at hxcp
        exact absurd hxcp.symm hname
  found x hx := by
    by_cases hcp : x.cp = p.cp
    · exact ⟨p, by rw [hcp, Dict.get?_set]⟩
    · rw [Dict.get?_set_of_ne _ hcp]
      rcases List.mem_append.mp hx with hx | hx
      · exact h.found x hx
      · exact absurd (by rw [List.mem_singleton.mp hx]) hcp

theorem Newest.keep (h : Newest lv seen latest) (hother : latest.get? p.cp = some other)
    (hle : lv p.versionNoRev ≤ lv other.versionNoRev) : Newest lv (seen ++ [p]) latest where
  newest name q hq := by
    obtain ⟨hmem, hcp, hmax⟩ := h.newest name q hq
    refine ⟨List.mem_append_left _ hmem, hcp, ?_⟩
    intro x hx hxcp
    rcases List.mem_append.mp hx with hx | hx
    · exact hmax x hx hxcp
    · rw [List.mem_singleton.mp hx] at hxcp ⊢
      rw [hxcp, hq] at hother
      obtain rfl := Option.some.inj hother
      exact hle
  found x hx := by
    rcases List.mem_append.mp hx with hx | hx
    · exact h.found x hx
    · rw [List.mem_singleton.mp hx]
      exact ⟨other, hother⟩

theorem count_concat (seen : List Package) (p x : Package) :
    (seen ++ [p]).count x = seen.count x + if p = x then 1 else 0 := by
  rw [List.count_append, List.count_singleton]
  simp only [beq_iff_eq]

/-- A package that is not newer makes no other one stale. -/
theorem stale_concat_of_le (hother : other ∈ seen) (hcp : other.cp = p.cp)
    (hle : lv p.versionNoRev ≤ lv other.versionNoRev) :
    Stale lv (seen ++ [p]) x ↔ Stale lv seen x := by
  rw [stale_concat]
  constructor
  · rintro (h | ⟨hpx, hlt⟩)
    · exact h
    · exact ⟨other, hother, hcp.trans hpx, lt_of_lt_of_le hlt hle⟩
  · exact .inl

/-- The first package of its name. -/
theorem Counted.first (h : Counted lv seen results) (hfirst : ∀ x ∈ seen, x.cp ≠ p.cp) :
    Counted lv (seen ++ [p]) results where
  not_stale x hx := h.not_stale x fun hstale => hx (stale_concat.mpr (.inl hstale))
  le x := by
    rw [count_concat]
    exact Nat.le_add_right_of_le (h.le x)
  eq honce x hx := by
    rcases stale_concat.mp hx with hstale | ⟨hcp, hlt⟩
    · have hne : p ≠ x := by
        rintro rfl
        obtain ⟨q, hq, hcp, -⟩ := hstale
        exact hfirst q hq hcp
      rw [count_concat, if_neg hne, h.eq honce.of_concat x hstale, Nat.add_zero]
    · have hseen : seen.count x = 0 := List.count_eq_zero.mpr fun hx => hfirst x hx hcp.symm
      have hne : p ≠ x := by
        rintro rfl
        exact lt_irrefl _ hlt
      have hle := h.le x
      rw [count_concat, if_neg hne]
      omega

/-- The latest packages that were seen are of one version, which is that of the kept one. -/
theorem sameVersion_of_latest (hother : other ∈ seen) (hcp : other.cp = p.cp)
    (hmax : ∀ x ∈ seen, x.cp = p.cp → lv x.versionNoRev ≤ lv other.versionNoRev) (hx : x ∈ seen)
    (hpx : p.cp = x.cp) (hlatest : ¬Stale lv seen x) : sameVersion lv other x = true := by
  have hversion : lv x.versionNoRev = lv other.versionNoRev := by
    apply le_antisymm (hmax x hx hpx.symm)
    apply le_of_not_gt
    intro hxlt
    exact hlatest ⟨other, hother, hcp.trans hpx, hxlt⟩
  simp [sameVersion, hversion, hcp, hpx]

/-- A package that is newer than the kept one. -/
theorem Counted.newer (h : Counted lv seen results) (hother : other ∈ seen)
    (hcp : other.cp = p.cp)
    (hmax : ∀ x ∈ seen, x.cp = p.cp → lv x.versionNoRev ≤ lv other.versionNoRev)
    (hlt : lv other.versionNoRev < lv p.versionNoRev) :
    Counted lv (seen ++ [p]) (results ++ [other]) := by
  have hother_stale : Stale lv (seen ++ [p]) other := stale_concat.mpr (.inr ⟨hcp.symm, hlt⟩)
  have hother_top : ¬Stale lv seen other := by
    rintro ⟨q, hq, hqcp, hqlt⟩
    exact absurd (hmax q hq (hqcp.trans hcp)) (not_le_of_gt hqlt)
  have hother_count : results.count other = 0 := h.not_stale other hother_top
  refine ⟨?_, ?_, ?_⟩
  · intro x hx
    have hne : other ≠ x := by
      rintro rfl
      exact hx hother_stale
    rw [count_concat, if_neg hne, h.not_stale x fun hstale => hx (stale_concat.mpr (.inl hstale))]
  · intro x
    rw [count_concat, count_concat]
    by_cases hx : other = x
    · subst hx
      have hpos := List.count_pos_iff.mpr hother
      rw [if_pos rfl]
      omega
    · have hle := h.le x
      rw [if_neg hx]
      omega
  · intro honce x hx
    have hp : p ≠ x := by
      rintro rfl
      rcases stale_concat.mp hx with ⟨q, hq, hqcp, hqlt⟩ | ⟨-, hqlt⟩
      · exact absurd (hmax q hq hqcp) (not_le_of_gt (lt_trans hlt hqlt))
      · exact lt_irrefl _ hqlt
    rw [count_concat, count_concat, if_neg hp, Nat.add_zero]
    by_cases hstale : Stale lv seen x
    · have hne : other ≠ x := by
        rintro rfl
        exact hother_top hstale
      rw [if_neg hne, h.eq honce.of_concat x hstale, Nat.add_zero]
    · rw [h.not_stale x hstale, Nat.zero_add]
      obtain ⟨hpx, -⟩ := (stale_concat.mp hx).resolve_left hstale
      by_cases hmem : x ∈ seen
      · -- a latest version until now, as `other` is, and there is only one of these
        have hsame := sameVersion_of_latest hother hcp hmax hmem hpx hstale
        have hone := honce other (List.mem_append_left _ hother) hother_stale
        rw [List.countP_append] at hone
        obtain ⟨rfl, hcount⟩ := eq_of_countP_le_one (by omega) hother hmem hsame
        rw [if_pos rfl, hcount]
      · have hne : other ≠ x := fun h => hmem (h ▸ hother)
        rw [if_neg hne, List.count_eq_zero.mpr hmem]

/-- A package that is older than the kept one. -/
theorem Counted.older (h : Counted lv seen results) (hother : other ∈ seen)
    (hcp : other.cp = p.cp) (hlt : lv p.versionNoRev < lv other.versionNoRev) :
    Counted lv (seen ++ [p]) (results ++ [p]) := by
  have hsame : ∀ x, Stale lv (seen ++ [p]) x ↔ Stale lv seen x :=
    fun x => stale_concat_of_le hother hcp (le_of_lt hlt)
  have hp : Stale lv seen p := ⟨other, hother, hcp, hlt⟩
  refine ⟨?_, ?_, ?_⟩
  · intro x hx
    rw [hsame] at hx
    have hne : p ≠ x := by
      rintro rfl
      exact hx hp
    rw [count_concat, if_neg hne, h.not_stale x hx]
  · intro x
    have hle := h.le x
    rw [count_concat, count_concat]
    omega
  · intro honce x hx
    rw [hsame] at hx
    rw [count_concat, count_concat, h.eq honce.of_concat x hx]

/-- A package with the version of the kept one. -/
theorem Counted.same (h : Counted lv seen results) (hother : other ∈ seen) (hcp : other.cp = p.cp)
    (hmax : ∀ x ∈ seen, x.cp = p.cp → lv x.versionNoRev ≤ lv other.versionNoRev)
    (heq : lv p.versionNoRev = lv other.versionNoRev) : Counted lv (seen ++ [p]) results := by
  have hsame : ∀ x, Stale lv (seen ++ [p]) x ↔ Stale lv seen x :=
    fun x => stale_concat_of_le hother hcp (le_of_eq heq)
  refine ⟨fun x hx => h.not_stale x (mt (hsame x).mpr hx), ?_, ?_⟩
  · intro x
    rw [count_concat]
    exact Nat.le_add_right_of_le (h.le x)
  · intro honce x hx
    rw [hsame] at hx
    have hne : p ≠ x := by
      rintro rfl
      obtain ⟨q, hq, hqcp, hqlt⟩ := hx
      exact absurd (hmax q hq hqcp) (not_le_of_gt (heq ▸ hqlt))
    rw [count_concat, if_neg hne, h.eq honce.of_concat x hx, Nat.add_zero]

end

/-- What a step keeps. -/
theorem kept_step {s : Pass} (hnewest : Newest lv seen s.latest)
    (hcounted : Counted lv seen s.results) (p : Package) :
    Newest lv (seen ++ [p]) (s.step lv p).latest ∧
      Counted lv (seen ++ [p]) (s.step lv p).results := by
  unfold Pass.step
  split
  · next hnone =>
    have hfirst : ∀ x ∈ seen, x.cp ≠ p.cp := by
      intro x hx hcp
      obtain ⟨q, hq⟩ := hnewest.found x hx
      rw [hcp, hnone] at hq
      cases hq
    exact ⟨hnewest.set fun x hx hcp => absurd hcp (hfirst x hx), hcounted.first hfirst⟩
  · next other hother =>
    obtain ⟨hmem, hcp, hmax⟩ := hnewest.newest _ other hother
    split
    · next hlt =>
      exact ⟨hnewest.set fun x hx hxcp => (hmax x hx hxcp).trans (le_of_lt hlt),
        hcounted.newer hmem hcp hmax hlt⟩
    · next hnot =>
      have hle := le_of_not_gt hnot
      split
      · next hne =>
          exact ⟨hnewest.keep hother hle, hcounted.older hmem hcp (lt_of_le_of_ne hle hne)⟩
      · next heq => exact ⟨hnewest.keep hother hle, hcounted.same hmem hcp hmax (not_not.mp heq)⟩

theorem kept_pass (lv : Text → V) (packages : List Package) :
    Newest lv packages (pass lv packages).latest ∧
      Counted lv packages (pass lv packages).results := by
  induction packages using List.reverseRecOn with
  | nil =>
    refine ⟨⟨fun _ _ h => ?_, fun _ h => ?_⟩,
      ⟨fun _ _ => rfl, fun _ => Nat.le_refl _, fun _ _ _ => rfl⟩⟩
    · cases h
    · cases h
  | append_singleton seen p ih =>
    have hpass : pass lv (seen ++ [p]) = (pass lv seen).step lv p := by
      rw [pass, List.foldl_append]
      rfl
    rw [hpass]
    exact kept_step ih.1 ih.2 p

/-! ## The result -/

/-- No package too many, and none that is the latest. -/
theorem count_le (packages : List Package) (x : Package) :
    (excludeLatestVersion lv packages).count x ≤ (stalePackages lv packages).count x := by
  have hcounted := (kept_pass lv packages).2
  rw [count_stalePackages]
  split
  · exact hcounted.le x
  · next hstale => exact le_of_eq (hcounted.not_stale x hstale)

theorem length_le (lv : Text → V) (packages : List Package) :
    (excludeLatestVersion lv packages).length ≤ (stalePackages lv packages).length :=
  (List.subperm_ext_iff.mpr fun x _ => count_le packages x).length_le

theorem StaleOnce.result (h : StaleOnce lv packages) :
    (excludeLatestVersion lv packages).Perm (stalePackages lv packages) := by
  have hcounted := (kept_pass lv packages).2
  rw [List.perm_iff_count]
  intro x
  rw [count_stalePackages]
  split
  · next hstale => exact hcounted.eq h x hstale
  · next hstale => exact hcounted.not_stale x hstale

/-- The second of two packages with one version, at the beginning of the list. -/
theorem exclude_cons_cons (hcp : q.cp = p.cp) (hversion : lv q.versionNoRev = lv p.versionNoRev)
    (rest : List Package) :
    excludeLatestVersion lv (p :: q :: rest) = excludeLatestVersion lv (p :: rest) := by
  have hstep : ((Pass.step lv { latest := Dict.empty, results := [] } p).step lv q) =
      Pass.step lv { latest := Dict.empty, results := [] } p := by
    have hfirst : Pass.step lv { latest := Dict.empty, results := [] } p =
      { latest := Dict.empty.set p.cp p, results := [] } := rfl
    rw [hfirst, Pass.step, hcp, Dict.get?_set]
    simp [hversion]
  rw [excludeLatestVersion, pass, List.foldl_cons, List.foldl_cons, hstep]
  rfl

theorem length_lt (hcp : q.cp = p.cp) (hversion : lv q.versionNoRev = lv p.versionNoRev)
    {rest : List Package} (hstale : Stale lv (p :: q :: rest) p) :
    (excludeLatestVersion lv (p :: q :: rest)).length <
      (stalePackages lv (p :: q :: rest)).length := by
  have hsame : ∀ x, Stale lv (p :: q :: rest) x ↔ Stale lv (p :: rest) x := by
    intro x
    simp only [Stale, List.exists_mem_cons_iff, hcp, hversion]
    tauto
  have hq : Stale lv (p :: rest) q := by
    obtain ⟨r, hr, hrcp, hlt⟩ := (hsame p).mp hstale
    exact ⟨r, hr, hrcp.trans hcp.symm, hversion ▸ hlt⟩
  have hlength : (stalePackages lv (p :: q :: rest)).length =
      (stalePackages lv (p :: rest)).length + 1 := by
    simp only [stalePackages, hsame]
    rw [List.filter_cons_of_pos (by simpa using (hsame p).mp hstale),
      List.filter_cons_of_pos (by simpa using hq),
      List.filter_cons_of_pos (by simpa using (hsame p).mp hstale)]
    rfl
  have hle := length_le lv (p :: rest)
  rw [exclude_cons_cons hcp hversion, hlength]
  omega

end

/-- **The result is right, in any order of the list, exactly if of a name no version but the latest
is listed twice.** -/
theorem excludes_iff {V : Type} [LinearOrder V] (lv : Text → V) (packages : List Package) :
    Excludes lv packages ↔ StaleOnce lv packages := by
  constructor
  · intro h p hp hstale
    by_contra hcount
    -- two packages of the version come first in some order
    have hpos : 0 < packages.countP (sameVersion lv p) :=
      List.countP_pos_iff.mpr ⟨p, hp, sameVersion_self p⟩
    have hlist : ∃ a b others, packages.filter (sameVersion lv p) = a :: b :: others := by
      rw [List.countP_eq_length_filter] at hcount hpos
      match hfilter : packages.filter (sameVersion lv p) with
      | [] => simp [hfilter] at hpos
      | [a] => simp [hfilter] at hcount
      | a :: b :: others => exact ⟨a, b, others, rfl⟩
    obtain ⟨a, b, others, hfilter⟩ := hlist
    have hsub : [a, b].Sublist packages := by
      have hprefix : [a, b].Sublist (packages.filter (sameVersion lv p)) := by
        rw [hfilter]
        exact ((List.nil_sublist others).cons_cons b).cons_cons a
      exact hprefix.trans List.filter_sublist
    obtain ⟨rest, hperm⟩ := hsub.exists_perm_append
    have hsame : ∀ x ∈ [a, b], x.cp = p.cp ∧ lv x.versionNoRev = lv p.versionNoRev := by
      intro x hx
      have hx : x ∈ packages.filter (sameVersion lv p) := by
        rw [hfilter]
        exact List.mem_append_left others hx
      simpa [sameVersion] using (List.mem_filter.mp hx).2
    have ha := hsame a List.mem_cons_self
    have hb := hsame b (List.mem_cons_of_mem a List.mem_cons_self)
    have hastale : Stale lv (a :: b :: rest) a := by
      obtain ⟨r, hr, hrcp, hlt⟩ := (stale_perm hperm).mp hstale
      exact ⟨r, hr, hrcp.trans ha.1.symm, ha.2 ▸ hlt⟩
    have hlt := length_lt (hb.1.trans ha.1.symm) (hb.2.trans ha.2.symm) hastale
    have hexcluded := (h.orders (a :: b :: rest) hperm.symm).trans h.result
    rw [hexcluded.length_eq, (stalePackages_perm hperm).length_eq] at hlt
    exact Nat.lt_irrefl _ hlt
  · intro h
    refine ⟨h.result, ?_⟩
    intro packages' hperm
    have hresult := (h.perm hperm.symm).result
    exact (hresult.trans (stalePackages_perm hperm)).trans h.result.symm

/-- Two revisions of a version, and a newer version. -/
def twoRevisions : List Package :=
  [{ cp := ['a'], versionNoRev := ['1'], cpv := "a-1".toList },
    { cp := ['a'], versionNoRev := ['1'], cpv := "a-1-r1".toList },
    { cp := ['a'], versionNoRev := "10".toList, cpv := "a-10".toList }]

/-- The second revision is lost; the length stands for the version here. -/
theorem not_excludes : ¬∀ (V : Type) [LinearOrder V] (lv : Text → V) packages,
    Excludes lv packages := by
  intro h
  have hresult := (h Nat List.length twoRevisions).result
  exact absurd hresult.length_eq (by decide)

end Crates
