import Mathlib.Data.List.Perm.Subperm
import DevUtil.Findmissing.Schema
import DevUtil.Lib.Dict
import DevUtil.Lib.Firsts
import DevUtil.Lib.Levels

/-!
# `get_subsequent_fixes`

The fixes of a fix, and their fixes: a search that goes on from each commit once, in the
round after it is found first, but gives it the number of the last round that finds it.

    the loop ends; the result is what the root reaches, each once  (get_subsequent_fixes_closure)
    x stands before y ↔ x is found for the last time before y is,
      or in the same round, and x was found first                  (Explored.inOrder)
-/

namespace Findmissing

open Lib Levels

/-! ## The function -/

/-- `SELECT fixedby_upstream_sha FROM upstream_fixes WHERE upstream_sha IN (upstreamShas)`. -/
def DB.upstreamFixesForShas (db : DB) (upstreamShas : List Sha) : List Sha :=
  (db.upstreamFixes.rows.filter fun r => decide (r.upstreamSha ∈ upstreamShas)).map
    (·.fixedbyUpstreamSha)

/-- The variables of the loop; the order of a set does not matter to the query. -/
structure FixesLoop where
  fixes : Dict Sha Nat
  iteration : Nat
  newShas : List Sha

/-- `fixes[sha] = max(current_iteration, iteration)` for each sha. -/
def raiseLevels (iteration : Nat) (fixes : Dict Sha Nat) (shas : List Sha) : Dict Sha Nat :=
  shas.foldl (fun fixes sha => fixes.set sha (max ((fixes.get? sha).getD 0) iteration)) fixes

def fixesRound (db : DB) (s : FixesLoop) : FixesLoop :=
  let fixesForNewShas := db.upstreamFixesForShas s.newShas
  { iteration := s.iteration + 1
    fixes := raiseLevels (s.iteration + 1) s.fixes fixesForNewShas
    newShas := fixesForNewShas.filter fun sha => decide (sha ∉ s.fixes.keys) }

/-- `while new_shas`, for at most `fuel` rounds. -/
def fixesLoop (db : DB) : Nat → FixesLoop → Option FixesLoop
  | 0, _ => none
  | fuel + 1, s => if s.newShas = [] then some s else fixesLoop db fuel (fixesRound db s)

def startFixes (fixerUpstreamSha : Sha) : FixesLoop :=
  ⟨Dict.empty.set fixerUpstreamSha 0, 0, [fixerUpstreamSha]⟩

/-- `fixing_shas`, sorted by the iteration. -/
def fixingShas (fixes : Dict Sha Nat) : List Sha :=
  (fixes.items.insertionSort fun x y => x.2 ≤ y.2).map Prod.fst

/-- `none` if the loop needs more rounds than `fuel`. -/
def getSubsequentFixes (fuel : Nat) (db : DB) (fixerUpstreamSha : Sha) : Option (List Sha) :=
  (fixesLoop db fuel (startFixes fixerUpstreamSha)).map fun s => fixingShas s.fixes

/-! ## The relation -/

/-- The rows of `upstream_fixes`, as edges from a commit to its fix. -/
def DB.fixEdges (db : DB) : List (Sha × Sha) := db.upstreamFixes.rows.map UpstreamFix.key

/-- `y` is a fix for `x`. -/
def DB.FixedBy (db : DB) (x y : Sha) : Prop := Edge db.fixEdges x y

/-- `x` is found first: in an earlier round, or in the same one by an earlier row. -/
def DB.FoundFirst (db : DB) (root x y : Sha) : Prop :=
  ∃ m n, Depth db.fixEdges root m x ∧ Depth db.fixEdges root n y ∧ (m < n ∨ x ≠ y ∧ ∃ k pre p post,
    m = k + 1 ∧ n = k + 1 ∧ db.fixEdges = pre ++ (p, x) :: post ∧ Depth db.fixEdges root k p ∧
      ∀ q, Depth db.fixEdges root k q → (q, y) ∉ pre)

theorem upstreamFixesForShas_eq (db : DB) (shas : List Sha) :
    db.upstreamFixesForShas shas = (db.fixEdges.filter fun e => decide (e.1 ∈ shas)).map
      Prod.snd := by
  unfold DB.upstreamFixesForShas DB.fixEdges
  rw [List.filter_map, List.map_map]
  rfl

theorem mem_upstreamFixesForShas {db : DB} {shas : List Sha} {y : Sha} :
    y ∈ db.upstreamFixesForShas shas ↔ ∃ x ∈ shas, (x, y) ∈ db.fixEdges := by
  rw [upstreamFixesForShas_eq]
  simp only [List.mem_map, List.mem_filter, decide_eq_true_eq]
  constructor
  · rintro ⟨⟨x, y⟩, ⟨hrow, hx⟩, rfl⟩
    exact ⟨x, hx, hrow⟩
  · rintro ⟨x, hx, hrow⟩
    exact ⟨(x, y), ⟨hrow, hx⟩, rfl⟩

/-! ## One round -/

variable {db : DB} {root x y : Sha} {i : Nat} {s : FixesLoop}

/-- The rows that a round goes through. -/
theorem rows_of_found {shas pre post : List Sha}
    (h : db.upstreamFixesForShas shas = pre ++ x :: post) :
    ∃ pre' p post', db.fixEdges = pre' ++ (p, x) :: post' ∧ p ∈ shas ∧
      ∀ q ∈ shas, ∀ y, (q, y) ∈ pre' → y ∈ pre := by
  rw [upstreamFixesForShas_eq] at h
  obtain ⟨es, es', hes, hpre, hpost⟩ := List.map_eq_append_iff.mp h
  obtain ⟨⟨p, x'⟩, es'', rfl, hx, -⟩ := List.map_eq_cons_iff.mp hpost
  have hx : x' = x := hx
  subst hx
  obtain ⟨pre', rest, hrows, hpre', hrest⟩ := List.filter_eq_append_iff.mp hes
  obtain ⟨skipped, post', hrest', hskipped, hp, -⟩ := List.filter_eq_cons_iff.mp hrest
  refine ⟨pre' ++ skipped, p,
    post', by rw [hrows, hrest', List.append_assoc], of_decide_eq_true hp, fun q hq y hmem => ?_⟩
  rw [← hpre]
  rcases List.mem_append.mp hmem with hmem | hmem
  · have hin : (q, y) ∈ es := hpre' ▸ List.mem_filter.mpr ⟨hmem, decide_eq_true hq⟩
    exact List.mem_map_of_mem hin
  · exact absurd (decide_eq_true hq) (hskipped (q, y) hmem)

theorem keys_set (d : Dict Sha Nat) (sha : Sha) (v : Nat) :
    (d.set sha v).keys = if sha ∈ d.keys then d.keys else d.keys ++ [sha] :=
  Dict.keys_put sha v d.items

/-- New keys come in in the order in which they are found. -/
theorem keys_raiseLevels (iteration : Nat) (shas : List Sha) (d : Dict Sha Nat) :
    (raiseLevels iteration d shas).keys = d.keys ++ firsts id d.keys shas := by
  induction shas generalizing d with
  | nil => simp [raiseLevels, firsts]
  | cons sha shas ih =>
    show (raiseLevels iteration (d.set sha _) shas).keys = _
    rw [ih, keys_set, firsts_cons]
    by_cases hin : sha ∈ d.keys
    · simp [hin]
    · simp [hin]

theorem get_raiseLevels (iteration : Nat) (shas : List Sha) (d : Dict Sha Nat) (x : Sha) :
    (raiseLevels iteration d shas).get? x =
      if x ∈ shas then some (max ((d.get? x).getD 0) iteration) else d.get? x := by
  induction shas generalizing d with
  | nil => rfl
  | cons sha shas ih =>
    show (raiseLevels iteration (d.set sha _) shas).get? x = _
    rw [ih]
    by_cases heq : x = sha
    · subst heq
      rw [Dict.get?_set]
      simp
    · rw [Dict.get?_set_of_ne d heq]
      simp [heq]

/-- After `i` rounds: the levels are the last rounds up to `i`, and the keys came in in the order of
the first ones. -/
structure Explored (db : DB) (root : Sha) (i : Nat) (s : FixesLoop) : Prop where
  iteration : s.iteration = i
  new : ∀ x, x ∈ s.newShas ↔ Depth db.fixEdges root i x
  keys : ∀ x, x ∈ s.fixes.keys ↔ ∃ n ≤ i, Depth db.fixEdges root n x
  level : ∀ x k, s.fixes.get? x = some k → IsGreatest {n | n ≤ i ∧ FoundIn db.fixEdges root n x} k
  order : s.fixes.keys.Pairwise (db.FoundFirst root)

theorem explored_start (db : DB) (root : Sha) : Explored db root 0 (startFixes root) := by
  have hkeys : (startFixes root).fixes.keys = [root] := rfl
  refine ⟨rfl, fun x => ?_, fun x => ?_, fun x k hk => ?_, List.pairwise_singleton _ root⟩
  · rw [depth_zero]
    exact List.mem_singleton
  · rw [hkeys, List.mem_singleton]
    constructor
    · exact fun h => ⟨0, le_refl 0, depth_zero.mpr h⟩
    · rintro ⟨n, hn, hdepth⟩
      obtain rfl : n = 0 := by omega
      exact depth_zero.mp hdepth
  · have hx : x = root := by
      have hmem : x ∈ (startFixes root).fixes.keys := Dict.mem_keys.mpr ⟨k, hk⟩
      rwa [hkeys, List.mem_singleton] at hmem
    have hroot : (startFixes root).fixes.get? root = some 0 := Dict.get?_set _ root 0
    have h0 : k = 0 := by
      rw [hx, hroot] at hk
      exact (Option.some.inj hk).symm
    rw [hx, h0]
    exact ⟨⟨le_refl 0, .root⟩, fun n hn => hn.1⟩

theorem mem_found (h : Explored db root i s) (y : Sha) :
    y ∈ db.upstreamFixesForShas s.newShas ↔ FoundIn db.fixEdges root (i + 1) y := by
  rw [mem_upstreamFixesForShas]
  constructor
  · rintro ⟨x, hx, hrow⟩
    exact .next ((h.new x).mp hx) hrow
  · intro hy
    cases hy with
    | @next _ x _ hdepth hrow => exact ⟨x, (h.new x).mpr hdepth, hrow⟩

/-- A sha that is found and has no level yet is found for the first time. -/
theorem depth_of_fresh (h : Explored db root i s) (y : Sha) :
    y ∈ db.upstreamFixesForShas s.newShas ∧ y ∉ s.fixes.keys ↔
      Depth db.fixEdges root (i + 1) y := by
  rw [mem_found h, h.keys]
  constructor
  · rintro ⟨hy, hnew⟩
    obtain ⟨m, hm, hdepth⟩ := depth_of_walk hy.walk
    have heq : m = i + 1 := by
      by_contra hne
      exact hnew ⟨m, by omega, hdepth⟩
    exact heq ▸ hdepth
  · intro hdepth
    refine ⟨hdepth.found, ?_⟩
    rintro ⟨m, hm, hdepth'⟩
    have heq := hdepth.unique hdepth'
    omega

theorem order_round (h : Explored db root i s) :
    (fixesRound db s).fixes.keys.Pairwise (db.FoundFirst root) := by
  have hkeys : (fixesRound db s).fixes.keys = s.fixes.keys ++
      firsts id s.fixes.keys (db.upstreamFixesForShas s.newShas) :=
    keys_raiseLevels _ _ _
  have hdepth : ∀ y ∈ firsts id s.fixes.keys (db.upstreamFixesForShas s.newShas),
      Depth db.fixEdges root (i + 1) y := by
    intro y hy
    obtain ⟨hnot, hfind⟩ := mem_firsts.mp hy
    exact (depth_of_fresh h y).mp ⟨List.mem_of_find?_eq_some hfind, hnot⟩
  rw [hkeys]
  refine List.pairwise_append.mpr ⟨h.order, ?_, fun x hx y hy => ?_⟩
  · refine (firsts_before s.fixes.keys (db.upstreamFixesForShas s.newShas)).imp_of_mem
      fun {x y} hx hy hxy => ?_
    obtain ⟨hne, pre, post, hfound, hpre⟩ := hxy
    obtain ⟨pre', p, post', hrows, hp, hrest⟩ := rows_of_found hfound
    refine ⟨i + 1, i + 1, hdepth x hx, hdepth y hy,
      .inr ⟨hne, i, pre', p, post', rfl, rfl, hrows, (h.new p).mp hp, ?_⟩⟩
    exact fun q hq hmem => hpre y (hrest q ((h.new q).mpr hq) y hmem) rfl
  · obtain ⟨n, hn, hx⟩ := (h.keys x).mp hx
    exact ⟨n, i + 1, hx, hdepth y hy, .inl (by omega)⟩

theorem explored_round (h : Explored db root i s) : Explored db root (i + 1) (fixesRound db s) := by
  have hfound := mem_found h
  have hkeys : ∀ y, y ∈ (fixesRound db s).fixes.keys ↔
      y ∈ s.fixes.keys ∨ FoundIn db.fixEdges root (i + 1) y := by
    intro y
    show y ∈ (raiseLevels _ s.fixes _).keys ↔ _
    rw [Dict.mem_keys, get_raiseLevels, ← hfound]
    by_cases hin : y ∈ db.upstreamFixesForShas s.newShas
    · simp [hin]
    · simp only [hin, if_false, or_false]
      exact Dict.mem_keys.symm
  refine ⟨congrArg (· + 1) h.iteration, fun y => ?_, fun y => ?_, fun y k hk => ?_, order_round h⟩
  · show y ∈ (db.upstreamFixesForShas s.newShas).filter _ ↔ _
    rw [List.mem_filter, decide_eq_true_eq]
    exact depth_of_fresh h y
  · rw [hkeys, h.keys]
    constructor
    · rintro (⟨n, hn, hdepth⟩ | hy)
      · exact ⟨n, by omega, hdepth⟩
      · obtain ⟨m, hm, hdepth⟩ := depth_of_walk hy.walk
        exact ⟨m, hm, hdepth⟩
    · rintro ⟨n, hn, hdepth⟩
      by_cases heq : n = i + 1
      · exact .inr (heq ▸ hdepth).found
      · exact .inl ⟨n, by omega, hdepth⟩
  · have hget : (fixesRound db s).fixes.get? y = if y ∈ db.upstreamFixesForShas s.newShas then
        some (max ((s.fixes.get? y).getD 0) (i + 1)) else s.fixes.get? y := by
      show (raiseLevels (s.iteration + 1) s.fixes _).get? y = _
      rw [get_raiseLevels, h.iteration]
    rw [hget] at hk
    by_cases hin : y ∈ db.upstreamFixesForShas s.newShas
    · have hround := (hfound y).mp hin
      rw [if_pos hin] at hk
      have hle : (s.fixes.get? y).getD 0 ≤ i := by
        cases hget : s.fixes.get? y with
        | none => exact Nat.zero_le i
        | some k' => exact (h.level y k' hget).1.1
      have hk' : k = i + 1 := by
        have := Option.some.inj hk
        omega
      rw [hk']
      exact ⟨⟨le_refl _, hround⟩, fun n hn => hn.1⟩
    · rw [if_neg hin] at hk
      obtain ⟨⟨hle, hlast⟩, hgreatest⟩ := h.level y k hk
      refine ⟨⟨by omega, hlast⟩, fun n hn => ?_⟩
      by_cases heq : n = i + 1
      · exact absurd ((hfound y).mpr (heq ▸ hn.2)) hin
      · exact hgreatest ⟨by have := hn.1; omega, hn.2⟩

/-! ## The loop -/

theorem explored_loop {fuel : Nat} {s' : FixesLoop} (h : Explored db root i s)
    (hloop : fixesLoop db fuel s = some s') :
    ∃ j, Explored db root j s' ∧ s'.newShas = [] := by
  induction fuel generalizing i s with
  | zero => cases hloop
  | succ fuel ih =>
    unfold fixesLoop at hloop
    by_cases hnew : s.newShas = []
    · rw [if_pos hnew] at hloop
      obtain rfl := Option.some.inj hloop
      exact ⟨i, h, hnew⟩
    · rw [if_neg hnew] at hloop
      exact ih (explored_round h) hloop

/-- A round that is not the last one adds a key, and there are no more keys than rows. -/
theorem fixesLoop_ends (db : DB) (root : Sha) {fuel : Nat} (s : FixesLoop)
    (hkeys : s.fixes.keys ⊆ root :: db.fixEdges.map Prod.snd)
    (hfuel : db.fixEdges.length + 3 ≤ fuel + s.fixes.keys.length ∨ s.newShas = [] ∧ 0 < fuel) :
    ∃ s', fixesLoop db fuel s = some s' := by
  have hle : s.fixes.keys.length ≤ db.fixEdges.length + 1 := by
    have hperm := List.subperm_of_subset s.fixes.nodup hkeys
    simpa [Dict.keys] using hperm.length_le
  induction fuel generalizing s with
  | zero => omega
  | succ fuel ih =>
    unfold fixesLoop
    by_cases hnew : s.newShas = []
    · exact ⟨s, if_pos hnew⟩
    · rw [if_neg hnew]
      have hsub : (fixesRound db s).fixes.keys ⊆ root :: db.fixEdges.map Prod.snd := by
        intro y hy
        have hy : y ∈ (raiseLevels _ s.fixes (db.upstreamFixesForShas s.newShas)).keys := hy
        rw [keys_raiseLevels] at hy
        rcases List.mem_append.mp hy with hy | hy
        · exact hkeys hy
        · have hfirst := List.mem_of_find?_eq_some (mem_firsts.mp hy).2
          obtain ⟨x, -, hrow⟩ := mem_upstreamFixesForShas.mp hfirst
          exact List.mem_cons_of_mem root (List.mem_map_of_mem hrow)
      have hlength : (fixesRound db s).fixes.keys.length =
          s.fixes.keys.length +
              (firsts id s.fixes.keys (db.upstreamFixesForShas s.newShas)).length := by
        show (raiseLevels _ s.fixes _).keys.length = _
        rw [keys_raiseLevels, List.length_append]
      have hle' : (fixesRound db s).fixes.keys.length ≤ db.fixEdges.length + 1 := by
        have hperm := List.subperm_of_subset (fixesRound db s).fixes.nodup hsub
        simpa [Dict.keys] using hperm.length_le
      have hfuel := hfuel.resolve_right fun h => hnew h.1
      refine ih (fixesRound db s) hsub ?_ hle'
      by_cases hnext : (fixesRound db s).newShas = []
      · exact .inr ⟨hnext, by omega⟩
      · left
        obtain ⟨y, hy⟩ := List.exists_mem_of_ne_nil _ hnext
        obtain ⟨hy, hfresh⟩ := List.mem_filter.mp hy
        have hfresh : y ∉ s.fixes.keys := by simpa using hfresh
        have hsome :
            ((db.upstreamFixesForShas s.newShas).find? fun z => decide (id z = id y)).isSome :=
          List.find?_isSome.mpr ⟨y, hy, by simp⟩
        obtain ⟨z, hz⟩ := Option.isSome_iff_exists.mp hsome
        have heq : z = y := by simpa using List.find?_some hz
        have hmem : y ∈ firsts id s.fixes.keys (db.upstreamFixesForShas s.newShas) :=
          mem_firsts.mpr ⟨hfresh, heq ▸ hz⟩
        have hpos := List.length_pos_of_mem hmem
        omega

theorem fixesLoop_mono {fuel fuel' : Nat} {s' : FixesLoop} (h : fixesLoop db fuel s = some s')
    (hle : fuel ≤ fuel') :
    fixesLoop db fuel' s = some s' := by
  induction fuel generalizing fuel' s with
  | zero => cases h
  | succ fuel ih =>
    obtain ⟨fuel', rfl⟩ : ∃ n, fuel' = n + 1 := ⟨fuel' - 1, by omega⟩
    unfold fixesLoop at h ⊢
    by_cases hnew : s.newShas = []
    · rw [if_pos hnew] at h ⊢
      exact h
    · rw [if_neg hnew] at h ⊢
      exact ih h (by omega)

/-- The loop has gone through all rounds. -/
theorem getSubsequentFixes_eq (db : DB) (root : Sha) :
    ∃ s j, Explored db root j s ∧ s.newShas = [] ∧
    ∀ fuel, db.upstreamFixes.rows.length + 2 ≤ fuel →
      getSubsequentFixes fuel db root = some (fixingShas s.fixes) := by
  have hlength : db.fixEdges.length = db.upstreamFixes.rows.length := List.length_map _
  have hkeys : (startFixes root).fixes.keys = [root] := rfl
  have hsub : (startFixes root).fixes.keys ⊆ root :: db.fixEdges.map Prod.snd := by
    rw [hkeys]
    exact List.cons_subset_cons root (List.nil_subset _)
  have hfuel : db.fixEdges.length + 3 ≤ db.upstreamFixes.rows.length + 2 +
      (startFixes root).fixes.keys.length := by
    rw [hkeys, List.length_singleton]
    omega
  obtain ⟨s, hs⟩ := fixesLoop_ends db root (startFixes root) hsub (.inl hfuel)
  obtain ⟨j, hexplored, hnew⟩ := explored_loop (explored_start db root) hs
  refine ⟨s, j, hexplored, hnew, fun fuel hle => ?_⟩
  unfold getSubsequentFixes
  rw [fixesLoop_mono hs hle]
  rfl

/-! ## The result -/

/-- The last round that finds `x`. -/
def DB.LastRound (db : DB) (root : Sha) (n : Nat) (x : Sha) : Prop :=
  IsGreatest {n | FoundIn db.fixEdges root n x} n

theorem Explored.found_le (h : Explored db root i s) (hnew : s.newShas = []) {n : Nat}
    (hfound : FoundIn db.fixEdges root n x) : n ≤ i := by
  by_contra hlt
  have hbefore : ∃ y, Depth db.fixEdges root i y := by
    cases hfound with
    | root => omega
    | @next n _ _ hdepth hrow => exact hdepth.before (by omega)
  obtain ⟨y, hy⟩ := hbefore
  have hmem := (h.new y).mpr hy
  rw [hnew] at hmem
  cases hmem

theorem Explored.lastRound (h : Explored db root i s) (hnew : s.newShas = []) {k : Nat}
    (hget : s.fixes.get? x = some k) : db.LastRound root k x := by
  obtain ⟨⟨-, hfound⟩, hgreatest⟩ := h.level x k hget
  exact ⟨hfound, fun n hn => hgreatest ⟨h.found_le hnew hn, hn⟩⟩

theorem Explored.reached (h : Explored db root i s) (hnew : s.newShas = []) :
    x ∈ s.fixes.keys ↔ Relation.ReflTransGen db.FixedBy root x := by
  have hall : Relation.ReflTransGen db.FixedBy root x ↔ ∃ n, Walk db.fixEdges root n x :=
    reflTransGen_iff
  rw [hall, h.keys]
  constructor
  · rintro ⟨n, -, hdepth⟩
    exact ⟨n, hdepth.1⟩
  · rintro ⟨n, hwalk⟩
    obtain ⟨m, -, hdepth⟩ := depth_of_walk hwalk
    exact ⟨m, h.found_le hnew hdepth.found, hdepth⟩

/-- `fixing_shas.sort` by the iterations that the dictionary has for the shas. -/
theorem fixingShas_eq (fixes : Dict Sha Nat) : fixingShas fixes =
    fixes.keys.insertionSort fun x y => (fixes.get? x).getD 0 ≤ (fixes.get? y).getD 0 := by
  refine List.map_insertionSort _ _ Prod.fst fixes.items fun a ha b hb => ?_
  have hget : ∀ e ∈ fixes.items, fixes.get? e.1 = some e.2 := fun e he => Dict.mem_items.mp he
  rw [hget a ha, hget b hb]
  rfl

theorem mem_fixingShas {fixes : Dict Sha Nat} : x ∈ fixingShas fixes ↔ x ∈ fixes.keys := by
  rw [fixingShas_eq]
  exact List.mem_insertionSort _

theorem nodup_fixingShas (fixes : Dict Sha Nat) : (fixingShas fixes).Nodup := by
  rw [fixingShas_eq]
  exact (List.perm_insertionSort _ _).nodup_iff.mpr fixes.nodup

theorem head_fixingShas (h : Explored db root i s) (hnew : s.newShas = [])
    (hroot : ¬Relation.TransGen db.FixedBy root root) : (fixingShas s.fixes).head? = some root := by
  have hmem : root ∈ fixingShas s.fixes := mem_fixingShas.mpr ((h.reached hnew).mpr .refl)
  obtain ⟨k, hk⟩ := Dict.mem_keys.mp (mem_fixingShas.mp hmem)
  have hzero : k = 0 := by
    cases k with
    | zero => rfl
    | succ k =>
      obtain ⟨hfound, -⟩ := h.lastRound hnew hk
      cases hfound with
      | @next _ x _ hdepth hrow =>
        have hreach : Relation.ReflTransGen db.FixedBy root x := reflTransGen_iff.mpr ⟨k, hdepth.1⟩
        exact absurd (Relation.TransGen.tail' hreach hrow) hroot
  have hsorted := List.pairwise_insertionSort
    (fun x y => (s.fixes.get? x).getD 0 ≤ (s.fixes.get? y).getD 0) s.fixes.keys
  rw [← fixingShas_eq] at hsorted
  cases hshas : fixingShas s.fixes with
  | nil =>
    rw [hshas] at hmem
    cases hmem
  | cons x shas =>
    rw [hshas] at hsorted hmem
    rcases List.mem_cons.mp hmem with rfl | hmem
    · rfl
    · have hle : (s.fixes.get? x).getD 0 ≤ (s.fixes.get? root).getD 0 :=
        (List.pairwise_cons.mp hsorted).1 root hmem
      have hx : x ∈ s.fixes.keys := mem_fixingShas.mp (by rw [hshas]; exact List.mem_cons_self)
      obtain ⟨l, hl⟩ := Dict.mem_keys.mp hx
      rw [hl, hk, hzero] at hle
      have hl0 : l = 0 := Nat.le_zero.mp hle
      obtain ⟨hfound, -⟩ := h.lastRound hnew hl
      rw [hl0] at hfound
      cases hfound
      rfl

/-- The result is what the root reaches, each sha once, and the root is its first element unless it
is reached again. -/
theorem get_subsequent_fixes_closure (db : DB) (root : Sha) : ∃ result,
    (∀ fuel, db.upstreamFixes.rows.length + 2 ≤ fuel →
      getSubsequentFixes fuel db root = some result) ∧
    (∀ x, x ∈ result ↔ Relation.ReflTransGen db.FixedBy root x) ∧ result.Nodup ∧
    (¬Relation.TransGen db.FixedBy root root → result.head? = some root) := by
  obtain ⟨s, j, h, hnew, hresult⟩ := getSubsequentFixes_eq db root
  refine ⟨fixingShas s.fixes, hresult, fun x => ?_, nodup_fixingShas s.fixes,
    head_fixingShas h hnew⟩
  rw [mem_fixingShas, h.reached hnew]

/-! ## The order -/

theorem DB.FoundFirst.asymm (h : db.FoundFirst root x y) : ¬db.FoundFirst root y x := by
  rintro ⟨n', m', hy', hx', h'⟩
  obtain ⟨m, n, hx, hy, h⟩ := h
  obtain rfl := hx.unique hx'
  obtain rfl := hy.unique hy'
  rcases h with hlt | ⟨hne, k, pre, p, post, hm, hn, hrows, hp, hpre⟩
  · rcases h' with hlt' | ⟨-, k', -, -, -, hn', hm', -⟩
    · omega
    · omega
  · rcases h' with hlt' | ⟨-, k', pre', p', post', hn', hm', hrows', hp', hpre'⟩
    · omega
    · obtain rfl : k' = k := by omega
      rcases List.append_eq_append_iff.mp
        (hrows.symm.trans hrows') with ⟨r, hpre₁, hr⟩ | ⟨r, hpre₁, hr⟩
      · cases r with
        | nil => exact hne (Prod.mk.inj (List.cons.inj hr).1).2
        | cons e r =>
          obtain ⟨rfl, -⟩ := List.cons.inj hr
          exact hpre' p hp (by rw [hpre₁]; simp)
      · cases r with
        | nil => exact hne (Prod.mk.inj (List.cons.inj hr).1).2.symm
        | cons e r =>
          obtain ⟨rfl, -⟩ := List.cons.inj hr
          exact hpre p' hp' (by rw [hpre₁]; simp)

/-- `x` is found for the last time before `y` is, or in the same round, and it was found first. -/
def DB.InOrder (db : DB) (root x y : Sha) : Prop :=
  ∃ m n, db.LastRound root m x ∧ db.LastRound root n y ∧ (m < n ∨ m = n ∧ db.FoundFirst root x y)

theorem Explored.inOrder (h : Explored db root i s) (hnew : s.newShas = [])
    (hx : x ∈ s.fixes.keys) (hy : y ∈ s.fixes.keys) (hne : x ≠ y) :
    Precedes (fixingShas s.fixes) x y ↔ db.InOrder root x y := by
  obtain ⟨k, hk⟩ := Dict.mem_keys.mp hx
  obtain ⟨l, hl⟩ := Dict.mem_keys.mp hy
  have hfirst : Precedes s.fixes.keys x y ↔ db.FoundFirst root x y := by
    refine ⟨fun hxy => precedes_of_pairwise (db.FoundFirst root) h.order hxy, fun hxy => ?_⟩
    refine (precedes_or hx hy hne).resolve_right fun hyx => ?_
    exact hxy.asymm (precedes_of_pairwise (db.FoundFirst root) h.order hyx)
  have hnd : s.fixes.keys.Nodup := s.fixes.nodup
  rw [fixingShas_eq, precedes_insertionSort (fun x => (s.fixes.get? x).getD 0) hnd hx hy hne,
    hfirst, hk, hl]
  have hlastx := h.lastRound hnew hk
  have hlasty := h.lastRound hnew hl
  constructor
  · exact fun hxy => ⟨k, l, hlastx, hlasty, hxy⟩
  · rintro ⟨m, n, hm, hn, hxy⟩
    obtain rfl := hlastx.unique hm
    obtain rfl := hlasty.unique hn
    exact hxy

theorem DB.InOrder.ne (h : db.InOrder root x y) : x ≠ y := by
  rintro rfl
  obtain ⟨m, n, hm, hn, hlt | ⟨-, hfirst⟩⟩ := h
  · have heq := hm.unique hn
    omega
  · exact hfirst.asymm hfirst

/-- Each fix stands after each commit that it fixes ↔ the search finds it for the last time after
the last time that it finds that commit, or in the same round, and it has found the commit first. -/
theorem get_subsequent_fixes_ordered_iff (db : DB) (root : Sha) : ∃ result,
    (∀ fuel, db.upstreamFixes.rows.length + 2 ≤ fuel →
      getSubsequentFixes fuel db root = some result) ∧
    ((∀ x ∈ result, ∀ y ∈ result, db.FixedBy x y → Precedes result x y) ↔
      ∀ x y, Relation.ReflTransGen db.FixedBy root x → db.FixedBy x y → db.InOrder root x y) := by
  obtain ⟨s, j, h, hnew, hresult⟩ := getSubsequentFixes_eq db root
  refine ⟨fixingShas s.fixes, hresult, ?_⟩
  have hmem : ∀ x, x ∈ fixingShas s.fixes ↔ x ∈ s.fixes.keys := fun x => mem_fixingShas
  constructor
  · intro hordered x y hx hxy
    have hx' : x ∈ s.fixes.keys := (h.reached hnew).mpr hx
    have hy' : y ∈ s.fixes.keys := (h.reached hnew).mpr (hx.tail hxy)
    have hprecedes := hordered x ((hmem x).mpr hx') y ((hmem y).mpr hy') hxy
    exact (h.inOrder hnew hx' hy' (hprecedes.ne (nodup_fixingShas s.fixes))).mp hprecedes
  · intro hordered x hx y hy hxy
    have hx' := (hmem x).mp hx
    have hin := hordered x y ((h.reached hnew).mp hx') hxy
    exact (h.inOrder hnew hx' ((hmem y).mp hy) hin.ne).mpr hin

/-! ## A fix that is put before its commit -/

/-- `b` and `d` fix `a`, `c` fixes `b`, `d` fixes `c` too, and `e` fixes `d`. -/
def raisedLater : DB where
  linuxUpstream := .empty
  upstreamFixes := ⟨[⟨"a", "b"⟩, ⟨"a", "d"⟩, ⟨"b", "c"⟩, ⟨"c", "d"⟩, ⟨"d", "e"⟩], by decide⟩
  linuxStable := .empty
  linuxChrome := .empty
  previousFetch := .empty
  stableFixes := .empty
  chromeFixes := .empty

/-- Every row goes to a later letter. -/
theorem raisedLater_acyclic (x : Sha) : ¬Relation.TransGen raisedLater.FixedBy x x := by
  have hrow : ∀ e ∈ raisedLater.fixEdges, (e.1.toList.map Char.toNat).sum <
    (e.2.toList.map Char.toNat).sum := by decide
  have hfixed : ∀ x y, raisedLater.FixedBy x y →
      (x.toList.map Char.toNat).sum < (y.toList.map Char.toNat).sum :=
    fun x y h => hrow (x, y) h
  have hlater : ∀ x y, Relation.TransGen raisedLater.FixedBy x y →
      (x.toList.map Char.toNat).sum < (y.toList.map Char.toNat).sum := by
    intro x y h
    induction h with
    | single hxy => exact hfixed _ _ hxy
    | tail _ hyz ih => exact Nat.lt_trans ih (hfixed _ _ hyz)
  exact fun h => Nat.lt_irrefl _ (hlater x x h)

/-- `e` is scheduled before `d`, which it fixes. -/
theorem subsequent_fixes_not_ordered : ¬∀ (db : DB) (root : Sha),
    (∀ x, ¬Relation.TransGen db.FixedBy x x) →
    ∀ fuel result, getSubsequentFixes fuel db root = some result →
      ∀ x ∈ result, ∀ y ∈ result, db.FixedBy x y → Precedes result x y := by
  intro h
  have hresult : getSubsequentFixes 10 raisedLater "a" = some ["a", "b", "c", "e", "d"] := by decide
  have hprecedes :=
    h raisedLater "a" raisedLater_acyclic 10 _ hresult "d" (by decide) "e" (by decide)
    (show ("d", "e") ∈ raisedLater.fixEdges by decide)
  exact absurd hprecedes (show ¬["d", "e"].Sublist ["a", "b", "c", "e", "d"] by decide)

end Findmissing
