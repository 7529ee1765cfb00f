import Mathlib.Data.List.Basic
import Mathlib.Logic.Relation

/-!
# Depth-first search

A graph is the list of its edges. A visit of a new node follows each of the node's edges, and puts
the edge behind the ones found when it is back from the edge's end.

    a visit with room for the nodes that are not found yet returns     (visit_spec)
    the search finds the nodes that the roots reach, and the edges
      that begin at these, each as often as the graph has it           (search_spec)
-/

namespace Lib.Traversal

variable {N : Type} [DecidableEq N]

/-- The nodes and edges found so far. -/
structure Found (N : Type) where
  nodes : List N
  edges : List (N × N)

/-- Along the edges of `node`, where `go` is the visit of an edge's end. -/
def along (go : N → Found N → Option (Found N)) (node : N) (edges : List (N × N))
    (found : Found N) : Option (Found N) :=
  edges.foldlM (fun found e =>
      if e.1 = node then (go e.2 found).map fun found => { found with edges := found.edges ++ [e] }
      else some found)
    found

/-- `depth` bounds the depth of the recursion. -/
def visit (graph : List (N × N)) : Nat → N → Found N → Option (Found N)
  | 0, _, _ => none
  | depth + 1, node, found =>
    if node ∈ found.nodes then some found
    else along (visit graph depth) node graph { found with nodes := found.nodes ++ [node] }

def search (graph : List (N × N)) (depth : Nat) (roots : List N) : Option (Found N) :=
  roots.foldlM (fun found node => visit graph depth node found) { nodes := [], edges := [] }

def Reach (graph : List (N × N)) : N → N → Prop := Relation.ReflTransGen fun a b => (a, b) ∈ graph

/-! ## What a visit adds -/

section

variable {graph : List (N × N)} {found found' found'' s : Found N} {node : N}

/-- A new node has all of its edges, as often as the graph has them, and the ends of them. -/
structure Extends (graph : List (N × N)) (found found' : Found N) : Prop where
  mono : ∀ n ∈ found.nodes, n ∈ found'.nodes
  closed : ∀ e ∈ graph, e.1 ∈ found'.nodes → e.1 ∉ found.nodes → e.2 ∈ found'.nodes
  count : ∀ e, found'.edges.count e =
    found.edges.count e + if e.1 ∈ found'.nodes ∧ e.1 ∉ found.nodes then graph.count e else 0

theorem Extends.refl (graph : List (N × N)) (found : Found N) : Extends graph found found where
  mono _ h := h
  closed _ _ h hnot := absurd h hnot
  count e := by simp

theorem Extends.trans (h : Extends graph found found') (h' : Extends graph found' found'') :
    Extends graph found found'' where
  mono n hn := h'.mono n (h.mono n hn)
  closed e he hin hnot := by
    by_cases hmid : e.1 ∈ found'.nodes
    · exact h'.mono _ (h.closed e he hmid hnot)
    · exact h'.closed e he hin hmid
  count e := by
    rw [h'.count, h.count]
    by_cases hmid : e.1 ∈ found'.nodes
    · have hin := h'.mono _ hmid
      simp [hmid, hin]
    · have hnot : e.1 ∉ found.nodes := fun hin => hmid (h.mono _ hin)
      simp [hmid, hnot]

/-- The loop over the edges in a visit of `node`, after the edges `done`. -/
structure Leaving (graph : List (N × N)) (node : N) (found : Found N) (done : List (N × N))
    (s : Found N) : Prop where
  mono : ∀ n ∈ found.nodes, n ∈ s.nodes
  self : node ∈ s.nodes
  closed : ∀ e ∈ graph, e.1 ∈ s.nodes → e.1 ∉ found.nodes → e.1 ≠ node → e.2 ∈ s.nodes
  left : ∀ e ∈ done, e.1 = node → e.2 ∈ s.nodes
  count : ∀ e, s.edges.count e = found.edges.count e +
    (if e.1 ∈ s.nodes ∧ e.1 ∉ found.nodes ∧ e.1 ≠ node then graph.count e else 0) +
    if e.1 = node then done.count e else 0

theorem Leaving.start (graph : List (N × N)) (node : N) (found : Found N) :
    Leaving graph node found [] { found with nodes := found.nodes ++ [node] } where
  mono n hn := List.mem_append_left _ hn
  self := List.mem_append_right _ (List.mem_singleton.mpr rfl)
  closed e he hin hnot hne := by
    rcases List.mem_append.mp hin with hin | hin
    · exact absurd hin hnot
    · exact absurd (List.mem_singleton.mp hin) hne
  left e he := by cases he
  count e := by
    have hnot : ¬(e.1 ∈ found.nodes ++ [node] ∧ e.1 ∉ found.nodes ∧ e.1 ≠ node) := by
      rintro ⟨hin, hnot, hne⟩
      rcases List.mem_append.mp hin with hin | hin
      · exact hnot hin
      · exact hne (List.mem_singleton.mp hin)
    rw [if_neg hnot]
    simp

theorem Leaving.other {done : List (N × N)} (h : Leaving graph node found done s) {e : N × N}
    (he : e.1 ≠ node) :
    Leaving graph node found (done ++ [e]) s where
  mono := h.mono
  self := h.self
  closed := h.closed
  left e' he' hnode := by
    rcases List.mem_append.mp he' with he' | he'
    · exact h.left e' he' hnode
    · rw [List.mem_singleton.mp he'] at hnode
      exact absurd hnode he
  count e' := by
    rw [h.count]
    by_cases hnode : e'.1 = node
    · have hne : e ≠ e' := fun heq => he (heq ▸ hnode)
      simp [hnode, List.count_append, hne]
    · simp [hnode]

/-- Along one edge of the node. -/
theorem Leaving.edge {done : List (N × N)} (h : Leaving graph node found done s) {e : N × N}
    (he : e.1 = node) {s' : Found N} (hs : Extends graph s s') (hend : e.2 ∈ s'.nodes) :
    Leaving graph node found (done ++ [e]) { s' with edges := s'.edges ++ [e] } where
  mono n hn := hs.mono n (h.mono n hn)
  self := hs.mono _ h.self
  closed e' he' hin hnot hne := by
    by_cases hmid : e'.1 ∈ s.nodes
    · exact hs.mono _ (h.closed e' he' hmid hnot hne)
    · exact hs.closed e' he' hin hmid
  left e' he' hnode := by
    rcases List.mem_append.mp he' with he' | he'
    · exact hs.mono _ (h.left e' he' hnode)
    · rw [List.mem_singleton.mp he']
      exact hend
  count e' := by
    show (s'.edges ++ [e]).count e' = _
    rw [List.count_append, hs.count, h.count]
    by_cases hnode : e'.1 = node
    · have hin : e'.1 ∈ s.nodes := hnode ▸ h.self
      have hold : ¬(e'.1 ∈ s'.nodes ∧ e'.1 ∉ s.nodes) := fun h => h.2 hin
      have hne : ¬(e'.1 ∈ s.nodes ∧ e'.1 ∉ found.nodes ∧ e'.1 ≠ node) := fun h => h.2.2 hnode
      have hne' : ¬(e'.1 ∈ s'.nodes ∧ e'.1 ∉ found.nodes ∧ e'.1 ≠ node) := fun h => h.2.2 hnode
      rw [if_neg hold, if_neg hne, if_neg hne', if_pos hnode, if_pos hnode, List.count_append]
      omega
    · have hne : e ≠ e' := fun heq => hnode (heq ▸ he)
      by_cases hmid : e'.1 ∈ s.nodes
      · have hin := hs.mono _ hmid
        simp [hnode, hmid, hin, hne]
      · have hnot : e'.1 ∉ found.nodes := fun hin => hmid (h.mono _ hin)
        simp [hnode, hmid, hnot, hne]

theorem Leaving.extends (h : Leaving graph node found graph s) (hnew : node ∉ found.nodes) :
    Extends graph found s where
  mono := h.mono
  closed e he hin hnot := by
    by_cases hnode : e.1 = node
    · exact h.left e he hnode
    · exact h.closed e he hin hnot hnode
  count e := by
    rw [h.count]
    by_cases hnode : e.1 = node
    · have hin : e.1 ∈ s.nodes := hnode ▸ h.self
      have hself : e.1 ∈ s.nodes ∧ e.1 ∉ found.nodes := ⟨hnode ▸ h.self, hnode ▸ hnew⟩
      have hne : ¬(e.1 ∈ s.nodes ∧ e.1 ∉ found.nodes ∧ e.1 ≠ node) := fun h => h.2.2 hnode
      rw [if_pos hself, if_neg hne, if_pos hnode]
      rfl
    · simp [hnode]

end

/-! ## Enough room -/

/-- The nodes that are not found yet. -/
def unvisited (all : List N) (found : Found N) : List N := all.filter fun n => n ∉ found.nodes

section

variable {graph : List (N × N)} {found found' found'' : Found N} {node : N} {all : List N}
  {P : N → Prop}

theorem unvisited_mono (all : List N) (h : ∀ n ∈ found.nodes, n ∈ found'.nodes) :
    (unvisited all found').length ≤ (unvisited all found).length := by
  rw [unvisited, unvisited, ← List.countP_eq_length_filter, ← List.countP_eq_length_filter]
  apply List.countP_mono_left
  intro n _ hn
  simp only [decide_eq_true_eq] at hn ⊢
  exact fun hin => hn (h n hin)

theorem unvisited_lt (hall : node ∈ all) (hnew : node ∉ found.nodes) :
    (unvisited all { found with nodes := found.nodes ++ [node] }).length <
      (unvisited all found).length := by
  have hfilter : unvisited all { found with nodes := found.nodes ++ [node] } =
      (unvisited all found).filter fun n => n ≠ node := by
    rw [unvisited, unvisited, List.filter_filter]
    apply List.filter_congr
    intro n _
    simp [and_comm]
  rw [hfilter, List.length_filter_lt_length_iff_exists]
  exact ⟨node, List.mem_filter.mpr ⟨hall, by simpa using hnew⟩, by simp⟩

/-- A visit that returns. -/
structure Visited (graph : List (N × N)) (P : N → Prop) (node : N) (found found' : Found N) :
    Prop where
  extends_found : Extends graph found found'
  self : node ∈ found'.nodes
  only : ∀ n ∈ found'.nodes, P n

theorem along_cons_self (go : N → Found N → Option (Found N)) {e : N × N} (he : e.1 = node)
    (rest : List (N × N)) (hgo : go e.2 found = some found') :
    along go node (e :: rest) found = along go node rest
      { found' with edges := found'.edges ++ [e] } := by
  rw [along, List.foldlM_cons, if_pos he, hgo]
  rfl

theorem along_cons_other (go : N → Found N → Option (Found N)) {e : N × N} (he : e.1 ≠ node)
    (rest : List (N × N)) (found : Found N) :
    along go node (e :: rest) found = along go node rest found := by
  rw [along, List.foldlM_cons, if_neg he]
  rfl

/-- Along an edge of the node, in a loop that returns. -/
theorem along_cons_some {go : N → Found N → Option (Found N)} {e : N × N} (he : e.1 = node)
    {rest : List (N × N)} (h : along go node (e :: rest) found = some found'') :
    ∃ found', go e.2 found = some found' ∧
      along go node rest { found' with edges := found'.edges ++ [e] } = some found'' := by
  cases hgo : go e.2 found with
  | none =>
    rw [along, List.foldlM_cons, if_pos he, hgo] at h
    cases h
  | some found' =>
    rw [along_cons_self go he rest hgo] at h
    exact ⟨found', rfl, h⟩

theorem along_grows {go : N → Found N → Option (Found N)}
    (hgo : ∀ n s s', go n s = some s' → ∀ m ∈ s.nodes, m ∈ s'.nodes) {edges : List (N × N)}
    (h : along go node edges found = some found') : ∀ m ∈ found.nodes, m ∈ found'.nodes := by
  induction edges generalizing found with
  | nil =>
    cases h
    exact fun m hm => hm
  | cons e rest ih =>
    by_cases he : e.1 = node
    · obtain ⟨s, hvisit, hrest⟩ := along_cons_some he h
      exact fun m hm => ih hrest m (hgo _ _ _ hvisit m hm)
    · rw [along_cons_other go he] at h
      exact ih h

/-- A visit that returns forgets no node. -/
theorem visit_grows {depth : Nat} (h : visit graph depth node found = some found') :
    (∀ m ∈ found.nodes, m ∈ found'.nodes) ∧ node ∈ found'.nodes := by
  induction depth generalizing node found found' with
  | zero => cases h
  | succ depth ih =>
    rw [visit] at h
    split at h
    · next hin =>
      cases h
      exact ⟨fun m hm => hm, hin⟩
    · have hgrows := along_grows (fun n s s' hgo => (ih hgo).1) h
      exact ⟨fun m hm => hgrows m (List.mem_append_left _ hm), hgrows node (by simp)⟩

/-- The loop over the edges of `node`, of which `done` are behind it. -/
theorem along_spec {go : N → Found N → Option (Found N)}
    (hgo : ∀ e ∈ graph, e.1 = node → ∀ s, (∀ n ∈ found.nodes ++ [node], n ∈ s.nodes) →
      (∀ n ∈ s.nodes, P n) → ∃ s', go e.2 s = some s' ∧ Visited graph P e.2 s s')
    {rest done : List (N × N)} {s : Found N} (hdone : done ++ rest = graph)
    (hs : Leaving graph node found done s) (honly : ∀ n ∈ s.nodes, P n) :
    ∃ s', along go node rest s = some s' ∧ Leaving graph node found graph s' ∧
      ∀ n ∈ s'.nodes, P n := by
  induction rest generalizing done s with
  | nil =>
    rw [List.append_nil] at hdone
    exact ⟨s, rfl, hdone ▸ hs, honly⟩
  | cons e rest ih =>
    have hdone' : (done ++ [e]) ++ rest = graph := by rw [← hdone, List.append_assoc]; rfl
    have he : e ∈ graph := hdone ▸ List.mem_append_right done List.mem_cons_self
    by_cases hsource : e.1 = node
    · have hmono : ∀ n ∈ found.nodes ++ [node], n ∈ s.nodes := by
        intro n hn
        rcases List.mem_append.mp hn with hn | hn
        · exact hs.mono n hn
        · rw [List.mem_singleton.mp hn]
          exact hs.self
      obtain ⟨s', hvisit, hs'⟩ := hgo e he hsource s hmono honly
      rw [along_cons_self go hsource rest hvisit]
      exact ih hdone' (hs.edge hsource hs'.extends_found hs'.self) hs'.only
    · rw [along_cons_other go hsource rest s]
      exact ih hdone' (hs.other hsource) honly

/-- What holds of the node and is kept along the edges holds of all that is found. -/
theorem visit_spec (hends : ∀ e ∈ graph, e.2 ∈ all) (hP : ∀ e ∈ graph, P e.1 → P e.2)
    {depth : Nat} {node : N} {found : Found N} (hdepth : (unvisited all found).length < depth)
    (hnode : node ∈ all) (hself : P node) (hfound : ∀ n ∈ found.nodes, P n) :
    ∃ found', visit graph depth node found = some found' ∧ Visited graph P node found found' := by
  induction depth generalizing node found with
  | zero => omega
  | succ depth ih =>
    rw [visit]
    by_cases hin : node ∈ found.nodes
    · rw [if_pos hin]
      exact ⟨found, rfl, Extends.refl graph found, hin, hfound⟩
    · rw [if_neg hin]
      have hlt := unvisited_lt hnode hin
      have hgo : ∀ e ∈ graph, e.1 = node →
        ∀ s : Found N, (∀ n ∈ found.nodes ++ [node], n ∈ s.nodes) →
          (∀ n ∈ s.nodes, P n) → ∃ s', visit graph depth e.2 s = some s' ∧
              Visited graph P e.2 s s' := by
        intro e he hsource s hmono honly
        -- the node is found before its edges are followed, so there is less to visit
        have hle := @unvisited_mono N _ { found with nodes := found.nodes ++ [node] } s all hmono
        exact ih (by omega) (hends e he) (hP e he (hsource ▸ hself)) honly
      have honly : ∀ n ∈ found.nodes ++ [node], P n := by
        intro n hn
        rcases List.mem_append.mp hn with hn | hn
        · exact hfound n hn
        · rw [List.mem_singleton.mp hn]
          exact hself
      obtain ⟨s', hrun, hs', honly⟩ :=
        along_spec hgo (List.nil_append graph) (Leaving.start graph node found) honly
      exact ⟨s', hrun, hs'.extends hin, hs'.self, honly⟩

/-! ## The search -/

/-- The search, from what was found before. -/
theorem search_from (hends : ∀ e ∈ graph, e.2 ∈ all) (hP : ∀ e ∈ graph, P e.1 → P e.2)
    {depth : Nat} (hdepth : all.length < depth) {roots : List N}
    (hroots : ∀ r ∈ roots, r ∈ all ∧ P r) (hfound : ∀ n ∈ found.nodes, P n) :
    ∃ found', roots.foldlM (fun found node => visit graph depth node found) found = some found' ∧
      Extends graph found found' ∧ (∀ r ∈ roots, r ∈ found'.nodes) ∧ ∀ n ∈ found'.nodes, P n := by
  induction roots generalizing found with
  | nil => exact ⟨found, rfl, Extends.refl graph found, by simp, hfound⟩
  | cons root roots ih =>
    obtain ⟨hall, hroot⟩ := hroots root List.mem_cons_self
    have hroom : (unvisited all found).length < depth :=
      Nat.lt_of_le_of_lt (List.length_filter_le _ _) hdepth
    obtain ⟨mid, hvisit, hmid⟩ := visit_spec hends hP hroom hall hroot hfound
    obtain ⟨found', hrun, hext, hfinds, honly⟩ :=
      ih (fun r hr => hroots r (List.mem_cons_of_mem root hr)) hmid.only
    refine ⟨found', ?_, hmid.extends_found.trans hext, ?_, honly⟩
    · rw [List.foldlM_cons, hvisit]
      exact hrun
    · intro r hr
      rcases List.mem_cons.mp hr with rfl | hr
      · exact hext.mono r hmid.self
      · exact hfinds r hr

theorem search_spec (hends : ∀ e ∈ graph, e.2 ∈ all) {depth : Nat} (hdepth : all.length < depth)
    {roots : List N} (hroots : ∀ r ∈ roots, r ∈ all) :
    ∃ found, search graph depth roots = some found ∧
      (∀ n, n ∈ found.nodes ↔ ∃ r ∈ roots, Reach graph r n) ∧
      found.edges.Perm (graph.filter fun e => e.1 ∈ found.nodes) := by
  let P : N → Prop := fun n => ∃ r ∈ roots, Reach graph r n
  have hP : ∀ e ∈ graph, P e.1 → P e.2 := by
    rintro e he ⟨r, hr, hreach⟩
    exact ⟨r, hr, hreach.tail he⟩
  have hstart : ∀ r ∈ roots, r ∈ all ∧ P r :=
    fun r hr => ⟨hroots r hr, r, hr, Relation.ReflTransGen.refl⟩
  have hnone : ∀ n ∈ ({ nodes := [], edges := [] } : Found N).nodes, P n := by simp
  obtain ⟨found, hrun, hext, hfinds, honly⟩ := search_from hends hP hdepth hstart hnone
  refine ⟨found, hrun, ?_, ?_⟩
  · intro n
    constructor
    · exact honly n
    · rintro ⟨r, hr, hreach⟩
      induction hreach with
      | refl => exact hfinds r hr
      | tail _ he ih => exact hext.closed _ he ih List.not_mem_nil
  · rw [List.perm_iff_count]
    intro e
    rw [hext.count]
    by_cases he : e.1 ∈ found.nodes
    · rw [List.count_filter (by simpa using he), if_pos ⟨he, List.not_mem_nil⟩]
      exact Nat.zero_add _
    · have hnot : e ∉ graph.filter fun e => e.1 ∈ found.nodes :=
        fun h => he (by simpa using (List.mem_filter.mp h).2)
      rw [List.count_eq_zero.mpr hnot, if_neg fun h => he h.1]
      rfl

end

end Lib.Traversal
