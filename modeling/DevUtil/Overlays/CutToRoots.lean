import DevUtil.Overlays.Digraph

/-!
# Cutting the graph to what some roots need

`cut_to_roots` builds a second graph, with ids of its own: a recursion that goes on at a node when
it is back from the node at the end of an edge, and then a loop over the clusters.

    on the names, the recursion is a depth-first search          (visit_simulates)
    with frames for all nodes, the call returns the part of the
      graph that the roots reach                                 (cutToRoots_cutOf)
    the result is one that calls of the methods build, too       (cutToRoots_spec)
-/

namespace GraphvizOverlays

open Lib

namespace Digraph

/-! ## `cut_to_roots` -/

/-- An edge, in the loop of the inner `add_node`, which `visit` is. -/
def visitEdge (self : Digraph) (visit : String → Digraph → Except Exn Digraph) (node : String)
    (g : Digraph) (e : String × String) : Except Exn Digraph := do
  let nid ← lookup self.nodes node
  if e.1 = nid then
    let toNode ← lookup self.idToName e.2
    let g ← visit toNode g
    g.addEdge node toNode
  else return g

/-- The inner `add_node`; `depth` is how many more frames the stack has room for. -/
def visit (self : Digraph) : Nat → String → Digraph → Except Exn Digraph
  | 0, _, _ => .error .recursionError
  | depth + 1, node, g =>
    if node ∈ g.nodes.keys then .ok g
    else do
      let g ← g.addNode node none
      self.edges.foldlM (self.visitEdge (visit self depth) node) g

/-- A member of a cluster, in the second loop. -/
def cutItem (self : Digraph) (subgraphName : String) (g : Digraph) (node : String) :
    Except Exn Digraph := do
  let name ← lookup self.idToName node
  if name ∈ g.nodes.keys then g.subgraphSet subgraphName name else return g

def cutToRoots (self : Digraph) (depth : Nat) (roots : List String) : Except Exn Digraph := do
  let g ← roots.foldlM (fun g node => self.visit depth node g) (init self.stylesheet)
  self.subgraphs.items.foldlM (fun g item => (self.items item.2).foldlM (self.cutItem item.1) g) g

/-- The nodes that the roots reach. -/
def Reached (g : Digraph) (roots : List String) (node : String) : Prop :=
  ∃ root ∈ roots, Traversal.Reach g.namedEdges root node

/-- `g'` is the part of `g` that the roots reach. -/
structure CutOf (g : Digraph) (roots : List String) (g' : Digraph) : Prop where
  wf : g'.WF
  nodes : ∀ node, node ∈ g'.nodes.keys ↔ g.Reached roots node
  edges : g'.namedEdges.Perm (g.namedEdges.filter fun e => e.1 ∈ g'.nodes.keys)
  clusters : ∀ name node, g'.Member name node ↔ g.Member name node ∧ g.Reached roots node
  stylesheet : g'.stylesheet = g.stylesheet

variable {self g g' : Digraph} {name node : String} {found found' : Traversal.Found String}

/-! ## The traversal -/

/-- What the second graph has in the first loop: no clusters yet. -/
structure Built (orig g : Digraph) (found : Traversal.Found String) : Prop where
  wf : g.WF
  nodes : g.nodes.keys = found.nodes
  edges : g.namedEdges = found.edges
  rest : g = { init orig.stylesheet with nodes := g.nodes, edges := g.edges }

theorem built_init (self : Digraph) :
    Built self (init self.stylesheet) { nodes := [], edges := [] } where
  wf := wf_init self.stylesheet
  nodes := rfl
  edges := rfl
  rest := rfl

theorem Built.setNode (h : Built self g found) (hnew : name ∉ g.nodes.keys) :
    Built self (g.setNode name) { found with nodes := found.nodes ++ [name] } where
  wf := wf_setNode h.wf hnew
  nodes := by
    show ((g.nodes.set name _).items.map Prod.fst) = found.nodes ++ [name]
    rw [Dict.items_set_of_not_mem hnew, List.map_append, ← h.nodes]
    rfl
  edges := by rw [namedEdges_setNode h.wf hnew, h.edges]
  rest := by
    rw [Digraph.setNode]
    rw [h.rest]

theorem Built.addEdge (h : Built self g found) {fromNode toNode : String}
    (hfrom : fromNode ∈ found.nodes) (hto : toNode ∈ found.nodes) :
    ∃ g', g.addEdge fromNode toNode = .ok g' ∧
      Built self g' { found with edges := found.edges ++ [(fromNode, toNode)] } := by
  rw [← h.nodes] at hfrom hto
  obtain ⟨g', hrun, hwf, hnames, hrest⟩ := addEdge_spec h.wf hfrom hto
  refine ⟨g', hrun, hwf, ?_, ?_, ?_⟩
  · rw [hrest]
    exact h.nodes
  · rw [hnames, h.edges]
  · rw [hrest, h.rest]

/-- `visit` does on the graphs what `go` does on the names. -/
def Simulates (self : Digraph)
    (go : String → Traversal.Found String → Option (Traversal.Found String))
    (visit : String → Digraph → Except Exn Digraph) : Prop :=
  ∀ node found found' g, go node found = some found' → node ∈ self.nodes.keys → Built self g found →
    ∃ g', visit node g = .ok g' ∧ Built self g' found'

/-- Along an edge that begins at the node. -/
theorem visitEdge_self {visit : String → Digraph → Except Exn Digraph} {e : String × String}
    {toNode : String} {g₁ g₂ : Digraph} (hsource : self.nodes.get? node = some e.1)
    (hto : self.idToName.get? e.2 = some toNode) (hvisit : visit toNode g = .ok g₁)
    (hadd : g₁.addEdge node toNode = .ok g₂) :
    self.visitEdge visit node g e = .ok g₂ := by
  rw [visitEdge, lookup_of_get? hsource, lookup_of_get? hto]
  simp only [bind, Except.bind, if_true, hvisit, hadd]

theorem visitEdge_other (visit : String → Digraph → Except Exn Digraph) {e : String × String}
    {nid : String} (hnid : self.nodes.get? node = some nid) (hne : e.1 ≠ nid) (g : Digraph) :
    self.visitEdge visit node g e = .ok g := by
  rw [visitEdge, lookup_of_get? hnid]
  simp only [bind, Except.bind, if_neg hne]
  rfl

theorem visitEdges_simulates (hself : self.WF)
    {go : String → Traversal.Found String → Option (Traversal.Found String)}
    {visit : String → Digraph → Except Exn Digraph} (hvisit : Simulates self go visit)
    (hgrows : ∀ n s s', go n s = some s' → (∀ m ∈ s.nodes, m ∈ s'.nodes) ∧ n ∈ s'.nodes)
    (hnode : node ∈ self.nodes.keys) {edges : List (String × String)}
    (hedges : ∀ e ∈ edges, e ∈ self.edges) (hin : node ∈ found.nodes)
    (hbuilt : Built self g found)
    (h : Traversal.along go node (edges.filterMap self.edgeNames) found = some found') :
    ∃ g', edges.foldlM (self.visitEdge visit node) g = .ok g' ∧ Built self g' found' := by
  obtain ⟨nid, hnid⟩ := Dict.mem_keys.mp hnode
  induction edges generalizing found g with
  | nil =>
    cases h
    exact ⟨g, rfl, hbuilt⟩
  | cons e rest ih =>
    have hrest : ∀ e ∈ rest, e ∈ self.edges := fun e he => hedges e (List.mem_cons_of_mem _ he)
    obtain ⟨⟨a, b⟩, hnames, ha, hb⟩ := exists_edgeNames hself (hedges e List.mem_cons_self)
    rw [List.filterMap_cons_some hnames] at h
    by_cases hsource : a = node
    · subst hsource
      obtain ⟨mid, hgo, hrun⟩ := Traversal.along_cons_some rfl h
      obtain ⟨hmono, hend⟩ := hgrows _ _ _ hgo
      obtain ⟨g₁, hvisit₁, hbuilt₁⟩ := hvisit _ _ _ _ hgo (Dict.mem_keys.mpr ⟨_, hb⟩) hbuilt
      obtain ⟨g₂, hadd, hbuilt₂⟩ := hbuilt₁.addEdge (hmono a hin) hend
      rw [List.foldlM_cons, visitEdge_self ha ((get?_idToName hself).mpr hb) hvisit₁ hadd]
      have hin₂ : a ∈ ({ mid with edges := mid.edges ++ [(a, b)] } :
        Traversal.Found String).nodes := hmono a hin
      exact ih hrest hin₂ hbuilt₂ hrun
    · rw [Traversal.along_cons_other go hsource] at h
      have hne : e.1 ≠ nid := by
        intro heq
        exact hsource (Dict.key_unique (hself.nodes.nodup nodeId_injective) (heq ▸ ha) hnid)
      rw [List.foldlM_cons, visitEdge_other visit hnid hne]
      exact ih hrest hin hbuilt h

theorem visit_simulates (hself : self.WF) (depth : Nat) :
    Simulates self (Traversal.visit self.namedEdges depth) (self.visit depth) := by
  induction depth with
  | zero => 
    intro node found found' g h
    cases h
  | succ depth ih =>
    intro node found found' g h hnode hbuilt
    rw [Traversal.visit] at h
    rw [visit]
    by_cases hin : node ∈ found.nodes
    · rw [if_pos hin] at h
      cases h
      rw [if_pos (hbuilt.nodes ▸ hin)]
      exact ⟨g, rfl, hbuilt⟩
    · have hnew : node ∉ g.nodes.keys := hbuilt.nodes ▸ hin
      rw [if_neg hin] at h
      rw [if_neg hnew, addNode, if_neg hnew]
      exact visitEdges_simulates hself ih (fun n s s' hgo => Traversal.visit_grows hgo) hnode
        (fun e he => he) (by simp)
        (hbuilt.setNode hnew) h

/-- The first loop. -/
theorem roots_simulates (hself : self.WF) {depth : Nat} {roots : List String}
    (hroots : ∀ r ∈ roots, r ∈ self.nodes.keys) (hbuilt : Built self g found)
    (h : roots.foldlM (fun found node => Traversal.visit self.namedEdges depth node found) found =
      some found') :
    ∃ g', roots.foldlM (fun g node => self.visit depth node g) g = .ok g' ∧
      Built self g' found' := by
  induction roots generalizing found g with
  | nil =>
    cases h
    exact ⟨g, rfl, hbuilt⟩
  | cons root roots ih =>
    rw [List.foldlM_cons] at h
    obtain ⟨mid, hvisit, hrest⟩ := Option.bind_eq_some_iff.mp h
    obtain ⟨g₁, hvisit₁, hbuilt₁⟩ :=
      visit_simulates hself depth _ _ _ _ hvisit (hroots root List.mem_cons_self) hbuilt
    obtain ⟨g', hrun, hbuilt'⟩ :=
      ih (fun r hr => hroots r (List.mem_cons_of_mem _ hr)) hbuilt₁ hrest
    refine ⟨g', ?_, hbuilt'⟩
    rw [List.foldlM_cons, hvisit₁]
    exact hrun

/-! ## The clusters -/

/-- A cluster, in the second loop. -/
theorem cutItems_spec (hself : self.WF) (hg : g.WF) (name : String) {ids : List String}
    (hids : ∀ id ∈ ids, id ∈ self.nodes.ids) :
    ∃ g', ids.foldlM (self.cutItem name) g = .ok g' ∧
      Adds (fun c n => c = name ∧ n ∈ g.nodes.keys ∧ ∃ id ∈ ids, self.nodes.get? n = some id)
        g g' := by
  induction ids generalizing g with
  | nil => exact ⟨g, rfl, Adds.refl hg fun c n h => by simp at h⟩
  | cons id ids ih =>
    have hrest : ∀ id ∈ ids, id ∈ self.nodes.ids := fun i hi => hids i (List.mem_cons_of_mem id hi)
    obtain ⟨node, hnode⟩ := Dict.mem_ids.mp (hids id List.mem_cons_self)
    have hname : lookup self.idToName id = .ok node :=
      lookup_of_get? ((get?_idToName hself).mpr hnode)
    have hunique : ∀ n, self.nodes.get? n = some id ↔ n = node := by
      intro n
      constructor
      · exact fun hn => Dict.key_unique (hself.nodes.nodup nodeId_injective) hn hnode
      · rintro rfl
        exact hnode
    rw [List.foldlM_cons]
    by_cases hin : node ∈ g.nodes.keys
    · obtain ⟨g₁, hset, hadds₁⟩ := subgraphSet_spec hg name hin
      have hstep : self.cutItem name g id = .ok g₁ := by
        rw [cutItem, hname]
        simp only [bind, Except.bind, if_pos hin, hset]
      obtain ⟨g', hrun, hadds⟩ := ih hadds₁.wf hrest
      refine ⟨g', by rw [hstep]; exact hrun, (hadds₁.trans hadds).congr ?_⟩
      intro c n
      rw [hadds₁.nodes]
      simp only [List.exists_mem_cons_iff, hunique]
      constructor
      · rintro (⟨rfl, rfl⟩ | ⟨rfl, hn, hmem⟩)
        · exact ⟨rfl, hin, .inl rfl⟩
        · exact ⟨rfl, hn, .inr hmem⟩
      · rintro ⟨rfl, hn, rfl | hmem⟩
        · exact .inl ⟨rfl, rfl⟩
        · exact .inr ⟨rfl, hn, hmem⟩
    · have hstep : self.cutItem name g id = .ok g := by
        rw [cutItem, hname]
        simp only [bind, Except.bind, if_neg hin]
        rfl
      obtain ⟨g', hrun, hadds⟩ := ih hg hrest
      refine ⟨g', by rw [hstep]; exact hrun, hadds.congr ?_⟩
      intro c n
      simp only [List.exists_mem_cons_iff, hunique]
      constructor
      · rintro ⟨rfl, hn, hmem⟩
        exact ⟨rfl, hn, .inr hmem⟩
      · rintro ⟨rfl, hn, rfl | hmem⟩
        · exact absurd hn hin
        · exact ⟨rfl, hn, hmem⟩

/-- The second loop, for the clusters `clusters`. -/
theorem cutClusters_spec (hself : self.WF) (hg : g.WF) (clusters : List (String × String)) :
    ∃ g', clusters.foldlM (fun g item => (self.items item.2).foldlM (self.cutItem item.1) g) g =
      .ok g' ∧
      Adds (fun c n => n ∈ g.nodes.keys ∧ ∃ cid, (c, cid) ∈ clusters ∧
        ∃ id ∈ self.items cid, self.nodes.get? n = some id)
        g g' := by
  induction clusters generalizing g with
  | nil => exact ⟨g, rfl, Adds.refl hg fun c n h => by simp at h⟩
  | cons cluster clusters ih =>
    obtain ⟨name, cid⟩ := cluster
    obtain ⟨g₁, hrun₁, hadds₁⟩ := cutItems_spec hself hg name (items_ok hself cid).2
    obtain ⟨g', hrun, hadds⟩ := ih hadds₁.wf
    refine ⟨g', by rw [List.foldlM_cons, hrun₁]; exact hrun, (hadds₁.trans hadds).congr ?_⟩
    intro c n
    rw [hadds₁.nodes]
    constructor
    · rintro (⟨rfl, hn, hmem⟩ | ⟨hn, cid', hc, hmem⟩)
      · exact ⟨hn, cid, List.mem_cons_self, hmem⟩
      · exact ⟨hn, cid', List.mem_cons_of_mem _ hc, hmem⟩
    · rintro ⟨hn, cid', hc, hmem⟩
      rcases List.mem_cons.mp hc with heq | hc
      · cases heq
        exact .inl ⟨rfl, hn, hmem⟩
      · exact .inr ⟨hn, cid', hc, hmem⟩

/-! ## The result -/

theorem cutToRoots_cutOf {g : Digraph} (hg : g.WF) {roots : List String}
    (hroots : ∀ r ∈ roots, r ∈ g.nodes.keys) {depth : Nat} (hdepth : g.nodes.keys.length < depth) :
    ∃ g', g.cutToRoots depth roots = .ok g' ∧ g.CutOf roots g' := by
  have hends : ∀ e ∈ g.namedEdges, e.2 ∈ g.nodes.keys :=
    fun e he => (mem_keys_of_namedEdges hg he).2
  obtain ⟨found, hsearch, hnodes, hedges⟩ := Traversal.search_spec hends hdepth hroots
  obtain ⟨g₁, hrun₁, hbuilt⟩ := roots_simulates hg hroots (built_init g) hsearch
  obtain ⟨g', hrun, hadds⟩ := cutClusters_spec hg hbuilt.wf g.subgraphs.items
  have hkeys : g'.nodes.keys = found.nodes := by rw [hadds.nodes, hbuilt.nodes]
  have hnone : ∀ name node, ¬g₁.Member name node := by
    rintro name node ⟨cid, nid, hcid, -, -⟩
    rw [hbuilt.rest] at hcid
    cases hcid
  refine ⟨g', ?_, hadds.wf, ?_, ?_, ?_, ?_⟩
  · rw [cutToRoots, hrun₁]
    exact hrun
  · intro node
    rw [hkeys, hnodes]
    rfl
  · have hnames : g'.namedEdges = g₁.namedEdges := by
      have hedge : g'.edgeNames = g₁.edgeNames := by
        funext e
        rw [edgeNames, edgeNames, idToName, idToName, hadds.nodes]
      rw [namedEdges, namedEdges, hadds.edges, hedge]
    rw [hnames, hbuilt.edges, hkeys]
    exact hedges
  · intro name node
    rw [hadds.member, hbuilt.nodes]
    simp only [hnone, false_or, hnodes, Dict.mem_items]
    constructor
    · rintro ⟨hreached, cid, hcid, nid, hmem, hnid⟩
      exact ⟨⟨cid, nid, hcid, hnid, hmem⟩, hreached⟩
    · rintro ⟨⟨cid, nid, hcid, hnid, hmem⟩, hreached⟩
      exact ⟨hreached, cid, hcid, nid, hmem, hnid⟩
  · rw [hadds.stylesheet, hbuilt.rest]
    rfl

theorem FromCalls.foldlM {α : Type} {step : Digraph → α → Except Exn Digraph}
    (hstep : ∀ g x g', FromCalls g → step g x = .ok g' → FromCalls g') (xs : List α)
    (hg : FromCalls g) (h : xs.foldlM step g = .ok g') : FromCalls g' := by
  induction xs generalizing g with
  | nil =>
    cases h
    exact hg
  | cons x xs ih =>
    rw [List.foldlM_cons] at h
    cases hx : step g x with
    | error e =>
      rw [hx] at h
      cases h
    | ok g₁ =>
      rw [hx] at h
      exact ih (hstep _ _ _ hg hx) h

theorem FromCalls.visitEdge {visit : String → Digraph → Except Exn Digraph} {e : String × String}
    (hvisit : ∀ node g g', FromCalls g → visit node g = .ok g' → FromCalls g') (hg : FromCalls g)
    (h : self.visitEdge visit node g e = .ok g') : FromCalls g' := by
  rw [Digraph.visitEdge] at h
  cases hnid : lookup self.nodes node with
  | error e =>
    rw [hnid] at h
    cases h
  | ok nid =>
    simp only [hnid, bind, Except.bind] at h
    split at h
    · cases hto : lookup self.idToName e.2 with
      | error e =>
        rw [hto] at h
        cases h
      | ok toNode =>
        simp only [hto] at h
        cases hrun : visit toNode g with
        | error e =>
          rw [hrun] at h
          cases h
        | ok g₁ =>
          rw [hrun] at h
          exact .addEdge node toNode (hvisit _ _ _ hg hrun) h
    · cases h
      exact hg

theorem FromCalls.visit (depth : Nat) (hg : FromCalls g) (h : self.visit depth node g = .ok g') :
    FromCalls g' := by
  induction depth generalizing node g g' with
  | zero => cases h
  | succ depth ih =>
    rw [Digraph.visit] at h
    split at h
    · cases h
      exact hg
    · cases hadd : g.addNode node none with
      | error e =>
        rw [hadd] at h
        cases h
      | ok g₁ =>
        rw [hadd] at h
        exact FromCalls.foldlM (fun _ _ _ hg h => FromCalls.visitEdge (fun _ _ _ => ih) hg h) _
          (.addNode node none hg hadd) h

theorem FromCalls.cutItem (hg : FromCalls g) (h : self.cutItem name g node = .ok g') :
    FromCalls g' := by
  rw [Digraph.cutItem] at h
  cases hname : lookup self.idToName node with
  | error e =>
    rw [hname] at h
    cases h
  | ok nodeName =>
    simp only [hname, bind, Except.bind] at h
    split at h
    · exact .subgraphSet _ _ hg h
    · cases h
      exact hg

theorem FromCalls.cutToRoots {depth : Nat} {roots : List String}
    (h : self.cutToRoots depth roots = .ok g') : FromCalls g' := by
  rw [Digraph.cutToRoots] at h
  cases hroots : roots.foldlM (fun g node => self.visit depth node g)
      (Digraph.init self.stylesheet) with
  | error e =>
    rw [hroots] at h
    cases h
  | ok g₁ =>
    rw [hroots] at h
    have hg₁ : FromCalls g₁ :=
      FromCalls.foldlM (fun _ _ _ hg h => FromCalls.visit depth hg h)
        _ (.init self.stylesheet) hroots
    exact FromCalls.foldlM (fun _ _ _ hg h =>
      FromCalls.foldlM (fun _ _ _ hg h => FromCalls.cutItem hg h) _ hg h) _ hg₁ h

/-- The interpreter has `depth` frames for the recursion, more than there are nodes. -/
theorem cutToRoots_spec (g : Digraph) (hg : FromCalls g) (roots : List String)
    (hroots : ∀ r ∈ roots, r ∈ g.nodes.keys) (depth : Nat) (hdepth : g.nodes.keys.length < depth) :
    ∃ g', g.cutToRoots depth roots = .ok g' ∧ FromCalls g' ∧ g.CutOf roots g' := by
  obtain ⟨g', hrun, hcut⟩ := cutToRoots_cutOf hg.wf hroots hdepth
  exact ⟨g', hrun, .cutToRoots hrun, hcut⟩

/-- Two nodes that have edges to each other, one of them twice, and a cluster that only one of them
is in. -/
def cycle : Digraph where
  nodes := ⟨[("a", "N1"), ("b", "N2"), ("c", "N3")], by decide⟩
  edges := [("N1", "N2"), ("N2", "N1"), ("N1", "N2"), ("N3", "N3")]
  subgraphs := ⟨[("x", "cluster_1")], by decide⟩
  subgraphItems := ⟨[("cluster_1", ["N3", "N1"])], by decide⟩
  stylesheet := none

theorem fromCalls_cycle : FromCalls cycle := by
  have h₀ := FromCalls.init none
  have h₁ := FromCalls.addNode "a" none h₀ rfl
  have h₂ := FromCalls.addNode "b" none h₁ rfl
  have h₃ := FromCalls.subgraphSet "x" "a" h₂ rfl
  have h₄ := FromCalls.addNode "c" (some "x") h₃ rfl
  have h₅ := FromCalls.addEdge "a" "b" h₄ rfl
  have h₆ := FromCalls.addEdge "b" "a" h₅ rfl
  have h₇ := FromCalls.addEdge "a" "b" h₆ rfl
  exact FromCalls.addEdge "c" "c" h₇ rfl

theorem cutToRoots_spec_cycle :
    ∃ g', cycle.cutToRoots 4 ["a"] = .ok g' ∧ FromCalls g' ∧ cycle.CutOf ["a"] g' :=
  cutToRoots_spec cycle fromCalls_cycle ["a"] (by decide) 4 (by decide)

end Digraph

end GraphvizOverlays
