import DevUtil.Lib.Numbering
import DevUtil.Lib.Traversal

/-!
# The graph of portage overlays

`Digraph` of `graphviz_overlays.py`. Nodes and clusters have a name and an id; edges and the members
of clusters are kept as ids.

    an edge that is added is the last of the edges, by its names     (addEdge_spec)
    a node that is put into a cluster is its new member              (subgraphSet_spec)
    the graphs that calls of the methods build are well formed       (FromCalls.wf)
-/

namespace GraphvizOverlays

open Lib

structure Digraph where
  nodes : Dict String String
  edges : List (String × String)
  subgraphs : Dict String String
  /-- `defaultdict(set)`: a set is its elements, in the order of iteration. -/
  subgraphItems : Dict String (List String)
  stylesheet : Option String

inductive Exn where
  | keyError (key : String)
  | recursionError
deriving DecidableEq

/-- `d[key]` -/
def lookup {ν : Type} (d : Dict String ν) (key : String) : Except Exn ν :=
  match d.get? key with
  | some v => .ok v
  | none => .error (.keyError key)

/-- `'N{}'.format(number)` -/
def nodeId (number : Nat) : String := "N" ++ toString number

/-- `'cluster_{}'.format(number)` -/
def clusterId (number : Nat) : String := "cluster_" ++ toString number

namespace Digraph

def init (stylesheet : Option String) : Digraph :=
  { nodes := Dict.empty, edges := [], subgraphs := Dict.empty, subgraphItems := Dict.empty,
    stylesheet := stylesheet }

/-- `self.subgraph_items[cid]` -/
def items (self : Digraph) (cid : String) : List String := (self.subgraphItems.get? cid).getD []

/-- `subgraph_set`, after the cluster has its id. -/
def addItem (self : Digraph) (cid nodeName : String) : Except Exn Digraph := do
  let nid ← lookup self.nodes nodeName
  return { self with subgraphItems := self.subgraphItems.set cid ((self.items cid).insert nid) }

def subgraphSet (self : Digraph) (name nodeName : String) : Except Exn Digraph :=
  match self.subgraphs.get? name with
  | none =>
    let cid := clusterId (self.subgraphs.items.length + 1)
    { self with subgraphs := self.subgraphs.set name cid }.addItem cid nodeName
  | some cid => self.addItem cid nodeName

/-- `self.nodes[name] = nid` for a new node. -/
def setNode (self : Digraph) (name : String) : Digraph :=
  { self with nodes := self.nodes.set name (nodeId (self.nodes.items.length + 1)) }

def addNode (self : Digraph) (name : String) (subgraph : Option String) : Except Exn Digraph :=
  if name ∈ self.nodes.keys then .ok self
  else
    match subgraph with
    | none => .ok (self.setNode name)
    | some subgraph =>
      if subgraph = "" then .ok (self.setNode name)
      else (self.setNode name).subgraphSet subgraph name

def addEdge (self : Digraph) (fromNode toNode : String) : Except Exn Digraph := do
  let fromId ← lookup self.nodes fromNode
  let toId ← lookup self.nodes toNode
  return { self with edges := self.edges ++ [(fromId, toId)] }

/-! ## Graphs that the methods build -/

/-- The ids are numbered, and there is nothing without a name. -/
structure WF (g : Digraph) : Prop where
  nodes : g.nodes.Numbered nodeId
  edges : ∀ e ∈ g.edges, e.1 ∈ g.nodes.ids ∧ e.2 ∈ g.nodes.ids
  subgraphs : g.subgraphs.Numbered clusterId
  items : ∀ cid ids, g.subgraphItems.get? cid = some ids →
    cid ∈ g.subgraphs.ids ∧ ids.Nodup ∧ ∀ id ∈ ids, id ∈ g.nodes.ids

/-- `{v: k for k, v in self.nodes.items()}` -/
def idToName (self : Digraph) : Dict String String := self.nodes.inverse

/-- The names of an edge's ends. -/
def edgeNames (g : Digraph) (e : String × String) : Option (String × String) := do
  let fromNode ← g.idToName.get? e.1
  let toNode ← g.idToName.get? e.2
  return (fromNode, toNode)

/-- The edges, by the names of their ends. -/
def namedEdges (g : Digraph) : List (String × String) := g.edges.filterMap g.edgeNames

/-- The node is in the cluster. -/
def Member (g : Digraph) (subgraphName node : String) : Prop :=
  ∃ cid nid, g.subgraphs.get? subgraphName = some cid ∧ g.nodes.get? node = some nid ∧
    nid ∈ g.items cid

/-! ## Ids -/

theorem toString_injective : Function.Injective (toString : Nat → String) := by
  intro m n h
  have hdigits : Nat.toDigits 10 m = Nat.toDigits 10 n := by
    rw [← Nat.toList_repr, ← Nat.toList_repr]
    exact congrArg String.toList h
  have hnumber := congrArg (fun digits => Nat.ofDigitChars 10 digits 0) hdigits
  simpa [Nat.ofDigitChars_ten_toDigits] using hnumber

theorem append_injective (s : String) : Function.Injective fun n : Nat => s ++ toString n := by
  intro m n h
  have h : s.toList ++ (toString m).toList = s.toList ++ (toString n).toList := by
    rw [← String.toList_append, ← String.toList_append]
    exact congrArg String.toList h
  exact toString_injective (String.toList_injective (List.append_cancel_left h))

theorem nodeId_injective : Function.Injective nodeId := append_injective "N"

theorem clusterId_injective : Function.Injective clusterId := append_injective "cluster_"

variable {g : Digraph} {name node : String}

theorem get?_idToName (hg : g.WF) {id : String} :
    g.idToName.get? id = some name ↔ g.nodes.get? name = some id :=
  Dict.get?_inverse (hg.nodes.nodup nodeId_injective)

/-! ## The methods keep the graph well formed -/

theorem lookup_of_get? {ν : Type} {d : Dict String ν} {key : String} {v : ν}
    (h : d.get? key = some v) :
    lookup d key = .ok v := by
  rw [lookup, h]

theorem mem_keys_of_lookup {ν : Type} {d : Dict String ν} {key : String} {v : ν}
    (h : lookup d key = .ok v) :
    key ∈ d.keys := by
  rw [lookup] at h
  split at h
  · next hget => exact Dict.mem_keys.mpr ⟨_, hget⟩
  · cases h

theorem wf_init (stylesheet : Option String) : (init stylesheet).WF where
  nodes := Dict.numbered_empty nodeId
  edges e he := by cases he
  subgraphs := Dict.numbered_empty clusterId
  items cid ids h := by cases h

theorem mem_ids_setNode (hnew : name ∉ g.nodes.keys) {id : String} (h : id ∈ g.nodes.ids) :
    id ∈ (g.setNode name).nodes.ids := by
  obtain ⟨k, hk⟩ := Dict.mem_ids.mp h
  have hne : k ≠ name := fun heq => hnew (Dict.mem_keys.mpr ⟨id, heq ▸ hk⟩)
  refine Dict.mem_ids.mpr ⟨k, ?_⟩
  rw [setNode, Dict.get?_set_of_ne _ hne, hk]

theorem wf_setNode (hg : g.WF) (hnew : name ∉ g.nodes.keys) : (g.setNode name).WF where
  nodes := hg.nodes.set hnew
  edges e he := ⟨mem_ids_setNode hnew (hg.edges e he).1, mem_ids_setNode hnew (hg.edges e he).2⟩
  subgraphs := hg.subgraphs
  items cid ids h := by
    obtain ⟨hcid, hnodup, hids⟩ := hg.items cid ids h
    exact ⟨hcid, hnodup, fun id hid => mem_ids_setNode hnew (hids id hid)⟩

/-- The names of the ends of an edge of the graph. -/
theorem exists_edgeNames (hg : g.WF) {e : String × String} (he : e ∈ g.edges) :
    ∃ ne, g.edgeNames e = some ne ∧ g.nodes.get? ne.1 = some e.1 ∧
      g.nodes.get? ne.2 = some e.2 := by
  obtain ⟨a, ha⟩ := Dict.mem_ids.mp (hg.edges e he).1
  obtain ⟨b, hb⟩ := Dict.mem_ids.mp (hg.edges e he).2
  refine ⟨(a, b), ?_, ha, hb⟩
  rw [edgeNames, (get?_idToName hg).mpr ha, (get?_idToName hg).mpr hb]
  rfl

theorem edgeNames_eq (hg : g.WF) {e ne : String × String} (h : g.nodes.get? ne.1 = some e.1)
    (h' : g.nodes.get? ne.2 = some e.2) : g.edgeNames e = some ne := by
  rw [edgeNames, (get?_idToName hg).mpr h, (get?_idToName hg).mpr h']
  rfl

theorem namedEdges_setNode (hg : g.WF) (hnew : name ∉ g.nodes.keys) :
    (g.setNode name).namedEdges = g.namedEdges := by
  apply List.filterMap_congr
  intro e he
  obtain ⟨ne, hnames, ha, hb⟩ := exists_edgeNames hg he
  have hkey : ∀ k id, g.nodes.get? k = some id → (g.setNode name).nodes.get? k = some id := by
    intro k id hk
    have hne : k ≠ name := fun heq => hnew (Dict.mem_keys.mpr ⟨id, heq ▸ hk⟩)
    rw [setNode, Dict.get?_set_of_ne _ hne, hk]
  rw [hnames]
  exact edgeNames_eq (wf_setNode hg hnew) (hkey _ _ ha) (hkey _ _ hb)

theorem addEdge_spec (hg : g.WF) {fromNode toNode : String} (hfrom : fromNode ∈ g.nodes.keys)
    (hto : toNode ∈ g.nodes.keys) :
    ∃ g', g.addEdge fromNode toNode = .ok g' ∧ g'.WF ∧
      g'.namedEdges = g.namedEdges ++ [(fromNode, toNode)] ∧
      g' = { g with edges := g'.edges } := by
  obtain ⟨a, ha⟩ := Dict.mem_keys.mp hfrom
  obtain ⟨b, hb⟩ := Dict.mem_keys.mp hto
  have hrun : g.addEdge fromNode toNode = .ok { g with edges := g.edges ++ [(a, b)] } := by
    rw [addEdge, lookup_of_get? ha, lookup_of_get? hb]
    rfl
  refine ⟨_, hrun, ⟨hg.nodes, ?_, hg.subgraphs, hg.items⟩, ?_, rfl⟩
  · intro e he
    rcases List.mem_append.mp he with he | he
    · exact hg.edges e he
    · rw [List.mem_singleton.mp he]
      exact ⟨Dict.mem_ids.mpr ⟨fromNode, ha⟩, Dict.mem_ids.mpr ⟨toNode, hb⟩⟩
  · have hnames : g.edgeNames (a, b) = some (fromNode, toNode) := edgeNames_eq hg ha hb
    show (g.edges ++ [(a, b)]).filterMap g.edgeNames = _
    rw [List.filterMap_append, List.filterMap_cons_some hnames]
    rfl

/-- The end of an edge is a node. -/
theorem mem_keys_of_namedEdges (hg : g.WF) {ne : String × String} (h : ne ∈ g.namedEdges) :
    ne.1 ∈ g.nodes.keys ∧ ne.2 ∈ g.nodes.keys := by
  obtain ⟨e, he, hnames⟩ := List.mem_filterMap.mp h
  obtain ⟨ne', hnames', ha, hb⟩ := exists_edgeNames hg he
  rw [hnames] at hnames'
  cases hnames'
  exact ⟨Dict.mem_keys.mpr ⟨_, ha⟩, Dict.mem_keys.mpr ⟨_, hb⟩⟩

/-! ## Members of clusters -/

/-- `g'` is `g` with new members of clusters. -/
structure Adds (new : String → String → Prop) (g g' : Digraph) : Prop where
  wf : g'.WF
  nodes : g'.nodes = g.nodes
  edges : g'.edges = g.edges
  stylesheet : g'.stylesheet = g.stylesheet
  member : ∀ name node, g'.Member name node ↔ g.Member name node ∨ new name node

variable {new new' : String → String → Prop} {g' : Digraph}

theorem Adds.refl (hg : g.WF) (hnew : ∀ name node, ¬new name node) : Adds new g g where
  wf := hg
  nodes := rfl
  edges := rfl
  stylesheet := rfl
  member name node := by simp [hnew]

theorem Adds.trans {g'' : Digraph} (h : Adds new g g') (h' : Adds new' g' g'') :
    Adds (fun name node => new name node ∨ new' name node) g g'' where
  wf := h'.wf
  nodes := h'.nodes.trans h.nodes
  edges := h'.edges.trans h.edges
  stylesheet := h'.stylesheet.trans h.stylesheet
  member name node := by rw [h'.member, h.member, or_assoc]

theorem Adds.congr (h : Adds new g g') (heq : ∀ name node, new name node ↔ new' name node) :
    Adds new' g g' where
  wf := h.wf
  nodes := h.nodes
  edges := h.edges
  stylesheet := h.stylesheet
  member name node := by rw [h.member, heq]

theorem items_of_not_mem {g : Digraph} (hg : g.WF) {cid : String} (h : cid ∉ g.subgraphs.ids) :
    g.items cid = [] := by
  rw [items]
  cases hids : g.subgraphItems.get? cid with
  | none => rfl
  | some ids => exact absurd (hg.items cid ids hids).1 h

/-- A cluster is a set of nodes. -/
theorem items_ok {g : Digraph} (hg : g.WF) (cid : String) :
    (g.items cid).Nodup ∧ ∀ id ∈ g.items cid, id ∈ g.nodes.ids := by
  rw [items]
  cases hids : g.subgraphItems.get? cid with
  | none => exact ⟨List.nodup_nil, fun id hid => by cases hid⟩
  | some ids => exact (hg.items cid ids hids).2

theorem items_set (g : Digraph) (cid : String) (ids : List String) (cid' : String) :
    items { g with subgraphItems := g.subgraphItems.set cid ids } cid' = if cid' = cid then ids
      else g.items cid' := by
  rw [items, items]
  split
  · next h =>
    rw [h, Dict.get?_set]
    rfl
  · next h => rw [Dict.get?_set_of_ne _ h]

theorem addItem_spec (hg : g.WF) {cid : String} (hcid : g.subgraphs.get? name = some cid)
    (hnode : node ∈ g.nodes.keys) :
    ∃ g', g.addItem cid node = .ok g' ∧ Adds (fun c n => c = name ∧ n = node) g g' := by
  obtain ⟨nid, hnid⟩ := Dict.mem_keys.mp hnode
  have hrun : g.addItem cid node =
      .ok { g with subgraphItems := g.subgraphItems.set cid ((g.items cid).insert nid) } := by
    rw [addItem, lookup_of_get? hnid]
    rfl
  refine ⟨_, hrun, ⟨hg.nodes, hg.edges, hg.subgraphs, ?_⟩, rfl, rfl, rfl, ?_⟩
  · intro cid' ids hids
    rcases Dict.get?_set_cases hids with ⟨rfl, rfl⟩ | ⟨-, hids⟩
    · obtain ⟨hnodup, hold⟩ := items_ok hg cid'
      refine ⟨Dict.mem_ids.mpr ⟨name, hcid⟩, hnodup.insert, ?_⟩
      intro id hid
      rcases List.mem_insert_iff.mp hid with rfl | hid
      · exact Dict.mem_ids.mpr ⟨node, hnid⟩
      · exact hold id hid
    · exact hg.items cid' ids hids
  · intro c n
    constructor
    · rintro ⟨cid', nid', hc, hn, hmem⟩
      rw [items_set] at hmem
      split at hmem
      · next heq =>
        rcases List.mem_insert_iff.mp hmem with rfl | hmem
        · refine .inr ⟨?_, Dict.key_unique (hg.nodes.nodup nodeId_injective) hn hnid⟩
          exact Dict.key_unique (hg.subgraphs.nodup clusterId_injective) (heq ▸ hc) hcid
        · exact .inl ⟨cid', nid', hc, hn, heq ▸ hmem⟩
      · exact .inl ⟨cid', nid', hc, hn, hmem⟩
    · intro h
      rcases h with ⟨cid', nid', hc, hn, hmem⟩ | ⟨rfl, rfl⟩
      · refine ⟨cid', nid', hc, hn, ?_⟩
        rw [items_set]
        split
        · next heq => exact List.mem_insert_of_mem (heq ▸ hmem)
        · exact hmem
      · refine ⟨cid, nid, hcid, hnid, ?_⟩
        rw [items_set, if_pos rfl]
        exact List.mem_insert_self

/-- A new cluster has no members yet. -/
theorem adds_newCluster (hg : g.WF) (hname : name ∉ g.subgraphs.keys) :
    Adds (fun _ _ => False) g
      { g with subgraphs := g.subgraphs.set name (clusterId (g.subgraphs.items.length + 1)) } where
  wf := by
    refine ⟨hg.nodes, hg.edges, hg.subgraphs.set hname, ?_⟩
    intro cid ids hids
    obtain ⟨hcid, hrest⟩ := hg.items cid ids hids
    obtain ⟨c, hc⟩ := Dict.mem_ids.mp hcid
    have hne : c ≠ name := fun heq => hname (Dict.mem_keys.mpr ⟨cid, heq ▸ hc⟩)
    exact ⟨Dict.mem_ids.mpr ⟨c, by rw [Dict.get?_set_of_ne _ hne, hc]⟩, hrest⟩
  nodes := rfl
  edges := rfl
  stylesheet := rfl
  member c n := by
    have hfresh := items_of_not_mem hg (hg.subgraphs.fresh clusterId_injective)
    simp only [or_false]
    constructor
    · rintro ⟨cid, nid, hc, hn, hmem⟩
      rcases Dict.get?_set_cases hc with ⟨rfl, rfl⟩ | ⟨-, hc⟩
      · have hmem : nid ∈ g.items (clusterId (g.subgraphs.items.length + 1)) := hmem
        rw [hfresh] at hmem
        cases hmem
      · exact ⟨cid, nid, hc, hn, hmem⟩
    · rintro ⟨cid, nid, hc, hn, hmem⟩
      have hne : c ≠ name := fun heq => hname (Dict.mem_keys.mpr ⟨cid, heq ▸ hc⟩)
      exact ⟨cid, nid, by rw [Dict.get?_set_of_ne _ hne, hc], hn, hmem⟩

theorem subgraphSet_spec (hg : g.WF) (name : String) (hnode : node ∈ g.nodes.keys) :
    ∃ g', g.subgraphSet name node = .ok g' ∧ Adds (fun c n => c = name ∧ n = node) g g' := by
  rw [subgraphSet]
  cases hname : g.subgraphs.get? name with
  | none =>
    have hnew := adds_newCluster hg (Dict.get?_eq_none.mp hname)
    obtain ⟨g', hrun, hadds⟩ := addItem_spec hnew.wf (Dict.get?_set _ name _) hnode
    refine ⟨g', hrun, (hnew.trans hadds).congr ?_⟩
    intro c n
    simp
  | some cid => exact addItem_spec hg hname hnode

/-! ## Calls of the methods -/

/-- Graphs that calls which return build. -/
inductive FromCalls : Digraph → Prop where
  | init (stylesheet : Option String) : FromCalls (init stylesheet)
  | addNode {g g' : Digraph} (name : String) (subgraph : Option String) :
      FromCalls g → g.addNode name subgraph = .ok g' → FromCalls g'
  | subgraphSet {g g' : Digraph} (name nodeName : String) :
      FromCalls g → g.subgraphSet name nodeName = .ok g' → FromCalls g'
  | addEdge {g g' : Digraph} (fromNode toNode : String) :
      FromCalls g → g.addEdge fromNode toNode = .ok g' → FromCalls g'

theorem mem_keys_of_addItem {cid : String} (h : g.addItem cid node = .ok g') :
    node ∈ g.nodes.keys := by
  cases hnode : lookup g.nodes node with
  | error e =>
    rw [addItem, hnode] at h
    cases h
  | ok nid => exact mem_keys_of_lookup hnode

theorem wf_subgraphSet (hg : g.WF) (h : g.subgraphSet name node = .ok g') : g'.WF := by
  have hnode : node ∈ g.nodes.keys := by
    rw [subgraphSet] at h
    split at h
    · have hmem := mem_keys_of_addItem h
      exact hmem
    · exact mem_keys_of_addItem h
  obtain ⟨g'', hrun, hadds⟩ := subgraphSet_spec hg name hnode
  rw [h] at hrun
  cases hrun
  exact hadds.wf

theorem wf_addNode (hg : g.WF) {subgraph : Option String} (h : g.addNode name subgraph = .ok g') :
    g'.WF := by
  unfold addNode at h
  split at h
  · cases h
    exact hg
  · next hnew =>
    have hset := wf_setNode hg hnew
    cases subgraph with
    | none =>
      cases h
      exact hset
    | some subgraph =>
      by_cases hempty : subgraph = ""
      · simp only [hempty, if_true] at h
        cases h
        exact hset
      · simp only [hempty, if_false] at h
        exact wf_subgraphSet hset h

theorem wf_addEdge (hg : g.WF) {fromNode toNode : String} (h : g.addEdge fromNode toNode = .ok g') :
    g'.WF := by
  cases hfrom : lookup g.nodes fromNode with
  | error e =>
    rw [addEdge, hfrom] at h
    cases h
  | ok a =>
    cases hto : lookup g.nodes toNode with
    | error e =>
      rw [addEdge, hfrom, hto] at h
      cases h
    | ok b =>
      obtain ⟨g'', hrun, hwf, -⟩ :=
        addEdge_spec hg (mem_keys_of_lookup hfrom) (mem_keys_of_lookup hto)
      rw [h] at hrun
      cases hrun
      exact hwf

theorem FromCalls.wf (h : FromCalls g) : g.WF := by
  induction h with
  | init stylesheet => exact wf_init stylesheet
  | addNode _ _ _ hcall ih => exact wf_addNode ih hcall
  | subgraphSet _ _ _ hcall ih => exact wf_subgraphSet ih hcall
  | addEdge _ _ _ hcall ih => exact wf_addEdge ih hcall

end Digraph

end GraphvizOverlays
