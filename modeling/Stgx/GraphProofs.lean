/-
  Stgx.GraphProofs — what the indexes of a rebuilt graph answer (see `Stgx.Graph`).

  `indexed system nodes edges` is the graph `rebuild_indexes` leaves for these parts.
  With distinct ids and known sources (`Sound`) its edges are the stable grouping of
  `edges` by source in node order (`indexed_edges`), every query scans the parts
  (`findNode_indexed`, `hasNode_indexed`, `outEdges_indexed`, `hasEdge_indexed`), and
  the graph depends on the edges only through what leaves each node (`indexed_congr`).
-/

import Stgx.Graph
import Stgx.ValidateProofs

namespace Stgx

open Stgx.Lib.CountingSort (start count slice_group)
open Stgx.Lib.Grouping
open Stgx.Lib.Index (emplaceFrom lookup_index mem_index get_position position_get position_lt position_inj)

/-- Ids are non-empty and distinct, and every edge joins present nodes. -/
structure Sound (nodes : List Node) (edges : List Edge) : Prop where
  idsNonempty : ∀ id ∈ ids nodes, id ≠ ""
  idsDistinct : (ids nodes).Nodup
  sources : ∀ edge ∈ edges, edge.source ∈ ids nodes
  targets : ∀ edge ∈ edges, edge.target ∈ ids nodes

theorem WellFormed.sound {system : System} {nodes : List Node} {edges : List Edge} (h : WellFormed system nodes edges) :
    Sound nodes edges := ⟨h.idsNonempty, h.idsDistinct, h.sources, h.targets⟩

/-- The graph `rebuild_indexes` leaves. -/
def indexed (system : System) (nodes : List Node) (edges : List Edge) : Graph :=
  Graph.rebuildIndexes { system := system, nodes := nodes, edges := edges }

/-- The edges leaving `id`, in insertion order. -/
def leaving (edges : List Edge) (id : String) : List Edge := bucket Edge.source edges id

theorem rebuildIndexes_eq (g : Graph) : g.rebuildIndexes = indexed g.system g.nodes g.edges := rfl

@[simp] theorem indexed_system (system : System) (nodes : List Node) (edges : List Edge) :
    (indexed system nodes edges).system = system := rfl

@[simp] theorem indexed_nodes (system : System) (nodes : List Node) (edges : List Edge) :
    (indexed system nodes edges).nodes = nodes := rfl

theorem indexed_eq (system : System) (nodes : List Node) (edges : List Edge) :
    indexed system nodes edges =
      ⟨system, nodes, group (List.range (nodes.length + 1)) (edgeBucket nodes) edges, indexNodes nodes,
        emplaceFrom (rangeOf nodes edges) 0 (ids nodes) ∅⟩ := by
  unfold indexed Graph.rebuildIndexes
  simp only [rebuild_eq, Option.get_some]

/-! ## Buckets are sources -/

/-- The bucket of a node's position holds the edges that leave the node. -/
theorem edgeBucket_eq_iff {nodes : List Node} {id : String} {i : Nat} (h : (ids nodes).idxOf? id = some i)
    (edge : Edge) : edgeBucket nodes edge = i ↔ edge.source = id := by
  unfold edgeBucket
  rw [lookup_indexNodes]
  constructor
  · intro hi
    cases hs : (ids nodes).idxOf? edge.source with
    | none =>
      have := position_lt h
      simp only [ids, List.length_map] at this
      simp only [hs, Option.getD_none] at hi
      omega
    | some j =>
      simp only [hs, Option.getD_some] at hi
      subst hi
      exact position_inj hs h
  · intro he
    subst he
    simp [h]

theorem edgeBucket_bucket {nodes : List Node} {id : String} {i : Nat} (h : (ids nodes).idxOf? id = some i)
    (edges : List Edge) : bucket (edgeBucket nodes) edges i = leaving edges id :=
  List.filter_congr fun edge _ => by simp only [edgeBucket_eq_iff h edge]

theorem position_of_mem {nodes : List Node} {id : String} (h : id ∈ ids nodes) :
    ∃ i, (ids nodes).idxOf? id = some i :=
  Option.isSome_iff_exists.mp (List.isSome_idxOf?.mpr h)

theorem position_self {nodes : List Node} (hd : (ids nodes).Nodup) {i : Nat} (hi : i < nodes.length) :
    (ids nodes).idxOf? ((ids nodes).getD i "") = some i := by
  have hi' : i < (ids nodes).length := by simpa [ids] using hi
  refine Lib.Index.position_of_get hd ?_
  rw [List.getD_eq_getElem?_getD, List.getElem?_eq_getElem hi', Option.getD_some]

/-- With distinct ids the buckets of the positions are those of the sources, in node order. -/
theorem group_positions {nodes : List Node} (hd : (ids nodes).Nodup) (edges : List Edge) :
    group (List.range nodes.length) (edgeBucket nodes) edges = group (ids nodes) Edge.source edges := by
  rw [group_rekey _ (fun i => (ids nodes).getD i "") Edge.source _ _ fun i hi edge _ =>
      edgeBucket_eq_iff (position_self hd (List.mem_range.mp hi)) edge]
  congr 1
  refine List.ext_getElem (by simp [ids]) fun i h1 h2 => ?_
  rw [List.getElem_map, List.getElem_range, List.getD_eq_getElem?_getD, List.getElem?_eq_getElem h2, Option.getD_some]

/-- With distinct ids and known sources the counting sort groups by source in node order. -/
theorem group_edgeBucket {nodes : List Node} {edges : List Edge} (hd : (ids nodes).Nodup)
    (hs : ∀ edge ∈ edges, edge.source ∈ ids nodes) :
    group (List.range (nodes.length + 1)) (edgeBucket nodes) edges = group (ids nodes) Edge.source edges := by
  have known : ∀ edge ∈ edges, edgeBucket nodes edge ∉ [nodes.length] := by
    intro edge he
    obtain ⟨i, hi⟩ := position_of_mem (hs edge he)
    have := position_lt hi
    simp only [ids, List.length_map] at this
    rw [List.mem_singleton, (edgeBucket_eq_iff hi edge).mpr rfl]
    omega
  rw [List.range_succ, group_append_unused known, group_positions hd]

theorem indexed_edges {system : System} {nodes : List Node} {edges : List Edge} (h : Sound nodes edges) :
    (indexed system nodes edges).edges = group (ids nodes) Edge.source edges := by
  rw [indexed_eq]
  exact group_edgeBucket h.idsDistinct h.sources

theorem indexed_edges_perm {system : System} {nodes : List Node} {edges : List Edge} (h : Sound nodes edges) :
    (indexed system nodes edges).edges.Perm edges := by
  rw [indexed_edges h]
  exact group_perm h.idsDistinct h.sources

/-- Nothing leaves an id that no node has. -/
theorem Sound.leaving_eq_nil {nodes : List Node} {edges : List Edge} (h : Sound nodes edges) {id : String}
    (hid : id ∉ ids nodes) : leaving edges id = [] := by
  refine bucket_eq_nil fun edge he heq => ?_
  subst heq
  exact hid (h.sources edge he)

/-- Grouping changes nothing about what leaves a node. -/
theorem leaving_indexed {system : System} {nodes : List Node} {edges : List Edge} (h : Sound nodes edges)
    (id : String) : leaving (indexed system nodes edges).edges id = leaving edges id := by
  rw [indexed_edges h]
  by_cases hid : id ∈ ids nodes
  · exact bucket_group h.idsDistinct Edge.source edges hid
  · rw [h.leaving_eq_nil hid]
    exact bucket_group_not_mem Edge.source edges hid

theorem Sound.of_mem {nodes : List Node} {edges edges' : List Edge} (h : Sound nodes edges)
    (hsub : ∀ edge ∈ edges', edge ∈ edges) : Sound nodes edges' :=
  ⟨h.idsNonempty, h.idsDistinct, fun e he => h.sources e (hsub e he), fun e he => h.targets e (hsub e he)⟩

theorem Sound.indexed_edges {system : System} {nodes : List Node} {edges : List Edge} (h : Sound nodes edges) :
    Sound nodes (indexed system nodes edges).edges :=
  h.of_mem fun _ he => (indexed_edges_perm h).mem_iff.mp he

/-! ## Queries -/

theorem findNode_indexed (system : System) (nodes : List Node) (edges : List Edge) (id : String) :
    (indexed system nodes edges).findNode id = nodes.find? fun node => node.id = id := by
  rw [← get_position Node.id nodes id, indexed_eq]
  unfold Graph.findNode
  simp only [lookup_indexNodes, ids]
  cases (nodes.map Node.id).idxOf? id <;> rfl

theorem findNodeMut_indexed (system : System) (nodes : List Node) (edges : List Edge) (id : String) :
    (indexed system nodes edges).findNodeMut id = (ids nodes).idxOf? id := by
  rw [indexed_eq]
  exact lookup_indexNodes nodes id

theorem hasNode_indexed (system : System) (nodes : List Node) (edges : List Edge) (id : String) :
    (indexed system nodes edges).hasNode id = decide (id ∈ ids nodes) := by
  rw [indexed_eq]
  unfold Graph.hasNode indexNodes
  simp only [mem_index]

theorem outEdges_indexed {system : System} {nodes : List Node} {edges : List Edge} (h : Sound nodes edges)
    (id : String) : (indexed system nodes edges).outEdges id = leaving edges id := by
  rw [indexed_eq]
  unfold Graph.outEdges
  simp only [lookup_index]
  cases hi : (ids nodes).idxOf? id with
  | none =>
    have hid : id ∉ ids nodes := List.idxOf?_eq_none_iff.mp hi
    exact (h.leaving_eq_nil hid).symm
  | some i =>
    have hlt : i < nodes.length + 1 := by
      have := position_lt hi
      simp only [ids, List.length_map] at this
      omega
    simp only [Option.map_some, rangeOf, slice_group (edgeBucket nodes) edges hlt]
    exact edgeBucket_bucket hi edges

theorem hasEdge_indexed {system : System} {nodes : List Node} {edges : List Edge} (h : Sound nodes edges)
    (source target : String) (kind : EdgeKind) :
    (indexed system nodes edges).hasEdge source target kind = decide (⟨source, target, kind⟩ ∈ edges) := by
  unfold Graph.hasEdge
  rw [outEdges_indexed h, Bool.eq_iff_iff, List.any_eq_true, decide_eq_true_eq]
  constructor
  · intro h
    obtain ⟨edge, he, hk⟩ := h
    obtain ⟨hmem, rfl⟩ := mem_bucket.mp he
    obtain ⟨s, t, k⟩ := edge
    simp only [Bool.and_eq_true, beq_iff_eq] at hk
    obtain ⟨rfl, rfl⟩ := hk
    exact hmem
  · intro hmem
    exact ⟨_, mem_bucket.mpr ⟨hmem, rfl⟩, by simp⟩

/-! ## Congruence -/

/-- The buckets of the counting sort are what leaves each node, and nothing else when every
    source is known. -/
theorem edgeBucket_congr {nodes : List Node} {edges edges' : List Edge} (h : Sound nodes edges)
    (h' : Sound nodes edges') (hl : ∀ id ∈ ids nodes, leaving edges id = leaving edges' id) (i : Nat) :
    bucket (edgeBucket nodes) edges i = bucket (edgeBucket nodes) edges' i := by
  have of_known : ∀ {l : List Edge}, Sound nodes l → ¬ i < nodes.length → bucket (edgeBucket nodes) l i = [] := by
    intro l hl hi
    refine bucket_eq_nil fun edge he => ?_
    obtain ⟨j, hj⟩ := position_of_mem (hl.sources edge he)
    have := position_lt hj
    simp only [ids, List.length_map] at this
    rw [(edgeBucket_eq_iff hj edge).mpr rfl]
    omega
  by_cases hi : i < nodes.length
  · have hpos := position_self h.idsDistinct hi
    rw [edgeBucket_bucket hpos, edgeBucket_bucket hpos]
    exact hl _ (List.mem_of_getElem? (position_get hpos))
  · rw [of_known h hi, of_known h' hi]

/-- A rebuilt graph depends on the edges only through what leaves each node. -/
theorem indexed_congr {system : System} {nodes : List Node} {edges edges' : List Edge} (h : Sound nodes edges)
    (h' : Sound nodes edges') (hl : ∀ id ∈ ids nodes, leaving edges id = leaving edges' id) :
    indexed system nodes edges = indexed system nodes edges' := by
  have hb := edgeBucket_congr h h' hl
  have hcount : count (edgeBucket nodes) edges = count (edgeBucket nodes) edges' :=
    funext fun i => by rw [count, count, hb i]
  rw [indexed_eq, indexed_eq, group_congr fun i _ => hb i]
  unfold rangeOf
  rw [hcount]

/-- Rebuilding a rebuilt graph changes nothing. -/
theorem rebuildIndexes_indexed {system : System} {nodes : List Node} {edges : List Edge} (h : Sound nodes edges) :
    (indexed system nodes edges).rebuildIndexes = indexed system nodes edges := by
  rw [rebuildIndexes_eq]
  exact indexed_congr h.indexed_edges h fun id _ => leaving_indexed h id

/-- The indexes do not see a node's fields other than its id. -/
theorem indexed_with_nodes {system : System} {nodes nodes' : List Node} {edges : List Edge}
    (hids : ids nodes' = ids nodes) :
    { indexed system nodes edges with nodes := nodes' } = indexed system nodes' edges := by
  have hlen : nodes'.length = nodes.length := by simpa [ids] using congrArg List.length hids
  have hindex : indexNodes nodes' = indexNodes nodes := by rw [indexNodes, indexNodes, hids]
  have hbucket : edgeBucket nodes' = edgeBucket nodes := by
    funext edge
    rw [edgeBucket, edgeBucket, hindex, hlen]
  rw [indexed_eq, indexed_eq, hlen, hindex, hids]
  unfold rangeOf
  rw [hbucket]

theorem create_eq (system : System) (nodes : List Node) (edges : List Edge) :
    Graph.create system nodes edges =
      if (validateGraph system nodes (indexed system nodes edges).edges).hasErrors
      then .error (validateGraph system nodes (indexed system nodes edges).edges)
      else .ok (indexed system nodes edges) := rfl

/-- Whether a graph is well formed does not depend on the order of its edges. -/
theorem WellFormed.of_mem {system : System} {nodes : List Node} {edges edges' : List Edge}
    (h : WellFormed system nodes edges) (hsub : ∀ edge ∈ edges', edge ∈ edges) : WellFormed system nodes edges' :=
  ⟨h.nonempty, h.idsNonempty, h.idsDistinct, h.oneInitial, h.arity, fun e he => h.sources e (hsub e he),
    fun e he => h.targets e (hsub e he)⟩

theorem mem_indexed_edges {system : System} {nodes : List Node} {edges : List Edge} {edge : Edge} :
    edge ∈ (indexed system nodes edges).edges ↔ edge ∈ edges := by
  rw [indexed_eq]
  simp only [mem_group, List.mem_range, and_iff_left_iff_imp]
  exact fun _ => edgeBucket_lt nodes edge

/-- `create` accepts exactly the well-formed graphs, and indexes their parts. -/
theorem create_ok_iff {system : System} {nodes : List Node} {edges : List Edge} {g : Graph} :
    Graph.create system nodes edges = .ok g ↔ WellFormed system nodes edges ∧ g = indexed system nodes edges := by
  have verdict : (validateGraph system nodes (indexed system nodes edges).edges).hasErrors = false ↔
      WellFormed system nodes edges := by
    rw [validateGraph_hasErrors]
    exact ⟨fun h => h.of_mem fun e he => mem_indexed_edges.mpr he,
      fun h => h.of_mem fun e he => mem_indexed_edges.mp he⟩
  rw [create_eq]
  cases hv : (validateGraph system nodes (indexed system nodes edges).edges).hasErrors with
  | true =>
    have hn : ¬ WellFormed system nodes edges := fun h => by
      rw [verdict.mpr h] at hv
      cases hv
    simp [hn]
  | false => simp [verdict.mp hv, eq_comm]

/-- What `create` returns is well formed. -/
theorem create_wellFormed {system : System} {nodes : List Node} {edges : List Edge} {g : Graph}
    (h : Graph.create system nodes edges = .ok g) : WellFormed g.system g.nodes g.edges := by
  obtain ⟨hw, rfl⟩ := create_ok_iff.mp h
  exact hw.of_mem fun e he => mem_indexed_edges.mp he

/-- `validate` succeeds exactly on a well-formed graph. -/
theorem validate_ok_iff (g : Graph) : g.validate = .ok () ↔ WellFormed g.system g.nodes g.edges := by
  rw [← validateGraph_hasErrors]
  unfold Graph.validate
  cases h : (validateGraph g.system g.nodes g.edges).hasErrors <;> simp [h]

theorem validate_error {g : Graph} {diags : Diagnostics} (h : g.validate = .error diags) :
    diags = validateGraph g.system g.nodes g.edges := by
  simp only [Graph.validate] at h
  split at h
  · exact (Except.error.inj h).symm
  · cases h

theorem beq_iff {g other : Graph} :
    g.beq other = true ↔ g.system = other.system ∧ g.nodes = other.nodes ∧ g.edges = other.edges := by
  simp [Graph.beq, and_assoc]

end Stgx
