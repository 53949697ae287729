/-
  Stgx.Declared — what a sequence of builder calls declares, and that the order of the
  calls does not matter.

  - `build_order`: two sequences that set one system, declare the same nodes up to order,
    and the same edges in the same order from every source, are accepted together and
    build graphs with the same answers; with the nodes in one order, equal graphs.
-/

import Stgx.Builder
import Stgx.Verdict

namespace Stgx

open Stgx.Lib.Grouping

/-! ## Declarations -/

/-- The system a call sets. -/
def BuilderCall.system? : BuilderCall → Option System
  | .systemWith configure => some (configure.foldl SystemBuilder.apply {}).system
  | .system value => some value
  | _ => none

/-- The node a call declares. -/
def BuilderCall.nodes : BuilderCall → List Node
  | .nodeWith id configure => [(configure.foldl NodeBuilder.apply { node := { id := id } }).node]
  | .node value => [value]
  | _ => []

/-- The edges a call declares: those of a node's callback, or the one. -/
def BuilderCall.edges : BuilderCall → List Edge
  | .nodeWith id configure => (configure.foldl NodeBuilder.apply { node := { id := id } }).edges
  | .edge source target kind => [⟨source, target, kind⟩]
  | _ => []

/-- The system set last. -/
def declaredSystem (calls : List BuilderCall) : System := ((calls.filterMap BuilderCall.system?).getLast?).getD {}

def declaredNodes (calls : List BuilderCall) : List Node := calls.flatMap BuilderCall.nodes

def declaredEdges (calls : List BuilderCall) : List Edge := calls.flatMap BuilderCall.edges

/-- `GraphBuilder()`, the calls, and `build()`. -/
def builtBy (calls : List BuilderCall) : Result Graph := (calls.foldl GraphBuilder.apply {}).build

theorem foldl_apply (calls : List BuilderCall) (builder : GraphBuilder) :
    calls.foldl GraphBuilder.apply builder =
      ⟨((calls.filterMap BuilderCall.system?).getLast?).getD builder.system, builder.nodes ++ declaredNodes calls,
        builder.edges ++ declaredEdges calls⟩ := by
  induction calls generalizing builder with
  | nil => simp [declaredNodes, declaredEdges]
  | cons call calls ih =>
    rw [List.foldl_cons, ih]
    cases call <;>
      simp [GraphBuilder.apply, declaredNodes, declaredEdges, BuilderCall.system?, BuilderCall.nodes, BuilderCall.edges,
        List.filterMap_cons, List.getLast?_cons]

theorem builtBy_eq (calls : List BuilderCall) :
    builtBy calls = Graph.create (declaredSystem calls) (declaredNodes calls) (declaredEdges calls) := by
  rw [builtBy, foldl_apply, GraphBuilder.build, declaredSystem]
  simp

/-! ## Order -/

/-- Of a list and a permutation of it, the same item is found when at most one is looked for. -/
theorem find?_perm {α : Type} {p : α → Bool} {l l' : List α} (h : l.Perm l') (hp : l.countP p ≤ 1) :
    l.find? p = l'.find? p := by
  rw [← List.head?_filter, ← List.head?_filter]
  rw [List.countP_eq_length_filter] at hp
  have hf := h.filter p
  cases hl : l.filter p with
  | nil =>
    rw [hl] at hf
    rw [hf.symm.eq_nil]
  | cons x rest =>
    have hrest : rest = [] := by
      rw [hl, List.length_cons] at hp
      exact List.eq_nil_of_length_eq_zero (by omega)
    rw [hl, hrest] at hf
    rw [hrest, hf.symm.eq_singleton]

/-- With distinct ids, one node at most has an id. -/
theorem countP_id {nodes : List Node} (h : (ids nodes).Nodup) (id : String) :
    nodes.countP (fun node => decide (node.id = id)) ≤ 1 := by
  have hcount := List.nodup_iff_count_le_one.mp h id
  rw [ids, List.count_eq_countP, List.countP_map] at hcount
  refine Nat.le_trans (Nat.le_of_eq (List.countP_congr fun node _ => ?_)) hcount
  simp

/-- Edges with the same edges from every source are the same edges, up to order. -/
theorem mem_of_leaving {edges edges' : List Edge} (h : ∀ id, leaving edges id = leaving edges' id) (edge : Edge) :
    edge ∈ edges ↔ edge ∈ edges' := by
  have own : ∀ l : List Edge, edge ∈ l ↔ edge ∈ leaving l edge.source := fun l => by simp [leaving, mem_bucket]
  rw [own, h, ← own]

/-- Well-formedness does not see the order of the nodes. -/
theorem WellFormed.of_perm {system : System} {nodes nodes' : List Node} {edges edges' : List Edge}
    (hn : nodes.Perm nodes') (he : ∀ edge ∈ edges', edge ∈ edges) (h : WellFormed system nodes edges) :
    WellFormed system nodes' edges' := by
  have hids : (ids nodes).Perm (ids nodes') := hn.map Node.id
  refine ⟨fun e => ?_, fun id hid => ?_, ?_, ?_, fun ht node hnode => ?_, fun edge hedge => ?_, fun edge hedge => ?_⟩
  · subst e
    exact h.nonempty hn.eq_nil
  · exact h.idsNonempty id (hids.mem_iff.mpr hid)
  · exact hids.nodup_iff.mp h.idsDistinct
  · exact (hn.countP_eq _).symm.trans h.oneInitial
  · exact h.arity ht node (hn.mem_iff.mpr hnode)
  · exact hids.mem_iff.mp (h.sources edge (he edge hedge))
  · exact hids.mem_iff.mp (h.targets edge (he edge hedge))

/-- Two graphs that answer alike. -/
structure SameAnswers (g g' : Graph) : Prop where
  findNode : ∀ id, g.findNode id = g'.findNode id
  hasNode : ∀ id, g.hasNode id = g'.hasNode id
  initialNode : g.initialNode = g'.initialNode
  hasEdge : ∀ source target kind, g.hasEdge source target kind = g'.hasEdge source target kind
  outEdges : ∀ id, g.outEdges id = g'.outEdges id

theorem indexed_sameAnswers {system : System} {nodes nodes' : List Node} {edges edges' : List Edge}
    (hw : WellFormed system nodes edges) (hw' : WellFormed system nodes' edges') (hn : nodes.Perm nodes')
    (he : ∀ id, leaving edges id = leaving edges' id) :
    SameAnswers (indexed system nodes edges) (indexed system nodes' edges') where
  findNode id := by
    rw [findNode_indexed, findNode_indexed]
    exact find?_perm hn (countP_id hw.idsDistinct id)
  hasNode id := by
    have hids : (ids nodes).Perm (ids nodes') := hn.map Node.id
    simp only [hasNode_indexed, hids.mem_iff]
  initialNode := find?_perm hn (Nat.le_of_eq hw.oneInitial)
  hasEdge source target kind := by
    simp only [hasEdge_indexed hw.sound, hasEdge_indexed hw'.sound, mem_of_leaving he]
  outEdges id := by rw [outEdges_indexed hw.sound, outEdges_indexed hw'.sound, he]

/-- The order of the calls does not matter to `GraphBuilder`. -/
theorem build_order {calls calls' : List BuilderCall} (hsystem : declaredSystem calls = declaredSystem calls')
    (hnodes : (declaredNodes calls).Perm (declaredNodes calls'))
    (hedges : ∀ id, leaving (declaredEdges calls) id = leaving (declaredEdges calls') id) :
    ((∃ g, builtBy calls = .ok g) ↔ ∃ g, builtBy calls' = .ok g) ∧
      ∀ g g', builtBy calls = .ok g → builtBy calls' = .ok g' →
        SameAnswers g g' ∧ (declaredNodes calls = declaredNodes calls' → g.beq g' = true) := by
  rw [builtBy_eq, builtBy_eq, hsystem]
  constructor
  · rw [create_accepts_iff, create_accepts_iff]
    exact ⟨fun h => h.of_perm hnodes fun edge => (mem_of_leaving hedges edge).mpr,
      fun h => h.of_perm hnodes.symm fun edge => (mem_of_leaving hedges edge).mp⟩
  · intro g g' hg hg'
    obtain ⟨hw, rfl⟩ := create_ok_iff.mp hg
    obtain ⟨hw', rfl⟩ := create_ok_iff.mp hg'
    refine ⟨indexed_sameAnswers hw hw' hnodes hedges, fun hsame => ?_⟩
    rw [← hsame] at hw' ⊢
    rw [indexed_congr hw.sound hw'.sound fun id _ => hedges id]
    exact beq_iff.mpr ⟨rfl, rfl, rfl⟩

/-- An edge declared before its node, or in the node's callback. -/
theorem build_order_early :
    ∃ g g', builtBy [.edge "a" "b" .transition, .node { id := "b" }, .nodeWith "a" [.initial true]] = .ok g ∧
      builtBy [.nodeWith "a" [.toNode "b", .initial true], .node { id := "b" }] = .ok g' ∧ SameAnswers g g' := by
  let calls : List BuilderCall := [.edge "a" "b" .transition, .node { id := "b" }, .nodeWith "a" [.initial true]]
  let calls' : List BuilderCall := [.nodeWith "a" [.toNode "b", .initial true], .node { id := "b" }]
  obtain ⟨g, hg⟩ : ∃ g, builtBy calls = .ok g := by
    rw [builtBy_eq]
    exact ⟨_, rfl⟩
  obtain ⟨g', hg'⟩ : ∃ g', builtBy calls' = .ok g' := by
    rw [builtBy_eq]
    exact ⟨_, rfl⟩
  have hnodes : (declaredNodes calls).Perm (declaredNodes calls') := List.Perm.swap ..
  have hedges : ∀ id, leaving (declaredEdges calls) id = leaving (declaredEdges calls') id := fun _ => rfl
  have hsystem : declaredSystem calls = declaredSystem calls' := rfl
  exact ⟨g, g', hg, hg', ((build_order hsystem hnodes hedges).2 g g' hg hg').1⟩

end Stgx
