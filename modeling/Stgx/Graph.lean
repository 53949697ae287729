/-
  Stgx.Graph — the indexed graph and its API (`include/stgx/graph.hpp`, `src/graph.cpp`).

  `rebuild` is `rebuild_indexes` with every array access checked; it never goes out of
  bounds (`rebuild_eq`), so `Graph.rebuildIndexes` is total. A mutation answers with
  its result and the graph it leaves. A `Node*` is the node's position.
-/

import Stgx.Lib.CountingSort
import Stgx.Validate

namespace Stgx

open Stgx.Lib.CountingSort (countingSort count start tabulate tabulate_get countingSort_eq)
open Stgx.Lib.Grouping (group)
open Stgx.Lib.Index (Map emplaceFrom lookup_index position_lt)

/-- Half-open slice of the edges belonging to one source node. -/
structure EdgeRange where
  first : Nat := 0
  count : Nat := 0
  deriving DecidableEq, Repr

structure Graph where
  system : System := {}
  nodes : List Node := []
  /-- Grouped by source in node order; within a group, insertion order. -/
  edges : List Edge := []
  nodeIndex : Map String Nat := ∅
  outIndex : Map String EdgeRange := ∅

/-! ## Rebuilding the indexes -/

structure Rebuilt where
  edges : List Edge
  nodeIndex : Map String Nat
  outIndex : Map String EdgeRange

/-- Keep the first occurrence; validation reports duplicate ids. -/
def indexNodes (nodes : List Node) : Map String Nat := emplaceFrom (fun nodeIndex => nodeIndex) 0 (ids nodes) ∅

/-- Edges with an unknown source go into the final bucket. -/
def edgeBucket (nodes : List Node) (edge : Edge) : Nat :=
  ((indexNodes nodes).lookup edge.source).getD nodes.length

/-- The outgoing-edge ranges, nodes from position `nodeIndex` on. -/
def outRangesFrom (bucketOffsets edgeCounts : List Nat) :
    Nat → List Node → Map String EdgeRange → Option (Map String EdgeRange)
  | _, [], outIndex => some outIndex
  | nodeIndex, node :: nodes, outIndex => do
    let first ← bucketOffsets[nodeIndex]?
    let count ← edgeCounts[nodeIndex]?
    outRangesFrom bucketOffsets edgeCounts (nodeIndex + 1) nodes
      (Lib.Index.tryEmplace outIndex node.id ⟨first, count⟩)

def rebuild (nodes : List Node) (edges : List Edge) : Option Rebuilt := do
  let bucketCount := nodes.length + 1
  let grouped ← countingSort bucketCount (edgeBucket nodes) edges
  let outIndex ← outRangesFrom grouped.offsets grouped.counts 0 nodes ∅
  return ⟨grouped.items, indexNodes nodes, outIndex⟩

theorem lookup_indexNodes (nodes : List Node) (id : String) :
    (indexNodes nodes).lookup id = (ids nodes).idxOf? id := by
  rw [indexNodes, lookup_index]
  exact Option.map_id'

theorem edgeBucket_lt (nodes : List Node) (edge : Edge) : edgeBucket nodes edge < nodes.length + 1 := by
  unfold edgeBucket
  rw [lookup_indexNodes]
  cases h : (ids nodes).idxOf? edge.source with
  | none => simp
  | some i =>
    have := position_lt h
    simp only [ids, List.length_map] at this
    simp only [Option.getD_some]
    omega

/-- The slice of each node's bucket. -/
def rangeOf (nodes : List Node) (edges : List Edge) (nodeIndex : Nat) : EdgeRange :=
  ⟨start (count (edgeBucket nodes) edges) nodeIndex, count (edgeBucket nodes) edges nodeIndex⟩

theorem outRangesFrom_eq (s c : Nat → Nat) (n : Nat) :
    ∀ (nodes : List Node) (i : Nat) (m : Map String EdgeRange), i + nodes.length ≤ n →
      outRangesFrom (tabulate (n + 2) s) (tabulate (n + 1) c) i nodes m =
        some (emplaceFrom (fun j => ⟨s j, c j⟩) i (ids nodes) m) := by
  intro nodes
  induction nodes with
  | nil => intro i m _; rfl
  | cons node nodes ih =>
    intro i m h
    rw [List.length_cons] at h
    simp only [outRangesFrom, tabulate_get s (show i < n + 2 by omega), tabulate_get c (show i < n + 1 by omega),
      Option.bind_eq_bind, Option.bind_some, ih (i + 1) _ (by omega)]
    rfl

/-- No access of `rebuild_indexes` is out of bounds: it groups the edges by the position of
    their source, the unknown sources last, and indexes every id by its first position. -/
theorem rebuild_eq (nodes : List Node) (edges : List Edge) :
    rebuild nodes edges =
      some ⟨group (List.range (nodes.length + 1)) (edgeBucket nodes) edges, indexNodes nodes,
        emplaceFrom (rangeOf nodes edges) 0 (ids nodes) ∅⟩ := by
  unfold rebuild
  simp only [countingSort_eq fun e _ => edgeBucket_lt nodes e, Option.bind_eq_bind, Option.bind_some,
    outRangesFrom_eq _ _ nodes.length nodes 0 ∅ (by omega)]
  rfl

namespace Graph

def rebuildIndexes (g : Graph) : Graph :=
  let r := (rebuild g.nodes g.edges).get (by rw [rebuild_eq]; rfl)
  { g with edges := r.edges, nodeIndex := r.nodeIndex, outIndex := r.outIndex }

def create (system : System) (nodes : List Node) (edges : List Edge) : Result Graph :=
  let graph := rebuildIndexes { system := system, nodes := nodes, edges := edges }
  let diags := validateGraph graph.system graph.nodes graph.edges
  if diags.hasErrors then .error diags else .ok graph

/-! ## Reading -/

def nodeCount (g : Graph) : Nat := g.nodes.length

def edgeCount (g : Graph) : Nat := g.edges.length

def findNode (g : Graph) (id : String) : Option Node :=
  match g.nodeIndex.lookup id with
  | none => none
  | some i => g.nodes[i]?

def findNodeMut (g : Graph) (id : String) : Option Nat := g.nodeIndex.lookup id

def hasNode (g : Graph) (id : String) : Bool := decide (id ∈ g.nodeIndex)

def initialNode (g : Graph) : Option Node := g.nodes.find? (·.initial)

def outEdges (g : Graph) (id : String) : List Edge :=
  match g.outIndex.lookup id with
  | none => []
  | some range => (g.edges.drop range.first).take range.count

def hasEdge (g : Graph) (source target : String) (kind : EdgeKind) : Bool :=
  (g.outEdges source).any fun edge => edge.kind == kind && edge.target == target

def validate (g : Graph) : Result Unit :=
  let diags := validateGraph g.system g.nodes g.edges
  if diags.hasErrors then .error diags else .ok ()

/-- `operator==`: the indexes do not count. -/
def beq (g other : Graph) : Bool := g.system == other.system && g.nodes == other.nodes && g.edges == other.edges

/-! ## Mutating -/

def setSystem (g : Graph) (system : System) : Graph := { g with system := system }

/-- `mutation` gets the position of the node, and all the nodes. -/
def mutateNode (g : Graph) (id : String) (mutation : Nat → List Node → List Node) : Result Unit × Graph :=
  match g.findNodeMut id with
  | none => (.error [Diag.nodeNotFound id], g)
  | some node => (.ok (), { g with nodes := mutation node g.nodes })

def addNode (g : Graph) (node : Node) : Result Unit × Graph :=
  if node.id.isEmpty then (.error [Diag.nodeIdEmpty], g)
  else if g.hasNode node.id then (.error [Diag.nodeIdDuplicate node.id], g)
  else (.ok (), rebuildIndexes { g with nodes := g.nodes ++ [node] })

def removeNode (g : Graph) (id : String) : Bool × Graph :=
  match g.nodeIndex.lookup id with
  | none => (false, g)
  | some i =>
    let touchesId := fun edge : Edge => edge.source == id || edge.target == id
    (true, rebuildIndexes { g with nodes := g.nodes.eraseIdx i, edges := g.edges.filter (!touchesId ·) })

def renameNode (g : Graph) (fromId toId : String) : Result Unit × Graph :=
  if toId.isEmpty then (.error [Diag.nodeIdEmpty], g)
  else
    match g.findNodeMut fromId with
    | none => (.error [Diag.nodeNotFound fromId], g)
    | some node =>
      if fromId == toId then (.ok (), g)
      else if g.hasNode toId then (.error [Diag.nodeIdDuplicate toId], g)
      else
        let oldId := ((g.nodes[node]?).map Node.id).getD ""
        let repoint := fun edge : Edge =>
          let edge := if edge.source == oldId then { edge with source := toId } else edge
          if edge.target == oldId then { edge with target := toId } else edge
        (.ok (), rebuildIndexes { g with nodes := g.nodes.modify node ({ · with id := toId }),
                                         edges := g.edges.map repoint })

def addEdge (g : Graph) (source target : String) (kind : EdgeKind) : Result Unit × Graph :=
  if !g.hasNode source then (.error [Diag.nodeNotFound source], g)
  else if !g.hasNode target then (.error [Diag.nodeNotFound target], g)
  else if g.hasEdge source target kind then (.ok (), g)
  else (.ok (), rebuildIndexes { g with edges := g.edges ++ [⟨source, target, kind⟩] })

def removeEdge (g : Graph) (source target : String) (kind : EdgeKind) : Bool × Graph :=
  match g.edges.findIdx? fun edge => edge.kind == kind && edge.source == source && edge.target == target with
  | none => (false, g)
  | some i => (true, rebuildIndexes { g with edges := g.edges.eraseIdx i })

/-- Flag `id` as the initial node, clearing the flag on whichever node had it. -/
def setInitial (g : Graph) (id : String) : Result Unit × Graph :=
  g.mutateNode id fun node nodes =>
    (nodes.map ({ · with initial := false })).modify node ({ · with initial := true })

def setNodeTasks (g : Graph) (id : String) (tasks : List TaskState) : Result Unit × Graph :=
  g.mutateNode id fun node nodes => nodes.modify node ({ · with tasks := tasks })

def setNodeLabel (g : Graph) (id : String) (label : Option String) : Result Unit × Graph :=
  g.mutateNode id fun node nodes => nodes.modify node ({ · with label := label })

def setNodeBorderColor (g : Graph) (id : String) (color : Option String) : Result Unit × Graph :=
  g.mutateNode id fun node nodes => nodes.modify node ({ · with borderColor := color })

def setNodeFillColor (g : Graph) (id : String) (color : Option String) : Result Unit × Graph :=
  g.mutateNode id fun node nodes => nodes.modify node ({ · with fillColor := color })

end Graph

/-! ## Runs -/

/-- The mutating calls, with their arguments. -/
inductive Mutation where
  | setSystem (system : System)
  | addNode (node : Node)
  | removeNode (id : String)
  | renameNode (fromId toId : String)
  | addEdge (source target : String) (kind : EdgeKind)
  | removeEdge (source target : String) (kind : EdgeKind)
  | setInitial (id : String)
  | setNodeTasks (id : String) (tasks : List TaskState)
  | setNodeLabel (id : String) (label : Option String)
  | setNodeBorderColor (id : String) (color : Option String)
  | setNodeFillColor (id : String) (color : Option String)
  deriving DecidableEq, Repr

/-- What a mutating call returns: `void`, `Result<void>` or `bool`. -/
inductive Outcome where
  | void
  | result (r : Result Unit)
  | flag (b : Bool)

/-- The call succeeded: it did not fail and did not return false. -/
def Outcome.succeeded : Outcome → Bool
  | .void => true
  | .result r => r.isOk
  | .flag b => b

namespace Graph

def apply (g : Graph) : Mutation → Outcome × Graph
  | .setSystem system => (.void, g.setSystem system)
  | .addNode node => let r := g.addNode node; (.result r.1, r.2)
  | .removeNode id => let r := g.removeNode id; (.flag r.1, r.2)
  | .renameNode fromId toId => let r := g.renameNode fromId toId; (.result r.1, r.2)
  | .addEdge source target kind => let r := g.addEdge source target kind; (.result r.1, r.2)
  | .removeEdge source target kind => let r := g.removeEdge source target kind; (.flag r.1, r.2)
  | .setInitial id => let r := g.setInitial id; (.result r.1, r.2)
  | .setNodeTasks id tasks => let r := g.setNodeTasks id tasks; (.result r.1, r.2)
  | .setNodeLabel id label => let r := g.setNodeLabel id label; (.result r.1, r.2)
  | .setNodeBorderColor id color => let r := g.setNodeBorderColor id color; (.result r.1, r.2)
  | .setNodeFillColor id color => let r := g.setNodeFillColor id color; (.result r.1, r.2)

/-- A sequence of mutations: what each call returned, and the graph at the end. -/
def run (g : Graph) : List Mutation → List Outcome × Graph
  | [] => ([], g)
  | m :: ms =>
    let r := g.apply m
    let rest := r.2.run ms
    (r.1 :: rest.1, rest.2)

end Graph

end Stgx
