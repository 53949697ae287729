/-
  Stgx.Validate — every graph-level check over a raw model triple (`src/validate.cpp`).
-/

import Stgx.Diagnostics
import Stgx.Lib.Index
import Stgx.Lib.Loop
import Stgx.Model

namespace Stgx

open Stgx.Lib.Index (Map)
open Stgx.Lib.Loop (loop)

def nodePath (index : Nat) : String := "nodes[" ++ toString index ++ "]"

def edgeField : EdgeKind → String
  | .transition => "children"
  | .loopback => "loopback"

/-! ## Nodes -/

/-- The state of `checkNodes`' loop. -/
structure NodeScan where
  firstIndex : Map String Nat
  initialCount : Nat
  diags : Diagnostics

def checkId (s : NodeScan) (i : Nat) (node : Node) : NodeScan :=
  if node.id.isEmpty then
    { s with diags := s.diags.add .nodeIdEmpty (nodePath i ++ ".id") "node id must not be empty" }
  else
    match s.firstIndex.lookup node.id with
    | some first =>
      { s with diags := s.diags.add .nodeIdDuplicate (nodePath i ++ ".id")
                 ("duplicate node id \"" ++ node.id ++ "\", first seen at " ++ nodePath first) }
    | none => { s with firstIndex := s.firstIndex.insert node.id i }

def checkNode (s : NodeScan) (i : Nat) (node : Node) : NodeScan :=
  let s := checkId s i node
  if node.initial then { s with initialCount := s.initialCount + 1 } else s

def checkNodes (nodes : List Node) (diags : Diagnostics) (firstIndex : Map String Nat) :
    Diagnostics × Map String Nat :=
  let s := loop checkNode 0 nodes ⟨firstIndex, 0, diags⟩
  if s.initialCount ≠ 1 then
    (s.diags.add .initialCount "nodes"
      ("exactly one node must be initial, found " ++ toString s.initialCount), s.firstIndex)
  else (s.diags, s.firstIndex)

/-! ## Task arity -/

def checkArity (expected : Nat) (diags : Diagnostics) (i : Nat) (node : Node) : Diagnostics :=
  if node.tasks.length = expected then diags
  else
    diags.add .taskArityMismatch (nodePath i ++ ".tasks")
      ("node \"" ++ node.id ++ "\" has " ++ toString node.tasks.length ++ " task(s), expected "
        ++ toString expected ++ " from system.tasks")

def checkTaskArity (system : System) (nodes : List Node) (diags : Diagnostics) : Diagnostics :=
  if system.tasks.isEmpty then diags else loop (checkArity system.tasks.length) 0 nodes diags

/-! ## Edges -/

/-- Per-source running counters: the position of the next edge in the source's
    `children` and in its `loopback` list. -/
structure EdgeOrdinals where
  transitions : Nat := 0
  releases : Nat := 0
  deriving DecidableEq, Repr

def EdgeOrdinals.next (ordinals : EdgeOrdinals) : EdgeKind → Nat × EdgeOrdinals
  | .transition => (ordinals.transitions, { ordinals with transitions := ordinals.transitions + 1 })
  | .loopback => (ordinals.releases, { ordinals with releases := ordinals.releases + 1 })

/-- The state of `checkEdges`' loop. -/
structure EdgeScan where
  ordinals : Map String EdgeOrdinals
  unknownSources : List String
  diags : Diagnostics

def checkEdge (firstIndex : Map String Nat) (s : EdgeScan) (e : Nat) (edge : Edge) : EdgeScan :=
  match firstIndex.lookup edge.source with
  | none =>
    -- an unknown source is reported once, not once per outgoing edge
    if s.unknownSources.contains edge.source then s
    else
      { s with
        unknownSources := edge.source :: s.unknownSources
        diags := s.diags.add .danglingEdge ("edges[" ++ toString e ++ "].source")
          ("edge leaves unknown node \"" ++ edge.source ++ "\"") }
  | some first =>
    let (ordinal, ordinals) := ((s.ordinals.lookup edge.source).getD {}).next edge.kind
    let s := { s with ordinals := s.ordinals.insert edge.source ordinals }
    if edge.target ∈ firstIndex then s
    else
      { s with
        diags := s.diags.add .danglingEdge
          (nodePath first ++ "." ++ edgeField edge.kind ++ "[" ++ toString ordinal ++ "]")
          ("unknown node \"" ++ edge.target ++ "\" referenced from \"" ++ edge.source ++ "\"") }

def checkEdges (edges : List Edge) (diags : Diagnostics) (firstIndex : Map String Nat) : Diagnostics :=
  (loop (checkEdge firstIndex) 0 edges ⟨∅, [], diags⟩).diags

def validateGraph (system : System) (nodes : List Node) (edges : List Edge) : Diagnostics :=
  if nodes.isEmpty then Diagnostics.add [] .nodesMissing "nodes" "a graph needs at least one node"
  else
    let (diags, firstIndex) := checkNodes nodes [] ∅
    let diags := checkTaskArity system nodes diags
    checkEdges edges diags firstIndex

end Stgx
