/-
  Stgx.Aliasing — `remove_node` called with a view of the graph's own ids.

  `remove_node` reads its argument twice: it looks the node up, erases it, and then drops
  the edges that touch the argument. A view of `nodes()[i].id` is read from slot `i`,
  where the erase has moved the next node (`StringView.read`; all ids being of one length
  and short enough to be stored in place, the view reads the whole id that is there).
  - `removeNodeView_iff`: the call removes the node it was asked to remove and its edges
    exactly when the argument is the caller's own string or no edge touches one of the
    two nodes and not the other.
  - `removeNodeView_shifted`: otherwise it drops the edges of the next node and leaves
    dangling ones.
-/

import Stgx.Rebuild
import Stgx.Runs

namespace Stgx

open Stgx.Lib.Grouping
open Stgx.Lib.Index (eraseIdx_position)

/-- The id in a slot of the nodes. -/
def slotId (nodes : List Node) (i : Nat) : String := ((nodes[i]?).map Node.id).getD ""

/-- A `std::string_view`: of the caller's own string, or of `nodes()[i].id`. -/
inductive StringView where
  | external (text : String)
  | slot (i : Nat)
  deriving DecidableEq, Repr

/-- What a view reads while these are the nodes. -/
def StringView.read (nodes : List Node) : StringView → String
  | .external text => text
  | .slot i => slotId nodes i

/-- `remove_node`, its argument read again at every use. -/
def Graph.removeNodeView (g : Graph) (id : StringView) : Bool × Graph :=
  match g.nodeIndex.lookup (id.read g.nodes) with
  | none => (false, g)
  | some i =>
    let nodes := g.nodes.eraseIdx i
    let touchesId := fun edge : Edge => edge.source == id.read nodes || edge.target == id.read nodes
    (true, rebuildIndexes { g with nodes := nodes, edges := g.edges.filter (!touchesId ·) })

theorem removeNodeView_external (g : Graph) (id : String) : g.removeNodeView (.external id) = g.removeNode id := rfl

/-- The call removed the node called `id` with the edges touching it, and nothing else. -/
structure RemovesNamed (id : String) (g : Graph) (r : Bool × Graph) : Prop where
  found : r.1 = g.hasNode id
  nodes : r.2.nodes = g.nodes.filter fun node => node.id ≠ id
  edges : r.2.edges.Perm (g.edges.filter (!touches id ·))
  endpoints : ∀ edge ∈ r.2.edges, edge.source ∈ ids r.2.nodes ∧ edge.target ∈ ids r.2.nodes

/-- A view of a slot is of one with a node after it. -/
def StringView.NotLast (nodes : List Node) : StringView → Prop
  | .external _ => True
  | .slot i => i + 1 < nodes.length

/-- The argument is the caller's own, or the next node has the very edges of the one named. -/
def StringView.KeepsEdges (g : Graph) : StringView → Prop
  | .external _ => True
  | .slot i => ∀ edge ∈ g.edges, touches (slotId g.nodes i) edge = touches (slotId g.nodes (i + 1)) edge

instance (nodes : List Node) : (id : StringView) → Decidable (id.NotLast nodes)
  | .external _ => .isTrue trivial
  | .slot i => inferInstanceAs (Decidable (i + 1 < nodes.length))

instance (g : Graph) : (id : StringView) → Decidable (id.KeepsEdges g)
  | .external _ => .isTrue trivial
  | .slot i =>
    inferInstanceAs (Decidable
      (∀ edge ∈ g.edges, touches (slotId g.nodes i) edge = touches (slotId g.nodes (i + 1)) edge))

/-! ## Dropping the edges of another node -/

theorem filter_perm_iff {α : Type} {p q : α → Bool} {l : List α} :
    (l.filter p).Perm (l.filter q) ↔ ∀ x ∈ l, p x = q x := by
  constructor
  · intro h x hx
    have hmem := h.mem_iff (a := x)
    simp only [List.mem_filter, hx, true_and] at hmem
    exact Bool.eq_iff_iff.mpr hmem
  · intro h
    rw [List.filter_congr h]

theorem touches_not_mem {nodes : List Node} {edges : List Edge} (h : Sound nodes edges) {id : String}
    (hid : id ∉ ids nodes) : ∀ edge ∈ edges, touches id edge = false := by
  intro edge he
  rw [touches, Bool.or_eq_false_iff, beq_eq_false_iff_ne, beq_eq_false_iff_ne]
  refine ⟨fun e => ?_, fun e => ?_⟩
  · exact hid (e ▸ h.sources edge he)
  · exact hid (e ▸ h.targets edge he)

section Sound

variable {g : Graph} {x y : String}

/-- Nothing is asked for, nothing is removed. -/
theorem removesNamed_unknown (h : Sound g.nodes g.edges) (hnode : g.hasNode x = decide (x ∈ ids g.nodes))
    (hx : x ∉ ids g.nodes) : RemovesNamed x g (false, g) := by
  constructor
  · simp [hnode, hx]
  · refine (List.filter_eq_self.mpr fun node hmem => ?_).symm
    rw [decide_eq_true_eq]
    intro e
    subst e
    exact hx (List.mem_map_of_mem hmem)
  · refine List.Perm.of_eq (List.filter_eq_self.mpr fun edge he => ?_).symm
    rw [touches_not_mem h hx edge he, Bool.not_false]
  · exact fun edge he => ⟨h.sources edge he, h.targets edge he⟩

/-- Erase the node called `x` and drop the edges touching `y`. -/
theorem removesNamed_iff (h : Sound g.nodes g.edges) (hnode : g.hasNode x = decide (x ∈ ids g.nodes)) {i : Nat}
    (hi : (ids g.nodes).idxOf? x = some i) :
    RemovesNamed x g (true, indexed g.system (g.nodes.eraseIdx i) (g.edges.filter (!touches y ·))) ↔
      ∀ edge ∈ g.edges, touches x edge = touches y edge := by
  have hperm := rebuilt_edges_perm g.system (g.nodes.eraseIdx i) (g.edges.filter (!touches y ·))
  have hnodes : g.nodes.eraseIdx i = g.nodes.filter fun node => node.id ≠ x :=
    eraseIdx_position Node.id h.idsDistinct hi
  constructor
  · intro hr edge he
    have := filter_perm_iff.mp (hperm.symm.trans hr.edges) edge he
    exact (Bool.not_inj this).symm
  · intro hsame
    have hedges := filter_perm_iff.mpr fun edge he => congrArg (!·) (hsame edge he).symm
    constructor
    · simp [hnode, List.mem_of_getElem? (Lib.Index.position_get hi)]
    · exact hnodes
    · exact hperm.trans hedges
    · intro edge he
      have hs := sound_removeNode h x
      rw [← hnodes] at hs
      have hmem := (hperm.trans hedges).mem_iff.mp he
      exact ⟨hs.sources edge hmem, hs.targets edge hmem⟩

end Sound

/-! ## The call -/

/-- The next node takes the slot of an erased one. -/
theorem slotId_eraseIdx (nodes : List Node) (i : Nat) : slotId (nodes.eraseIdx i) i = slotId nodes (i + 1) := by
  rw [slotId, slotId, List.getElem?_eraseIdx_of_ge (Nat.le_refl i)]

theorem position_slotId {nodes : List Node} (hd : (ids nodes).Nodup) {i : Nat} (hi : i < nodes.length) :
    (ids nodes).idxOf? (slotId nodes i) = some i := by
  refine Lib.Index.position_of_get hd ?_
  rw [ids, List.getElem?_map, slotId, List.getElem?_eq_getElem hi, Option.map_some, Option.getD_some]

/-- `remove_node` removes what its argument named exactly when the argument is the caller's
    own string or the next node is touched by the same edges. -/
theorem removeNodeView_iff {g : Graph} (h : Reachable g) {id : StringView} (hview : id.NotLast g.nodes) :
    RemovesNamed (id.read g.nodes) g (g.removeNodeView id) ↔ id.KeepsEdges g := by
  unfold Graph.removeNodeView
  cases id with
  | external text =>
    simp only [StringView.read, StringView.KeepsEdges, iff_true, h.nodeIndex]
    cases hi : (ids g.nodes).idxOf? text with
    | none => exact removesNamed_unknown h.sound (h.hasNode text) (List.idxOf?_eq_none_iff.mp hi)
    | some i => exact (removesNamed_iff h.sound (h.hasNode text) hi).mpr fun _ _ => rfl
  | slot i =>
    have hlt : i + 1 < g.nodes.length := hview
    have hi := position_slotId h.sound.idsDistinct (show i < g.nodes.length by omega)
    simp only [StringView.read, StringView.KeepsEdges, h.nodeIndex, hi, slotId_eraseIdx]
    exact removesNamed_iff h.sound (h.hasNode _) hi

/-- Both nodes are touched by the one edge between them. -/
theorem removeNodeView_between :
    ∃ g, Graph.create {} [{ id := "a", initial := true }, { id := "b" }] [⟨"a", "b", .transition⟩] = .ok g ∧
      RemovesNamed "a" g (g.removeNodeView (.slot 0)) := by
  obtain ⟨g, hg⟩ : ∃ g, Graph.create {} [{ id := "a", initial := true }, { id := "b" }] [⟨"a", "b", .transition⟩] =
      .ok g := ⟨_, rfl⟩
  refine ⟨g, hg, ?_⟩
  have hview : (StringView.slot 0).NotLast g.nodes := by
    cases hg
    decide
  have hkeeps : (StringView.slot 0).KeepsEdges g := by
    cases hg
    decide
  have hremoves := (removeNodeView_iff (.create hg) hview).mpr hkeeps
  cases hg
  exact hremoves

/-- Asked for the first node through a view of its id, the call drops the edge from the second
    and keeps the one to the first. -/
theorem removeNodeView_shifted :
    ∃ g, Graph.create {} [{ id := "a", initial := true }, { id := "b" }, { id := "c" }]
        [⟨"b", "c", .transition⟩, ⟨"c", "a", .loopback⟩] = .ok g ∧
      (g.removeNodeView (.slot 0)).2.edges = [⟨"c", "a", .loopback⟩] ∧
      ¬ RemovesNamed "a" g (g.removeNodeView (.slot 0)) := by
  refine ⟨_, rfl, rfl, ?_⟩
  intro hr
  have hdangling := (hr.endpoints ⟨"c", "a", .loopback⟩ (by decide)).2
  exact absurd hdangling (by decide)

end Stgx
