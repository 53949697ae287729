/-
  Stgx.Renaming — `rename_node` relabels a graph, and renaming back undoes it.

  A rename that succeeds takes a name no node or edge bears, so relabelling confuses
  nothing (`relabel_inj`), groups nothing anew (`group_relabel`) and is undone by the
  opposite relabelling (`relabelled_relabelled`).
  - `renameNode_invertible`: on every reachable graph the nodes, edges and what leaves
    each node are relabelled and nothing else changes; renaming back gives the graph
    there was, indexes included.
-/

import Stgx.Runs

namespace Stgx

open Stgx.Lib.Grouping

/-- `g'` is `g` with `a` renamed to `b`, and nothing else changed. -/
structure Renamed (a b : String) (g g' : Graph) : Prop where
  system : g'.system = g.system
  nodes : g'.nodes = g.nodes.map (relabelNode a b)
  edges : g'.edges = g.edges.map (relabelEdge a b)
  outEdges : ∀ id ∈ ids g.nodes, g'.outEdges (relabel a b id) = (g.outEdges id).map (relabelEdge a b)
  gone : g'.findNode a = none
  noEdges : g'.outEdges a = []
  validate : g'.validate = .ok () ↔ g.validate = .ok ()

/-! ## Relabelling -/

theorem relabel_self (a b : String) : relabel a b a = b := if_pos rfl

/-- Relabelling leaves the old name to nothing. -/
theorem relabel_ne {a b : String} (hne : a ≠ b) (id : String) : relabel a b id ≠ a := by
  unfold relabel
  split
  · exact hne.symm
  · assumption

/-- Relabelling back. -/
theorem relabel_relabel {a b id : String} (hb : id ≠ b) : relabel b a (relabel a b id) = id := by
  unfold relabel
  by_cases h : id = a
  · rw [if_pos h, if_pos rfl, h]
  · rw [if_neg h, if_neg hb]

theorem not_mem_relabelled {a b : String} (hne : a ≠ b) (nodes : List Node) :
    a ∉ ids (nodes.map (relabelNode a b)) := by
  rw [ids_relabel]
  intro h
  obtain ⟨id, -, hid⟩ := List.mem_map.mp h
  exact relabel_ne hne id hid

theorem mem_relabelled {a : String} {nodes : List Node} (h : a ∈ ids nodes) (b : String) :
    b ∈ ids (nodes.map (relabelNode a b)) := by
  rw [ids_relabel]
  exact List.mem_map.mpr ⟨a, h, relabel_self a b⟩

/-- A fresh name regroups nothing. -/
theorem group_relabel {a b : String} {nodes : List Node} {edges : List Edge} (h : Sound nodes edges)
    (hb : b ∉ ids nodes) :
    group (ids (nodes.map (relabelNode a b))) Edge.source (edges.map (relabelEdge a b)) =
      (group (ids nodes) Edge.source edges).map (relabelEdge a b) := by
  rw [ids_relabel]
  exact group_map fun id hid edge he => relabel_inj hb (h.sources edge he) hid

theorem wellFormed_relabel {system : System} {nodes : List Node} {edges edges' : List Edge} {a b : String}
    (h : Sound nodes edges) (h' : Sound (nodes.map (relabelNode a b)) edges') :
    WellFormed system (nodes.map (relabelNode a b)) edges' ↔ WellFormed system nodes edges := by
  have hcount : (nodes.map (relabelNode a b)).countP (·.initial) = nodes.countP (·.initial) := by
    rw [List.countP_map]
    rfl
  constructor
  · intro hw
    refine ⟨fun hnil => hw.nonempty (by rw [hnil]; rfl), h.idsNonempty, h.idsDistinct, hcount ▸ hw.oneInitial,
      fun ht node hnode => ?_, h.sources, h.targets⟩
    exact hw.arity ht (relabelNode a b node) (List.mem_map_of_mem hnode)
  · intro hw
    refine ⟨fun hnil => hw.nonempty (List.map_eq_nil_iff.mp hnil), h'.idsNonempty, h'.idsDistinct,
      hcount.trans hw.oneInitial, fun ht node hnode => ?_, h'.sources, h'.targets⟩
    obtain ⟨old, hold, rfl⟩ := List.mem_map.mp hnode
    exact hw.arity ht old hold

/-! ## The call -/

namespace Plain

variable {m : Plain} {a b : String}

def relabelled (m : Plain) (a b : String) : Plain :=
  { m with nodes := m.nodes.map (relabelNode a b), edges := m.edges.map (relabelEdge a b) }

/-- A rename to another name that succeeds is from a name there is to one that is free. -/
theorem renameNode_succeeds (h : m.Sound) (hne : a ≠ b) (hok : (m.indexed.renameNode a b).1 = .ok ()) :
    b ≠ "" ∧ a ∈ ids m.nodes ∧ b ∉ ids m.nodes := by
  have hcall : Outcome.result (m.indexed.renameNode a b).1 = (m.apply (.renameNode a b)).1 :=
    congrArg Prod.fst (renameNode_indexed h a b)
  rw [hok] at hcall
  simp only [apply] at hcall
  split at hcall
  · cases hcall
  · rename_i hb
    split at hcall
    · cases hcall
    · rename_i ha
      split at hcall
      · cases hcall
      · rename_i hfree
        exact ⟨hb, by simpa [hasNode] using ha, by simpa [hasNode] using hfree⟩

/-- Such a rename relabels. -/
theorem renameNode_eq (h : m.Sound) (hne : a ≠ b) (hb : b ≠ "") (ha : a ∈ ids m.nodes) (hfree : b ∉ ids m.nodes) :
    m.indexed.renameNode a b = (.ok (), (m.relabelled a b).indexed) := by
  have hcall := renameNode_indexed h a b
  simp only [Graph.apply, apply, hb, hasNode, ha, hne, hfree, decide_true, decide_false, Bool.not_true,
    Bool.false_eq_true, if_false, Prod.mk.injEq, Outcome.result.injEq] at hcall
  exact Prod.ext hcall.1 hcall.2

theorem relabelled_relabelled (h : m.Sound) (hfree : b ∉ ids m.nodes) : (m.relabelled a b).relabelled b a = m := by
  have hback : ∀ id ∈ ids m.nodes, relabel b a (relabel a b id) = id := by
    intro id hid
    refine relabel_relabel fun e => ?_
    subst e
    exact hfree hid
  have hnodes : (m.nodes.map (relabelNode a b)).map (relabelNode b a) = m.nodes := by
    rw [List.map_map]
    refine (List.map_congr_left fun node hnode => ?_).trans (List.map_id m.nodes)
    have hid := hback node.id (List.mem_map_of_mem hnode)
    simp only [Function.comp_apply, relabelNode, hid, id_eq]
  have hedges : (m.edges.map (relabelEdge a b)).map (relabelEdge b a) = m.edges := by
    rw [List.map_map]
    refine (List.map_congr_left fun edge he => ?_).trans (List.map_id m.edges)
    have hsource := hback _ (h.sources edge he)
    have htarget := hback _ (h.targets edge he)
    simp only [Function.comp_apply, relabelEdge, hsource, htarget, id_eq]
  unfold relabelled
  rw [hnodes, hedges]

theorem relabelled_renamed (h : m.Sound) (hne : a ≠ b) (hb : b ≠ "") (hfree : b ∉ ids m.nodes) :
    Renamed a b m.indexed (m.relabelled a b).indexed := by
  have h' : (m.relabelled a b).Sound := sound_relabel h hb hfree
  have hgone : a ∉ ids (m.relabelled a b).nodes := not_mem_relabelled hne m.nodes
  constructor
  · rfl
  · rfl
  · show (indexed (m.relabelled a b)).edges = m.indexed.edges.map (relabelEdge a b)
    rw [indexed, indexed, indexed_edges h', indexed_edges h]
    exact group_relabel h hfree
  · intro id hid
    rw [indexed, indexed, outEdges_indexed h', outEdges_indexed h]
    exact leaving_relabel hfree h.sources hid
  · rw [indexed, findNode_indexed, List.find?_eq_none]
    intro node hnode
    rw [decide_eq_true_eq]
    intro e
    subst e
    exact hgone (List.mem_map_of_mem hnode)
  · rw [indexed, outEdges_indexed h']
    exact h'.leaving_eq_nil hgone
  · rw [validate_ok_iff, validate_ok_iff]
    exact wellFormed_relabel h.indexed_edges h'.indexed_edges

end Plain

/-- `rename_node` relabels the graph, and renaming back gives the graph there was. -/
theorem renameNode_invertible {g : Graph} (h : Reachable g) {a b : String} (hne : a ≠ b)
    (hok : (g.renameNode a b).1 = .ok ()) :
    Renamed a b g (g.renameNode a b).2 ∧ (g.renameNode a b).2.renameNode b a = (.ok (), g) := by
  obtain ⟨m, hm, rfl⟩ := h.indexed
  obtain ⟨hb, ha, hfree⟩ := Plain.renameNode_succeeds hm hne hok
  rw [Plain.renameNode_eq hm hne hb ha hfree]
  refine ⟨Plain.relabelled_renamed hm hne hb hfree, ?_⟩
  have hback := Plain.renameNode_eq (m := m.relabelled a b) (sound_relabel hm hb hfree) hne.symm (hm.idsNonempty a ha)
    (mem_relabelled ha b) (not_mem_relabelled hne m.nodes)
  rw [hback, Plain.relabelled_relabelled hm hfree]

theorem renameNode_invertible_loop :
    ∃ g, Graph.create {} [{ id := "a", initial := true }, { id := "b" }]
        [⟨"b", "a", .transition⟩, ⟨"a", "a", .loopback⟩] = .ok g ∧
      Renamed "a" "c" g (g.renameNode "a" "c").2 ∧ (g.renameNode "a" "c").2.renameNode "c" "a" = (.ok (), g) := by
  obtain ⟨g, hg⟩ : ∃ g, Graph.create {} [{ id := "a", initial := true }, { id := "b" }]
      [⟨"b", "a", .transition⟩, ⟨"a", "a", .loopback⟩] = .ok g := ⟨_, rfl⟩
  have hok : (g.renameNode "a" "c").1 = .ok () := by
    cases hg
    rfl
  exact ⟨g, hg, renameNode_invertible (.create hg) (by decide) hok⟩

end Stgx
