/-
  Stgx.Stepwise — building a graph call by call: `set_system`, then `add_node` for every
  node, then `add_edge` for every edge.

  `add_edge` changes nothing when the edge is there, `create` keeps every edge it is
  given. So the calls build what `create` makes of the edges with the repeats dropped
  (`stepwise_create`), which is the graph of the same parts exactly when no edge is
  listed twice.
-/

import Stgx.Runs

namespace Stgx

open Stgx.Lib.Grouping

/-- The calls that build a graph from its parts. -/
def stepwise (system : System) (nodes : List Node) (edges : List Edge) : List Mutation :=
  .setSystem system :: (nodes.map .addNode ++ edges.map fun edge => .addEdge edge.source edge.target edge.kind)

/-! ## Dropping repeats -/

section Repeats

variable {α : Type} [DecidableEq α]

theorem eraseDups_concat (l : List α) (x : α) :
    (l ++ [x]).eraseDups = if x ∈ l then l.eraseDups else l.eraseDups ++ [x] := by
  rw [List.eraseDups_append]
  by_cases h : x ∈ l <;> simp [List.removeAll, List.eraseDups_cons, h]

theorem nodup_eraseDups (l : List α) : l.eraseDups.Nodup := by
  induction l using List.reverseRecOn with
  | nil => exact List.nodup_nil
  | append_singleton l x ih =>
    rw [eraseDups_concat]
    split
    · exact ih
    · rename_i hx
      refine List.nodup_append.mpr ⟨ih, by simp, fun y hy z hz => ?_⟩
      rw [List.mem_singleton] at hz
      intro he
      subst he
      exact hx (hz ▸ List.mem_eraseDups.mp hy)

theorem eraseDups_of_nodup {l : List α} (h : l.Nodup) : l.eraseDups = l := by
  induction l using List.reverseRecOn with
  | nil => rfl
  | append_singleton l x ih =>
    obtain ⟨hl, -, hx⟩ := List.nodup_append.mp h
    have hnew : x ∉ l := fun hmem => hx x hmem x (List.mem_singleton_self x) rfl
    rw [eraseDups_concat, if_neg hnew, ih hl]

/-- Nothing is dropped exactly when nothing is repeated. -/
theorem eraseDups_perm_iff {l : List α} : l.eraseDups.Perm l ↔ l.Nodup :=
  ⟨fun h => h.nodup_iff.mp (nodup_eraseDups l), fun h => List.Perm.of_eq (eraseDups_of_nodup h)⟩

end Repeats

/-! ## The plain calls -/

namespace Plain

theorem run_append (m : Plain) (mus mus' : List Mutation) :
    m.run (mus ++ mus') = ((m.run mus).1 ++ ((m.run mus).2.run mus').1, ((m.run mus).2.run mus').2) := by
  induction mus generalizing m with
  | nil => rfl
  | cons mu mus ih => simp only [List.cons_append, run, ih]

/-- New nodes are appended. -/
theorem run_addNodes (system : System) (edges : List Edge) (nodes : List Node) :
    ∀ pre : List Node, (∀ id ∈ ids nodes, id ≠ "") → (ids (pre ++ nodes)).Nodup →
      (⟨system, pre, edges⟩ : Plain).run (nodes.map .addNode) =
        (nodes.map fun _ => .result (.ok ()), ⟨system, pre ++ nodes, edges⟩) := by
  induction nodes with
  | nil =>
    intro pre _ _
    rw [List.append_nil]
    rfl
  | cons node nodes ih =>
    intro pre hne hd
    have hid : node.id ≠ "" := hne node.id (by simp [ids])
    have hnew : node.id ∉ ids pre := by
      rw [ids, List.map_append] at hd
      exact fun hmem => (List.nodup_append.mp hd).2.2 _ hmem node.id (by simp) rfl
    have step : (⟨system, pre, edges⟩ : Plain).apply (.addNode node) =
        (.result (.ok ()), ⟨system, pre ++ [node], edges⟩) := by
      simp only [apply, hid, if_false, hasNode, hnew, decide_false, Bool.false_eq_true]
    have rest := ih (pre ++ [node]) (fun id h => hne id (List.mem_cons_of_mem _ h)) (by simpa using hd)
    simp only [List.map_cons, run, step, rest, List.append_assoc, List.cons_append, List.nil_append]

/-- Edges between known nodes are appended unless they are there. -/
theorem run_addEdges (system : System) (nodes : List Node) (edges : List Edge) :
    ∀ pre : List Edge, (∀ edge ∈ edges, edge.source ∈ ids nodes ∧ edge.target ∈ ids nodes) →
      (⟨system, nodes, pre.eraseDups⟩ : Plain).run
          (edges.map fun edge => .addEdge edge.source edge.target edge.kind) =
        (edges.map fun _ => .result (.ok ()), ⟨system, nodes, (pre ++ edges).eraseDups⟩) := by
  induction edges with
  | nil =>
    intro pre _
    rw [List.append_nil]
    rfl
  | cons edge edges ih =>
    intro pre hk
    obtain ⟨hs, ht⟩ := hk edge (List.mem_cons_self)
    have step : (⟨system, nodes, pre.eraseDups⟩ : Plain).apply (.addEdge edge.source edge.target edge.kind) =
        (.result (.ok ()), ⟨system, nodes, (pre ++ [edge]).eraseDups⟩) := by
      rw [eraseDups_concat]
      by_cases he : edge ∈ pre <;> simp [apply, hasNode, hasEdge, hs, ht, he]
    have rest := ih (pre ++ [edge]) fun e h => hk e (List.mem_cons_of_mem _ h)
    simp only [List.map_cons, run, step, rest, List.append_assoc, List.cons_append, List.nil_append]

theorem run_stepwise {system : System} {nodes : List Node} {edges : List Edge} (h : Stgx.Sound nodes edges) :
    ({} : Plain).run (stepwise system nodes edges) =
      (.void :: (nodes.map (fun _ => .result (.ok ())) ++ edges.map fun _ => .result (.ok ())),
        ⟨system, nodes, edges.eraseDups⟩) := by
  have hnodes := run_addNodes system [] nodes [] h.idsNonempty h.idsDistinct
  have hedges := run_addEdges system nodes edges [] fun e he => ⟨h.sources e he, h.targets e he⟩
  simp only [List.nil_append, List.eraseDups_nil] at hnodes hedges
  rw [stepwise, run]
  simp only [apply, run_append, hnodes, hedges]

end Plain

/-! ## The graph -/

/-- Step by step, every call on the parts of an accepted graph succeeds, and the graph built
    is that of the edges with repeats dropped: the accepted one when no edge is repeated. -/
theorem stepwise_create {system : System} {nodes : List Node} {edges : List Edge} {g : Graph}
    (h : Graph.create system nodes edges = .ok g) :
    (∀ outcome ∈ (({} : Graph).run (stepwise system nodes edges)).1, outcome.succeeded = true) ∧
      Graph.create system nodes edges.eraseDups = .ok (({} : Graph).run (stepwise system nodes edges)).2 ∧
      ((({} : Graph).run (stepwise system nodes edges)).2.beq g = true ↔ edges.Nodup) := by
  obtain ⟨hw, rfl⟩ := create_ok_iff.mp h
  obtain ⟨hs, he⟩ := Start.empty.indexed
  have hrun : ({} : Graph).run (stepwise system nodes edges) = _ :=
    he ▸ (Plain.run_indexed hs _).trans (by rw [Plain.run_stepwise hw.sound])
  have hw' : WellFormed system nodes edges.eraseDups := hw.of_mem fun _ he => List.mem_eraseDups.mp he
  rw [hrun]
  refine ⟨fun outcome ho => ?_, create_ok_iff.mpr ⟨hw', rfl⟩, ?_⟩
  · simp only [List.mem_cons, List.mem_append, List.mem_map] at ho
    rcases ho with rfl | ⟨_, _, rfl⟩ | ⟨_, _, rfl⟩ <;> rfl
  · rw [beq_iff]
    constructor
    · intro h
      obtain ⟨-, -, hedges⟩ := h
      have hedges : (indexed system nodes edges.eraseDups).edges = (indexed system nodes edges).edges := hedges
      refine eraseDups_perm_iff.mp ?_
      exact (indexed_edges_perm hw'.sound).symm.trans (hedges ▸ indexed_edges_perm hw.sound)
    · intro hd
      rw [eraseDups_of_nodup hd]
      exact ⟨rfl, rfl, rfl⟩

/-- Two nodes, the edges of neither together, and one edge twice. -/
theorem stepwise_create_repeat :
    let nodes : List Node := [{ id := "a", initial := true }, { id := "b" }]
    let edges : List Edge := [⟨"b", "a", .loopback⟩, ⟨"a", "b", .transition⟩, ⟨"b", "b", .transition⟩,
      ⟨"b", "a", .loopback⟩, ⟨"a", "a", .loopback⟩]
    ∃ g, Graph.create {} nodes edges = .ok g ∧
      (∀ outcome ∈ (({} : Graph).run (stepwise {} nodes edges)).1, outcome.succeeded = true) ∧
      Graph.create {} nodes
          [⟨"b", "a", .loopback⟩, ⟨"a", "b", .transition⟩, ⟨"b", "b", .transition⟩, ⟨"a", "a", .loopback⟩] =
        .ok (({} : Graph).run (stepwise {} nodes edges)).2 ∧
      (({} : Graph).run (stepwise {} nodes edges)).2.beq g = false := by
  intro nodes edges
  have hg : Graph.create {} nodes edges = .ok (indexed {} nodes edges) :=
    create_ok_iff.mpr ⟨⟨by decide, by decide, by decide, by decide, nofun, by decide, by decide⟩, rfl⟩
  obtain ⟨hcalls, hgraph, hequal⟩ := stepwise_create hg
  refine ⟨_, hg, hcalls, hgraph, ?_⟩
  rw [Bool.eq_false_iff, Ne, hequal]
  decide

/-- An accepted graph that lists an edge twice is not the one built step by step. -/
theorem stepwise_repeated :
    ∃ g, Graph.create {} [{ id := "a", initial := true }] [⟨"a", "a", .transition⟩, ⟨"a", "a", .transition⟩] = .ok g ∧
      (({} : Graph).run
        (stepwise {} [{ id := "a", initial := true }] [⟨"a", "a", .transition⟩, ⟨"a", "a", .transition⟩])).2.beq g =
          false :=
  ⟨_, rfl, by decide⟩

end Stgx
