/-
  Stgx.Runs — what holds after any history of calls.

  - `run_refines`: a graph and the plain model started together return the same results
    and agree on every query after every call; a failed call leaves the graph, indexes
    included, as it was.
  - `reachable_sound`: no history makes a graph referentially unsound.
-/

import Stgx.Builder
import Stgx.Refinement

namespace Stgx

open Stgx.Lib.Grouping
open Stgx.Lib.Index (mem_index)

/-! ## Agreement -/

/-- A graph and a plain graph started together. -/
inductive Start : Graph → Plain → Prop
  | empty : Start {} {}
  | create {system : System} {nodes : List Node} {edges : List Edge} {g : Graph} :
      Graph.create system nodes edges = .ok g → Start g ⟨system, nodes, edges⟩

/-- The graph holds the parts of the plain one, its edges regrouped by source in node
    order, and answers every query alike. -/
structure Agrees (g : Graph) (m : Plain) : Prop where
  system : g.system = m.system
  nodes : g.nodes = m.nodes
  edges : g.edges = group (ids m.nodes) Edge.source m.edges
  sameEdges : g.edges.Perm m.edges
  nodeIndex : ∀ id, g.nodeIndex.lookup id = (ids m.nodes).idxOf? id
  outIndex : ∀ id, id ∈ g.outIndex ↔ id ∈ ids m.nodes
  findNode : ∀ id, g.findNode id = m.findNode id
  hasNode : ∀ id, g.hasNode id = m.hasNode id
  initialNode : g.initialNode = m.initialNode
  outEdges : ∀ id, g.outEdges id = m.outEdges id
  hasEdge : ∀ source target kind, g.hasEdge source target kind = m.hasEdge source target kind
  nodeCount : g.nodeCount = m.nodes.length
  edgeCount : g.edgeCount = m.edges.length
  validate : g.validate = m.validate

theorem validateGraph_sound {system : System} {nodes : List Node} {edges : List Edge} (h : Sound nodes edges)
    (hne : nodes ≠ []) : validateGraph system nodes edges = initialDiag nodes ++ arityDiags system nodes := by
  have known : ∀ id ∈ ids nodes, (firstOf nodes id).isSome := fun id hid =>
    firstOf_isSome.mpr ⟨h.idsNonempty id hid, hid⟩
  have hn := (nodeDiags_nil_iff nodes).mpr ⟨h.idsNonempty, h.idsDistinct⟩
  have he := (edgeDiags_nil_iff nodes edges).mpr fun e he => ⟨known _ (h.sources e he), known _ (h.targets e he)⟩
  rw [validateGraph_eq system nodes edges hne, hn, he, List.nil_append, List.append_nil]

/-- The verdict on sound parts does not look at the edges. -/
theorem validateGraph_congr {system : System} {nodes : List Node} {edges edges' : List Edge} (h : Sound nodes edges)
    (h' : Sound nodes edges') : validateGraph system nodes edges = validateGraph system nodes edges' := by
  by_cases hne : nodes = []
  · subst hne
    rfl
  · rw [validateGraph_sound h hne, validateGraph_sound h' hne]

theorem indexed_agrees {m : Plain} (h : m.Sound) : Agrees m.indexed m where
  system := rfl
  nodes := rfl
  edges := indexed_edges h
  sameEdges := indexed_edges_perm h
  nodeIndex := findNodeMut_indexed m.system m.nodes m.edges
  outIndex id := by
    rw [Plain.indexed, indexed_eq]
    exact mem_index _ _ _
  findNode := findNode_indexed m.system m.nodes m.edges
  hasNode := m.hasNode_indexed
  initialNode := rfl
  outEdges := outEdges_indexed h
  hasEdge := Plain.hasEdge_indexed h
  nodeCount := rfl
  edgeCount := (indexed_edges_perm h).length_eq
  validate := by
    have hdiags : validateGraph m.indexed.system m.indexed.nodes m.indexed.edges =
        validateGraph m.system m.nodes m.edges :=
      validateGraph_congr h.indexed_edges h
    simp only [Graph.validate, Plain.validate, hdiags]

theorem Start.indexed {g : Graph} {m : Plain} (h : Start g m) : m.Sound ∧ g = m.indexed := by
  cases h with
  | empty =>
    refine ⟨⟨?_, List.nodup_nil, ?_, ?_⟩, ?_⟩
    · intro id hid
      cases hid
    · intro edge he
      cases he
    · intro edge he
      cases he
    · rw [Plain.indexed, indexed_eq]
      rfl
  | create hc =>
    obtain ⟨hw, rfl⟩ := create_ok_iff.mp hc
    exact ⟨hw.sound, rfl⟩

/-- The indexed graph refines the plain one over whole runs. -/
theorem run_refines {g : Graph} {m : Plain} (h : Start g m) (mus : List Mutation) :
    (g.run mus).1 = (m.run mus).1 ∧ Agrees (g.run mus).2 (m.run mus).2 ∧
      ∀ mu, ((g.run mus).2.apply mu).1.succeeded = false → ((g.run mus).2.apply mu).2 = (g.run mus).2 := by
  obtain ⟨hs, rfl⟩ := h.indexed
  have hrun := Plain.run_sound hs mus
  rw [Plain.run_indexed hs]
  refine ⟨rfl, indexed_agrees hrun, fun mu hf => ?_⟩
  rw [Plain.apply_indexed hrun] at hf ⊢
  exact congrArg Plain.indexed (Plain.apply_failed hf)

/-- An edge of each kind leads into one of three nodes and out of another. -/
def ring : Plain where
  nodes := [{ id := "a", initial := true }, { id := "b" }, { id := "c" }]
  edges := [⟨"a", "b", .transition⟩, ⟨"b", "c", .transition⟩, ⟨"c", "b", .loopback⟩, ⟨"c", "a", .loopback⟩]

/-- The initial node goes, another is renamed; of the two edges then added, one would lead to the node that went. -/
def edits : List Mutation :=
  [.removeNode "a", .renameNode "b" "d", .addEdge "c" "a" .transition, .addEdge "c" "c" .loopback]

theorem ring_start : Start ring.indexed ring := .create (by rfl)

theorem run_refines_ring :
    (ring.run edits).1.map Outcome.succeeded = [true, true, false, true] ∧
      (ring.indexed.run edits).1 = (ring.run edits).1 ∧ Agrees (ring.indexed.run edits).2 (ring.run edits).2 ∧
      ((ring.indexed.run edits).2.apply (.removeEdge "d" "a" .transition)).2 = (ring.indexed.run edits).2 := by
  obtain ⟨hresults, hagrees, hfailed⟩ := run_refines ring_start edits
  exact ⟨by decide, hresults, hagrees, hfailed _ (by decide)⟩

/-! ## Soundness -/

/-- Every reachable graph is the indexed graph of sound parts. -/
theorem Reachable.indexed {g : Graph} (h : Reachable g) : ∃ m : Plain, m.Sound ∧ g = m.indexed := by
  induction h with
  | empty => exact ⟨_, Start.empty.indexed⟩
  | create hc => exact ⟨_, (Start.create hc).indexed⟩
  | build hb => exact ⟨_, (Start.create hb).indexed⟩
  | apply mu _ ih =>
    obtain ⟨m, hm, rfl⟩ := ih
    exact ⟨_, Plain.apply_sound hm mu, by rw [Plain.apply_indexed hm]⟩

/-- The id index of a reachable graph answers with positions in `nodes`. -/
theorem Reachable.nodeIndex {g : Graph} (h : Reachable g) (id : String) :
    g.nodeIndex.lookup id = (ids g.nodes).idxOf? id := by
  obtain ⟨m, hm, rfl⟩ := h.indexed
  exact findNodeMut_indexed m.system m.nodes m.edges id

theorem Reachable.hasNode {g : Graph} (h : Reachable g) (id : String) : g.hasNode id = decide (id ∈ ids g.nodes) := by
  obtain ⟨m, hm, rfl⟩ := h.indexed
  exact Stgx.hasNode_indexed m.system m.nodes m.edges id

theorem Reachable.sound {g : Graph} (h : Reachable g) : Sound g.nodes g.edges := by
  obtain ⟨m, hm, rfl⟩ := h.indexed
  exact Sound.indexed_edges hm

/-- No history makes a graph referentially unsound, so `validate` never reports an id or an edge. -/
theorem reachable_sound {g : Graph} (h : Reachable g) :
    (∀ id ∈ ids g.nodes, id ≠ "") ∧ (ids g.nodes).Nodup ∧
      (∀ edge ∈ g.edges, edge.source ∈ ids g.nodes ∧ edge.target ∈ ids g.nodes) ∧
      ∀ diags, g.validate = .error diags →
        ∀ d ∈ diags, d.code = .nodesMissing ∨ d.code = .initialCount ∨ d.code = .taskArityMismatch := by
  have hs := h.sound
  refine ⟨hs.idsNonempty, hs.idsDistinct, fun e he => ⟨hs.sources e he, hs.targets e he⟩, fun diags hv d hd => ?_⟩
  obtain rfl := validate_error hv
  by_cases hne : g.nodes = []
  · rw [hne] at hd
    exact Or.inl (List.mem_singleton.mp hd ▸ rfl)
  · rw [validateGraph_sound hs hne] at hd
    rcases List.mem_append.mp hd with hd | hd
    · exact Or.inr (Or.inl (initialDiag_code hd).2)
    · exact Or.inr (Or.inr (arityDiags_code hd).2)

/-- Without its initial node the ring no longer validates, but it is sound. -/
theorem reachable_sound_ring :
    let g := (ring.indexed.run edits).2
    g.edges = [⟨"d", "c", .transition⟩, ⟨"c", "d", .loopback⟩, ⟨"c", "c", .loopback⟩] ∧
      (∀ id ∈ ids g.nodes, id ≠ "") ∧ (ids g.nodes).Nodup ∧
      (∀ edge ∈ g.edges, edge.source ∈ ids g.nodes ∧ edge.target ∈ ids g.nodes) ∧
      ∃ diags, g.validate = .error diags ∧
        ∀ d ∈ diags, d.code = .nodesMissing ∨ d.code = .initialCount ∨ d.code = .taskArityMismatch := by
  intro g
  have hstart : Reachable ring.indexed := .create (show Graph.create {} ring.nodes ring.edges = .ok ring.indexed by rfl)
  have hg : Reachable g := .apply _ (.apply _ (.apply _ (.apply _ hstart)))
  obtain ⟨hids, hdistinct, hends, hcodes⟩ := reachable_sound hg
  exact ⟨by decide, hids, hdistinct, hends, _, rfl, hcodes _ rfl⟩

end Stgx
