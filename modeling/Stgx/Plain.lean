/-
  Stgx.Plain — the graph without indexes, whose lists `Graph` indexes.

  A `Plain` graph is a system, a list of nodes and a list of edges in insertion order;
  every query scans the lists and every mutation edits them. `Plain.indexed` is the
  indexed graph of the same parts. The parts it is meant for are sound
  (`Plain.Sound`), and every mutation keeps them so (`Plain.apply_sound`); there the
  two move together, call by call (Stgx.Refinement).
-/

import Stgx.GraphProofs

namespace Stgx

open Stgx.Lib.Grouping
open Stgx.Lib.Index (modify_position eraseIdx_position position_get)

structure Plain where
  system : System := {}
  nodes : List Node := []
  /-- In insertion order. -/
  edges : List Edge := []
  deriving DecidableEq, Repr

/-- `a` renamed to `b`. -/
def relabel (a b id : String) : String := if id = a then b else id

def relabelNode (a b : String) (node : Node) : Node := { node with id := relabel a b node.id }

def relabelEdge (a b : String) (edge : Edge) : Edge :=
  { edge with source := relabel a b edge.source, target := relabel a b edge.target }

def touches (id : String) (edge : Edge) : Bool := edge.source == id || edge.target == id

namespace Plain

def hasNode (m : Plain) (id : String) : Bool := decide (id ∈ ids m.nodes)

def findNode (m : Plain) (id : String) : Option Node := m.nodes.find? fun node => node.id = id

def initialNode (m : Plain) : Option Node := m.nodes.find? (·.initial)

def outEdges (m : Plain) (id : String) : List Edge := m.edges.filter fun edge => edge.source = id

def hasEdge (m : Plain) (source target : String) (kind : EdgeKind) : Bool :=
  decide (⟨source, target, kind⟩ ∈ m.edges)

def validate (m : Plain) : Result Unit :=
  let diags := validateGraph m.system m.nodes m.edges
  if diags.hasErrors then .error diags else .ok ()

/-- Update the node with this id. -/
def updateNode (m : Plain) (id : String) (f : Node → Node) : Outcome × Plain :=
  if m.hasNode id then
    (.result (.ok ()), { m with nodes := m.nodes.map fun node => if node.id = id then f node else node })
  else (.result (.error [Diag.nodeNotFound id]), m)

def apply (m : Plain) : Mutation → Outcome × Plain
  | .setSystem system => (.void, { m with system := system })
  | .addNode node =>
    if node.id = "" then (.result (.error [Diag.nodeIdEmpty]), m)
    else if m.hasNode node.id then (.result (.error [Diag.nodeIdDuplicate node.id]), m)
    else (.result (.ok ()), { m with nodes := m.nodes ++ [node] })
  | .removeNode id =>
    if m.hasNode id then
      (.flag true, { m with nodes := m.nodes.filter fun node => node.id ≠ id,
                            edges := m.edges.filter (!touches id ·) })
    else (.flag false, m)
  | .renameNode a b =>
    if b = "" then (.result (.error [Diag.nodeIdEmpty]), m)
    else if !m.hasNode a then (.result (.error [Diag.nodeNotFound a]), m)
    else if a = b then (.result (.ok ()), m)
    else if m.hasNode b then (.result (.error [Diag.nodeIdDuplicate b]), m)
    else (.result (.ok ()), { m with nodes := m.nodes.map (relabelNode a b), edges := m.edges.map (relabelEdge a b) })
  | .addEdge source target kind =>
    if !m.hasNode source then (.result (.error [Diag.nodeNotFound source]), m)
    else if !m.hasNode target then (.result (.error [Diag.nodeNotFound target]), m)
    else if m.hasEdge source target kind then (.result (.ok ()), m)
    else (.result (.ok ()), { m with edges := m.edges ++ [⟨source, target, kind⟩] })
  | .removeEdge source target kind =>
    if m.hasEdge source target kind then (.flag true, { m with edges := m.edges.erase ⟨source, target, kind⟩ })
    else (.flag false, m)
  | .setInitial id =>
    if m.hasNode id then
      (.result (.ok ()), { m with nodes := m.nodes.map fun node => { node with initial := node.id = id } })
    else (.result (.error [Diag.nodeNotFound id]), m)
  | .setNodeTasks id tasks => m.updateNode id ({ · with tasks := tasks })
  | .setNodeLabel id label => m.updateNode id ({ · with label := label })
  | .setNodeBorderColor id color => m.updateNode id ({ · with borderColor := color })
  | .setNodeFillColor id color => m.updateNode id ({ · with fillColor := color })

def run (m : Plain) : List Mutation → List Outcome × Plain
  | [] => ([], m)
  | mu :: mus =>
    let r := m.apply mu
    let rest := r.2.run mus
    (r.1 :: rest.1, rest.2)

def Sound (m : Plain) : Prop := Stgx.Sound m.nodes m.edges

/-- The indexed graph of the same parts. -/
def indexed (m : Plain) : Graph := Stgx.indexed m.system m.nodes m.edges

end Plain

/-! ## Relabelling -/

theorem ids_map_update {f : Node → Node} (hf : ∀ node, (f node).id = node.id) (nodes : List Node) :
    ids (nodes.map f) = ids nodes := by
  simp [ids, hf]

theorem ids_relabel (a b : String) (nodes : List Node) :
    ids (nodes.map (relabelNode a b)) = (ids nodes).map (relabel a b) := by
  simp [ids, relabelNode]

/-- Relabelling to a fresh name confuses no two names. -/
theorem relabel_inj {a b : String} {l : List String} (hb : b ∉ l) {x y : String} (hx : x ∈ l) (hy : y ∈ l) :
    relabel a b x = relabel a b y ↔ x = y := by
  unfold relabel
  constructor
  · by_cases ex : x = a <;> by_cases ey : y = a
    · intro _
      rw [ex, ey]
    · rw [if_pos ex, if_neg ey]
      intro he
      subst he
      exact absurd hy hb
    · rw [if_neg ex, if_pos ey]
      intro he
      subst he
      exact absurd hx hb
    · rw [if_neg ex, if_neg ey]
      exact id
  · intro he
    subst he
    rfl

/-! ## Soundness is kept -/

theorem sound_map {nodes : List Node} {edges : List Edge} (h : Sound nodes edges) {nodes' : List Node}
    (hids : ids nodes' = ids nodes) : Sound nodes' edges :=
  ⟨hids ▸ h.idsNonempty, hids ▸ h.idsDistinct, hids ▸ h.sources, hids ▸ h.targets⟩

theorem sound_addNode {nodes : List Node} {edges : List Edge} (h : Sound nodes edges) {node : Node}
    (hne : node.id ≠ "") (hnew : node.id ∉ ids nodes) : Sound (nodes ++ [node]) edges := by
  have happ : ids (nodes ++ [node]) = ids nodes ++ [node.id] := by simp [ids]
  refine ⟨?_, ?_, fun e he => ?_, fun e he => ?_⟩
  · rw [happ]
    intro id hid
    rcases List.mem_append.mp hid with hid | hid
    · exact h.idsNonempty id hid
    · exact List.mem_singleton.mp hid ▸ hne
  · rw [happ]
    refine List.nodup_append.mpr ⟨h.idsDistinct, by simp, fun x hx y hy => ?_⟩
    rw [List.mem_singleton] at hy
    intro he
    subst he
    exact hnew (hy ▸ hx)
  · rw [happ]
    exact List.mem_append_left _ (h.sources e he)
  · rw [happ]
    exact List.mem_append_left _ (h.targets e he)

theorem ids_filter_ne (nodes : List Node) (id : String) :
    ids (nodes.filter fun node => node.id ≠ id) = (ids nodes).filter (· ≠ id) := by
  simp only [ids, List.filter_map]
  rfl

theorem sound_removeNode {nodes : List Node} {edges : List Edge} (h : Sound nodes edges) (id : String) :
    Sound (nodes.filter fun node => node.id ≠ id) (edges.filter (!touches id ·)) := by
  have keep : ∀ x, x ∈ ids nodes → x ≠ id → x ∈ ids (nodes.filter fun node => node.id ≠ id) := by
    intro x hx hne
    rw [ids_filter_ne]
    exact List.mem_filter.mpr ⟨hx, by simpa using hne⟩
  refine ⟨fun x hx => ?_, ?_, fun e he => ?_, fun e he => ?_⟩
  · rw [ids_filter_ne] at hx
    exact h.idsNonempty x (List.mem_filter.mp hx).1
  · rw [ids_filter_ne]
    exact h.idsDistinct.filter _
  · obtain ⟨he, ht⟩ := List.mem_filter.mp he
    simp only [touches, Bool.not_or, Bool.and_eq_true, Bool.not_eq_true', beq_eq_false_iff_ne] at ht
    exact keep _ (h.sources e he) ht.1
  · obtain ⟨he, ht⟩ := List.mem_filter.mp he
    simp only [touches, Bool.not_or, Bool.and_eq_true, Bool.not_eq_true', beq_eq_false_iff_ne] at ht
    exact keep _ (h.targets e he) ht.2

theorem sound_relabel {nodes : List Node} {edges : List Edge} (h : Sound nodes edges) {a b : String} (hne : b ≠ "")
    (hb : b ∉ ids nodes) : Sound (nodes.map (relabelNode a b)) (edges.map (relabelEdge a b)) := by
  refine ⟨fun x hx => ?_, ?_, fun e he => ?_, fun e he => ?_⟩
  · rw [ids_relabel] at hx
    obtain ⟨y, hy, rfl⟩ := List.mem_map.mp hx
    unfold relabel
    split
    · exact hne
    · exact h.idsNonempty y hy
  · rw [ids_relabel]
    exact (List.nodup_map_iff_inj_on h.idsDistinct).mpr fun x hx y hy => (relabel_inj hb hx hy).mp
  · obtain ⟨old, hold, rfl⟩ := List.mem_map.mp he
    rw [ids_relabel]
    exact List.mem_map_of_mem (h.sources old hold)
  · obtain ⟨old, hold, rfl⟩ := List.mem_map.mp he
    rw [ids_relabel]
    exact List.mem_map_of_mem (h.targets old hold)

theorem sound_addEdge {nodes : List Node} {edges : List Edge} (h : Sound nodes edges) {edge : Edge}
    (hs : edge.source ∈ ids nodes) (ht : edge.target ∈ ids nodes) : Sound nodes (edges ++ [edge]) := by
  refine ⟨h.idsNonempty, h.idsDistinct, fun e he => ?_, fun e he => ?_⟩
  · rcases List.mem_append.mp he with he | he
    · exact h.sources e he
    · exact List.mem_singleton.mp he ▸ hs
  · rcases List.mem_append.mp he with he | he
    · exact h.targets e he
    · exact List.mem_singleton.mp he ▸ ht

theorem Plain.updateNode_sound {m : Plain} (h : m.Sound) (id : String) {f : Node → Node}
    (hf : ∀ node, (f node).id = node.id) : (m.updateNode id f).2.Sound := by
  unfold Plain.updateNode
  split
  · exact sound_map h (ids_map_update (fun node => by split <;> simp [hf]) m.nodes)
  · exact h

/-- Every mutation keeps the parts sound, whether it succeeds or fails. -/
theorem Plain.apply_sound {m : Plain} (h : m.Sound) (mu : Mutation) : (m.apply mu).2.Sound := by
  cases mu with
  | setSystem system => exact h
  | addNode node =>
    simp only [Plain.apply]
    split
    · exact h
    · rename_i hne
      split
      · exact h
      · rename_i hnew
        exact sound_addNode h hne (by simpa [Plain.hasNode] using hnew)
  | removeNode id =>
    simp only [Plain.apply]
    split
    · exact sound_removeNode h id
    · exact h
  | renameNode a b =>
    simp only [Plain.apply]
    split
    · exact h
    · rename_i hne
      split
      · exact h
      · split
        · exact h
        · split
          · exact h
          · rename_i hb
            exact sound_relabel h hne (by simpa [Plain.hasNode] using hb)
  | addEdge source target kind =>
    simp only [Plain.apply]
    split
    · exact h
    · rename_i hs
      split
      · exact h
      · rename_i ht
        split
        · exact h
        · exact sound_addEdge h (by simpa [Plain.hasNode] using hs) (by simpa [Plain.hasNode] using ht)
  | removeEdge source target kind =>
    simp only [Plain.apply]
    split
    · exact h.of_mem fun _ he => List.mem_of_mem_erase he
    · exact h
  | setInitial id =>
    simp only [Plain.apply]
    split
    · exact sound_map h (ids_map_update (f := fun node => { node with initial := node.id = id }) (fun _ => rfl) m.nodes)
    · exact h
  | setNodeTasks id tasks => exact Plain.updateNode_sound h id fun _ => rfl
  | setNodeLabel id label => exact Plain.updateNode_sound h id fun _ => rfl
  | setNodeBorderColor id color => exact Plain.updateNode_sound h id fun _ => rfl
  | setNodeFillColor id color => exact Plain.updateNode_sound h id fun _ => rfl

end Stgx
