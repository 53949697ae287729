/-
  Stgx.Refinement — the indexed graph does what the plain one does.

  `apply_indexed`: on sound parts one call gives the same result on both sides and
  leaves the indexed graph of the parts the plain call leaves; `run_indexed` lifts this
  to sequences of calls. A call that does not succeed leaves the plain graph as it was
  (`apply_failed`), hence also every index. `Reachable.indexed`: so every graph the API
  can build is the indexed graph of sound parts.
-/

import Stgx.Plain

namespace Stgx

open Stgx.Lib.Grouping
open Stgx.Lib.Index (modify_position eraseIdx_position position_get)

/-! ## Edits of the edges, seen from each node -/

/-- `indexed_congr` where what leaves every id agrees, known or not. -/
theorem indexed_of_leaving {system : System} {nodes : List Node} {edges edges' : List Edge} (h : Sound nodes edges)
    (hl : ∀ id, leaving edges' id = leaving edges id) : indexed system nodes edges' = indexed system nodes edges := by
  have hmem : ∀ edge ∈ edges', edge ∈ edges := by
    intro edge he
    have : edge ∈ leaving edges' edge.source := mem_bucket.mpr ⟨he, rfl⟩
    rw [hl] at this
    exact (mem_bucket.mp this).1
  exact indexed_congr (h.of_mem hmem) h fun id _ => hl id

theorem leaving_relabel {a b : String} {l : List String} (hb : b ∉ l) {edges : List Edge}
    (hs : ∀ edge ∈ edges, edge.source ∈ l) {id : String} (hid : id ∈ l) :
    leaving (edges.map (relabelEdge a b)) (relabel a b id) = (leaving edges id).map (relabelEdge a b) :=
  bucket_map fun edge he => relabel_inj hb (hs edge he) hid

/-- Repointing edge by edge is relabelling. -/
theorem repoint_eq (a b : String) :
    (fun edge : Edge =>
      let edge := if edge.source = a then { edge with source := b } else edge
      if edge.target = a then { edge with target := b } else edge) = relabelEdge a b := by
  funext ⟨source, target, kind⟩
  unfold relabelEdge relabel
  by_cases hs : source = a <;> by_cases ht : target = a <;> simp [hs, ht]

/-- Finding an edge by its three fields is finding that edge. -/
theorem findIdx_edge (edges : List Edge) (source target : String) (kind : EdgeKind) :
    (edges.findIdx? fun edge => edge.kind == kind && edge.source == source && edge.target == target) =
      edges.idxOf? ⟨source, target, kind⟩ := by
  unfold List.idxOf?
  congr 1
  funext edge
  obtain ⟨s, t, k⟩ := edge
  rw [Bool.eq_iff_iff]
  simp only [Bool.and_eq_true, beq_iff_eq, Edge.mk.injEq]
  tauto

/-! ## One call -/

namespace Plain

variable {m : Plain}

theorem hasNode_indexed (m : Plain) (id : String) : m.indexed.hasNode id = m.hasNode id :=
  Stgx.hasNode_indexed m.system m.nodes m.edges id

theorem hasEdge_indexed (h : m.Sound) (source target : String) (kind : EdgeKind) :
    m.indexed.hasEdge source target kind = m.hasEdge source target kind :=
  Stgx.hasEdge_indexed h source target kind

theorem hasNode_eq_false {id : String} (h : (ids m.nodes).idxOf? id = none) : m.hasNode id = false := by
  simpa [hasNode] using List.idxOf?_eq_none_iff.mp h

theorem hasNode_eq_true {id : String} {i : Nat} (h : (ids m.nodes).idxOf? id = some i) : m.hasNode id = true := by
  simpa [hasNode] using List.mem_of_getElem? (position_get h)

theorem addNode_indexed (h : m.Sound) (node : Node) :
    m.indexed.apply (.addNode node) = ((m.apply (.addNode node)).1, (m.apply (.addNode node)).2.indexed) := by
  simp only [Graph.apply, apply, Graph.addNode, String.isEmpty_iff, hasNode_indexed]
  split
  · rfl
  · rename_i hne
    split
    · rfl
    · rename_i hnew
      have hsound := sound_addNode h hne (by simpa [hasNode] using hnew)
      exact Prod.ext rfl (indexed_of_leaving hsound (leaving_indexed h))

theorem removeNode_indexed (h : m.Sound) (id : String) :
    m.indexed.apply (.removeNode id) = ((m.apply (.removeNode id)).1, (m.apply (.removeNode id)).2.indexed) := by
  have hfind : m.indexed.nodeIndex.lookup id = (ids m.nodes).idxOf? id :=
    findNodeMut_indexed m.system m.nodes m.edges id
  simp only [Graph.apply, apply, Graph.removeNode, hfind]
  cases hi : (ids m.nodes).idxOf? id with
  | none => simp only [hasNode_eq_false hi, Bool.false_eq_true, if_false]
  | some i =>
    simp only [hasNode_eq_true hi, if_true]
    refine Prod.ext rfl ?_
    have hnodes : m.indexed.nodes.eraseIdx i = m.nodes.filter fun node => node.id ≠ id :=
      eraseIdx_position Node.id h.idsDistinct hi
    show Graph.rebuildIndexes _ = _
    rw [rebuildIndexes_eq, hnodes]
    refine indexed_of_leaving (sound_removeNode h id) fun x => ?_
    show bucket Edge.source (m.indexed.edges.filter (!touches id ·)) x = _
    rw [bucket_filter, leaving, bucket_filter]
    exact congrArg _ (leaving_indexed h x)

theorem renameNode_indexed (h : m.Sound) (a b : String) :
    m.indexed.apply (.renameNode a b) = ((m.apply (.renameNode a b)).1, (m.apply (.renameNode a b)).2.indexed) := by
  have hfind : m.indexed.findNodeMut a = (ids m.nodes).idxOf? a := findNodeMut_indexed m.system m.nodes m.edges a
  simp only [Graph.apply, apply, Graph.renameNode, String.isEmpty_iff, hfind, hasNode_indexed, beq_iff_eq]
  split
  · rfl
  · rename_i hne
    cases hi : (ids m.nodes).idxOf? a with
    | none => simp only [hasNode_eq_false hi, Bool.not_false, if_true]
    | some i =>
      simp only [hasNode_eq_true hi, Bool.not_true, Bool.false_eq_true, if_false]
      split
      · rfl
      · split
        · rfl
        · rename_i hb
          have hb : b ∉ ids m.nodes := by simpa [hasNode] using hb
          have hold : ((m.nodes[i]?).map Node.id).getD "" = a := by
            have := position_get hi
            rw [ids, List.getElem?_map] at this
            rw [this, Option.getD_some]
          have hnodes : m.nodes.modify i ({ · with id := b }) = m.nodes.map (relabelNode a b) := by
            rw [modify_position Node.id _ h.idsDistinct hi]
            refine List.map_congr_left fun node _ => ?_
            unfold relabelNode relabel
            split <;> rfl
          have hsound := sound_relabel (a := a) h hne hb
          refine Prod.ext rfl ?_
          show Graph.rebuildIndexes _ = _
          have hedges := congrArg (List.map · m.indexed.edges) (repoint_eq a b)
          simp only [rebuildIndexes_eq, indexed, indexed_nodes, indexed_system, hold, hnodes] at hedges ⊢
          rw [hedges]
          refine indexed_congr (hsound.of_mem fun e he => ?_) hsound fun id hid => ?_
          · obtain ⟨old, hold, rfl⟩ := List.mem_map.mp he
            exact List.mem_map_of_mem ((indexed_edges_perm h).mem_iff.mp hold)
          · rw [ids_relabel] at hid
            obtain ⟨old, hold, rfl⟩ := List.mem_map.mp hid
            rw [leaving_relabel hb h.indexed_edges.sources hold, leaving_relabel hb h.sources hold]
            exact congrArg _ (leaving_indexed h old)

theorem addEdge_indexed (h : m.Sound) (source target : String) (kind : EdgeKind) :
    m.indexed.apply (.addEdge source target kind) =
      ((m.apply (.addEdge source target kind)).1, (m.apply (.addEdge source target kind)).2.indexed) := by
  simp only [Graph.apply, apply, Graph.addEdge, hasNode_indexed, hasEdge_indexed h]
  split
  · rfl
  · rename_i hs
    split
    · rfl
    · rename_i ht
      split
      · rfl
      · have hsound : Stgx.Sound m.nodes (m.edges ++ [⟨source, target, kind⟩]) :=
          sound_addEdge h (by simpa [hasNode] using hs) (by simpa [hasNode] using ht)
        refine Prod.ext rfl (indexed_of_leaving hsound fun id => ?_)
        rw [leaving, bucket_append, leaving, bucket_append]
        exact congrArg (· ++ _) (leaving_indexed h id)

theorem removeEdge_indexed (h : m.Sound) (source target : String) (kind : EdgeKind) :
    m.indexed.apply (.removeEdge source target kind) =
      ((m.apply (.removeEdge source target kind)).1, (m.apply (.removeEdge source target kind)).2.indexed) := by
  simp only [Graph.apply, apply, Graph.removeEdge, findIdx_edge]
  have hmem : (⟨source, target, kind⟩ : Edge) ∈ m.indexed.edges ↔ ⟨source, target, kind⟩ ∈ m.edges :=
    (indexed_edges_perm h).mem_iff
  cases hi : m.indexed.edges.idxOf? ⟨source, target, kind⟩ with
  | none =>
    have : m.hasEdge source target kind = false := by
      simpa [hasEdge, ← hmem] using List.idxOf?_eq_none_iff.mp hi
    simp only [this, Bool.false_eq_true, if_false]
  | some i =>
    have : m.hasEdge source target kind = true := by
      simpa [hasEdge, ← hmem] using List.mem_of_getElem? (position_get hi)
    simp only [this, if_true]
    refine Prod.ext rfl ?_
    have herase : m.indexed.edges.eraseIdx i = m.indexed.edges.erase ⟨source, target, kind⟩ := by
      rw [List.erase_eq_eraseIdx, hi]
    show Graph.rebuildIndexes _ = _
    rw [rebuildIndexes_eq, herase]
    refine indexed_of_leaving (h.of_mem fun _ he => List.mem_of_mem_erase he) fun id => ?_
    rw [leaving, bucket_erase, leaving, bucket_erase]
    exact congrArg (List.erase · _) (leaving_indexed h id)

/-- The calls that edit the node found in place keep the indexes. -/
theorem mutateNode_indexed {id : String} {g : Nat → List Node → List Node} {nodes' : List Node}
    (hids : ids nodes' = ids m.nodes)
    (hmut : ∀ i, (ids m.nodes).idxOf? id = some i → g i m.nodes = nodes') :
    m.indexed.mutateNode id g =
      if m.hasNode id then (.ok (), ({ m with nodes := nodes' } : Plain).indexed)
      else (.error [Diag.nodeNotFound id], m.indexed) := by
  have hfind : m.indexed.findNodeMut id = (ids m.nodes).idxOf? id := findNodeMut_indexed m.system m.nodes m.edges id
  unfold Graph.mutateNode
  simp only [hfind]
  cases hi : (ids m.nodes).idxOf? id with
  | none => simp only [hasNode_eq_false hi, Bool.false_eq_true, if_false]
  | some i =>
    simp only [hasNode_eq_true hi, if_true]
    refine Prod.ext rfl ?_
    show { m.indexed with nodes := g i m.nodes } = _
    rw [hmut i hi]
    exact indexed_with_nodes hids

theorem updateNode_indexed (h : m.Sound) (id : String) {f : Node → Node} (hf : ∀ node, (f node).id = node.id) :
    (Outcome.result (m.indexed.mutateNode id fun node nodes => nodes.modify node f).1,
        (m.indexed.mutateNode id fun node nodes => nodes.modify node f).2) =
      ((m.updateNode id f).1, (m.updateNode id f).2.indexed) := by
  have hids : ids (m.nodes.map fun node => if node.id = id then f node else node) = ids m.nodes :=
    ids_map_update (fun node => by split <;> simp [hf]) m.nodes
  have hmut := mutateNode_indexed (g := fun node nodes => nodes.modify node f) hids
    fun i hi => modify_position Node.id f h.idsDistinct hi
  rw [hmut]
  unfold updateNode
  split <;> rfl

theorem setInitial_indexed (h : m.Sound) (id : String) :
    m.indexed.apply (.setInitial id) = ((m.apply (.setInitial id)).1, (m.apply (.setInitial id)).2.indexed) := by
  have hmut : ∀ i, (ids m.nodes).idxOf? id = some i →
      (m.nodes.map ({ · with initial := false })).modify i ({ · with initial := true }) =
        m.nodes.map fun node => { node with initial := decide (node.id = id) } := by
    intro i hi
    have hids : (m.nodes.map fun node : Node => { node with initial := false }).map Node.id = ids m.nodes :=
      ids_map_update (f := fun node => { node with initial := false }) (fun _ => rfl) m.nodes
    rw [modify_position Node.id _ (hids ▸ h.idsDistinct) (hids ▸ hi), List.map_map]
    refine List.map_congr_left fun node _ => ?_
    by_cases e : node.id = id <;> simp [e]
  simp only [Graph.apply, apply, Graph.setInitial]
  rw [mutateNode_indexed (ids_map_update (f := fun node => { node with initial := decide (node.id = id) })
    (fun _ => rfl) m.nodes) hmut]
  split <;> rfl

/-- One call: the same result, and the indexed graph of what the plain call leaves. -/
theorem apply_indexed (h : m.Sound) (mu : Mutation) :
    m.indexed.apply mu = ((m.apply mu).1, (m.apply mu).2.indexed) := by
  cases mu with
  | setSystem system => rfl
  | addNode node => exact addNode_indexed h node
  | removeNode id => exact removeNode_indexed h id
  | renameNode a b => exact renameNode_indexed h a b
  | addEdge source target kind => exact addEdge_indexed h source target kind
  | removeEdge source target kind => exact removeEdge_indexed h source target kind
  | setInitial id => exact setInitial_indexed h id
  | setNodeTasks id tasks => exact updateNode_indexed h id fun _ => rfl
  | setNodeLabel id label => exact updateNode_indexed h id fun _ => rfl
  | setNodeBorderColor id color => exact updateNode_indexed h id fun _ => rfl
  | setNodeFillColor id color => exact updateNode_indexed h id fun _ => rfl

/-! ## Runs -/

theorem run_sound (h : m.Sound) (mus : List Mutation) : (m.run mus).2.Sound := by
  induction mus generalizing m with
  | nil => exact h
  | cons mu mus ih => exact ih (apply_sound h mu)

/-- A whole run: the same results, and the indexed graph of what the plain run leaves. -/
theorem run_indexed (h : m.Sound) (mus : List Mutation) :
    m.indexed.run mus = ((m.run mus).1, (m.run mus).2.indexed) := by
  induction mus generalizing m with
  | nil => rfl
  | cons mu mus ih =>
    simp only [Graph.run, run, apply_indexed h mu, ih (apply_sound h mu)]

theorem updateNode_failed {id : String} {f : Node → Node} (hf : (m.updateNode id f).1.succeeded = false) :
    (m.updateNode id f).2 = m := by
  unfold updateNode at hf ⊢
  split at hf
  · cases hf
  · rename_i hn
    rw [if_neg hn]

/-- A call that fails or returns false changes nothing. -/
theorem apply_failed {mu : Mutation} (hf : (m.apply mu).1.succeeded = false) : (m.apply mu).2 = m := by
  cases mu with
  | setSystem system => cases hf
  | addNode node =>
    simp only [apply] at hf ⊢
    split
    · rfl
    · split
      · rfl
      · rename_i hne hnew
        rw [if_neg hne, if_neg hnew] at hf
        cases hf
  | removeNode id =>
    simp only [apply] at hf ⊢
    split
    · rename_i hid
      rw [if_pos hid] at hf
      cases hf
    · rfl
  | renameNode a b =>
    simp only [apply] at hf ⊢
    split
    · rfl
    · split
      · rfl
      · split
        · rfl
        · split
          · rfl
          · rename_i hne ha hab hb
            rw [if_neg hne, if_neg ha, if_neg hab, if_neg hb] at hf
            cases hf
  | addEdge source target kind =>
    simp only [apply] at hf ⊢
    split
    · rfl
    · split
      · rfl
      · split
        · rfl
        · rename_i hs ht he
          rw [if_neg hs, if_neg ht, if_neg he] at hf
          cases hf
  | removeEdge source target kind =>
    simp only [apply] at hf ⊢
    split
    · rename_i he
      rw [if_pos he] at hf
      cases hf
    · rfl
  | setInitial id =>
    simp only [apply] at hf ⊢
    split
    · rename_i hid
      rw [if_pos hid] at hf
      cases hf
    · rfl
  | setNodeTasks id tasks => exact updateNode_failed hf
  | setNodeLabel id label => exact updateNode_failed hf
  | setNodeBorderColor id color => exact updateNode_failed hf
  | setNodeFillColor id color => exact updateNode_failed hf

end Plain

end Stgx
