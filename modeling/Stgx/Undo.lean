/-
  Stgx.Undo — what `operator==` compares, and taking calls back.

  The indexes of a graph the API built follow from its parts (`Reachable.rebuilt`), so
  graphs that compare equal are the same in everything.
  - `beq_observed`: `operator==` says whether two graphs answer alike;
  - `run_undo`: from a valid graph, a run of calls that keep it valid and remove nothing
    is taken back by as many calls at most, one for each.
-/

import Stgx.Renaming
import Stgx.RoundTrip
import Stgx.Validity

namespace Stgx

open Stgx.Lib.Grouping

/-! ## Equality -/

/-- A graph the API built is what `rebuild_indexes` makes of its parts. -/
theorem Reachable.rebuilt {g : Graph} (h : Reachable g) : g = Stgx.indexed g.system g.nodes g.edges := by
  obtain ⟨m, hm, rfl⟩ := h.indexed
  exact (rebuildIndexes_indexed hm).symm.trans (rebuildIndexes_eq _)

theorem Reachable.eq_of_parts {g g' : Graph} (h : Reachable g) (h' : Reachable g') (hsystem : g.system = g'.system)
    (hnodes : g.nodes = g'.nodes) (hedges : g.edges = g'.edges) : g = g' := by
  rw [h.rebuilt, h'.rebuilt, hsystem, hnodes, hedges]

/-- `operator==` leaves the indexes out and misses nothing: graphs that compare equal are the same,
    and so are graphs with the same system, nodes and edges leaving each id. -/
theorem beq_observed {g g' : Graph} (h : Reachable g) (h' : Reachable g') :
    (g.beq g' = true ↔ g = g') ∧
      (g.beq g' = true ↔ g.system = g'.system ∧ g.nodes = g'.nodes ∧ ∀ id, g.outEdges id = g'.outEdges id) := by
  have hsame : g.beq g' = true → g = g' := fun hbeq =>
    h.eq_of_parts h' (beq_iff.mp hbeq).1 (beq_iff.mp hbeq).2.1 (beq_iff.mp hbeq).2.2
  refine ⟨⟨hsame, fun he => beq_iff.mpr (he ▸ ⟨rfl, rfl, rfl⟩)⟩, fun hbeq => ?_, ?_⟩
  · rw [hsame hbeq]
    exact ⟨rfl, rfl, fun _ => rfl⟩
  · rintro ⟨hsystem, hnodes, hout⟩
    refine beq_iff.mpr ⟨hsystem, hnodes, ?_⟩
    rw [h.outEdges.2, h'.outEdges.2, hnodes]
    exact List.flatMap_congr fun node _ => hout node.id

/-- A node added and removed again. -/
theorem beq_observed_detour :
    (((({} : Graph).apply (.addNode { id := "a" })).2.apply (.addNode { id := "b" })).2.apply (.removeNode "b")).2 =
      (({} : Graph).apply (.addNode { id := "a" })).2 :=
  (beq_observed (.apply _ (.apply _ (.apply _ .empty))) (.apply _ .empty)).1.mp (by decide)

/-! ## Taking a call back -/

def Mutation.removes : Mutation → Bool
  | .removeNode _ => true
  | .removeEdge _ _ _ => true
  | _ => false

namespace Plain

variable {m : Plain}

/-- Updating the node with an id, and putting back what it was. -/
theorem update_undo (hs : m.Sound) {id : String} {old : Node} (hold : old ∈ m.nodes) (hid : old.id = id)
    {f g : Node → Node} (hback : g (f old) = old) (hf : ∀ node, (f node).id = node.id) :
    ((m.updateNode id f).2.updateNode id g).2 = m := by
  have hmem : m.hasNode id = true := decide_eq_true (hid ▸ List.mem_map_of_mem hold)
  have hids : ids (m.nodes.map fun node => if node.id = id then f node else node) = ids m.nodes :=
    ids_map_update (fun node => by split <;> simp [hf]) m.nodes
  have hmem' : Plain.hasNode ⟨m.system, m.nodes.map fun node => if node.id = id then f node else node, m.edges⟩ id =
      true := by
    rw [hasNode, hids]
    exact hmem
  unfold updateNode
  rw [if_pos hmem]
  simp only [hmem', if_true]
  have hnodes : (m.nodes.map fun node => if node.id = id then f node else node).map
      (fun node => if node.id = id then g node else node) = m.nodes := by
    rw [List.map_map]
    refine (List.map_congr_left fun node hnode => ?_).trans (List.map_id m.nodes)
    rw [Function.comp_apply, id_eq]
    by_cases hn : node.id = id
    · have hsame : node = old := List.inj_on_of_nodup_map hs.idsDistinct hnode hold (hn.trans hid.symm)
      rw [if_pos hn, hsame, if_pos (by rw [hf, hid]), hback]
    · rw [if_neg hn, if_neg hn]
  rw [hnodes]

theorem addNode_undo (hs : m.Sound) {node : Node} (hnew : node.id ∉ ids m.nodes) :
    (apply { m with nodes := m.nodes ++ [node] } (.removeNode node.id)).2 = m := by
  have hmem : node.id ∈ ids (m.nodes ++ [node]) := by simp [ids]
  have hnodes : (m.nodes ++ [node]).filter (fun other => other.id ≠ node.id) = m.nodes := by
    rw [List.filter_append, List.filter_singleton, List.filter_eq_self.mpr]
    · simp
    · intro other hother
      exact decide_eq_true fun he => hnew (he ▸ List.mem_map_of_mem hother)
  have hedges : m.edges.filter (!touches node.id ·) = m.edges := by
    refine List.filter_eq_self.mpr fun edge he => ?_
    have hsource : edge.source ≠ node.id := fun h => hnew (h ▸ hs.sources edge he)
    have htarget : edge.target ≠ node.id := fun h => hnew (h ▸ hs.targets edge he)
    simp [touches, hsource, htarget]
  simp only [apply, hasNode, hmem, decide_true, if_true, hnodes, hedges]

theorem addEdge_undo {edge : Edge} (hnew : edge ∉ m.edges) :
    (apply { m with edges := m.edges ++ [edge] } (.removeEdge edge.source edge.target edge.kind)).2 = m := by
  have hmem : edge ∈ m.edges ++ [edge] := by simp
  have herase : (m.edges ++ [edge]).erase edge = m.edges := by
    rw [List.erase_append_right _ hnew, List.erase_cons_head, List.append_nil]
  simp only [apply, hasEdge, hmem, decide_true, if_true, herase]

/-- The flag goes back to the one node that had it. -/
theorem setInitial_undo (hs : m.Sound) (hv : m.Valid) (id : String) :
    ∃ old, (apply { m with nodes := m.nodes.map fun node => { node with initial := node.id = id } }
      (.setInitial old)).2 = m := by
  obtain ⟨old, hfilter, -⟩ := hv.initial
  have hold : old ∈ m.nodes ∧ old.initial = true := by
    have hmem : old ∈ m.nodes.filter (·.initial) := by rw [hfilter]; exact List.mem_singleton_self old
    exact List.mem_filter.mp hmem
  have hmem : old.id ∈ ids (m.nodes.map fun node => { node with initial := node.id = id }) := by
    rw [ids_map_update (f := fun node => { node with initial := node.id = id }) (fun _ => rfl)]
    exact List.mem_map_of_mem hold.1
  have hnodes : (m.nodes.map fun node => { node with initial := node.id = id }).map
      (fun node => { node with initial := node.id = old.id }) = m.nodes := by
    rw [List.map_map]
    refine (List.map_congr_left fun node hnode => ?_).trans (List.map_id m.nodes)
    have hflag : decide (node.id = old.id) = node.initial := by
      rw [Bool.eq_iff_iff, decide_eq_true_iff]
      constructor
      · intro hid
        rw [List.inj_on_of_nodup_map hs.idsDistinct hnode hold.1 hid]
        exact hold.2
      · intro hinitial
        have hmem : node ∈ m.nodes.filter (·.initial) := List.mem_filter.mpr ⟨hnode, hinitial⟩
        rw [hfilter, List.mem_singleton] at hmem
        rw [hmem]
    simp only [Function.comp_apply, hflag, id_eq]
  exact ⟨old.id, by simp only [apply, hasNode, hmem, decide_true, if_true, hnodes]⟩

theorem renameNode_undo {a b : String} (hs : m.Sound)
    (h : a ≠ b ∧ b ≠ "" ∧ a ∈ ids m.nodes ∧ b ∉ ids m.nodes) :
    ((m.relabelled a b).apply (.renameNode b a)).2 = m := by
  obtain ⟨hab, -, ha, hfree⟩ := h
  rw [renameNode_relabels hab.symm (hs.idsNonempty a ha) (mem_relabelled ha b) (not_mem_relabelled hab m.nodes),
    relabelled_relabelled hs hfree]

/-- A call that did nothing needs another that does nothing. -/
theorem undo_unchanged {mu : Mutation} (h : (m.apply mu).2 = m) : ∃ back, ((m.apply mu).2.apply back).2 = m :=
  ⟨.addNode {}, by rw [h]; rfl⟩

/-- Every call that removes nothing is taken back by one call, as long as there is one initial node. -/
theorem exists_undo (hs : m.Sound) (hv : m.Valid) {mu : Mutation} (hmu : mu.removes = false) :
    ∃ back, ((m.apply mu).2.apply back).2 = m := by
  cases mu with
  | removeNode id => cases hmu
  | removeEdge source target kind => cases hmu
  | setSystem system => exact ⟨.setSystem m.system, rfl⟩
  | addNode node =>
    rcases m.addNode_cases node with ⟨-, hsame⟩ | ⟨hnew, hadded⟩
    · exact undo_unchanged hsame
    · exact ⟨.removeNode node.id, by rw [hadded, addNode_undo hs hnew.2]⟩
  | renameNode a b =>
    rcases m.renameNode_cases a b with hsame | ⟨hfree, hrenamed⟩
    · exact undo_unchanged hsame
    · exact ⟨.renameNode b a, by rw [hrenamed, renameNode_undo hs hfree]⟩
  | addEdge source target kind =>
    rcases m.addEdge_cases source target kind with hsame | ⟨hnew, hadded⟩
    · exact undo_unchanged hsame
    · exact ⟨.removeEdge source target kind, by rw [hadded, addEdge_undo hnew]⟩
  | setInitial id =>
    rcases m.setInitial_cases id with hsame | ⟨-, hset⟩
    · exact undo_unchanged hsame
    · obtain ⟨old, hback⟩ := setInitial_undo hs hv id
      exact ⟨.setInitial old, by rw [hset, hback]⟩
  | setNodeTasks id tasks =>
    rcases m.updateNode_cases id ({ · with tasks := tasks }) with hsame | ⟨old, hold, hid⟩
    · exact undo_unchanged hsame
    · exact ⟨.setNodeTasks id old.tasks, update_undo hs hold hid rfl fun _ => rfl⟩
  | setNodeLabel id label =>
    rcases m.updateNode_cases id ({ · with label := label }) with hsame | ⟨old, hold, hid⟩
    · exact undo_unchanged hsame
    · exact ⟨.setNodeLabel id old.label, update_undo hs hold hid rfl fun _ => rfl⟩
  | setNodeBorderColor id color =>
    rcases m.updateNode_cases id ({ · with borderColor := color }) with hsame | ⟨old, hold, hid⟩
    · exact undo_unchanged hsame
    · exact ⟨.setNodeBorderColor id old.borderColor, update_undo hs hold hid rfl fun _ => rfl⟩
  | setNodeFillColor id color =>
    rcases m.updateNode_cases id ({ · with fillColor := color }) with hsame | ⟨old, hold, hid⟩
    · exact undo_unchanged hsame
    · exact ⟨.setNodeFillColor id old.fillColor, update_undo hs hold hid rfl fun _ => rfl⟩

end Plain

/-! ## Taking a run back -/

theorem Graph.run_append (g : Graph) (mus mus' : List Mutation) :
    (g.run (mus ++ mus')).2 = ((g.run mus).2.run mus').2 := by
  induction mus generalizing g with
  | nil => rfl
  | cons mu mus ih => exact ih (g.apply mu).2

theorem Reachable.exists_undo {g : Graph} (h : Reachable g) (hv : g.validate = .ok ()) {mu : Mutation}
    (hmu : mu.removes = false) : ∃ back, ((g.apply mu).2.apply back).2 = g := by
  obtain ⟨m, hm, rfl⟩ := h.indexed
  obtain ⟨back, hback⟩ := Plain.exists_undo hm ((Plain.validate_indexed hm).mp hv) hmu
  refine ⟨back, ?_⟩
  rw [Plain.apply_indexed hm, Plain.apply_indexed (Plain.apply_sound hm mu), hback]

/-- A run through valid graphs that removes nothing is taken back by one call for each of its calls. -/
theorem run_undo {g : Graph} (h : Reachable g) (hv : g.validate = .ok ()) (mus : List Mutation)
    (hkeeps : g.KeepsAll mus) (hmus : ∀ mu ∈ mus, mu.removes = false) :
    ∃ back : List Mutation, back.length = mus.length ∧ ((g.run mus).2.run back).2 = g := by
  induction mus generalizing g with
  | nil => exact ⟨[], rfl, rfl⟩
  | cons mu mus ih =>
    obtain ⟨undo, hundo⟩ := h.exists_undo hv (hmus mu List.mem_cons_self)
    obtain ⟨back, hlength, hback⟩ := ih (.apply mu h) ((apply_keeps h hv mu).mpr hkeeps.1) hkeeps.2
      fun mu hmu => hmus mu (List.mem_cons_of_mem _ hmu)
    refine ⟨back ++ [undo], by rw [List.length_append, hlength]; rfl, ?_⟩
    rw [Graph.run_append]
    show ((((g.apply mu).2.run mus).2.run back).2.apply undo).2 = g
    rw [hback, hundo]

theorem run_undo_single :
    ∃ g, Graph.create {} [{ id := "a", initial := true }] [] = .ok g ∧ ∃ back : List Mutation, back.length = 3 ∧
      ((g.run [.addNode { id := "b" }, .addEdge "a" "b" .loopback, .setInitial "b"]).2.run back).2 = g := by
  obtain ⟨g, hg⟩ : ∃ g, Graph.create {} [{ id := "a", initial := true }] [] = .ok g := ⟨_, rfl⟩
  refine ⟨g, hg, run_undo (.create hg) (create_validates hg)
    [.addNode { id := "b" }, .addEdge "a" "b" .loopback, .setInitial "b"] ?_ (by decide)⟩
  obtain rfl := Except.ok.inj hg
  exact ⟨fun _ _ => ⟨rfl, fun ht => absurd rfl ht⟩, trivial, trivial, trivial⟩

end Stgx
