/-
  Stgx.Resume — working on with a graph that was saved and loaded.

  A load may change the order of the edges leaving a node (`save_load_iff`), but not among
  those of one kind, and nothing else. Graphs that differ in no more have one document and
  answer every call alike, and no call makes them differ in more (`Plain.Alike`).
  - `resave_stable`: what is loaded is saved as the same text;
  - `session_resumed`: saving and loading between calls changes no later answer, and not
    the text saved in the end.
-/

import Stgx.RoundTrip

namespace Stgx

open Stgx.Lib.Grouping

/-! ## Documents -/

/-- The list of the document an edge is in: of its source, and of its kind. -/
def Edge.slot (edge : Edge) : String × EdgeKind := (edge.source, edge.kind)

theorem bucket_slot (edges : List Edge) (id : String) (kind : EdgeKind) :
    bucket Edge.slot edges (id, kind) = bucket Edge.kind (leaving edges id) kind := by
  unfold bucket leaving
  rw [bucket, List.filter_filter]
  refine List.filter_congr fun edge _ => ?_
  rw [Edge.slot, ← Bool.decide_and, decide_eq_decide, Prod.mk.injEq, and_comm]

/-- A node's lists do not tell in which order its edges of different kinds stand. -/
theorem emitNode_congr (node : Node) {edges edges' : List Edge} (h : SameBuckets Edge.kind edges edges') :
    emitNode node edges = emitNode node edges' := by
  have htargets : ∀ kind, targetsOf kind edges = targetsOf kind edges' := fun kind =>
    congrArg (List.map Edge.target) (h kind)
  unfold emitNode
  simp only [emitTargets_eq, htargets]

theorem emitGraph_congr {g g' : Graph} (hsystem : g.system = g'.system) (hnodes : g.nodes = g'.nodes)
    (hout : ∀ id, SameBuckets Edge.kind (g.outEdges id) (g'.outEdges id)) : emitGraph g = emitGraph g' := by
  have hsame : (g.nodes.flatMap fun node => emitNode node (g.outEdges node.id)) =
      g'.nodes.flatMap fun node => emitNode node (g'.outEdges node.id) := by
    rw [hnodes]
    exact List.flatMap_congr fun node _ => emitNode_congr node (hout node.id)
  unfold emitGraph
  rw [hsystem, hsame]

theorem childrenFirst_same (edges : List Edge) : SameBuckets Edge.kind (childrenFirst edges) edges := fun kind =>
  bucket_group (by decide) Edge.kind edges (by cases kind <;> simp)

/-- The graph a load makes of the document of `g`. -/
def reloaded (g : Graph) : Graph := indexed g.system g.nodes (listedEdges g)

section Reloaded

variable {g : Graph} (hs : Sound g.nodes g.edges) (hout : ∀ id, g.outEdges id = leaving g.edges id)
include hs hout

theorem listedEdges_sound : Sound g.nodes (listedEdges g) := hs.of_mem fun _ he => mem_listedEdges hout he

theorem reloaded_outEdges (id : String) : (reloaded g).outEdges id = childrenFirst (g.outEdges id) := by
  have hlisted := listedEdges_sound hs hout
  have hsource : ∀ id, ∀ edge ∈ childrenFirst (g.outEdges id), edge.source = id := by
    intro id edge he
    rw [(childrenFirst_perm _).mem_iff, hout] at he
    exact (mem_bucket.mp he).2
  rw [reloaded, outEdges_indexed hlisted]
  by_cases hid : id ∈ ids g.nodes
  · obtain ⟨node, hnode, rfl⟩ := List.mem_map.mp hid
    have hdistinct : (g.nodes.map Node.id).Nodup := hs.idsDistinct
    exact bucket_flatMap hdistinct (fun node _ edge he => hsource node.id edge he) hnode
  · rw [hout, hs.leaving_eq_nil hid]
    exact hlisted.leaving_eq_nil hid

/-- What leaves a node is in the same order within a kind. -/
theorem reloaded_same (id : String) : SameBuckets Edge.kind ((reloaded g).outEdges id) (g.outEdges id) := by
  rw [reloaded_outEdges hs hout]
  exact childrenFirst_same _

/-- Both have one document. -/
theorem emitGraph_reloaded : emitGraph (reloaded g) = emitGraph g :=
  emitGraph_congr rfl rfl fun id => reloaded_same hs hout id

end Reloaded

theorem load_reloaded {g : Graph} (h : Reachable g) {cpp : YamlCpp} (hcpp : cpp.ReadsBack (emitGraph g))
    {saved : String} (hs : saveYamlString cpp g = .ok saved) (w : Option Diagnostics) :
    loadYamlString cpp saved w = .ok (.ok (reloaded g), w) :=
  (load_saved hs hcpp w).trans (load_graphTree (saveYamlString_ok_iff.mp hs).1 h.outEdges.1 w)

/-- What is saved is loaded as a graph that is saved as the same text; it has the same nodes, and of
    each kind the same edges leave a node in the same order. -/
theorem resave_stable {g : Graph} (h : Reachable g) {cpp : YamlCpp} (hcpp : cpp.ReadsBack (emitGraph g))
    {saved : String} (hs : saveYamlString cpp g = .ok saved) :
    ∃ g', (∀ w, loadYamlString cpp saved w = .ok (.ok g', w)) ∧ saveYamlString cpp g' = .ok saved ∧
      g'.system = g.system ∧ g'.nodes = g.nodes ∧
      ∀ id kind, (g'.outEdges id).filter (·.kind = kind) = (g.outEdges id).filter (·.kind = kind) := by
  obtain ⟨hw, text, hemit, rfl⟩ := saveYamlString_ok_iff.mp hs
  have hout := h.outEdges.1
  refine ⟨reloaded g, load_reloaded h hcpp hs, saveYamlString_ok_iff.mpr ⟨?_, text, ?_, rfl⟩, rfl, rfl,
    reloaded_same h.sound hout⟩
  · have hlisted : WellFormed g.system g.nodes (listedEdges g) := hw.of_mem fun edge he => mem_listedEdges hout he
    exact hlisted.of_mem fun edge he => mem_indexed_edges.mp he
  · rw [emitGraph_reloaded h.sound hout]
    exact hemit

theorem resave_stable_loopback_first :
    ∃ g g', Graph.create {} [{ id := "a", initial := true }] [⟨"a", "a", .loopback⟩, ⟨"a", "a", .transition⟩] = .ok g ∧
      loadYamlString (.knowing (emitGraph g) selfLoops) (selfLoops ++ "\n") none = .ok (.ok g', none) ∧
      saveYamlString (.knowing (emitGraph g) selfLoops) g' = .ok (selfLoops ++ "\n") := by
  obtain ⟨g, hc⟩ : ∃ g, Graph.create {} [{ id := "a", initial := true }]
    [⟨"a", "a", .loopback⟩, ⟨"a", "a", .transition⟩] = .ok g := ⟨_, rfl⟩
  obtain ⟨g', hload, hsave, -⟩ := resave_stable (.create hc) (YamlCpp.knowing_readsBack (emitGraph g) selfLoops)
    (save_knowing (create_wellFormed hc) selfLoops)
  exact ⟨g, g', hc, hload none, hsave⟩

/-! ## Calls -/

namespace Plain

/-- The same but for the order of edges in different lists of the document. -/
structure Alike (m m' : Plain) : Prop where
  system : m.system = m'.system
  nodes : m.nodes = m'.nodes
  edges : SameBuckets Edge.slot m.edges m'.edges

variable {m m' : Plain}

theorem Alike.hasNode (h : m.Alike m') (id : String) : m.hasNode id = m'.hasNode id := by
  rw [Plain.hasNode, Plain.hasNode, h.nodes]

theorem Alike.hasEdge (h : m.Alike m') (source target : String) (kind : EdgeKind) :
    m.hasEdge source target kind = m'.hasEdge source target kind :=
  decide_eq_decide.mpr h.edges.mem_iff

/-- A rename to a free name merges no two lists. -/
theorem slot_relabel {a b : String} (hm : m.Sound) (hb : b ∉ ids m.nodes) :
    ∀ edge ∈ m.edges, ∀ other ∈ m.edges,
      (relabelEdge a b edge).slot = (relabelEdge a b other).slot ↔ edge.slot = other.slot := by
  intro edge he other ho
  show (relabel a b edge.source, edge.kind) = (relabel a b other.source, other.kind) ↔ _
  rw [Edge.slot, Edge.slot, Prod.mk.injEq, Prod.mk.injEq, relabel_inj hb (hm.sources edge he) (hm.sources other ho)]

/-- The same answer, and graphs alike. -/
def AlikeAfter (r r' : Outcome × Plain) : Prop := r.1 = r'.1 ∧ r.2.Alike r'.2

theorem AlikeAfter.ite {c : Prop} [Decidable c] {x x' y y' : Outcome × Plain} (hx : c → AlikeAfter x x')
    (hy : ¬ c → AlikeAfter y y') : AlikeAfter (if c then x else y) (if c then x' else y') := by
  by_cases hc : c
  · rw [if_pos hc, if_pos hc]
    exact hx hc
  · rw [if_neg hc, if_neg hc]
    exact hy hc

theorem Alike.same (h : m.Alike m') (outcome : Outcome) : AlikeAfter (outcome, m) (outcome, m') := ⟨rfl, h⟩

theorem Alike.updateNode (h : m.Alike m') (id : String) (f : Node → Node) :
    AlikeAfter (m.updateNode id f) (m'.updateNode id f) := by
  unfold Plain.updateNode
  rw [h.hasNode]
  exact .ite (fun _ => ⟨rfl, h.system, congrArg (List.map _) h.nodes, h.edges⟩) fun _ => h.same _

/-- One call gives the same answer and leaves graphs alike. -/
theorem Alike.apply (h : m.Alike m') (hm : m.Sound) (mu : Mutation) : AlikeAfter (m.apply mu) (m'.apply mu) := by
  cases mu with
  | setSystem system => exact ⟨rfl, rfl, h.nodes, h.edges⟩
  | addNode node =>
    simp only [Plain.apply, h.hasNode]
    refine .ite (fun _ => h.same _) fun _ => .ite (fun _ => h.same _) fun _ => ?_
    exact ⟨rfl, h.system, congrArg (· ++ [node]) h.nodes, h.edges⟩
  | removeNode id =>
    simp only [Plain.apply, h.hasNode]
    refine .ite (fun _ => ?_) fun _ => h.same _
    exact ⟨rfl, h.system, congrArg (List.filter _) h.nodes, h.edges.filter _⟩
  | renameNode a b =>
    simp only [Plain.apply, h.hasNode]
    refine .ite (fun _ => h.same _) fun _ => .ite (fun _ => h.same _) fun _ => .ite (fun _ => h.same _) fun _ =>
      .ite (fun _ => h.same _) fun hfree => ?_
    have hb : b ∉ ids m.nodes := fun hmem => hfree ((h.hasNode b).symm.trans (decide_eq_true hmem))
    exact ⟨rfl, h.system, congrArg (List.map _) h.nodes, h.edges.map (slot_relabel hm hb)⟩
  | addEdge source target kind =>
    simp only [Plain.apply, h.hasNode, h.hasEdge]
    refine .ite (fun _ => h.same _) fun _ => .ite (fun _ => h.same _) fun _ => .ite (fun _ => h.same _) fun _ => ?_
    exact ⟨rfl, h.system, h.nodes, h.edges.append _⟩
  | removeEdge source target kind =>
    simp only [Plain.apply, h.hasEdge]
    exact .ite (fun _ => ⟨rfl, h.system, h.nodes, h.edges.erase _⟩) fun _ => h.same _
  | setInitial id =>
    simp only [Plain.apply, h.hasNode]
    exact .ite (fun _ => ⟨rfl, h.system, congrArg (List.map _) h.nodes, h.edges⟩) fun _ => h.same _
  | setNodeTasks id tasks => exact h.updateNode id _
  | setNodeLabel id label => exact h.updateNode id _
  | setNodeBorderColor id color => exact h.updateNode id _
  | setNodeFillColor id color => exact h.updateNode id _

theorem Alike.run (h : m.Alike m') (hm : m.Sound) (mus : List Mutation) :
    (m.run mus).1 = (m'.run mus).1 ∧ (m.run mus).2.Alike (m'.run mus).2 := by
  induction mus generalizing m m' with
  | nil => exact ⟨rfl, h⟩
  | cons mu mus ih =>
    obtain ⟨hfirst, halike⟩ := h.apply hm mu
    obtain ⟨hrest, hend⟩ := ih halike (apply_sound hm mu)
    exact ⟨congrArg₂ List.cons hfirst hrest, hend⟩

theorem Alike.findNode (h : m.Alike m') (id : String) : m.findNode id = m'.findNode id := by
  rw [Plain.findNode, Plain.findNode, h.nodes]

theorem Alike.outEdges (h : m.Alike m') (id : String) : SameBuckets Edge.kind (m.outEdges id) (m'.outEdges id) :=
  fun kind => (bucket_slot m.edges id kind).symm.trans ((h.edges (id, kind)).trans (bucket_slot m'.edges id kind))

theorem Alike.validate (h : m.Alike m') (hm : m.Sound) (hm' : m'.Sound) : m.validate = m'.validate := by
  have hdiags : validateGraph m.system m.nodes m.edges = validateGraph m'.system m'.nodes m'.edges := by
    have hs : Stgx.Sound m'.nodes m.edges := h.nodes ▸ hm
    rw [h.system, h.nodes, validateGraph_congr hs hm']
  rw [Plain.validate, Plain.validate, hdiags]

/-- Graphs of alike parts answer alike. -/
theorem Alike.indexed (h : m.Alike m') (hm : m.Sound) (hm' : m'.Sound) (cpp : YamlCpp) :
    saveYamlString cpp m.indexed = saveYamlString cpp m'.indexed ∧ m.indexed.system = m'.indexed.system ∧
      m.indexed.nodes = m'.indexed.nodes ∧ (∀ id, m.indexed.findNode id = m'.indexed.findNode id) ∧
      (∀ source target kind, m.indexed.hasEdge source target kind = m'.indexed.hasEdge source target kind) ∧
      (∀ id kind, (m.indexed.outEdges id).filter (·.kind = kind) = (m'.indexed.outEdges id).filter (·.kind = kind)) ∧
      m.indexed.validate = m'.indexed.validate := by
  have hagrees := indexed_agrees hm
  have hagrees' := indexed_agrees hm'
  have hout : ∀ id, SameBuckets Edge.kind (m.indexed.outEdges id) (m'.indexed.outEdges id) := by
    intro id
    rw [hagrees.outEdges, hagrees'.outEdges]
    exact h.outEdges id
  have hvalid : m.indexed.validate = m'.indexed.validate :=
    hagrees.validate.trans ((h.validate hm hm').trans hagrees'.validate.symm)
  refine ⟨?_, h.system, h.nodes, fun id => ?_, fun source target kind => ?_, fun id kind => hout id kind, hvalid⟩
  · unfold saveYamlString saveEvents
    rw [hvalid, emitGraph_congr h.system h.nodes hout]
  · exact (hagrees.findNode id).trans ((h.findNode id).trans (hagrees'.findNode id).symm)
  · exact (hagrees.hasEdge source target kind).trans
      ((h.hasEdge source target kind).trans (hagrees'.hasEdge source target kind).symm)

end Plain

theorem reloaded_alike {g : Graph} (h : Reachable g) {m : Plain} (hm : m.Sound) (hg : g = m.indexed) :
    (⟨g.system, g.nodes, listedEdges g⟩ : Plain).Alike m := by
  refine ⟨by rw [hg]; rfl, by rw [hg]; rfl, fun slot => ?_⟩
  have hlisted := listedEdges_sound h.sound h.outEdges.1
  have hleaving : leaving (listedEdges g) slot.1 = (reloaded g).outEdges slot.1 := (outEdges_indexed hlisted _).symm
  have hout : leaving m.edges slot.1 = g.outEdges slot.1 := by
    rw [hg]
    exact (outEdges_indexed hm _).symm
  show bucket Edge.slot (listedEdges g) (slot.1, slot.2) = bucket Edge.slot m.edges (slot.1, slot.2)
  rw [bucket_slot, bucket_slot, hleaving, hout]
  exact reloaded_same h.sound h.outEdges.1 slot.1 slot.2

/-- Whatever calls follow, they answer as they would if the graph had not been saved and loaded, and
    leave a graph that is saved as the same text; it answers every query alike, but for the order of
    edges of different kinds leaving a node. -/
theorem session_resumed {g : Graph} (h : Reachable g) {cpp : YamlCpp} (hcpp : cpp.ReadsBack (emitGraph g))
    {saved : String} (hs : saveYamlString cpp g = .ok saved) :
    ∃ g', (∀ w, loadYamlString cpp saved w = .ok (.ok g', w)) ∧ ∀ mus : List Mutation,
      (g'.run mus).1 = (g.run mus).1 ∧ saveYamlString cpp (g'.run mus).2 = saveYamlString cpp (g.run mus).2 ∧
      (g'.run mus).2.system = (g.run mus).2.system ∧ (g'.run mus).2.nodes = (g.run mus).2.nodes ∧
      (∀ id, (g'.run mus).2.findNode id = (g.run mus).2.findNode id) ∧
      (∀ source target kind, (g'.run mus).2.hasEdge source target kind = (g.run mus).2.hasEdge source target kind) ∧
      (∀ id kind, ((g'.run mus).2.outEdges id).filter (·.kind = kind) =
        ((g.run mus).2.outEdges id).filter (·.kind = kind)) ∧
      (g'.run mus).2.validate = (g.run mus).2.validate := by
  refine ⟨reloaded g, load_reloaded h hcpp hs, fun mus => ?_⟩
  obtain ⟨m, hm, hg⟩ := h.indexed
  have hsound : (⟨g.system, g.nodes, listedEdges g⟩ : Plain).Sound := listedEdges_sound h.sound h.outEdges.1
  have hleft : (reloaded g).run mus = _ := Plain.run_indexed hsound mus
  have hright : g.run mus = ((m.run mus).1, (m.run mus).2.indexed) := by
    rw [hg]
    exact Plain.run_indexed hm mus
  obtain ⟨hanswers, hend⟩ := (reloaded_alike h hm hg).run hsound mus
  have hfinal := Plain.run_sound hsound mus
  have hfinal' := Plain.run_sound hm mus
  rw [hleft, hright]
  exact ⟨hanswers, hend.indexed hfinal hfinal' cpp⟩

theorem session_resumed_loopback_first :
    ∃ g g', Graph.create {} [{ id := "a", initial := true }] [⟨"a", "a", .loopback⟩, ⟨"a", "a", .transition⟩] = .ok g ∧
      loadYamlString (.knowing (emitGraph g) selfLoops) (selfLoops ++ "\n") none = .ok (.ok g', none) ∧
      (g'.run [.removeEdge "a" "a" .loopback, .removeNode "b"]).1 =
        (g.run [.removeEdge "a" "a" .loopback, .removeNode "b"]).1 := by
  obtain ⟨g, hc⟩ : ∃ g, Graph.create {} [{ id := "a", initial := true }]
    [⟨"a", "a", .loopback⟩, ⟨"a", "a", .transition⟩] = .ok g := ⟨_, rfl⟩
  obtain ⟨g', hload, hrun⟩ := session_resumed (.create hc) (YamlCpp.knowing_readsBack (emitGraph g) selfLoops)
    (save_knowing (create_wellFormed hc) selfLoops)
  exact ⟨g, g', hc, hload none, (hrun _).1⟩

end Stgx
