/-
  Stgx.Validity — which calls keep a graph valid.

  A graph the API built is referentially sound whatever was called (Stgx.Runs), so a call
  can only spoil the one initial node or the number of tasks of a node. `Graph.Keeps` says
  of each call when it does not.
  - `apply_keeps`: a call leaves a valid graph valid exactly when `Keeps` holds;
  - `run_valid_iff`: a run goes through valid graphs only exactly when each of its calls
    keeps the graph it meets valid.
-/

import Stgx.Renaming

namespace Stgx

/-- The call keeps a valid graph valid. -/
def Graph.Keeps (g : Graph) : Mutation → Prop
  | .setSystem system => system.tasks ≠ [] → ∀ node ∈ g.nodes, node.tasks.length = system.tasks.length
  | .addNode node => node.id ≠ "" → g.hasNode node.id = false →
      node.initial = false ∧ (g.system.tasks ≠ [] → node.tasks.length = g.system.tasks.length)
  | .removeNode id => ∀ node, g.initialNode = some node → node.id ≠ id
  | .setNodeTasks id tasks => g.hasNode id = true → g.system.tasks ≠ [] → tasks.length = g.system.tasks.length
  | _ => True

/-- Each call keeps the graph it meets valid. -/
def Graph.KeepsAll (g : Graph) : List Mutation → Prop
  | [] => True
  | mu :: mus => g.Keeps mu ∧ (g.apply mu).2.KeepsAll mus

namespace Plain

/-- What is left to check of sound parts. -/
structure Valid (m : Plain) : Prop where
  oneInitial : m.nodes.countP (·.initial) = 1
  arity : m.system.tasks ≠ [] → ∀ node ∈ m.nodes, node.tasks.length = m.system.tasks.length

variable {m : Plain}

theorem validate_indexed (h : m.Sound) : m.indexed.validate = .ok () ↔ m.Valid := by
  rw [validate_ok_iff]
  constructor
  · exact fun hw => ⟨hw.oneInitial, hw.arity⟩
  · intro hv
    have hs : Stgx.Sound m.nodes m.indexed.edges := h.indexed_edges
    refine ⟨?_, hs.idsNonempty, hs.idsDistinct, hv.oneInitial, hv.arity, hs.sources, hs.targets⟩
    intro hnil
    have hone := hv.oneInitial
    rw [show m.nodes = [] from hnil] at hone
    cases hone

/-! ## What a call does -/

theorem addNode_cases (m : Plain) (node : Node) :
    (node.id = "" ∨ node.id ∈ ids m.nodes) ∧ (m.apply (.addNode node)).2 = m ∨
      (node.id ≠ "" ∧ node.id ∉ ids m.nodes) ∧
        (m.apply (.addNode node)).2 = { m with nodes := m.nodes ++ [node] } := by
  simp only [apply]
  by_cases hid : node.id = ""
  · exact Or.inl ⟨Or.inl hid, by rw [if_pos hid]⟩
  · by_cases hmem : m.hasNode node.id = true
    · exact Or.inl ⟨Or.inr (of_decide_eq_true hmem), by rw [if_neg hid, if_pos hmem]⟩
    · refine Or.inr ⟨⟨hid, fun hold => hmem (decide_eq_true hold)⟩, ?_⟩
      rw [if_neg hid, if_neg hmem]

/-- What a rename to a free name leaves. -/
theorem renameNode_relabels {a b : String} (hab : a ≠ b) (hb : b ≠ "") (ha : a ∈ ids m.nodes)
    (hfree : b ∉ ids m.nodes) :
    (m.apply (.renameNode a b)).2 = m.relabelled a b := by
  simp only [apply, hasNode, hab, hb, ha, hfree, decide_true, decide_false, Bool.not_true, Bool.false_eq_true, if_false]
  rfl

theorem renameNode_cases (m : Plain) (a b : String) :
    (m.apply (.renameNode a b)).2 = m ∨ (a ≠ b ∧ b ≠ "" ∧ a ∈ ids m.nodes ∧ b ∉ ids m.nodes) ∧
      (m.apply (.renameNode a b)).2 = m.relabelled a b := by
  by_cases hfree : a ≠ b ∧ b ≠ "" ∧ a ∈ ids m.nodes ∧ b ∉ ids m.nodes
  · obtain ⟨hab, hb, ha, hnew⟩ := hfree
    exact Or.inr ⟨⟨hab, hb, ha, hnew⟩, renameNode_relabels hab hb ha hnew⟩
  · refine Or.inl ?_
    simp only [apply]
    split
    · rfl
    · rename_i hb
      split
      · rfl
      · rename_i ha
        split
        · rfl
        · rename_i hab
          split
          · rfl
          · rename_i hnew
            exact absurd ⟨hab, hb, by simpa [hasNode] using ha, by simpa [hasNode] using hnew⟩ hfree

theorem addEdge_cases (m : Plain) (source target : String) (kind : EdgeKind) :
    (m.apply (.addEdge source target kind)).2 = m ∨ (⟨source, target, kind⟩ : Edge) ∉ m.edges ∧
      (m.apply (.addEdge source target kind)).2 = { m with edges := m.edges ++ [⟨source, target, kind⟩] } := by
  simp only [apply]
  split
  · exact Or.inl rfl
  · split
    · exact Or.inl rfl
    · split
      · exact Or.inl rfl
      · rename_i he
        exact Or.inr ⟨fun hmem => he (decide_eq_true hmem), rfl⟩

theorem setInitial_cases (m : Plain) (id : String) :
    (m.apply (.setInitial id)).2 = m ∨ id ∈ ids m.nodes ∧ (m.apply (.setInitial id)).2 =
      { m with nodes := m.nodes.map fun node => { node with initial := node.id = id } } := by
  simp only [apply]
  by_cases hid : m.hasNode id = true
  · rw [if_pos hid]
    exact Or.inr ⟨of_decide_eq_true hid, rfl⟩
  · rw [if_neg hid]
    exact Or.inl rfl

theorem updateNode_cases (m : Plain) (id : String) (f : Node → Node) :
    (m.updateNode id f).2 = m ∨ ∃ old ∈ m.nodes, old.id = id := by
  unfold updateNode
  by_cases hid : m.hasNode id = true
  · exact Or.inr (List.mem_map.mp (of_decide_eq_true hid))
  · rw [if_neg hid]
    exact Or.inl rfl

/-! ## One call -/

/-- Nodes with the same flags and numbers of tasks. -/
theorem Valid.of_map {f : Node → Node} (h : m.Valid) (hinitial : ∀ node, (f node).initial = node.initial)
    (htasks : ∀ node, (f node).tasks = node.tasks) (edges : List Edge) : Valid ⟨m.system, m.nodes.map f, edges⟩ := by
  constructor
  · rw [List.countP_map]
    exact (List.countP_congr fun node _ => by simp [hinitial]).trans h.oneInitial
  · intro ht node hnode
    obtain ⟨old, hold, rfl⟩ := List.mem_map.mp hnode
    rw [htasks]
    exact h.arity ht old hold

theorem Valid.update {f : Node → Node} (h : m.Valid) (hinitial : ∀ node, (f node).initial = node.initial)
    (htasks : ∀ node, (f node).tasks = node.tasks) (id : String) : (m.updateNode id f).2.Valid := by
  unfold updateNode
  split
  · refine h.of_map (fun node => ?_) (fun node => ?_) m.edges
    · split
      · exact hinitial node
      · rfl
    · split
      · exact htasks node
      · rfl
  · exact h

theorem Valid.addNode_iff (h : m.Valid) (node : Node) :
    Valid { m with nodes := m.nodes ++ [node] } ↔
      node.initial = false ∧ (m.system.tasks ≠ [] → node.tasks.length = m.system.tasks.length) := by
  have hcount : (m.nodes ++ [node]).countP (·.initial) = 1 ↔ node.initial = false := by
    rw [List.countP_append, h.oneInitial, List.countP_singleton]
    cases node.initial <;> simp
  constructor
  · exact fun hv => ⟨hcount.mp hv.oneInitial, fun ht => hv.arity ht node (by simp)⟩
  · rintro ⟨hinitial, htasks⟩
    refine ⟨hcount.mpr hinitial, fun ht other hother => ?_⟩
    rcases List.mem_append.mp hother with hother | hother
    · exact h.arity ht other hother
    · rw [List.mem_singleton.mp hother]
      exact htasks ht

/-- The one node that is initial. -/
theorem Valid.initial (h : m.Valid) : ∃ node, m.nodes.filter (·.initial) = [node] ∧ m.initialNode = some node := by
  have hone := h.oneInitial
  rw [List.countP_eq_length_filter] at hone
  obtain ⟨node, hnode⟩ := List.length_eq_one_iff.mp hone
  refine ⟨node, hnode, ?_⟩
  rw [initialNode, ← List.head?_filter, hnode]
  rfl

theorem Valid.removeNode_iff (h : m.Valid) (id : String) (edges : List Edge) :
    Valid ⟨m.system, m.nodes.filter fun node => node.id ≠ id, edges⟩ ↔
      ∀ node, m.initialNode = some node → node.id ≠ id := by
  obtain ⟨node, hfilter, hinitial⟩ := h.initial
  have hcomm : (m.nodes.filter fun node => node.id ≠ id).countP (·.initial) =
      (m.nodes.filter (·.initial)).countP fun node => node.id ≠ id := by
    rw [List.countP_filter, List.countP_filter]
    exact List.countP_congr fun node _ => by rw [Bool.and_comm]
  have hcount : (m.nodes.filter fun node => node.id ≠ id).countP (·.initial) = 1 ↔ node.id ≠ id := by
    rw [hcomm, hfilter]
    by_cases hid : node.id = id <;> simp [hid]
  constructor
  · intro hv other hother
    rw [← Option.some.inj (hinitial.symm.trans hother)]
    exact hcount.mp hv.oneInitial
  · intro hid
    exact ⟨hcount.mpr (hid node hinitial), fun ht node hnode => h.arity ht node (List.mem_filter.mp hnode).1⟩

theorem Valid.setInitial (h : m.Valid) (hs : m.Sound) {id : String} (hid : id ∈ ids m.nodes) :
    Valid { m with nodes := m.nodes.map fun node => { node with initial := node.id = id } } := by
  constructor
  · rw [List.countP_map, ← List.count_eq_one_of_mem hs.idsDistinct hid, ids, List.count_eq_countP, List.countP_map]
    exact List.countP_congr fun node _ => by simp
  · intro ht node hnode
    obtain ⟨old, hold, rfl⟩ := List.mem_map.mp hnode
    exact h.arity ht old hold

theorem Valid.setNodeTasks_iff (h : m.Valid) (id : String) (tasks : List TaskState) :
    (m.updateNode id ({ · with tasks := tasks })).2.Valid ↔
      (m.hasNode id = true → m.system.tasks ≠ [] → tasks.length = m.system.tasks.length) := by
  unfold updateNode
  by_cases hid : m.hasNode id = true
  · rw [if_pos hid]
    constructor
    · intro hv _ ht
      obtain ⟨node, hnode, rfl⟩ := List.mem_map.mp (of_decide_eq_true hid)
      have hlen := hv.arity ht _ (List.mem_map_of_mem hnode)
      rwa [if_pos rfl] at hlen
    · intro hlen
      constructor
      · rw [List.countP_map]
        refine (List.countP_congr fun node _ => ?_).trans h.oneInitial
        simp only [Function.comp_apply]
        split <;> rfl
      · intro ht node hnode
        obtain ⟨old, hold, rfl⟩ := List.mem_map.mp hnode
        split
        · exact hlen hid ht
        · exact h.arity ht old hold
  · rw [if_neg hid]
    exact iff_of_true h fun hmem => absurd hmem hid

/-- A call leaves valid parts valid exactly when it keeps them so. -/
theorem Valid.apply_iff (hs : m.Sound) (h : m.Valid) (mu : Mutation) : (m.apply mu).2.Valid ↔ m.indexed.Keeps mu := by
  cases mu with
  | setSystem system => exact ⟨fun hv => hv.arity, fun hlen => ⟨h.oneInitial, hlen⟩⟩
  | addNode node =>
    simp only [Graph.Keeps, hasNode_indexed, hasNode, decide_eq_false_iff_not]
    rcases m.addNode_cases node with ⟨hfailed, hsame⟩ | ⟨hnew, hadded⟩
    · rw [hsame]
      refine iff_of_true h fun hid hmem => ?_
      rcases hfailed with hfailed | hfailed
      · exact absurd hfailed hid
      · exact absurd hfailed hmem
    · rw [hadded, h.addNode_iff]
      exact ⟨fun hkeeps _ _ => hkeeps, fun hkeeps => hkeeps hnew.1 hnew.2⟩
  | removeNode id =>
    simp only [apply, Graph.Keeps]
    by_cases hid : m.hasNode id = true
    · rw [if_pos hid, h.removeNode_iff]
      rfl
    · rw [if_neg hid]
      refine iff_of_true h fun node hnode he => hid ?_
      rw [← he]
      exact decide_eq_true (List.mem_map_of_mem (List.mem_of_find?_eq_some hnode))
  | renameNode a b =>
    refine iff_of_true ?_ trivial
    rcases m.renameNode_cases a b with hsame | ⟨-, hrenamed⟩
    · rw [hsame]
      exact h
    · rw [hrenamed]
      exact h.of_map (f := relabelNode a b) (fun _ => rfl) (fun _ => rfl) _
  | addEdge source target kind =>
    refine iff_of_true ?_ trivial
    rcases m.addEdge_cases source target kind with hsame | ⟨-, hadded⟩
    · rw [hsame]
      exact h
    · rw [hadded]
      exact ⟨h.oneInitial, h.arity⟩
  | removeEdge source target kind =>
    refine iff_of_true ?_ trivial
    simp only [apply]
    split
    · exact ⟨h.oneInitial, h.arity⟩
    · exact h
  | setInitial id =>
    refine iff_of_true ?_ trivial
    rcases m.setInitial_cases id with hsame | ⟨hid, hset⟩
    · rw [hsame]
      exact h
    · rw [hset]
      exact h.setInitial hs hid
  | setNodeTasks id tasks =>
    simp only [apply, Graph.Keeps, hasNode_indexed]
    exact h.setNodeTasks_iff id tasks
  | setNodeLabel id label =>
    exact iff_of_true (h.update (f := ({ · with label := label })) (fun _ => rfl) (fun _ => rfl) id) trivial
  | setNodeBorderColor id color =>
    exact iff_of_true (h.update (f := ({ · with borderColor := color })) (fun _ => rfl) (fun _ => rfl) id) trivial
  | setNodeFillColor id color =>
    exact iff_of_true (h.update (f := ({ · with fillColor := color })) (fun _ => rfl) (fun _ => rfl) id) trivial

end Plain

/-! ## Runs -/

/-- A call leaves a valid graph valid exactly when it keeps it so. -/
theorem apply_keeps {g : Graph} (h : Reachable g) (hv : g.validate = .ok ()) (mu : Mutation) :
    (g.apply mu).2.validate = .ok () ↔ g.Keeps mu := by
  obtain ⟨m, hm, rfl⟩ := h.indexed
  rw [Plain.apply_indexed hm, Plain.validate_indexed (Plain.apply_sound hm mu)]
  exact ((Plain.validate_indexed hm).mp hv).apply_iff hm mu

/-- A run goes through valid graphs only exactly when each call keeps the graph it meets so. -/
theorem run_valid_iff {g : Graph} (h : Reachable g) (hv : g.validate = .ok ()) (mus : List Mutation) :
    g.KeepsAll mus ↔ ∀ k, (g.run (mus.take k)).2.validate = .ok () := by
  induction mus generalizing g with
  | nil => exact iff_of_true trivial fun k => by rw [List.take_nil]; exact hv
  | cons mu mus ih =>
    rw [Graph.KeepsAll]
    constructor
    · rintro ⟨hkeeps, hrest⟩ k
      have hv' := (apply_keeps h hv mu).mpr hkeeps
      cases k with
      | zero => exact hv
      | succ k => exact (ih (.apply mu h) hv').mp hrest k
    · intro hall
      have hv' : (g.apply mu).2.validate = .ok () := by
        have hone := hall 1
        rw [List.take_succ_cons, List.take_zero] at hone
        exact hone
      exact ⟨(apply_keeps h hv mu).mp hv', (ih (.apply mu h) hv').mpr fun k => hall (k + 1)⟩

/-- What `create` accepts validates. -/
theorem create_validates {system : System} {nodes : List Node} {edges : List Edge} {g : Graph}
    (h : Graph.create system nodes edges = .ok g) : g.validate = .ok () := by
  obtain ⟨hw, rfl⟩ := create_ok_iff.mp h
  exact (validate_ok_iff _).mpr (hw.of_mem fun _ he => (indexed_edges_perm hw.sound).mem_iff.mp he)

theorem run_valid_iff_single :
    ∃ g, Graph.create {} [{ id := "a", initial := true }] [] = .ok g ∧
      ∀ k, (g.run ([.addNode { id := "b" }, .addEdge "a" "b" .loopback, .setInitial "b",
        .removeNode "a"].take k)).2.validate =
        .ok () := by
  obtain ⟨g, hg⟩ : ∃ g, Graph.create {} [{ id := "a", initial := true }] [] = .ok g := ⟨_, rfl⟩
  refine ⟨g, hg, (run_valid_iff (.create hg) (create_validates hg) _).mp ?_⟩
  obtain rfl := Except.ok.inj hg
  refine ⟨fun _ _ => ⟨rfl, fun ht => absurd rfl ht⟩, trivial, trivial, fun node hnode => ?_, trivial⟩
  obtain rfl := Option.some.inj hnode
  decide

end Stgx
