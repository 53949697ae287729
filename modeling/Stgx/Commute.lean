/-
  Stgx.Commute — calls about different ids can be made in either order.

  A call of the nine that name ids (`Mutation.footprint`) looks at the graph only at those
  ids (`apply_congr`) and then makes one edit there: it drops or renames a node, adds or
  erases an edge, marks the initial node or sets a field (`Edit`). An edit sends ids to ids
  and fixes those outside its footprint (`route_eq_some`), so it changes no answer there
  (`perform_agrees`), and two edits with disjoint footprints commute: on the nodes as they
  are (`nodes_comm`), on the edges as far as what leaves each node (`edges_comm`), which is
  all the graph keeps of their order.
  - `mutations_commute`: so the two calls give the same graph in either order, and each returns
    the same. Two calls of `set_initial` do not: each clears the flag on every other node.
-/

import Stgx.Runs

namespace Stgx

open Stgx.Lib.Grouping

/-- The ids a call is about. -/
def Mutation.footprint : Mutation → Option (List String)
  | .setSystem _ | .addNode _ => none
  | .renameNode a b => some [a, b]
  | .addEdge source target _ | .removeEdge source target _ => some [source, target]
  | .removeNode id | .setInitial id | .setNodeTasks id _ | .setNodeLabel id _ | .setNodeBorderColor id _
  | .setNodeFillColor id _ => some [id]

def Mutation.setsInitial : Mutation → Bool
  | .setInitial _ => true
  | _ => false

/-! ## Edits -/

/-- A change of a node that keeps its id and does not look at the initial flag. -/
structure Setter where
  set : Node → Node
  id : ∀ node, (set node).id = node.id
  initial : ∀ node flag, set { node with initial := flag } = { set node with initial := flag }

def tasksSetter (tasks : List TaskState) : Setter := ⟨({ · with tasks := tasks }), fun _ => rfl, fun _ _ => rfl⟩

def labelSetter (label : Option String) : Setter := ⟨({ · with label := label }), fun _ => rfl, fun _ _ => rfl⟩

def borderColorSetter (color : Option String) : Setter :=
  ⟨({ · with borderColor := color }), fun _ => rfl, fun _ _ => rfl⟩

def fillColorSetter (color : Option String) : Setter := ⟨({ · with fillColor := color }), fun _ => rfl, fun _ _ => rfl⟩

/-- What a call does to the graph. -/
inductive Edit where
  | none
  | drop (id : String)
  | relabel (a b : String)
  | append (edge : Edge)
  | erase (edge : Edge)
  | mark (id : String)
  | set (id : String) (setter : Setter)

/-- An edge with its endpoints sent along `route`, if both stay. -/
def reroute (route : String → Option String) (edge : Edge) : Option Edge :=
  (route edge.source).bind fun source => (route edge.target).map fun target => ⟨source, target, edge.kind⟩

namespace Edit

def footprint : Edit → List String
  | none => []
  | drop id | mark id | set id _ => [id]
  | relabel a b => [a, b]
  | append edge | erase edge => [edge.source, edge.target]

/-- Where an id goes. -/
def route : Edit → String → Option String
  | drop id, x => if x = id then Option.none else some x
  | relabel a b, x => some (Stgx.relabel a b x)
  | _, x => some x

/-- What becomes of a node. -/
def node : Edit → Node → Option Node
  | drop id, node => if node.id = id then Option.none else some node
  | relabel a b, node => some (relabelNode a b node)
  | mark id, node => some { node with initial := decide (node.id = id) }
  | set id setter, node => some (if node.id = id then setter.set node else node)
  | _, node => some node

/-- The edge added or erased. -/
def splice : Edit → List Edge → List Edge
  | append edge, edges => edges ++ [edge]
  | erase edge, edges => edges.erase edge
  | _, edges => edges

def perform (e : Edit) (m : Plain) : Plain :=
  ⟨m.system, m.nodes.filterMap e.node, e.splice (m.edges.filterMap (reroute e.route))⟩

/-- The edit clears the initial flag outside its footprint. -/
def clears : Edit → Bool
  | mark _ => true
  | _ => false

/-- What becomes of a node outside the footprint. -/
def off (e : Edit) (node : Node) : Node := if e.clears then { node with initial := false } else node

end Edit

/-- The edit of a node's field. -/
def Plain.editField (m : Plain) (id : String) (setter : Setter) : Edit :=
  if m.hasNode id then .set id setter else .none

/-- The edit a call that names ids makes. -/
def Plain.edit (m : Plain) : Mutation → Edit
  | .setSystem _ | .addNode _ => .none
  | .removeNode id => if m.hasNode id then .drop id else .none
  | .renameNode a b =>
    if b = "" then .none else if !m.hasNode a then .none else if a = b then .none else if m.hasNode b then .none
    else .relabel a b
  | .addEdge source target kind =>
    if !m.hasNode source then .none else if !m.hasNode target then .none
    else if m.hasEdge source target kind then .none
    else .append ⟨source, target, kind⟩
  | .removeEdge source target kind => if m.hasEdge source target kind then .erase ⟨source, target, kind⟩ else .none
  | .setInitial id => if m.hasNode id then .mark id else .none
  | .setNodeTasks id tasks => m.editField id (tasksSetter tasks)
  | .setNodeLabel id label => m.editField id (labelSetter label)
  | .setNodeBorderColor id color => m.editField id (borderColorSetter color)
  | .setNodeFillColor id color => m.editField id (fillColorSetter color)

/-! ## A call is its edit -/

theorem filterMap_reroute_some (edges : List Edge) : edges.filterMap (reroute some) = edges := List.filterMap_some

/-- An edit that keeps every edge. -/
theorem perform_of_some {e : Edit} {f : Node → Node} (hnode : e.node = fun node => some (f node))
    (hroute : e.route = some) (m : Plain) :
    e.perform m = { m with nodes := m.nodes.map f, edges := e.splice m.edges } := by
  have hnodes : m.nodes.filterMap (fun node => some (f node)) = m.nodes.map f := congrFun List.filterMap_eq_map m.nodes
  rw [Edit.perform, hnode, hroute, filterMap_reroute_some, hnodes]

namespace Edit

theorem perform_none (m : Plain) : none.perform m = m := by
  rw [perform_of_some (f := id) rfl rfl, List.map_id]
  rfl

theorem perform_append (edge : Edge) (m : Plain) : (append edge).perform m = { m with edges := m.edges ++ [edge] } := by
  rw [perform_of_some (f := id) rfl rfl, List.map_id]
  rfl

theorem perform_erase (edge : Edge) (m : Plain) : (erase edge).perform m = { m with edges := m.edges.erase edge } := by
  rw [perform_of_some (f := id) rfl rfl, List.map_id]
  rfl

theorem perform_mark (id : String) (m : Plain) :
    (mark id).perform m = { m with nodes := m.nodes.map fun node => { node with initial := decide (node.id = id) } } :=
  perform_of_some rfl rfl m

theorem perform_set (id : String) (setter : Setter) (m : Plain) :
    (set id setter).perform m =
      { m with nodes := m.nodes.map fun node => if node.id = id then setter.set node else node } :=
  perform_of_some rfl rfl m

theorem reroute_drop (id : String) (edge : Edge) :
    reroute (drop id).route edge = if !touches id edge then some edge else Option.none := by
  obtain ⟨source, target, kind⟩ := edge
  unfold reroute route touches
  by_cases hs : source = id <;> by_cases ht : target = id <;> simp [hs, ht]

theorem perform_drop (id : String) (m : Plain) :
    (drop id).perform m =
      { m with nodes := m.nodes.filter fun node => node.id ≠ id, edges := m.edges.filter (!touches id ·) } := by
  have hnodes : m.nodes.filterMap (drop id).node = m.nodes.filter fun node => node.id ≠ id := by
    rw [← List.filterMap_eq_filter]
    refine List.filterMap_congr fun node _ => ?_
    by_cases h : node.id = id <;> simp [Edit.node, Option.guard, h]
  have hedges : m.edges.filterMap (reroute (drop id).route) = m.edges.filter (!touches id ·) := by
    rw [← List.filterMap_eq_filter]
    refine List.filterMap_congr fun edge _ => ?_
    rw [reroute_drop]
    rfl
  rw [perform, hnodes, hedges]
  rfl

theorem perform_relabel (a b : String) (m : Plain) :
    (relabel a b).perform m =
      { m with nodes := m.nodes.map (relabelNode a b), edges := m.edges.map (relabelEdge a b) } := by
  have hnodes : m.nodes.filterMap (relabel a b).node = m.nodes.map (relabelNode a b) :=
    congrFun (List.filterMap_eq_map (f := relabelNode a b)) m.nodes
  have hedges : m.edges.filterMap (reroute (relabel a b).route) = m.edges.map (relabelEdge a b) :=
    congrFun (List.filterMap_eq_map (f := relabelEdge a b)) m.edges
  rw [perform, hnodes, hedges]
  rfl

end Edit

theorem Plain.updateNode_edit (m : Plain) (id : String) (setter : Setter) :
    (m.updateNode id setter.set).2 = (m.editField id setter).perform m := by
  unfold Plain.updateNode Plain.editField
  split
  · exact (Edit.perform_set id setter m).symm
  · exact (Edit.perform_none m).symm

/-- A call that names ids makes its edit. -/
theorem Plain.apply_edit (m : Plain) {mu : Mutation} {F : List String} (hF : mu.footprint = some F) :
    (m.apply mu).2 = (m.edit mu).perform m := by
  cases mu with
  | setSystem system => cases hF
  | addNode node => cases hF
  | removeNode id =>
    simp only [Plain.apply, Plain.edit]
    split <;> simp only [Edit.perform_drop, Edit.perform_none]
  | renameNode a b =>
    simp only [Plain.apply, Plain.edit]
    split
    · exact (Edit.perform_none m).symm
    · split
      · exact (Edit.perform_none m).symm
      · split
        · exact (Edit.perform_none m).symm
        · split <;> simp only [Edit.perform_relabel, Edit.perform_none]
  | addEdge source target kind =>
    simp only [Plain.apply, Plain.edit]
    split
    · exact (Edit.perform_none m).symm
    · split
      · exact (Edit.perform_none m).symm
      · split <;> simp only [Edit.perform_append, Edit.perform_none]
  | removeEdge source target kind =>
    simp only [Plain.apply, Plain.edit]
    split <;> simp only [Edit.perform_erase, Edit.perform_none]
  | setInitial id =>
    simp only [Plain.apply, Plain.edit]
    split <;> simp only [Edit.perform_mark, Edit.perform_none]
  | setNodeTasks id tasks => exact m.updateNode_edit id (tasksSetter tasks)
  | setNodeLabel id label => exact m.updateNode_edit id (labelSetter label)
  | setNodeBorderColor id color => exact m.updateNode_edit id (borderColorSetter color)
  | setNodeFillColor id color => exact m.updateNode_edit id (fillColorSetter color)

/-! ## Outside the footprint -/

namespace Edit

variable {e e' : Edit}

theorem node_route (e : Edit) (node : Node) : (e.node node).map Node.id = e.route node.id := by
  cases e with
  | drop id =>
    unfold Edit.node route
    by_cases h : node.id = id <;> simp [h]
  | set id setter =>
    unfold Edit.node route
    by_cases h : node.id = id <;> simp [h, setter.id]
  | _ => rfl

/-- Outside the footprint an id comes from itself only. -/
theorem route_eq_some {x y : String} (hx : x ∉ e.footprint) : e.route y = some x ↔ y = x := by
  cases e with
  | drop id =>
    have hne : x ≠ id := by simpa [footprint] using hx
    unfold route
    by_cases h : y = id
    · subst h
      simp [hne.symm]
    · simp [h]
  | relabel a b =>
    obtain ⟨ha, hb⟩ : x ≠ a ∧ x ≠ b := by simpa [footprint] using hx
    unfold route Stgx.relabel
    by_cases h : y = a
    · subst h
      simp [hb.symm, ha.symm]
    · simp [h]
  | _ => simp [route]

theorem node_off {node : Node} (h : node.id ∉ e.footprint) : e.node node = some (e.off node) := by
  cases e with
  | drop id => simpa [footprint, Edit.node, off, clears] using h
  | relabel a b =>
    obtain ⟨ha, -⟩ : node.id ≠ a ∧ node.id ≠ b := by simpa [footprint] using h
    simp [Edit.node, off, clears, relabelNode, Stgx.relabel, ha]
  | mark id => simpa [footprint, Edit.node, off, clears] using h
  | set id setter =>
    have hne : node.id ≠ id := by simpa [footprint] using h
    simp [Edit.node, off, clears, hne]
  | _ => rfl

/-- Clearing the initial flag makes no difference to an edit that does not set it. -/
theorem node_comm_off (hclears : ¬ (e.clears = true ∧ e'.clears = true)) (node : Node) :
    e.node (e'.off node) = (e.node node).map e'.off := by
  unfold off
  by_cases h' : e'.clears = true
  · have h : e.clears = false := by simpa [h'] using hclears
    simp only [h', if_true]
    cases e with
    | drop id =>
      unfold Edit.node
      by_cases hid : node.id = id <;> simp [hid]
    | mark id => cases h
    | set id setter =>
      unfold Edit.node
      by_cases hid : node.id = id
      · simp only [hid, if_true, Option.map_some]
        rw [← setter.initial, hid]
      · simp only [hid, if_false, Option.map_some]
    | _ => rfl
  · simp only [h', Bool.false_eq_true, if_false]
    cases e.node node <;> rfl

end Edit

/-! ## Two edits -/

theorem reroute_bind (r r' : String → Option String) (edge : Edge) :
    (reroute r edge).bind (reroute r') = reroute (fun x => (r x).bind r') edge := by
  unfold reroute
  cases hs : r edge.source with
  | none => simp [hs]
  | some source =>
    cases ht : r edge.target with
    | none => cases hs' : r' source <;> simp [hs, ht, hs']
    | some target => simp [hs, ht]

/-- Dropping an item before or after the others change. -/
theorem filterMap_erase {α β : Type} [DecidableEq α] [DecidableEq β] {f : α → Option β} {x : α} {y : β}
    (h : ∀ z, f z = some y ↔ z = x) (l : List α) : (l.erase x).filterMap f = (l.filterMap f).erase y := by
  induction l with
  | nil => rfl
  | cons z l ih =>
    by_cases hz : z = x
    · subst hz
      rw [List.erase_cons_head, List.filterMap_cons_some ((h z).mpr rfl), List.erase_cons_head]
    · have hne : f z ≠ some y := fun hf => hz ((h z).mp hf)
      rw [List.erase_cons_tail (by simpa using hz)]
      cases hf : f z with
      | none => rw [List.filterMap_cons_none hf, List.filterMap_cons_none hf, ih]
      | some w =>
        have hw : w ≠ y := fun e => hne (hf.trans (congrArg some e))
        rw [List.filterMap_cons_some hf, List.filterMap_cons_some hf, List.erase_cons_tail (by simpa using hw), ih]

theorem erase_concat {edge edge' : Edge} (h : edge ≠ edge') (edges : List Edge) :
    (edges ++ [edge]).erase edge' = edges.erase edge' ++ [edge] := by
  rw [List.erase_append]
  split
  · rfl
  · rename_i hmem
    rw [List.erase_of_not_mem hmem, List.erase_of_not_mem (by simpa using Ne.symm h)]

namespace Edit

variable {e e' : Edit}

/-- An edge with both endpoints outside the footprint comes from itself only. -/
theorem reroute_eq_some {edge : Edge} (hs : edge.source ∉ e.footprint) (ht : edge.target ∉ e.footprint) (old : Edge) :
    reroute e.route old = some edge ↔ old = edge := by
  obtain ⟨source, target, kind⟩ := edge
  obtain ⟨source', target', kind'⟩ := old
  simp only [reroute, Option.bind_eq_some_iff, Option.map_eq_some_iff, Edge.mk.injEq]
  constructor
  · intro h
    obtain ⟨s, hrs, t, hrt, rfl, rfl, rfl⟩ := h
    exact ⟨(route_eq_some hs).mp hrs, (route_eq_some ht).mp hrt, rfl⟩
  · intro h
    obtain ⟨rfl, rfl, rfl⟩ := h
    exact ⟨_, (route_eq_some hs).mpr rfl, _, (route_eq_some ht).mpr rfl, rfl, rfl, rfl⟩

section Disjoint

variable (h : e.footprint.Disjoint e'.footprint)
include h

/-- An edit sends no id into another's footprint, nor out of it. -/
theorem route_mem {x y : String} (hr : e.route x = some y) : y ∈ e'.footprint ↔ x ∈ e'.footprint := by
  constructor
  · intro hy
    have hxy : x = y := (route_eq_some fun hmem => h hmem hy).mp hr
    exact hxy ▸ hy
  · intro hx
    have hself : e.route x = some x := (route_eq_some fun hmem => h hmem hx).mpr rfl
    rw [hself] at hr
    exact Option.some.inj hr ▸ hx

theorem route_comm_off {x : String} (hx : x ∉ e'.footprint) :
    (e.route x).bind e'.route = (e'.route x).bind e.route := by
  rw [(route_eq_some hx).mpr rfl, Option.bind_some]
  cases hr : e.route x with
  | none => rfl
  | some y => exact (route_eq_some fun hy => hx ((route_mem h hr).mp hy)).mpr rfl

theorem node_comm_off_footprint (hclears : ¬ (e.clears = true ∧ e'.clears = true)) {node : Node}
    (hout : node.id ∉ e'.footprint) : (e.node node).bind e'.node = (e'.node node).bind e.node := by
  rw [node_off hout, Option.bind_some, node_comm_off hclears]
  cases hn : e.node node with
  | none => rfl
  | some new =>
    have hroute : e.route node.id = some new.id := by rw [← node_route, hn, Option.map_some]
    exact node_off fun hmem => hout ((route_mem h hroute).mp hmem)

theorem route_comm (x : String) :
    (e.route x).bind e'.route = (e'.route x).bind e.route := by
  by_cases hx : x ∈ e'.footprint
  · exact (route_comm_off (List.disjoint_symm h) fun hmem => h hmem hx).symm
  · exact route_comm_off h hx

theorem node_comm (hclears : ¬ (e.clears = true ∧ e'.clears = true)) (node : Node) :
    (e.node node).bind e'.node = (e'.node node).bind e.node := by
  by_cases hid : node.id ∈ e'.footprint
  · exact (node_comm_off_footprint (List.disjoint_symm h) (fun hc => hclears hc.symm) fun hmem => h hmem hid).symm
  · exact node_comm_off_footprint h hclears hid

/-- The edge one edit adds or erases is none of the other's. -/
theorem splice_reroute (edges : List Edge) :
    (e.splice edges).filterMap (reroute e'.route) = e.splice (edges.filterMap (reroute e'.route)) := by
  cases e with
  | append edge =>
    have hself : reroute e'.route edge = some edge :=
      (reroute_eq_some (h (by simp [footprint])) (h (by simp [footprint])) edge).mpr rfl
    simp only [splice, List.filterMap_append, List.filterMap_cons, hself, List.filterMap_nil]
  | erase edge =>
    exact filterMap_erase (reroute_eq_some (h (by simp [footprint])) (h (by simp [footprint]))) edges
  | _ => rfl

/-- In which order two edges are added or erased shows in no node's edges. -/
theorem splice_comm (edges : List Edge) (id : String) :
    leaving (e'.splice (e.splice edges)) id = leaving (e.splice (e'.splice edges)) id := by
  have hne : ∀ {edge edge' : Edge}, edge.source ∈ e.footprint → edge'.source ∈ e'.footprint → edge ≠ edge' := by
    intro edge edge' hmem hmem' heq
    subst heq
    exact h hmem hmem'
  cases e with
  | append edge =>
    cases e' with
    | append edge' =>
      have hone : bucket Edge.source [edge] id = [] ∨ bucket Edge.source [edge'] id = [] := by
        by_cases hs : edge.source = id
        · have hs' : edge'.source ≠ id := by
            intro hs'
            exact h (a := id) (by simp [footprint, hs]) (by simp [footprint, hs'])
          exact .inr (by simp [bucket, hs'])
        · exact .inl (by simp [bucket, hs])
      simp only [splice, leaving, bucket_append]
      rcases hone with hone | hone <;> simp only [hone, List.append_nil]
    | erase edge' =>
      exact congrArg (leaving · id) (erase_concat (hne (by simp [footprint]) (by simp [footprint])) edges)
    | _ => rfl
  | erase edge =>
    cases e' with
    | append edge' =>
      exact congrArg (leaving · id) (erase_concat (hne (by simp [footprint]) (by simp [footprint])).symm edges).symm
    | erase edge' => exact congrArg (leaving · id) (List.erase_comm edge edge')
    | _ => rfl
  | _ => rfl

theorem nodes_comm (hclears : ¬ (e.clears = true ∧ e'.clears = true)) (m : Plain) :
    (e'.perform (e.perform m)).nodes = (e.perform (e'.perform m)).nodes := by
  show (m.nodes.filterMap e.node).filterMap e'.node = (m.nodes.filterMap e'.node).filterMap e.node
  rw [List.filterMap_filterMap, List.filterMap_filterMap]
  exact List.filterMap_congr fun node _ => node_comm h hclears node

theorem edges_comm (m : Plain) (id : String) :
    leaving (e'.perform (e.perform m)).edges id = leaving (e.perform (e'.perform m)).edges id := by
  show leaving (e'.splice ((e.splice (m.edges.filterMap (reroute e.route))).filterMap (reroute e'.route))) id =
    leaving (e.splice ((e'.splice (m.edges.filterMap (reroute e'.route))).filterMap (reroute e.route))) id
  have hreroute : (m.edges.filterMap (reroute e.route)).filterMap (reroute e'.route) =
      (m.edges.filterMap (reroute e'.route)).filterMap (reroute e.route) := by
    rw [List.filterMap_filterMap, List.filterMap_filterMap]
    refine List.filterMap_congr fun edge _ => ?_
    rw [reroute_bind, reroute_bind]
    exact congrArg (reroute · edge) (funext (route_comm h))
  rw [splice_reroute h, splice_reroute (List.disjoint_symm h), hreroute]
  exact splice_comm h _ id

end Disjoint

end Edit

/-! ## What a call looks at -/

/-- The graphs answer alike about these ids. -/
structure AgreeOn (F : List String) (m m' : Plain) : Prop where
  hasNode : ∀ id ∈ F, m'.hasNode id = m.hasNode id
  hasEdge : ∀ source ∈ F, ∀ target ∈ F, ∀ kind, m'.hasEdge source target kind = m.hasEdge source target kind

/-- An edit changes no answer about ids outside its footprint. -/
theorem Edit.perform_agrees {e : Edit} {F : List String} (h : e.footprint.Disjoint F) (m : Plain) :
    AgreeOn F m (e.perform m) where
  hasNode id hid := by
    have hout : id ∉ e.footprint := fun hmem => h hmem hid
    have hids : ids (m.nodes.filterMap e.node) = (ids m.nodes).filterMap e.route := by
      rw [ids, ids, List.map_filterMap, List.filterMap_map]
      exact List.filterMap_congr fun node _ => e.node_route node
    unfold Plain.hasNode
    simp only [Edit.perform, hids, List.mem_filterMap, Edit.route_eq_some hout, exists_eq_right]
  hasEdge source hs target ht kind := by
    have hsource : source ∉ e.footprint := fun hmem => h hmem hs
    have htarget : target ∉ e.footprint := fun hmem => h hmem ht
    have hsplice : ∀ edges, ⟨source, target, kind⟩ ∈ e.splice edges ↔ (⟨source, target, kind⟩ : Edge) ∈ edges := by
      intro edges
      have hne : ∀ edge : Edge, edge.source ∈ e.footprint → ⟨source, target, kind⟩ ≠ edge := by
        intro edge hmem heq
        subst heq
        exact hsource hmem
      cases e with
      | append edge => simp [Edit.splice, hne edge (by simp [Edit.footprint])]
      | erase edge => exact List.mem_erase_of_ne (hne edge (by simp [Edit.footprint]))
      | _ => rfl
    have hreroute : ∀ old, reroute e.route old = some ⟨source, target, kind⟩ ↔ old = ⟨source, target, kind⟩ :=
      Edit.reroute_eq_some hsource htarget
    unfold Plain.hasEdge
    simp only [Edit.perform, hsplice, List.mem_filterMap, hreroute, exists_eq_right]

/-- A call answers, and edits, by what the graph says about the ids it names. -/
theorem Plain.apply_congr {m m' : Plain} {mu : Mutation} {F : List String} (hF : mu.footprint = some F)
    (h : AgreeOn F m m') : (m'.apply mu).1 = (m.apply mu).1 ∧ m'.edit mu = m.edit mu := by
  cases mu with
  | setSystem system => cases hF
  | addNode node => cases hF
  | renameNode a b =>
    obtain rfl := Option.some.inj hF
    have ha := h.hasNode a (by simp)
    have hb := h.hasNode b (by simp)
    simp only [Plain.apply, Plain.edit, ha, hb, apply_ite Prod.fst, and_self]
  | addEdge source target kind =>
    obtain rfl := Option.some.inj hF
    have hs := h.hasNode source (by simp)
    have ht := h.hasNode target (by simp)
    have he := h.hasEdge source (by simp) target (by simp) kind
    simp only [Plain.apply, Plain.edit, hs, ht, he, apply_ite Prod.fst, and_self]
  | removeEdge source target kind =>
    obtain rfl := Option.some.inj hF
    have he := h.hasEdge source (by simp) target (by simp) kind
    simp only [Plain.apply, Plain.edit, he, apply_ite Prod.fst, and_self]
  | removeNode id | setInitial id | setNodeTasks id _ | setNodeLabel id _ | setNodeBorderColor id _
    | setNodeFillColor id _ =>
    obtain rfl := Option.some.inj hF
    have hid := h.hasNode id (by simp)
    simp only [Plain.apply, Plain.updateNode, Plain.edit, Plain.editField, hid, apply_ite Prod.fst, and_self]

namespace Edit

theorem within_none (F : List String) : none.footprint ⊆ F := List.nil_subset F

theorem within_ite {c : Prop} [Decidable c] {e e' : Edit} {F : List String} (h : e.footprint ⊆ F)
    (h' : e'.footprint ⊆ F) : (if c then e else e').footprint ⊆ F := by
  split
  · exact h
  · exact h'

theorem keeps_ite {c : Prop} [Decidable c] {e e' : Edit} (h : e.clears = false) (h' : e'.clears = false) :
    (if c then e else e').clears = false := by
  split
  · exact h
  · exact h'

end Edit

/-- The edit of a call stays within the ids the call names. -/
theorem Plain.edit_within (m : Plain) {mu : Mutation} {F : List String} (hF : mu.footprint = some F) :
    (m.edit mu).footprint ⊆ F := by
  have hnone := Edit.within_none F
  cases mu with
  | setSystem system => cases hF
  | addNode node => cases hF
  | renameNode a b =>
    obtain rfl := Option.some.inj hF
    exact Edit.within_ite hnone (Edit.within_ite hnone (Edit.within_ite hnone
      (Edit.within_ite hnone (List.Subset.refl _))))
  | addEdge source target kind =>
    obtain rfl := Option.some.inj hF
    exact Edit.within_ite hnone (Edit.within_ite hnone (Edit.within_ite hnone (List.Subset.refl _)))
  | removeEdge _ _ _ | removeNode _ | setInitial _ | setNodeTasks _ _ | setNodeLabel _ _ | setNodeBorderColor _ _
    | setNodeFillColor _ _ =>
    obtain rfl := Option.some.inj hF
    exact Edit.within_ite (List.Subset.refl _) hnone

/-- Only `set_initial` clears flags. -/
theorem Plain.edit_keeps (m : Plain) {mu : Mutation} (h : mu.setsInitial = false) : (m.edit mu).clears = false := by
  cases mu with
  | setInitial id => cases h
  | setSystem system => rfl
  | addNode node => rfl
  | renameNode a b => exact Edit.keeps_ite rfl (Edit.keeps_ite rfl (Edit.keeps_ite rfl (Edit.keeps_ite rfl rfl)))
  | addEdge source target kind => exact Edit.keeps_ite rfl (Edit.keeps_ite rfl (Edit.keeps_ite rfl rfl))
  | _ => exact Edit.keeps_ite rfl rfl

theorem Plain.edit_clears (m : Plain) {mu : Mutation} (h : (m.edit mu).clears = true) : mu.setsInitial = true := by
  by_contra hno
  rw [m.edit_keeps (Bool.eq_false_iff.mpr hno)] at h
  cases h

/-! ## Either order -/

/-- On sound parts, calls about different ids leave parts with one index, and return the same,
    in either order. -/
theorem Plain.apply_comm {m : Plain} (h : m.Sound) {mu nu : Mutation} {F G : List String} (hF : mu.footprint = some F)
    (hG : nu.footprint = some G) (hdisjoint : F.Disjoint G)
    (hinitial : ¬ (mu.setsInitial = true ∧ nu.setsInitial = true)) :
    ((m.apply mu).2.apply nu).2.indexed = ((m.apply nu).2.apply mu).2.indexed ∧
      ((m.apply nu).2.apply mu).1 = (m.apply mu).1 ∧ ((m.apply mu).2.apply nu).1 = (m.apply nu).1 := by
  have hmu := m.edit_within hF
  have hnu := m.edit_within hG
  have agreeG : AgreeOn G m (m.apply mu).2 := by
    rw [m.apply_edit hF]
    exact Edit.perform_agrees (fun id he => hdisjoint (hmu he)) m
  have agreeF : AgreeOn F m (m.apply nu).2 := by
    rw [m.apply_edit hG]
    exact Edit.perform_agrees (fun id he hid => hdisjoint hid (hnu he)) m
  obtain ⟨houtG, heditG⟩ := Plain.apply_congr hG agreeG
  obtain ⟨houtF, heditF⟩ := Plain.apply_congr hF agreeF
  refine ⟨?_, houtF, houtG⟩
  have hs := Plain.apply_sound (Plain.apply_sound h mu) nu
  have hs' := Plain.apply_sound (Plain.apply_sound h nu) mu
  rw [Plain.apply_edit _ hG, heditG, m.apply_edit hF] at hs ⊢
  rw [Plain.apply_edit _ hF, heditF, m.apply_edit hG] at hs' ⊢
  have hedits : (m.edit mu).footprint.Disjoint (m.edit nu).footprint := fun id he he' => hdisjoint (hmu he) (hnu he')
  have hnodes := Edit.nodes_comm hedits (fun hc => hinitial ⟨m.edit_clears hc.1, m.edit_clears hc.2⟩) m
  unfold Plain.Sound at hs hs'
  unfold Plain.indexed
  rw [hnodes] at hs ⊢
  exact indexed_congr hs hs' fun id _ => Edit.edges_comm hedits m id

/-- Calls about different ids can be made in either order: the graph is the same, its indexes
    included, and so is what each call returns. -/
theorem mutations_commute {g : Graph} (h : Reachable g) {mu nu : Mutation} {F G : List String}
    (hF : mu.footprint = some F) (hG : nu.footprint = some G) (hdisjoint : F.Disjoint G)
    (hinitial : ¬ (mu.setsInitial = true ∧ nu.setsInitial = true)) :
    ((g.apply mu).2.apply nu).2 = ((g.apply nu).2.apply mu).2 ∧
      ((g.apply nu).2.apply mu).1 = (g.apply mu).1 ∧ ((g.apply mu).2.apply nu).1 = (g.apply nu).1 := by
  obtain ⟨m, hm, rfl⟩ := h.indexed
  rw [Plain.apply_indexed hm mu, Plain.apply_indexed hm nu, Plain.apply_indexed (Plain.apply_sound hm mu) nu,
    Plain.apply_indexed (Plain.apply_sound hm nu) mu]
  exact Plain.apply_comm hm hF hG hdisjoint hinitial

/-- With an edge between the two nodes. -/
theorem mutations_commute_between :
    ∃ g, Graph.create {} [{ id := "a", initial := true }, { id := "c" }] [⟨"a", "c", .transition⟩] = .ok g ∧
      ((g.apply (.renameNode "a" "b")).2.apply (.removeNode "c")).2 =
        ((g.apply (.removeNode "c")).2.apply (.renameNode "a" "b")).2 := by
  obtain ⟨g, hg⟩ : ∃ g, Graph.create {} [{ id := "a", initial := true }, { id := "c" }] [⟨"a", "c", .transition⟩] =
      .ok g := ⟨_, rfl⟩
  have hF : (Mutation.renameNode "a" "b").footprint = some ["a", "b"] := rfl
  have hG : (Mutation.removeNode "c").footprint = some ["c"] := rfl
  exact ⟨g, hg, (mutations_commute (.create hg) hF hG (by simp) (by decide)).1⟩

/-- Of two `set_initial` calls the last one counts. -/
example :
    (Edit.mark "b").perform ((Edit.mark "a").perform { nodes := [{ id := "a" }, { id := "b" }] }) ≠
      (Edit.mark "a").perform ((Edit.mark "b").perform { nodes := [{ id := "a" }, { id := "b" }] }) := by
  decide

end Stgx
