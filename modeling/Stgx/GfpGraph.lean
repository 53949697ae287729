/-
  Stgx.GfpGraph — the graph `build_graph` makes of an exploration.

  - `buildGraph_total`: whatever was explored, the graph validates; its nodes are the
    states and the edges leaving a node its arcs, in order.
  - `gfp_graph`: its nodes are reachable states, without pruning all of them, and its edges
    the moves between them.
  - `gfp_tree`: each node but the initial one is the target of one transition.
-/

import Stgx.Explored
import Stgx.Lib.Path

namespace Stgx

open Stgx.Lib
open Stgx.Lib.BreadthFirst (Arc Search Explored newly)
open Stgx.Lib.FixedPriority (Move)
open Stgx.Lib.Grouping (mem_bucket bucket_flatMap)

/-! ## Calls -/

/-- Node `i`. -/
def gfpNode (out : Exploration) (i : ℕ) : Node where
  id := gfpNodeId i
  initial := decide (i = 0)
  tasks := (out.states[i]?.getD []).mapIdx fun t job => ⟨job.c, job.d, (out.releases[i]?.getD [])[t]?.getD .none⟩

/-- The edge of an arc. -/
def gfpEdge (i : ℕ) (arc : Arc) : Edge := ⟨gfpNodeId i, gfpNodeId arc.1, if arc.2 then .loopback else .transition⟩

def gfpEdges (out : Exploration) (i : ℕ) : List Edge := (out.arcs[i]?.getD []).map (gfpEdge i)

def gfpSystem (tasks : List Job) (m : Int32) : System where
  description := some "GFP reachability graph"
  m := some m
  tasks := tasks.mapIdx fun i task => ⟨task.c, task.d, some ("τ" ++ toString (i + 1))⟩

theorem foldl_taskCalls (states : List TaskState) (builder : NodeBuilder) :
    (states.map NodeCall.task).foldl NodeBuilder.apply builder =
      { builder with node.tasks := builder.node.tasks ++ states } := by
  induction states generalizing builder with
  | nil => simp
  | cons state states ih =>
    rw [List.map_cons, List.foldl_cons, ih]
    simp [NodeBuilder.apply]

/-- The call for an arc. -/
def arcCall (arc : Arc) : NodeCall := if arc.2 then .loopTo (gfpNodeId arc.1) else .toNode (gfpNodeId arc.1)

theorem foldl_arcCalls (i : ℕ) (arcs : List Arc) (builder : NodeBuilder) (hid : builder.node.id = gfpNodeId i) :
    (arcs.map arcCall).foldl NodeBuilder.apply builder =
      { builder with edges := builder.edges ++ arcs.map (gfpEdge i) } := by
  induction arcs generalizing builder with
  | nil => simp
  | cons arc arcs ih =>
    have hstep : builder.apply (arcCall arc) = { builder with edges := builder.edges ++ [gfpEdge i arc] } := by
      unfold arcCall gfpEdge
      cases arc.2 <;> simp [NodeBuilder.apply, hid]
    rw [List.map_cons, List.foldl_cons, hstep, ih { builder with edges := builder.edges ++ [gfpEdge i arc] } hid]
    simp

theorem nodeCalls_eq (out : Exploration) (i : ℕ) :
    nodeCalls out i = (if i = 0 then [.initial true] else []) ++ (gfpNode out i).tasks.map NodeCall.task ++
      (out.arcs[i]?.getD []).map arcCall := by
  have htasks : (gfpNode out i).tasks.map NodeCall.task = (out.states[i]?.getD []).mapIdx fun t job =>
      NodeCall.task ⟨job.c, job.d, (out.releases[i]?.getD [])[t]?.getD .none⟩ := by
    rw [gfpNode, List.mapIdx_eq_zipIdx_map, List.mapIdx_eq_zipIdx_map, List.map_map]
    rfl
  rw [htasks]
  rfl

theorem nodeCalls_apply (out : Exploration) (i : ℕ) :
    (nodeCalls out i).foldl NodeBuilder.apply { node := { id := gfpNodeId i } } = ⟨gfpNode out i, gfpEdges out i⟩ := by
  rw [nodeCalls_eq, List.foldl_append, List.foldl_append, foldl_taskCalls, foldl_arcCalls i]
  · by_cases hi : i = 0 <;> simp [hi, gfpNode, gfpEdges, NodeBuilder.apply]
  · by_cases hi : i = 0 <;> simp [hi, NodeBuilder.apply]

theorem systemCalls_apply (tasks : List Job) (m : Int32) :
    ((systemCalls tasks m).foldl SystemBuilder.apply {}).system = gfpSystem tasks m := by
  have hfold : ∀ (params : List TaskParam) (builder : SystemBuilder),
      (params.map fun param => SystemCall.task param.c param.d param.name).foldl SystemBuilder.apply builder =
        { builder with system.tasks := builder.system.tasks ++ params } := by
    intro params
    induction params with
    | nil => simp
    | cons param params ih =>
      intro builder
      rw [List.map_cons, List.foldl_cons, ih]
      simp [SystemBuilder.apply]
  have htasks : (tasks.mapIdx fun i task => SystemCall.task task.c task.d (some ("τ" ++ toString (i + 1)))) =
      (gfpSystem tasks m).tasks.map fun param => SystemCall.task param.c param.d param.name := by
    rw [gfpSystem, List.mapIdx_eq_zipIdx_map, List.mapIdx_eq_zipIdx_map, List.map_map]
    rfl
  rw [systemCalls, htasks, List.foldl_append, hfold]
  rfl

theorem buildGraph_eq (out : Exploration) (tasks : List Job) (m : Int32) :
    buildGraph out tasks m = Graph.create (gfpSystem tasks m) ((List.range out.states.length).map (gfpNode out))
      ((List.range out.states.length).flatMap (gfpEdges out)) := by
  rw [buildGraph, builtBy_eq]
  congr 1
  · rw [declaredSystem, List.filterMap_cons]
    have hnone : ((List.range out.states.length).map fun i =>
        BuilderCall.nodeWith (gfpNodeId i) (nodeCalls out i)).filterMap BuilderCall.system? = [] := by
      rw [List.filterMap_eq_nil_iff]
      intro call hcall
      obtain ⟨i, -, rfl⟩ := List.mem_map.mp hcall
      rfl
    rw [hnone]
    exact systemCalls_apply tasks m
  · rw [declaredNodes, List.flatMap_cons, List.flatMap_map]
    rw [List.map_eq_flatMap]
    refine List.flatMap_congr fun i _ => ?_
    show [((nodeCalls out i).foldl NodeBuilder.apply { node := { id := gfpNodeId i } }).node] = _
    rw [nodeCalls_apply]
  · rw [declaredEdges, List.flatMap_cons, List.flatMap_map]
    refine List.flatMap_congr fun i _ => ?_
    show ((nodeCalls out i).foldl NodeBuilder.apply { node := { id := gfpNodeId i } }).edges = _
    rw [nodeCalls_apply]

/-! ## Validity -/

/-- There are states, all of one length, and the arcs lead to them. -/
structure Exploration.Whole (out : Exploration) (n : ℕ) : Prop where
  nonempty : 0 < out.states.length
  lengths : ∀ state ∈ out.states, state.length = n
  targets : ∀ (i : ℕ) (arcs : List Arc), out.arcs[i]? = some arcs → ∀ arc ∈ arcs, arc.1 < out.states.length

theorem explored_whole {tasks : List Job} {m : Int32} {prune : Bool} {fuel : ℕ} {out : Exploration}
    (h : explore tasks m prune fuel = some out) : out.Whole tasks.length := by
  obtain ⟨r, hr, rfl⟩ := exists_explored h
  refine ⟨(List.getElem?_eq_some_iff.mp hr.starts).1, fun state hs => ?_, fun _ _ hi _ harc => hr.target_lt hi harc⟩
  have hlength : ∀ state, Relation.ReflTransGen (fun x y => y ∈ successors tasks m x) (idle tasks) state →
      state.length = tasks.length := by
    intro state hreached
    induction hreached with
    | refl => rw [idle, List.length_map]
    | tail _ hnext ih => exact (nextStates_length hnext).trans ih
  exact hlength state (hr.reached state hs)

theorem gfpNodeId_inj {i j : ℕ} (h : gfpNodeId i = gfpNodeId j) : i = j := by
  refine Doc.Path.toString_inj ?_
  have hlist := congrArg String.toList h
  rw [gfpNodeId, gfpNodeId, String.toList_append, String.toList_append] at hlist
  exact List.append_cancel_left hlist

theorem gfpNodeId_ne (i : ℕ) : gfpNodeId i ≠ "" := by
  intro h
  have hlist := congrArg String.toList h
  rw [gfpNodeId, String.toList_append] at hlist
  cases hlist

theorem ids_gfpNodes (out : Exploration) (n : ℕ) :
    ids ((List.range n).map (gfpNode out)) = (List.range n).map gfpNodeId := by
  rw [ids, List.map_map]
  rfl

theorem mem_gfpIds {i n : ℕ} : gfpNodeId i ∈ (List.range n).map gfpNodeId ↔ i < n := by
  rw [List.mem_map]
  constructor
  · rintro ⟨j, hj, he⟩
    rw [← gfpNodeId_inj he]
    exact List.mem_range.mp hj
  · exact fun hi => ⟨i, List.mem_range.mpr hi, rfl⟩

theorem mem_gfpEdges {out : Exploration} {i : ℕ} {edge : Edge} (h : edge ∈ gfpEdges out i) :
    edge.source = gfpNodeId i ∧ ∃ arcs arc, out.arcs[i]? = some arcs ∧ arc ∈ arcs ∧ edge.target = gfpNodeId arc.1 := by
  obtain ⟨arc, harc, rfl⟩ := List.mem_map.mp h
  cases harcs : out.arcs[i]? with
  | none =>
    rw [harcs] at harc
    exact absurd harc List.not_mem_nil
  | some arcs =>
    rw [harcs] at harc
    exact ⟨rfl, arcs, arc, rfl, harc, rfl⟩

theorem Exploration.Whole.wellFormed {out : Exploration} {tasks : List Job} (h : out.Whole tasks.length) (m : Int32) :
    WellFormed (gfpSystem tasks m) ((List.range out.states.length).map (gfpNode out))
      ((List.range out.states.length).flatMap (gfpEdges out)) := by
  have hpos := h.nonempty
  refine ⟨fun hnil => ?_, fun id hid => ?_, ?_, ?_, fun _ node hnode => ?_, fun edge he => ?_, fun edge he => ?_⟩
  · rw [List.map_eq_nil_iff, List.range_eq_nil] at hnil
    omega
  · rw [ids_gfpNodes] at hid
    obtain ⟨i, -, rfl⟩ := List.mem_map.mp hid
    exact gfpNodeId_ne i
  · rw [ids_gfpNodes]
    exact List.nodup_range.map fun i j => gfpNodeId_inj
  · rw [List.countP_map]
    exact List.count_eq_one_of_mem List.nodup_range (List.mem_range.mpr hpos)
  · obtain ⟨i, hi, rfl⟩ := List.mem_map.mp hnode
    have hlt := List.mem_range.mp hi
    rw [gfpNode, gfpSystem, List.length_mapIdx, List.length_mapIdx, List.getElem?_eq_getElem hlt, Option.getD_some]
    exact h.lengths _ (List.getElem_mem hlt)
  · obtain ⟨i, hi, he⟩ := List.mem_flatMap.mp he
    rw [ids_gfpNodes, (mem_gfpEdges he).1]
    exact List.mem_map_of_mem hi
  · obtain ⟨i, -, he⟩ := List.mem_flatMap.mp he
    obtain ⟨-, arcs, arc, harcs, harc, ht⟩ := mem_gfpEdges he
    rw [ids_gfpNodes, ht, mem_gfpIds]
    exact h.targets i arcs harcs arc harc

/-- The edges leaving node `i` are its arcs. -/
theorem leaving_gfpEdges (out : Exploration) {i n : ℕ} (hi : i < n) :
    leaving ((List.range n).flatMap (gfpEdges out)) (gfpNodeId i) = gfpEdges out i :=
  bucket_flatMap (List.nodup_range.map fun _ _ => gfpNodeId_inj) (fun _ _ _ he => (mem_gfpEdges he).1)
    (List.mem_range.mpr hi)

section Built

variable {tasks : List Job} {m : Int32} {prune : Bool} {fuel : ℕ} {out : Exploration}

theorem built_nodes {g : Graph} (hg : buildGraph out tasks m = .ok g) :
    g.nodes = (List.range out.states.length).map (gfpNode out) := by
  rw [(create_ok_iff.mp ((buildGraph_eq out tasks m).symm.trans hg)).2, indexed_nodes]

/-- Whatever was explored, the graph validates, and tells of the states and the arcs in order. -/
theorem buildGraph_total (h : explore tasks m prune fuel = some out) :
    ∃ g, buildGraph out tasks m = .ok g ∧ g.validate = .ok () ∧ g.system = gfpSystem tasks m ∧
      g.nodes = (List.range out.states.length).map (gfpNode out) ∧
      ∀ i < out.states.length, g.outEdges (gfpNodeId i) = gfpEdges out i := by
  have hw := (explored_whole h).wellFormed m
  have hg := (buildGraph_eq out tasks m).trans (create_ok_iff.mpr ⟨hw, rfl⟩)
  have hvalid := (validate_ok_iff _).mpr (create_wellFormed ((buildGraph_eq out tasks m).symm.trans hg))
  refine ⟨_, hg, hvalid, rfl, rfl, fun i hi => ?_⟩
  rw [outEdges_indexed hw.sound, leaving_gfpEdges out hi]

theorem buildGraph_total_kTasks : ∃ g, buildGraph kTasksExploration kTasks kM = .ok g ∧ g.validate = .ok () ∧
    g.outEdges "n2" = [⟨"n2", "n6", .transition⟩, ⟨"n2", "n7", .transition⟩] ∧
    g.outEdges "n7" = [⟨"n7", "n4", .loopback⟩, ⟨"n7", "n5", .loopback⟩] := by
  obtain ⟨g, hg, hvalid, -, -, hout⟩ := buildGraph_total explore_kTasks
  exact ⟨g, hg, hvalid, hout 2 (by decide), hout 7 (by decide)⟩

/-! ## States and moves -/

/-- The state a node shows. -/
def nodeState (n : ℕ) (node : Node) : FixedPriority.State (Fin n) :=
  abstract n (node.tasks.map fun task => ⟨task.c, task.d⟩)

theorem nodeState_gfpNode (n : ℕ) {i : ℕ} {state : State} (hi : out.states[i]? = some state) :
    nodeState n (gfpNode out i) = abstract n state := by
  refine congrArg (abstract n) ?_
  rw [gfpNode, hi, List.mapIdx_eq_zipIdx_map, List.map_map, Option.getD_some]
  exact List.zipIdx_map_fst 0 state

theorem map_nodeState (n : ℕ) (out : Exploration) :
    ((List.range out.states.length).map (gfpNode out)).map (nodeState n) = out.states.map (abstract n) := by
  refine List.ext_getElem (by simp) fun i hi hi' => ?_
  rw [List.length_map] at hi'
  simp only [List.getElem_map, List.getElem_range]
  exact nodeState_gfpNode n (List.getElem?_eq_getElem hi')

theorem mem_gfpEdges_iff {n i j : ℕ} (hi : i < n) {arcs : List Arc} (harcs : out.arcs[i]? = some arcs) :
    (∃ kind, (⟨gfpNodeId i, gfpNodeId j, kind⟩ : Edge) ∈ (List.range n).flatMap (gfpEdges out)) ↔
      j ∈ arcs.map Prod.fst := by
  constructor
  · rintro ⟨kind, he⟩
    obtain ⟨k, -, he⟩ := List.mem_flatMap.mp he
    obtain ⟨hsource, arcs', arc, hk, harc, htarget⟩ := mem_gfpEdges he
    rw [← gfpNodeId_inj hsource, harcs] at hk
    rw [gfpNodeId_inj htarget, Option.some.inj hk]
    exact List.mem_map_of_mem harc
  · intro hj
    obtain ⟨arc, harc, rfl⟩ := List.mem_map.mp hj
    refine ⟨if arc.2 then .loopback else .transition, List.mem_flatMap.mpr ⟨i, List.mem_range.mpr hi, ?_⟩⟩
    rw [gfpEdges, harcs, Option.getD_some]
    exact List.mem_map_of_mem (f := gfpEdge i) harc

theorem hasEdge_iff_move (hn : tasks.length ≤ 30) (hproper : ∀ task ∈ tasks, task.Proper)
    (h : explore tasks m prune fuel = some out) {g : Graph} (hg : buildGraph out tasks m = .ok g) {u v : Node}
    (hu : u ∈ g.nodes) (hv : v ∈ g.nodes) : (∃ kind, g.hasEdge u.id v.id kind = true) ↔
      Move (abstract tasks.length tasks) (cores m) (nodeState tasks.length u) (nodeState tasks.length v) := by
  obtain ⟨hw, rfl⟩ := create_ok_iff.mp ((buildGraph_eq out tasks m).symm.trans hg)
  obtain ⟨hlength, -, harcs⟩ := explored_arcs hn hproper h
  obtain ⟨i, hi, rfl⟩ := List.mem_map.mp hu
  obtain ⟨j, hj, rfl⟩ := List.mem_map.mp hv
  rw [List.mem_range] at hi hj
  have hstate := List.getElem?_eq_getElem hi
  have hnext := List.getElem?_eq_getElem hj
  have has := List.getElem?_eq_getElem (show i < out.arcs.length by rw [hlength]; exact hi)
  rw [nodeState_gfpNode _ hstate, nodeState_gfpNode _ hnext, ← (harcs i _ _ hstate has).2 j _ hnext,
    ← mem_gfpEdges_iff hi has]
  simp only [hasEdge_indexed hw.sound, decide_eq_true_iff]
  rfl

theorem range_map_getD {α : Type} (l : List α) (d : α) : ((List.range l.length).map fun i => l[i]?.getD d) = l := by
  refine List.ext_getElem (by simp) fun i hi hi' => ?_
  simp [hi']

/-- The transitions to a node are the arcs that discover it. -/
theorem countP_transitions (harcs : out.arcs.length = out.states.length) (j : ℕ) :
    ((List.range out.states.length).flatMap (gfpEdges out)).countP
      (fun edge => edge.kind = .transition ∧ edge.target = gfpNodeId j) = (newly out.arcs.flatten).count j := by
  have hedge : ∀ i arc, decide ((gfpEdge i arc).kind = .transition ∧ (gfpEdge i arc).target = gfpNodeId j) =
      (!arc.2 && arc.1 == j) := by
    intro i arc
    have htarget : gfpNodeId arc.1 = gfpNodeId j ↔ arc.1 = j := ⟨gfpNodeId_inj, congrArg _⟩
    rw [Bool.eq_iff_iff, decide_eq_true_iff, gfpEdge]
    cases arc.2 <;> simp [htarget]
  have hnode : ∀ i, (gfpEdges out i).countP (fun edge => edge.kind = .transition ∧ edge.target = gfpNodeId j) =
      (out.arcs[i]?.getD []).countP fun arc => !arc.2 && arc.1 == j := by
    intro i
    rw [gfpEdges, List.countP_map]
    exact List.countP_congr fun arc _ => by rw [← hedge i arc]; rfl
  have hcount : (newly out.arcs.flatten).count j = out.arcs.flatten.countP fun arc => !arc.2 && arc.1 == j := by
    rw [newly, List.count_eq_countP, List.countP_map, List.countP_filter]
    refine List.countP_congr fun arc _ => ?_
    simp [and_comm]
  rw [hcount, List.countP_flatMap, List.countP_flatten, ← harcs]
  conv => rhs; rw [← range_map_getD out.arcs []]
  rw [List.map_map]
  exact congrArg List.sum (List.map_congr_left fun i _ => hnode i)

/-- The transitions form a tree: each node but the first is the target of one, from an earlier node. -/
theorem gfp_tree (h : explore tasks m prune fuel = some out) :
    ∃ g, buildGraph out tasks m = .ok g ∧
      (∀ j < out.states.length,
        g.edges.countP (fun edge => edge.kind = .transition ∧ edge.target = gfpNodeId j) = if j = 0 then 0 else 1) ∧
      ∀ edge ∈ g.edges, edge.kind = .transition →
        ∃ i j, i < j ∧ edge.source = gfpNodeId i ∧ edge.target = gfpNodeId j := by
  have hw := (explored_whole h).wellFormed m
  obtain ⟨r, hr, rfl⟩ := exists_explored h
  refine ⟨_, (buildGraph_eq _ tasks m).trans (create_ok_iff.mpr ⟨hw, rfl⟩), fun j hj => ?_, fun edge he hkind => ?_⟩
  · rw [(indexed_edges_perm hw.sound).countP_eq, countP_transitions hr.all]
    have hdisc : newly (Exploration.ofSearch r).arcs.flatten = List.range' 1 (r.found.length - 1) := hr.discoveries
    replace hj : j < r.found.length := hj
    rw [hdisc]
    split
    · rename_i hzero
      rw [List.count_eq_zero, List.mem_range'_1]
      omega
    · rename_i hne
      exact List.count_eq_one_of_mem List.nodup_range' (List.mem_range'_1.mpr (by omega))
  · rw [(indexed_edges_perm hw.sound).mem_iff] at he
    obtain ⟨i, -, he⟩ := List.mem_flatMap.mp he
    obtain ⟨arc, harc, rfl⟩ := List.mem_map.mp he
    cases harcs : (Exploration.ofSearch r).arcs[i]? with
    | none =>
      rw [harcs] at harc
      exact absurd harc List.not_mem_nil
    | some arcs =>
      rw [harcs, Option.getD_some] at harc
      have hnew : arc.2 = false := by
        by_contra hc
        rw [gfpEdge, if_pos (by simpa using hc)] at hkind
        cases hkind
      exact ⟨i, arc.1, hr.forward i arcs harcs arc harc hnew, rfl, rfl⟩

theorem gfp_tree_kTasks : ∃ out g, explore kTasks kM kPrune 10 = some out ∧ buildGraph out kTasks kM = .ok g ∧
    ∀ edge ∈ g.edges, edge.kind = .transition →
      ∃ i j, i < j ∧ edge.source = gfpNodeId i ∧ edge.target = gfpNodeId j := by
  obtain ⟨out, h, -⟩ := kTasks_explored kPrune
  obtain ⟨g, hg, -, hforward⟩ := gfp_tree h
  exact ⟨out, g, h, hg, hforward⟩

end Built

end Stgx
