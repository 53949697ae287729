/-
  Stgx.GfpDominants — the two example programs together: the graph one saves, marked by
  the other.

  A set of states that has one at least as bad for each reachable state has every
  absolute dominant (`FixedPriority.absoluteDominant_iff`), and the states explored are
  such a set, pruned or not.
  - `pruned_dominants`: with and without pruning the same dominants are listed.
  - `gfp_dominants`: what is coloured in the marked graph are the reachable states that
    no other reachable state dominates.
-/

import Stgx.Dominants
import Stgx.GfpGraph
import Stgx.Resume

namespace Stgx

open Stgx.Lib
open Stgx.Lib.FixedPriority (AbsoluteDominant)

variable {tasks : List Job} {m : Int32} {prune : Bool} {fuel : ℕ} {out : Exploration}

/-! ## The program -/

def gfpReport (exploration : Exploration) (tasks : List Job) (m : Int32) (prune : Bool) (output : String) : String :=
  "tasks:       " ++
    String.join (tasks.map fun job => "(" ++ toString job.c.toInt ++ ", " ++ toString job.d.toInt ++ ") ") ++
    "\nm:           " ++ toString m.toInt ++ "\npruning:     " ++ (if prune then "rule 1" else "off") ++
    "\nschedulable: " ++ (if exploration.schedulable then "yes" else "no") ++
    "\nstates:      " ++ toString exploration.states.length ++
    (if exploration.schedulable then ""
      else " (" ++ toString exploration.deadlineMisses ++ " with a deadline miss)") ++
    "\nwritten:     " ++ output ++ "\n"

/-- The program, its task set, processors and pruning as parameters. -/
def gfpMain (cpp : YamlCpp) (tasks : List Job) (m : Int32) (prune : Bool) (fuel : ℕ) (output : String) :
    Option Ran := do
  let exploration ← explore tasks m prune fuel
  match buildGraph exploration tasks m with
  | .error diags => return { err := diags.toString ++ "\n" }
  | .ok g =>
    match saveYamlString cpp g with
    | .error diags => return { err := diags.toString ++ "\n" }
    | .ok text => return ⟨gfpReport exploration tasks m prune output, "", some text⟩

/-! ## Dominants of an exploration -/

/-- The dominant states of an exploration are the absolute dominants. -/
theorem dominant_abstract_iff (hn : tasks.length ≤ 30) (hproper : ∀ task ∈ tasks, task.Proper)
    (h : explore tasks m prune fuel = some out) (hsched : prune = true → out.schedulable = true)
    {s : FixedPriority.State (Fin tasks.length)} :
    (∃ state ∈ out.states, Dominant out.states state ∧ abstract tasks.length state = s) ↔
      AbsoluteDominant (abstract tasks.length tasks) (cores m) s := by
  have hfits := explored_fits hproper h
  have hdom : ∀ state ∈ out.states, ∀ other ∈ out.states, List.Forall₂ Job.AtLeast other state ↔
      FixedPriority.Dominates (abstract tasks.length other) (abstract tasks.length state) := by
    intro state hs other hother
    rw [← (hfits other hother).dominates_iff (hfits state hs),
      dominates_iff ((hfits other hother).length.trans (hfits state hs).length.symm)]
  have hreach : ∀ t ∈ {t | ∃ state ∈ out.states, abstract tasks.length state = t},
      FixedPriority.Reachable (abstract tasks.length tasks) (cores m) t := by
    rintro _ ⟨state, hs, rfl⟩
    exact (explored_states hn hproper h).2.1 _ (List.mem_map_of_mem hs)
  have habove : ∀ t, FixedPriority.Reachable (abstract tasks.length tasks) (cores m) t →
      ∃ s ∈ {t | ∃ state ∈ out.states, abstract tasks.length state = t}, FixedPriority.Dominates s t := by
    intro t ht
    obtain ⟨other, hother, hcover⟩ := exists_above hn hproper h hsched ht
    exact ⟨_, ⟨other, hother, rfl⟩, hcover⟩
  rw [FixedPriority.absoluteDominant_iff hreach habove]
  constructor
  · rintro ⟨state, hs, htop, rfl⟩
    refine ⟨⟨state, hs, rfl⟩, ?_⟩
    rintro _ ⟨other, hother, rfl⟩ hcover
    rw [htop other hother ((hdom state hs other hother).mpr hcover)]
  · rintro ⟨⟨state, hs, rfl⟩, htop⟩
    refine ⟨state, hs, fun other hother hcover => ?_, rfl⟩
    exact (hfits other hother).abstract_inj (hfits state hs)
      (htop _ ⟨other, hother, rfl⟩ ((hdom state hs other hother).mp hcover))

/-- The states `absolute_dominants` lists. -/
theorem listed_iff_dominant {n : ℕ} {states : List State} (hlength : ∀ state ∈ states, state.length = n)
    {state : State} :
    (∃ i ∈ absoluteDominants states, states[i]? = some state) ↔ state ∈ states ∧ Dominant states state := by
  constructor
  · intro h
    obtain ⟨i, hi, hget⟩ := h
    obtain ⟨other, hother, hdom⟩ := (mem_absoluteDominants hlength).mp hi
    obtain rfl := Option.some.inj (hget.symm.trans hother)
    exact ⟨List.mem_of_getElem? hget, hdom⟩
  · intro h
    obtain ⟨i, hget⟩ := List.mem_iff_getElem?.mp h.1
    exact ⟨i, (mem_absoluteDominants hlength).mpr ⟨state, hget, h.2⟩, hget⟩

/-- When deadlines are met, pruning leaves out no dominant state and makes none. -/
theorem pruned_dominants (hn : tasks.length ≤ 30) (hproper : ∀ task ∈ tasks, task.Proper)
    {out' : Exploration} {fuel' : ℕ} (h : explore tasks m false fuel = some out)
    (h' : explore tasks m true fuel' = some out') (hsched : out'.schedulable = true) (state : State) :
    (∃ i ∈ absoluteDominants out'.states, out'.states[i]? = some state) ↔
      ∃ i ∈ absoluteDominants out.states, out.states[i]? = some state := by
  have hfits := explored_fits hproper h
  have hfits' := explored_fits hproper h'
  have habs : ∀ s, (∃ state ∈ out'.states, Dominant out'.states state ∧ abstract tasks.length state = s) ↔
      ∃ state ∈ out.states, Dominant out.states state ∧ abstract tasks.length state = s := fun s =>
    (dominant_abstract_iff hn hproper h' fun _ => hsched).trans (dominant_abstract_iff hn hproper h nofun).symm
  rw [listed_iff_dominant fun state hs => (hfits' state hs).length,
    listed_iff_dominant fun state hs => (hfits state hs).length]
  constructor
  · intro hstate
    obtain ⟨other, hother, hdom, he⟩ := (habs _).mp ⟨state, hstate.1, hstate.2, rfl⟩
    obtain rfl := (hfits other hother).abstract_inj (hfits' state hstate.1) he
    exact ⟨hother, hdom⟩
  · intro hstate
    obtain ⟨other, hother, hdom, he⟩ := (habs _).mpr ⟨state, hstate.1, hstate.2, rfl⟩
    obtain rfl := (hfits' other hother).abstract_inj (hfits state hstate.1) he
    exact ⟨hother, hdom⟩

theorem pruned_dominants_kTasks : ∃ out out', explore kTasks kM false 10 = some out ∧
    explore kTasks kM true 10 = some out' ∧ ∀ state,
      (∃ i ∈ absoluteDominants out'.states, out'.states[i]? = some state) ↔
        ∃ i ∈ absoluteDominants out.states, out.states[i]? = some state := by
  obtain ⟨out, h, -⟩ := kTasks_explored false
  obtain ⟨out', h', hsched⟩ := kTasks_explored true
  exact ⟨out, out', h, h', pruned_dominants (by decide) kTasks_proper h h' hsched⟩

/-! ## The pipeline -/

/-- A graph that was saved and loaded, and marked then, is written as if it had been marked before. -/
theorem marked_reloaded {cpp : YamlCpp} {g : Graph} (hg : Reachable g) (hread : cpp.ReadsBack (emitGraph g))
    {saved : String} (hsave : saveYamlString cpp g = .ok saved) :
    ∃ m : Plain, WellFormed m.system m.nodes m.edges ∧ m.nodes = g.nodes ∧
      listedEdges m.indexed = m.indexed.edges ∧ emitGraph (marked m.indexed) = emitGraph (marked g) ∧
      loadYamlString cpp saved (some []) = .ok (.ok m.indexed, some []) := by
  have hload := load_reloaded hg hread hsave (some [])
  obtain ⟨m, hm, heq, hlisted⟩ := loaded_parts hload
  rw [heq] at hload
  refine ⟨m, hm, (congrArg Graph.nodes heq).symm, hlisted, ?_, hload⟩
  have hmarked : marked (reloaded g) = reloaded (marked g) := by
    rw [reloaded, reloaded, listedEdges_marked]
    exact marked_indexed ⟨g.system, g.nodes, listedEdges g⟩
  rw [← heq, hmarked]
  exact emitGraph_reloaded (sound_map hg.sound (ids_marked g)) hg.outEdges.1

/-- The graph of `create` is well formed with its dominant nodes coloured, too. -/
theorem marked_created {system : System} {nodes : List Node} {edges : List Edge} {g : Graph}
    (h : Graph.create system nodes edges = .ok g) :
    WellFormed (marked g).system (marked g).nodes (marked g).edges := by
  obtain ⟨hw, rfl⟩ := create_ok_iff.mp h
  exact (marked_wellFormed (m := ⟨system, nodes, edges⟩) hw).of_mem fun edge he => mem_indexed_edges.mp he

theorem stateOf_gfpNodes (out : Exploration) :
    ((List.range out.states.length).map (gfpNode out)).map stateOf = out.states := by
  refine List.ext_getElem (by simp) fun i hi hi' => ?_
  rw [List.getElem_map, List.getElem_map, List.getElem_range, stateOf, gfpNode, List.getElem?_eq_getElem hi',
    List.mapIdx_eq_zipIdx_map, List.map_map, Option.getD_some]
  exact List.zipIdx_map_fst 0 _

theorem gfpNodes_arity (hproper : ∀ task ∈ tasks, task.Proper) (h : explore tasks m prune fuel = some out) :
    SameArity ((List.range out.states.length).map (gfpNode out)) := by
  have hlength : ∀ node ∈ (List.range out.states.length).map (gfpNode out), node.tasks.length = tasks.length := by
    intro node hnode
    have hstate : stateOf node ∈ out.states := by
      rw [← stateOf_gfpNodes out]
      exact List.mem_map_of_mem hnode
    rw [← (explored_fits hproper h _ hstate).length, stateOf, List.length_map]
  exact fun u hu v hv => (hlength u hu).trans (hlength v hv).symm

/-- A marked node is coloured exactly when its state is dominant, if it was not before. -/
theorem mark_fillColor {states : List State} {node : Node} (h : node.fillColor = none) :
    (mark states node).fillColor = some kDominantFill ↔ Dominant states (stateOf node) := by
  unfold mark
  split
  · rename_i hdom
    exact iff_of_true rfl hdom
  · rename_i hdom
    exact iff_of_false (by rw [h]; nofun) hdom

/-- The states coloured are the dominant ones, if no node was coloured before. -/
theorem coloured_iff {g : Graph} (h : ∀ node ∈ g.nodes, node.fillColor = none) {n : ℕ}
    {s : FixedPriority.State (Fin n)} :
    (∃ node ∈ (marked g).nodes, node.fillColor = some kDominantFill ∧ nodeState n node = s) ↔
      ∃ state ∈ g.nodes.map stateOf, Dominant (g.nodes.map stateOf) state ∧ abstract n state = s := by
  constructor
  · rintro ⟨node, hnode, hfill, hs⟩
    obtain ⟨old, hold, rfl⟩ := List.mem_map.mp hnode
    refine ⟨stateOf old, List.mem_map_of_mem hold, (mark_fillColor (h old hold)).mp hfill, ?_⟩
    rw [← stateOf_mark]
    exact hs
  · rintro ⟨state, hstate, hdom, hs⟩
    obtain ⟨old, hold, rfl⟩ := List.mem_map.mp hstate
    refine ⟨_, List.mem_map_of_mem hold, (mark_fillColor (h old hold)).mpr hdom, ?_⟩
    show abstract _ (stateOf (mark _ old)) = s
    rw [stateOf_mark]
    exact hs

/-- What the first program writes is what `save_yaml_string` gives. -/
theorem gfpMain_saved (h : explore tasks m prune fuel = some out) {g : Graph} (hg : buildGraph out tasks m = .ok g)
    {cpp : YamlCpp} {saved : String} (hsave : saveYamlString cpp g = .ok saved) (output : String) :
    gfpMain cpp tasks m prune fuel output = some ⟨gfpReport out tasks m prune output, "", some saved⟩ := by
  simp only [gfpMain, h, hg, hsave, Option.bind_eq_bind, Option.bind_some]
  rfl

/-- What the one program writes the other marks without complaint; coloured are the reachable
    states that no other reachable state dominates, with or without pruning. -/
theorem gfp_dominants (hn : tasks.length ≤ 30) (hproper : ∀ task ∈ tasks, task.Proper)
    (h : explore tasks m prune fuel = some out) (hsched : prune = true → out.schedulable = true) {g : Graph}
    (hg : buildGraph out tasks m = .ok g) {cpp : YamlCpp} (hp : cpp.Prints (emitGraph g))
    (hread : cpp.ReadsBack (emitGraph g)) (hp' : cpp.Prints (emitGraph (marked g)))
    (hread' : cpp.ReadsBack (emitGraph (marked g))) (input output : String) :
    ∃ first saved ran marks g', gfpMain cpp tasks m prune fuel input = some first ∧ first.written = some saved ∧
      saveYamlString cpp g = .ok saved ∧ dominants cpp input output saved = .ok ran ∧ ran.written = some marks ∧
      saveYamlString cpp (marked g) = .ok marks ∧ loadYamlString cpp marks none = .ok (.ok g', none) ∧
      ∀ s, (∃ node ∈ g'.nodes, node.fillColor = some kDominantFill ∧ nodeState tasks.length node = s) ↔
        AbsoluteDominant (abstract tasks.length tasks) (cores m) s := by
  have hcreate := (buildGraph_eq out tasks m).symm.trans hg
  obtain ⟨text, hemit⟩ := hp
  have hsave := saveYamlString_ok_iff.mpr ⟨create_wellFormed hcreate, text, hemit, rfl⟩
  obtain ⟨p, hpw, hnodes, hlisted, hevents, hload⟩ := marked_reloaded (.create hcreate) hread hsave
  have hnodes : p.indexed.nodes = (List.range out.states.length).map (gfpNode out) := hnodes.trans (built_nodes hg)
  rw [← hevents] at hp' hread'
  obtain ⟨marks, report, hmarks, hran⟩ := dominants_ran hload hp' input output
  obtain ⟨marks', hmarks', hreload⟩ := marked_saved hpw hlisted hp'
  obtain rfl := Except.ok.inj (hmarks.symm.trans hmarks')
  have harity : SameArity p.indexed.nodes := by
    rw [hnodes]
    exact gfpNodes_arity hproper h
  rw [show misfit p.indexed.nodes = none from (sameArity_iff _).mp harity] at hran
  have hmarked : saveYamlString cpp (marked g) = .ok marks := by
    obtain ⟨-, text, hemit, rfl⟩ := saveYamlString_ok_iff.mp hmarks
    exact saveYamlString_ok_iff.mpr ⟨marked_created hcreate, text, hevents ▸ hemit, rfl⟩
  refine ⟨_, _, _, marks, _, gfpMain_saved h hg hsave input, rfl, hsave, hran, rfl, hmarked, hreload hread' none,
    fun s => ?_⟩
  have hplain : ∀ node ∈ p.indexed.nodes, node.fillColor = none := by
    intro node hnode
    rw [hnodes] at hnode
    obtain ⟨i, -, rfl⟩ := List.mem_map.mp hnode
    rfl
  rw [coloured_iff hplain, hnodes, stateOf_gfpNodes]
  exact dominant_abstract_iff hn hproper h hsched

/-- A yaml-cpp that prints and parses one document more. -/
def YamlCpp.also (cpp : YamlCpp) (events : List Doc.Event) (text : String) : YamlCpp where
  load yaml := if yaml = text ++ "\n" then (YamlCpp.knowing events text).load yaml else cpp.load yaml
  emit sent := if sent = events then .ok text else cpp.emit sent

theorem YamlCpp.also_readsBack (cpp : YamlCpp) (events : List Doc.Event) (text : String) :
    (cpp.also events text).ReadsBack events := by
  intro printed t hemit hbuild
  obtain rfl : text = printed := by simpa [also] using hemit
  simp [also, knowing, hbuild]

theorem YamlCpp.also_knowing {events events' : List Doc.Event} {text text' : String} (hevents : events' ≠ events)
    (htext : text' ++ "\n" ≠ text ++ "\n") :
    ((knowing events' text').also events text).emit events' = .ok text' ∧
      ((knowing events' text').also events text).ReadsBack events' := by
  have hemit : ((knowing events' text').also events text).emit events' = .ok text' :=
    (if_neg hevents).trans (if_pos rfl)
  refine ⟨hemit, fun printed t hprinted hbuild => ?_⟩
  obtain rfl := Except.ok.inj (hemit.symm.trans hprinted)
  exact (if_neg htext).trans (knowing_readsBack events' text' text' t (if_pos rfl) hbuild)

/-- What is printed for a node with two tasks; `fields` are the lines between its id and them. -/
def nodeYaml (id fields first second list : String) : String :=
  "\n  - id: " ++ id ++ fields ++ "\n    tasks:\n      - \x7b" ++ first ++ "\x7d\n      - \x7b" ++ second ++
    "\x7d\n    " ++ list

/-- What is printed for the program's task set; `colours` are the lines of the dominant nodes. -/
def kTasksYaml (colours : String) : String :=
  "schemaVersion: 1\nsystem:\n  description: GFP reachability graph\n  m: 1\n  tasks:\n" ++
    "    - \x7bc: 1, d: 2, name: τ1\x7d\n    - \x7bc: 1, d: 2, name: τ2\x7d\nnodes:" ++
    nodeYaml "n0" ("\n    initial: true" ++ colours) "c: 0, d: 0" "c: 0, d: 0" "children: [n1, n2, n3]" ++
    nodeYaml "n1" colours "c: 0, d: 0" "c: 1, d: 2, release: up" "children: [n4, n5]" ++
    nodeYaml "n2" colours "c: 1, d: 2, release: up" "c: 0, d: 0" "children: [n6, n7]" ++
    nodeYaml "n3" colours "c: 1, d: 2, release: up" "c: 1, d: 2, release: up" "children: [n8]" ++
    nodeYaml "n4" "" "c: 0, d: 0" "c: 0, d: 1, release: down" "loopback: [n1, n2, n3]" ++
    nodeYaml "n5" "" "c: 1, d: 2, release: up" "c: 0, d: 1, release: down" "loopback: [n6, n7]" ++
    nodeYaml "n6" "" "c: 0, d: 1, release: down" "c: 0, d: 0" "loopback: [n1, n2, n3]" ++
    nodeYaml "n7" "" "c: 0, d: 1, release: down" "c: 1, d: 2, release: up" "loopback: [n4, n5]" ++
    nodeYaml "n8" colours "c: 0, d: 1, release: down" "c: 1, d: 1" "loopback: [n1, n2, n3]"

/-- Both programs as they are. -/
theorem gfp_dominants_kTasks :
    ∃ (cpp : YamlCpp) (first ran : Ran) (g' : Graph),
      gfpMain cpp kTasks kM kPrune 10 "gfp-graph.yaml" = some first ∧ first.written = some (kTasksYaml "" ++ "\n") ∧
      dominants cpp "gfp-graph.yaml" "dominants.yaml" (kTasksYaml "" ++ "\n") = .ok ran ∧
      ran.written = some (kTasksYaml coloursYaml ++ "\n") ∧
      loadYamlString cpp (kTasksYaml coloursYaml ++ "\n") none = .ok (.ok g', none) ∧
      ∀ s, (∃ node ∈ g'.nodes, node.fillColor = some kDominantFill ∧ nodeState kTasks.length node = s) ↔
        AbsoluteDominant (abstract kTasks.length kTasks) (cores kM) s := by
  obtain ⟨g, hg, hdiffer⟩ : ∃ g, buildGraph kTasksExploration kTasks kM = .ok g ∧
    emitGraph g ≠ emitGraph (marked g) := ⟨_, rfl, by decide⟩
  have htext : kTasksYaml "" ++ "\n" ≠ kTasksYaml coloursYaml ++ "\n" := by decide +kernel
  obtain ⟨hplain, hread⟩ := YamlCpp.also_knowing hdiffer htext
  have hmarked : ((YamlCpp.knowing (emitGraph g) (kTasksYaml "")).also (emitGraph (marked g))
    (kTasksYaml coloursYaml)).emit (emitGraph (marked g)) = .ok (kTasksYaml coloursYaml) := if_pos rfl
  obtain ⟨first, saved, ran, marks, g', hfirst, hsaved, hsave, hran, hwritten, hmarks, hload, hcoloured⟩ :=
    gfp_dominants (by decide) kTasks_proper explore_kTasks nofun hg ⟨_, hplain⟩ hread ⟨_, hmarked⟩
      (YamlCpp.also_readsBack _ _ _) "gfp-graph.yaml" "dominants.yaml"
  obtain rfl := saved_text hsave hplain
  obtain rfl := saved_text hmarks hmarked
  exact ⟨_, first, ran, g', hfirst, hsaved, hran, hwritten, hload, hcoloured⟩

end Stgx
