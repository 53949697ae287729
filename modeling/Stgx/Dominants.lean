/-
  Stgx.Dominants — the states no other is at least as bad as, marked in a saved graph
  (`examples/dominants/main.cpp`).

  - `dominants_maximal`: the states listed are those only they themselves dominate, and
    every state is dominated by one of them.
  - `dominants_writes_iff`: a document that loads is marked and written, unless its nodes
    have different numbers of tasks, which `system.tasks` excludes.
  - `dominants_marks`: what is written is read back as the graph that was loaded, with the
    colours of the dominant nodes set and nothing else changed; marked again, it stays as
    it is.
-/

import Mathlib.Order.Preorder.Finite
import Stgx.Jobs
import Stgx.RoundTrip

namespace Stgx

open Stgx.Lib.Doc (Event Tree)
open Stgx.Lib.Grouping
open Stgx.Lib.Index (modify_position)

/-! ## The program -/

def kDominantBorder : String := "#C0392B"

def kDominantFill : String := "#F9D5D3"

def stateOf (node : Node) : State := node.tasks.map fun task => ⟨task.c, task.d⟩

/-- The loop over the other states ends at the first that dominates `state`. -/
def dominantAmong (state : State) : List State → Bool
  | [] => true
  | other :: states =>
    if other = state then dominantAmong state states
    else if other.dominates state then false
    else dominantAmong state states

/-- The positions of the states that no other state dominates. -/
def absoluteDominants (states : List State) : List ℕ :=
  (List.range states.length).filter fun i => dominantAmong (states[i]?.getD []) states

/-- What is said of a node with another number of tasks than the first, which has `front`. -/
def arityComplaint (node : Node) (front : ℕ) : String :=
  "node \"" ++ node.id ++ "\" has " ++ toString node.tasks.length ++ " tasks, the first node has " ++ toString front ++
    " — states of different arity cannot be compared"

def collectStates : List State → List Node → Except String (List State)
  | states, [] => .ok states
  | states, node :: nodes =>
    match states.head? with
    | none => collectStates [stateOf node] nodes
    | some front =>
      if node.tasks.length ≠ front.length then .error (arityComplaint node front.length)
      else collectStates (states ++ [stateOf node]) nodes

/-- Colour the nodes at some positions; their ids. -/
def paintDominants (g : Graph) (painted : List String) : List ℕ → Result (Graph × List String)
  | [] => .ok (g, painted)
  | index :: dominants =>
    let id := ((g.nodes[index]?).map Node.id).getD ""
    let border := g.setNodeBorderColor id (some kDominantBorder)
    match border.1 with
    | .error diags => .error diags
    | .ok () =>
      let fill := border.2.setNodeFillColor id (some kDominantFill)
      match fill.1 with
      | .error diags => .error diags
      | .ok () => paintDominants fill.2 (painted ++ [id]) dominants

/-- What a run leaves: on the output, on the error stream and in the output file, if it is written. -/
structure Ran where
  out : String := ""
  err : String := ""
  written : Option String := none

def dominantsReport (input output : String) (nodeCount : ℕ) (painted : List String) : String :=
  "read:      " ++ input ++ "\nstates:    " ++ toString nodeCount ++ "\ndominant:  " ++ toString painted.length ++
    "\n           " ++ String.join (painted.map (· ++ " ")) ++ "\nwritten:   " ++ output ++ "\n"

def warnedText (warnings : Diagnostics) : String := if warnings.isEmpty then "" else warnings.toString ++ "\n"

/-- The program, on the text of the input file. -/
def dominants (cpp : YamlCpp) (input output yaml : String) : Except YamlException Ran := do
  let (graph, warnings) ← loadYamlString cpp yaml (some [])
  match graph with
  | .error diags => return { err := diags.toString ++ "\n" }
  | .ok g =>
    let warned := warnedText (warnings.getD [])
    match collectStates [] g.nodes with
    | .error complaint => return { err := warned ++ complaint ++ "\n" }
    | .ok states =>
      match paintDominants g [] (absoluteDominants states) with
      | .error diags => return { err := warned ++ diags.toString ++ "\n" }
      | .ok (g, painted) =>
        match saveYamlString cpp g with
        | .error diags => return { err := warned ++ diags.toString ++ "\n" }
        | .ok text => return ⟨dominantsReport input output g.nodeCount painted, warned, some text⟩

/-! ## Dominant states -/

/-- No other state is at least as bad as `state`. -/
def Dominant (states : List State) (state : State) : Prop :=
  ∀ other ∈ states, List.Forall₂ Job.AtLeast other state → other = state

theorem dominantAmong_iff {state : State} {states : List State} (h : ∀ other ∈ states, other.length = state.length) :
    dominantAmong state states = true ↔ Dominant states state := by
  unfold Dominant
  induction states with
  | nil => exact iff_of_true rfl fun _ h => absurd h List.not_mem_nil
  | cons other states ih =>
    have ih := ih fun other hother => h other (List.mem_cons_of_mem _ hother)
    rw [List.forall_mem_cons, ← ih, dominantAmong, ← dominates_iff (h other List.mem_cons_self)]
    by_cases hsame : other = state
    · simp [hsame]
    · by_cases hdom : other.dominates state = true
      · simp [hsame, hdom]
      · simp [hsame, hdom]

/-- Above every state there is a dominant one: of those at least as bad, one whose sums are the worst. -/
theorem exists_dominant {states : List State} {state : State} (hs : state ∈ states) :
    ∃ top ∈ states, List.Forall₂ Job.AtLeast top state ∧ Dominant states top := by
  have hfinite : Set.Finite {top | top ∈ states ∧ List.Forall₂ Job.AtLeast top state} :=
    states.finite_toSet.subset fun _ h => h.1
  obtain ⟨top, ⟨htop, habove⟩, hworst⟩ := hfinite.exists_maximalFor (fun top : State => top.sumC - top.sumD) _
    ⟨state, hs, atLeast_refl state⟩
  refine ⟨top, htop, habove, fun other hother hdom => ?_⟩
  have hsums := sums_le hdom
  by_contra hne
  have hlt : ¬ (other.sumC ≤ top.sumC ∧ top.sumD ≤ other.sumD) := fun hle => hne (eq_of_sums hdom hle.1 hle.2)
  have hle : other.sumC - other.sumD ≤ top.sumC - top.sumD :=
    hworst ⟨hother, atLeast_trans hdom habove⟩ (show top.sumC - top.sumD ≤ other.sumC - other.sumD by omega)
  omega

theorem mem_absoluteDominants {n : ℕ} {states : List State} (hlength : ∀ state ∈ states, state.length = n) {i : ℕ} :
    i ∈ absoluteDominants states ↔ ∃ state, states[i]? = some state ∧ Dominant states state := by
  rw [absoluteDominants, List.mem_filter, List.mem_range]
  constructor
  · intro h
    obtain ⟨hi, hdominant⟩ := h
    have hget := List.getElem?_eq_getElem hi
    rw [hget, Option.getD_some, dominantAmong_iff fun other hother => (hlength other hother).trans
      (hlength _ (List.getElem_mem hi)).symm] at hdominant
    exact ⟨_, hget, hdominant⟩
  · intro h
    obtain ⟨state, hget, hdominant⟩ := h
    have hstate := hlength state (List.mem_of_getElem? hget)
    rw [hget, Option.getD_some, dominantAmong_iff fun other hother => (hlength other hother).trans hstate.symm]
    exact ⟨(List.getElem?_eq_some_iff.mp hget).1, hdominant⟩

/-- Of equally long states, those listed are the dominant ones, and each state is dominated by one. -/
theorem dominants_maximal {n : ℕ} {states : List State} (hlength : ∀ state ∈ states, state.length = n) :
    (∀ i, i ∈ absoluteDominants states ↔ ∃ state, states[i]? = some state ∧ Dominant states state) ∧
      ∀ state ∈ states, ∃ i ∈ absoluteDominants states, ∃ top, states[i]? = some top ∧ top.dominates state = true := by
  refine ⟨fun i => mem_absoluteDominants hlength, fun state hs => ?_⟩
  obtain ⟨top, htop, habove, hdominant⟩ := exists_dominant hs
  obtain ⟨i, hi⟩ := List.mem_iff_getElem?.mp htop
  exact ⟨i, (mem_absoluteDominants hlength).mpr ⟨top, hi, hdominant⟩, top, hi,
    (dominates_iff ((hlength top htop).trans (hlength state hs).symm)).mpr habove⟩

theorem dominants_maximal_pair : ∃ i ∈ absoluteDominants [[⟨1, 2⟩], [⟨1, 1⟩], [⟨0, 0⟩]], ∃ top : State,
    [[⟨1, 2⟩], [⟨1, 1⟩], [⟨0, 0⟩]][i]? = some top ∧ top.dominates [⟨1, 2⟩] = true :=
  (dominants_maximal (n := 1) (by decide)).2 [⟨1, 2⟩] (by decide)

/-! ## Collecting -/

/-- The number of tasks of the first node. -/
def frontArity (nodes : List Node) : ℕ := nodes.head?.elim 0 (·.tasks.length)

/-- The first node unlike the first of all. -/
def misfit (nodes : List Node) : Option Node := nodes.find? fun node => decide (node.tasks.length ≠ frontArity nodes)

theorem collectStates_front {states : List State} {front : State} (hfront : states.head? = some front)
    (nodes : List Node) :
    collectStates states nodes = match nodes.find? fun node => decide (node.tasks.length ≠ front.length) with
      | none => .ok (states ++ nodes.map stateOf)
      | some node => .error (arityComplaint node front.length) := by
  induction nodes generalizing states with
  | nil => simp [collectStates]
  | cons node nodes ih =>
    rw [collectStates, hfront, List.find?_cons]
    by_cases hn : node.tasks.length = front.length
    · have hfront' : (states ++ [stateOf node]).head? = some front := by
        rw [List.head?_append, hfront, Option.some_or]
      simp [hn, ih hfront']
    · simp [hn]

theorem collectStates_eq (nodes : List Node) :
    collectStates [] nodes = match misfit nodes with
      | none => .ok (nodes.map stateOf)
      | some node => .error (arityComplaint node (frontArity nodes)) := by
  cases nodes with
  | nil => rfl
  | cons node nodes =>
    have hlength : (stateOf node).length = frontArity (node :: nodes) := List.length_map _
    have hfirst : node.tasks.length = frontArity (node :: nodes) := rfl
    have hfront : [stateOf node].head? = some (stateOf node) := rfl
    rw [collectStates, List.head?_nil, collectStates_front hfront, hlength, misfit, List.find?_cons, hfirst]
    simp

theorem misfit_eq_none_iff (nodes : List Node) :
    misfit nodes = none ↔ ∀ node ∈ nodes, node.tasks.length = frontArity nodes := by
  simp [misfit]

def SameArity (nodes : List Node) : Prop := ∀ u ∈ nodes, ∀ v ∈ nodes, u.tasks.length = v.tasks.length

theorem sameArity_iff (nodes : List Node) : SameArity nodes ↔ misfit nodes = none := by
  rw [misfit_eq_none_iff]
  constructor
  · intro h node hnode
    cases nodes with
    | nil => cases hnode
    | cons front nodes => exact h node hnode front List.mem_cons_self
  · exact fun h u hu v hv => (h u hu).trans (h v hv).symm

/-! ## Painting -/

def paint (node : Node) : Node := { node with borderColor := some kDominantBorder, fillColor := some kDominantFill }

namespace Plain

variable {m : Plain}

def paintAll (m : Plain) (painted : List String) : Plain :=
  { m with nodes := m.nodes.map fun node => if node.id ∈ painted then paint node else node }

theorem ids_paintAll (m : Plain) (painted : List String) : ids (m.paintAll painted).nodes = ids m.nodes :=
  ids_map_update (fun node => by split <;> rfl) m.nodes

theorem paintAll_sound (hm : m.Sound) (painted : List String) : (m.paintAll painted).Sound :=
  sound_map hm (m.ids_paintAll painted)

theorem paintAll_cons (m : Plain) (id : String) (painted : List String) :
    (m.paintAll [id]).paintAll painted = m.paintAll (id :: painted) := by
  unfold paintAll
  rw [List.map_map]
  refine congrArg (fun nodes => Plain.mk m.system nodes m.edges) (List.map_congr_left fun node _ => ?_)
  by_cases hid : node.id = id
  · have hpainted : (paint node).id = id := hid
    by_cases hrest : id ∈ painted
    · simp [hid, hpainted, hrest]
      rfl
    · simp [hid, hpainted, hrest]
  · simp [hid]

theorem paintAll_nil (m : Plain) : m.paintAll [] = m := by simp [paintAll]

/-- The node with an id replaced by what `f` makes of it. -/
def edited (m : Plain) (id : String) (f : Node → Node) : Plain :=
  { m with nodes := m.nodes.map fun node => if node.id = id then f node else node }

theorem ids_edited (m : Plain) (id : String) {f : Node → Node} (hf : ∀ node, (f node).id = node.id) :
    ids (m.edited id f).nodes = ids m.nodes :=
  ids_map_update (fun node => by split <;> simp [hf]) m.nodes

theorem mutateNode_found (hm : m.Sound) {id : String} (hid : id ∈ ids m.nodes) {f : Node → Node}
    (hf : ∀ node, (f node).id = node.id) :
    m.indexed.mutateNode id (fun node nodes => nodes.modify node f) = (.ok (), (m.edited id f).indexed) := by
  have hmut := mutateNode_indexed (g := fun node nodes => nodes.modify node f) (m.ids_edited id hf)
    fun i hi => modify_position Node.id f hm.idsDistinct hi
  rw [hmut, if_pos (show m.hasNode id = true from decide_eq_true hid)]
  rfl

/-- Setting both colours of a node. -/
theorem setColors (hm : m.Sound) {id : String} (hid : id ∈ ids m.nodes) :
    ∃ bordered : Plain, m.indexed.setNodeBorderColor id (some kDominantBorder) = (.ok (), bordered.indexed) ∧
      bordered.indexed.setNodeFillColor id (some kDominantFill) = (.ok (), (m.paintAll [id]).indexed) := by
  have hids := m.ids_edited id (f := ({ · with borderColor := some kDominantBorder })) fun _ => rfl
  have hfill := mutateNode_found (m := m.edited id ({ · with borderColor := some kDominantBorder }))
    (f := ({ · with fillColor := some kDominantFill })) (sound_map hm hids) (hids.symm ▸ hid) fun _ => rfl
  have hboth : (m.edited id ({ · with borderColor := some kDominantBorder })).edited id
      ({ · with fillColor := some kDominantFill }) = m.paintAll [id] := by
    unfold edited paintAll
    rw [List.map_map]
    refine congrArg (fun nodes => Plain.mk m.system nodes m.edges) (List.map_congr_left fun node _ => ?_)
    by_cases hn : node.id = id
    · simp [hn, paint]
    · simp [hn]
  rw [hboth] at hfill
  exact ⟨_, mutateNode_found hm hid fun _ => rfl, hfill⟩

def idAt (m : Plain) (index : ℕ) : String := ((m.nodes[index]?).map Node.id).getD ""

theorem idAt_eq {index : ℕ} {node : Node} (h : m.nodes[index]? = some node) : m.idAt index = node.id := by
  rw [idAt, h]
  rfl

theorem idAt_paintAll (m : Plain) (painted : List String) : (m.paintAll painted).idAt = m.idAt := by
  funext index
  unfold idAt
  rw [← List.getElem?_map, ← List.getElem?_map]
  exact congrArg (fun ids => (ids[index]?).getD "") (m.ids_paintAll painted)

/-- The loop paints the nodes at the positions given. -/
theorem paintDominants_indexed (hm : m.Sound) (painted : List String) {dominants : List ℕ}
    (h : ∀ index ∈ dominants, index < m.nodes.length) :
    paintDominants m.indexed painted dominants =
      .ok ((m.paintAll (dominants.map m.idAt)).indexed, painted ++ dominants.map m.idAt) := by
  induction dominants generalizing m painted with
  | nil => rw [List.map_nil, paintAll_nil, List.append_nil, paintDominants]
  | cons index dominants ih =>
    rw [List.forall_mem_cons] at h
    have hget := List.getElem?_eq_getElem h.1
    have hmem : m.idAt index ∈ ids m.nodes := by
      rw [idAt_eq hget]
      exact List.mem_map_of_mem (List.getElem_mem h.1)
    obtain ⟨bordered, hborder, hfill⟩ := setColors hm hmem
    have hid : ((m.indexed.nodes[index]?).map Node.id).getD "" = m.idAt index := rfl
    have hrest : ∀ later ∈ dominants, later < (m.paintAll [m.idAt index]).nodes.length := by
      simpa [paintAll] using h.2
    rw [paintDominants]
    simp only [hid, hborder, hfill]
    rw [ih (paintAll_sound hm _) _ hrest]
    simp only [idAt_paintAll, paintAll_cons, List.map_cons, List.append_assoc, List.singleton_append]

end Plain

/-! ## The marked graph -/

instance (job other : Job) : Decidable (job.AtLeast other) := inferInstanceAs (Decidable (_ ∧ _))

instance (states : List State) (state : State) : Decidable (Dominant states state) :=
  inferInstanceAs (Decidable (∀ other ∈ states, List.Forall₂ Job.AtLeast other state → other = state))

/-- A node of a graph with some states, coloured if its own is dominant. -/
def mark (states : List State) (node : Node) : Node :=
  if Dominant states (stateOf node) then paint node else node

theorem mark_id (states : List State) (node : Node) : (mark states node).id = node.id := by
  unfold mark
  split <;> rfl

theorem mark_initial (states : List State) (node : Node) : (mark states node).initial = node.initial := by
  unfold mark
  split <;> rfl

theorem mark_tasks (states : List State) (node : Node) : (mark states node).tasks = node.tasks := by
  unfold mark
  split <;> rfl

theorem stateOf_mark (states : List State) (node : Node) : stateOf (mark states node) = stateOf node :=
  congrArg (List.map _) (mark_tasks states node)

theorem mark_mark (states : List State) (node : Node) : mark states (mark states node) = mark states node := by
  rw [mark, stateOf_mark]
  unfold mark
  split <;> rfl

/-- The graph with its dominant nodes coloured. -/
def marked (g : Graph) : Graph := { g with nodes := g.nodes.map (mark (g.nodes.map stateOf)) }

theorem ids_marked (g : Graph) : ids (marked g).nodes = ids g.nodes := ids_map_update (mark_id _) g.nodes

theorem stateOf_marked (g : Graph) : (marked g).nodes.map stateOf = g.nodes.map stateOf := by
  show List.map stateOf (List.map _ _) = _
  rw [List.map_map]
  exact List.map_congr_left fun node _ => stateOf_mark _ node

theorem listedEdges_marked (g : Graph) : listedEdges (marked g) = listedEdges g := by
  show List.flatMap _ (List.map _ _) = List.flatMap _ _
  rw [List.flatMap_map]
  exact List.flatMap_congr fun node _ => by
    rw [mark_id]
    rfl

/-- Marking again changes nothing. -/
theorem marked_marked (g : Graph) : marked (marked g) = marked g := by
  have hnodes : (marked g).nodes.map (mark (g.nodes.map stateOf)) = (marked g).nodes := by
    show List.map _ (List.map _ _) = List.map _ _
    rw [List.map_map]
    exact List.map_congr_left fun node _ => mark_mark _ node
  have hagain : marked (marked g) =
      { marked g with nodes := (marked g).nodes.map (mark ((marked g).nodes.map stateOf)) } := rfl
  rw [hagain, stateOf_marked, hnodes]

theorem marked_indexed (m : Plain) : marked m.indexed = Stgx.indexed m.system (marked m.indexed).nodes m.edges :=
  indexed_with_nodes (ids_marked m.indexed)

/-- The loop paints the nodes whose states are dominant. -/
theorem paintDominants_marked {m : Plain} (hm : m.Sound) (harity : SameArity m.nodes) :
    ∃ painted, paintDominants m.indexed [] (absoluteDominants (m.nodes.map stateOf)) =
      .ok (marked m.indexed, painted) := by
  have hlength : ∀ state ∈ m.nodes.map stateOf, state.length = frontArity m.nodes := by
    intro state hs
    obtain ⟨node, hnode, rfl⟩ := List.mem_map.mp hs
    exact (List.length_map _).trans ((misfit_eq_none_iff m.nodes).mp ((sameArity_iff m.nodes).mp harity) node hnode)
  have hbound : ∀ index ∈ absoluteDominants (m.nodes.map stateOf), index < m.nodes.length := by
    intro index hindex
    rw [← List.length_map (f := stateOf)]
    exact List.mem_range.mp (List.mem_filter.mp hindex).1
  have hdominant : ∀ node ∈ m.nodes, node.id ∈ (absoluteDominants (m.nodes.map stateOf)).map m.idAt ↔
      Dominant (m.nodes.map stateOf) (stateOf node) := by
    intro node hnode
    rw [List.mem_map]
    constructor
    · rintro ⟨index, hindex, hid⟩
      obtain ⟨state, hstate, hdom⟩ := (mem_absoluteDominants hlength).mp hindex
      have hget := List.getElem?_eq_getElem (hbound index hindex)
      rw [Plain.idAt_eq hget] at hid
      rw [List.getElem?_map, hget, Option.map_some, Option.some_inj] at hstate
      rwa [← List.inj_on_of_nodup_map hm.idsDistinct (List.getElem_mem _) hnode hid, hstate]
    · intro hdom
      obtain ⟨index, hget⟩ := List.mem_iff_getElem?.mp hnode
      exact ⟨index, (mem_absoluteDominants hlength).mpr ⟨stateOf node, by rw [List.getElem?_map, hget]; rfl, hdom⟩,
        Plain.idAt_eq hget⟩
  refine ⟨_, (Plain.paintDominants_indexed hm [] hbound).trans (congrArg (fun g => Except.ok (g, _)) ?_)⟩
  have hnodes : (m.paintAll ((absoluteDominants (m.nodes.map stateOf)).map m.idAt)).nodes = (marked m.indexed).nodes :=
    List.map_congr_left fun node hnode => by
      simp only [hdominant node hnode]
      rfl
  rw [marked_indexed, ← hnodes]
  rfl

/-! ## A run -/

variable {cpp : YamlCpp} {yaml : String} {g : Graph} {warnings : Diagnostics}

/-- What a load of a text gives: a well-formed graph, saved in the order it has. -/
theorem loaded_parts {w w' : Option Diagnostics} (h : loadYamlString cpp yaml w = .ok (.ok g, w')) :
    ∃ m : Plain, WellFormed m.system m.nodes m.edges ∧ g = m.indexed ∧ listedEdges m.indexed = m.indexed.edges := by
  unfold loadYamlString at h
  cases hdoc : cpp.load yaml with
  | error what =>
    rw [hdoc] at h
    cases h
  | ok doc =>
    rw [hdoc] at h
    obtain ⟨-, hw, rfl, -⟩ := (load_ok_iff doc w w' g).mp h
    exact ⟨⟨documentSystem doc, nodesOf doc, edgesOf doc⟩, hw, rfl, loaded_listedEdges hw.sound⟩

/-- Colouring nodes keeps a graph well formed. -/
theorem marked_wellFormed {m : Plain} (hw : WellFormed m.system m.nodes m.edges) :
    WellFormed m.system (marked m.indexed).nodes m.edges := by
  have hids : ids (marked m.indexed).nodes = ids m.nodes := ids_marked m.indexed
  refine ⟨fun h => hw.nonempty (List.map_eq_nil_iff.mp h), hids ▸ hw.idsNonempty, hids ▸ hw.idsDistinct, ?_, ?_,
    hids ▸ hw.sources, hids ▸ hw.targets⟩
  · show List.countP _ (List.map _ _) = 1
    rw [List.countP_map, ← hw.oneInitial]
    exact List.countP_congr fun node _ => by rw [Function.comp_apply, mark_initial]
  · intro htasks node hnode
    obtain ⟨old, hold, rfl⟩ := List.mem_map.mp hnode
    rw [mark_tasks]
    exact hw.arity htasks old hold

/-- The marked graph is saved, and its document is read as itself. -/
theorem marked_saved {m : Plain} (hw : WellFormed m.system m.nodes m.edges)
    (hlisted : listedEdges m.indexed = m.indexed.edges) (hp : cpp.Prints (emitGraph (marked m.indexed))) :
    ∃ saved, saveYamlString cpp (marked m.indexed) = .ok saved ∧ (cpp.ReadsBack (emitGraph (marked m.indexed)) →
      ∀ w, loadYamlString cpp saved w = .ok (.ok (marked m.indexed), w)) := by
  have hmarked := marked_wellFormed hw
  have hi : WellFormed (marked m.indexed).system (marked m.indexed).nodes (marked m.indexed).edges :=
    hmarked.of_mem fun edge he => mem_indexed_edges.mp he
  have hout : ∀ id, (marked m.indexed).outEdges id = leaving (marked m.indexed).edges id := fun id =>
    (outEdges_indexed hw.sound id).trans (leaving_indexed hw.sound id).symm
  obtain ⟨text, hemit⟩ := hp
  have hsave := saveYamlString_ok_iff.mpr ⟨hi, text, hemit, rfl⟩
  refine ⟨_, hsave, fun hcpp w => ?_⟩
  rw [load_saved hsave hcpp, load_graphTree hi hout, listedEdges_marked, hlisted]
  have hrebuilt : Stgx.indexed m.system m.indexed.nodes m.indexed.edges = m.indexed := rebuildIndexes_indexed hw.sound
  have hsame : Stgx.indexed m.system (marked m.indexed).nodes m.indexed.edges = marked m.indexed := by
    rw [← indexed_with_nodes (ids_marked m.indexed), hrebuilt]
    rfl
  exact congrArg (fun g => Except.ok (Except.ok g, w)) hsame

/-- A document that loads is marked and written, unless a node is unlike the first. -/
theorem dominants_ran (hload : loadYamlString cpp yaml (some []) = .ok (.ok g, some warnings))
    (hp : cpp.Prints (emitGraph (marked g))) (input output : String) :
    ∃ saved report, saveYamlString cpp (marked g) = .ok saved ∧
      dominants cpp input output yaml = .ok (match misfit g.nodes with
        | none => ⟨report, warnedText warnings, some saved⟩
        | some node => { err := warnedText warnings ++ arityComplaint node (frontArity g.nodes) ++ "\n" }) := by
  obtain ⟨m, hw, rfl, hlisted⟩ := loaded_parts hload
  obtain ⟨saved, hsave, -⟩ := marked_saved hw hlisted hp
  unfold dominants
  rw [hload]
  simp only [bind, Except.bind, collectStates_eq]
  cases hmisfit : misfit m.indexed.nodes with
  | some node => exact ⟨saved, "", hsave, rfl⟩
  | none =>
    obtain ⟨painted, hpaint⟩ := paintDominants_marked hw.sound ((sameArity_iff m.nodes).mpr hmisfit)
    have hpaint : paintDominants m.indexed [] (absoluteDominants (m.indexed.nodes.map stateOf)) = _ := hpaint
    simp only [hpaint, hsave]
    exact ⟨saved, _, rfl, rfl⟩

/-- A document that loads is marked and written, unless its nodes have different numbers of tasks:
    then the first unlike the first node is named. With `system.tasks` that cannot be. -/
theorem dominants_writes_iff (hload : loadYamlString cpp yaml (some []) = .ok (.ok g, some warnings))
    (hp : cpp.Prints (emitGraph (marked g))) (input output : String) :
    ∃ ran, dominants cpp input output yaml = .ok ran ∧ (ran.written ≠ none ↔ SameArity g.nodes) ∧
      (g.system.tasks ≠ [] → SameArity g.nodes) ∧ ∀ node, misfit g.nodes = some node →
        ran = { err := warnedText warnings ++ arityComplaint node (frontArity g.nodes) ++ "\n" } := by
  obtain ⟨saved, report, -, hran⟩ := dominants_ran hload hp input output
  obtain ⟨m, hw, rfl, -⟩ := loaded_parts hload
  refine ⟨_, hran, ?_, fun htasks u hu v hv => (hw.arity htasks u hu).trans (hw.arity htasks v hv).symm, ?_⟩
  · rw [sameArity_iff]
    cases misfit m.indexed.nodes with
    | none => simp
    | some node => simp
  · intro node hmisfit
    rw [hmisfit]

/-- What is written is the graph that was loaded, its dominant nodes coloured; it is read as that
    without a warning, and marked again, it is written as it is. -/
theorem dominants_marks (hload : loadYamlString cpp yaml (some []) = .ok (.ok g, some warnings))
    (harity : SameArity g.nodes) (hp : cpp.Prints (emitGraph (marked g))) (hcpp : cpp.ReadsBack (emitGraph (marked g)))
    (input output : String) :
    ∃ ran saved, dominants cpp input output yaml = .ok ran ∧ ran.written = some saved ∧
      saveYamlString cpp (marked g) = .ok saved ∧ (∀ w, loadYamlString cpp saved w = .ok (.ok (marked g), w)) ∧
      ∃ again, dominants cpp output output saved = .ok again ∧ again.written = some saved ∧ again.err = "" := by
  obtain ⟨saved, report, hsave, hran⟩ := dominants_ran hload hp input output
  obtain ⟨m, hw, rfl, hlisted⟩ := loaded_parts hload
  obtain ⟨saved', hsave', hreload⟩ := marked_saved hw hlisted hp
  obtain rfl := Except.ok.inj (hsave.symm.trans hsave')
  have hreload := hreload hcpp
  rw [(sameArity_iff _).mp harity] at hran
  have hmisfit : misfit (marked m.indexed).nodes = none := by
    refine (sameArity_iff _).mp fun u hu v hv => ?_
    obtain ⟨u', hu', rfl⟩ := List.mem_map.mp hu
    obtain ⟨v', hv', rfl⟩ := List.mem_map.mp hv
    rw [mark_tasks, mark_tasks]
    exact harity u' hu' v' hv'
  obtain ⟨saved'', report', hsave'', hagain⟩ :=
    dominants_ran (hreload (some [])) (by rw [marked_marked]; exact hp) output output
  rw [marked_marked] at hsave''
  obtain rfl := Except.ok.inj (hsave.symm.trans hsave'')
  rw [hmisfit] at hagain
  exact ⟨_, saved, hran, rfl, hsave, hreload, _, hagain, rfl, rfl⟩

/-- A yaml-cpp that parses one document, and prints and parses another. -/
def YamlCpp.turning (yaml : String) (doc : Tree) (events : List Event) (text : String) : YamlCpp where
  load input := if input = yaml then .ok doc else (knowing events text).load input
  emit := (knowing events text).emit

theorem YamlCpp.turning_readsBack {yaml text : String} (doc : Tree) (events : List Event) (h : text ++ "\n" ≠ yaml) :
    (turning yaml doc events text).ReadsBack events := by
  intro printed t hemit hbuild
  have hread := knowing_readsBack events text printed t hemit hbuild
  obtain rfl : text = printed := by simpa [turning, knowing] using hemit
  exact (if_neg h).trans hread

/-- Two nodes, the second with tasks of its own. -/
def twoNodes (tasks : List Tree) : Tree :=
  .mapping [(.scalar "nodes", .sequence
    [.mapping [(.scalar "id", .scalar "a"), (.scalar "initial", .scalar "true"), (.scalar "tasks", .sequence
      [.mapping [(.scalar "c", .scalar "1"), (.scalar "d", .scalar "1")]])],
    .mapping [(.scalar "id", .scalar "b"), (.scalar "tasks", .sequence tasks)]])]

def twoNodesYaml (tasks : String) : String :=
  "nodes:\n  - id: a\n    initial: true\n    tasks: [\x7bc: 1, d: 1\x7d]\n  - id: b\n    tasks: [" ++ tasks ++ "]\n"

/-- The lines a dominant node gets. -/
def coloursYaml : String := "\n    borderColor: \"#C0392B\"\n    fillColor: \"#F9D5D3\""

/-- What is printed for the two nodes when the first is dominant. -/
def markedYaml (second : String) : String :=
  "schemaVersion: 1\nnodes:\n  - id: a\n    initial: true" ++ coloursYaml ++
    "\n    tasks:\n      - \x7bc: 1, d: 1\x7d\n  - id: b" ++ second

/-- The second node without tasks. -/
theorem dominants_writes_iff_unlike :
    ∃ g ran, loadDocument (.valid (twoNodes [])) (some []) = .ok (.ok g, some []) ∧
      dominants (.turning (twoNodesYaml "") (twoNodes []) (emitGraph (marked g)) (markedYaml coloursYaml)) "in.yaml"
        "out.yaml" (twoNodesYaml "") = .ok ran ∧
      ran.written = none ∧
      ran.err = "node \"b\" has 0 tasks, the first node has 1 — states of different arity cannot be compared\n" := by
  obtain ⟨g, h, hunlike, node, hmisfit, hcomplaint⟩ : ∃ g,
    loadDocument (.valid (twoNodes [])) (some []) = .ok (.ok g, some []) ∧ ¬ SameArity g.nodes ∧
      ∃ node, misfit g.nodes = some node ∧ arityComplaint node (frontArity g.nodes) ++ "\n" =
        "node \"b\" has 0 tasks, the first node has 1 — states of different arity cannot be compared\n" :=
    ⟨_, rfl, by unfold SameArity; decide, _, rfl, by decide⟩
  have hload : loadYamlString (.turning (twoNodesYaml "") (twoNodes []) (emitGraph (marked g))
    (markedYaml coloursYaml)) (twoNodesYaml "") (some []) = .ok (.ok g, some []) := h
  obtain ⟨ran, hran, hwritten, -, herr⟩ := dominants_writes_iff hload ⟨markedYaml coloursYaml, if_pos rfl⟩ "in.yaml"
    "out.yaml"
  refine ⟨g, ran, h, hran, not_not.mp fun hne => hunlike (hwritten.mp hne), ?_⟩
  rw [herr node hmisfit, ← hcomplaint]
  rfl

/-- The first node at least as bad as the second. -/
def comparable : Tree := twoNodes [.mapping [(.scalar "c", .scalar "0"), (.scalar "d", .scalar "1")]]

def comparableYaml : String := twoNodesYaml "\x7bc: 0, d: 1\x7d"

def comparableMarked : String := markedYaml "\n    tasks:\n      - \x7bc: 0, d: 1\x7d"

theorem dominants_marks_pair :
    ∃ g ran, loadDocument (.valid comparable) (some []) = .ok (.ok g, some []) ∧
      dominants (.turning comparableYaml comparable (emitGraph (marked g)) comparableMarked) "in.yaml" "out.yaml"
        comparableYaml = .ok ran ∧
      ran.written = some (comparableMarked ++ "\n") ∧
      loadYamlString (.turning comparableYaml comparable (emitGraph (marked g)) comparableMarked)
        (comparableMarked ++ "\n") none = .ok (.ok (marked g), none) ∧
      (marked g).nodes.map Node.fillColor = [some kDominantFill, none] := by
  obtain ⟨g, h, harity, hcolours⟩ : ∃ g, loadDocument (.valid comparable) (some []) = .ok (.ok g, some []) ∧
    SameArity g.nodes ∧ (marked g).nodes.map Node.fillColor = [some kDominantFill, none] :=
    ⟨_, rfl, by unfold SameArity; decide, by decide⟩
  have hload : loadYamlString (.turning comparableYaml comparable (emitGraph (marked g)) comparableMarked)
    comparableYaml (some []) = .ok (.ok g, some []) := h
  have hother : comparableMarked ++ "\n" ≠ comparableYaml := by decide
  have hprints : (YamlCpp.turning comparableYaml comparable (emitGraph (marked g)) comparableMarked).emit
    (emitGraph (marked g)) = .ok comparableMarked := if_pos rfl
  obtain ⟨ran, saved, hran, hwritten, hsave, hreload, -⟩ := dominants_marks hload harity ⟨_, hprints⟩
    (YamlCpp.turning_readsBack _ _ hother) "in.yaml" "out.yaml"
  obtain rfl := saved_text hsave hprints
  exact ⟨g, ran, h, hran, hwritten, hreload none, hcolours⟩

end Stgx
