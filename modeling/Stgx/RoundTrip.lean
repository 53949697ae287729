/-
  Stgx.RoundTrip — reading back what was written.

  The document a well-formed graph is written as describes its system, its nodes, and
  per node the edges leaving it, children before loopback (`graphTree_isDocument`), and
  holds no stray entry (`graphTree_tidy`). So a load of it succeeds without a warning and
  differs from the graph in nothing but that order (`load_graphTree`).

  - `save_load_iff`: a saved graph is read back equal exactly when, of the edges leaving a
    node, none that is a loopback comes before a transition.
  - `load_save_stable`: this holds of every loaded graph, so after one load and save a
    document stays as it is.
-/

import Stgx.Accept
import Stgx.Lib.Strip
import Stgx.Runs
import Stgx.Save

namespace Stgx

open Stgx.Lib.Decimal (fromChars fromChars_toString numeral_toString)
open Stgx.Lib.Doc
open Stgx.Lib.Grouping

/-! ## What was written describes the graph -/

theorem parseInt_toString (v : Int32) : parseInt (toString v.toInt) = some v := by
  have hread : fromChars (-2147483648) 2147483647 (toString v.toInt).toList = ⟨.ok, v.toInt, []⟩ :=
    fromChars_toString (by have := v.le_toInt; omega) (by have := v.toInt_lt; omega)
  have hplus : dropPlus (toString v.toInt).toList = (toString v.toInt).toList := by
    unfold dropPlus
    split
    · rename_i digits hd
      exact absurd hd (numeral_toString _).ne_plus
    · rfl
  unfold parseInt
  simp only [hplus, hread, ne_eq, not_true_eq_false, or_self, if_false, Int32.ofInt_toInt]

theorem parseRelease_toString (release : Release) : parseRelease release.toString = some release := by
  cases release <;> decide

theorem isText_scalar (text : String) : IsText (.scalar text) text := ⟨text, rfl, rfl⟩

theorem isInt_intTree (v : Int32) : IsInt (intTree v) v := ⟨_, rfl, parseInt_toString v⟩

section Fields

variable {α : Type} {reads : Tree → α → Prop} {tree : α → Tree} {name : String} {entries : List Entry}

theorem optional_of_lookup (h : ∀ v, reads (tree v) v) {o : Option α} (hl : lookup name entries = o.map tree) :
    Optional reads name entries o := by
  cases o with
  | none => exact .inl hl
  | some v => exact ⟨_, hl, h v⟩

theorem listed_of_lookup {l : List α} (h : ∀ v ∈ l, reads (tree v) v)
    (hl : lookup name entries = listTree (l.map tree)) : Listed reads name entries l := by
  cases l with
  | nil => exact .inl ⟨.inl hl, rfl⟩
  | cons v l =>
    refine .inr ⟨_, hl, ?_⟩
    rw [List.forall₂_map_left_iff, List.forall₂_same]
    exact h

end Fields

theorem taskParamTree_isTaskParam (task : TaskParam) : IsTaskParam (taskParamTree task) task :=
  ⟨_, rfl, ⟨_, by simp, isInt_intTree task.c⟩, ⟨_, by simp, isInt_intTree task.d⟩,
    optional_of_lookup isText_scalar (by simp)⟩

theorem systemTree_isSystem (system : System) : IsSystem (systemTree system) system :=
  ⟨_, rfl, optional_of_lookup isText_scalar (by simp), optional_of_lookup isInt_intTree (by simp),
    listed_of_lookup (fun task _ => taskParamTree_isTaskParam task) (by simp)⟩

theorem taskStateTree_isTaskState (task : TaskState) : IsTaskState (taskStateTree task) task := by
  refine ⟨_, rfl, ⟨some task.c, ⟨_, by simp, isInt_intTree task.c⟩, rfl⟩,
    ⟨some task.d, ⟨_, by simp, isInt_intTree task.d⟩, rfl⟩, ?_⟩
  by_cases h : task.release = .none
  · exact ⟨none, .inl (by simp [h]), h.symm⟩
  · exact ⟨some task.release, ⟨.scalar task.release.toString, by simp [h], _, rfl, parseRelease_toString _⟩, rfl⟩

/-- The edges leaving a node as a load lists them. -/
def childrenFirst (edges : List Edge) : List Edge := group [.transition, .loopback] Edge.kind edges

theorem childrenFirst_perm (edges : List Edge) : (childrenFirst edges).Perm edges :=
  group_perm (by decide) fun edge _ => by cases edge.kind <;> simp

/-- The targets of one kind are the edges of that kind, when all leave one node. -/
theorem targetsOf_map {id : String} {edges : List Edge} (h : ∀ edge ∈ edges, edge.source = id) (kind : EdgeKind) :
    (targetsOf kind edges).map (⟨id, ·, kind⟩) = bucket Edge.kind edges kind := by
  rw [targetsOf, List.map_map]
  conv_rhs => rw [← List.map_id (bucket Edge.kind edges kind)]
  refine List.map_congr_left fun edge he => ?_
  obtain ⟨hmem, rfl⟩ := mem_bucket.mp he
  obtain rfl := h edge hmem
  rfl

theorem nodeTree_isNode (node : Node) {edges : List Edge} (h : ∀ edge ∈ edges, edge.source = node.id) :
    IsNode (nodeTree node edges) (node, childrenFirst edges) := by
  refine ⟨_, rfl, ⟨_, by simp, isText_scalar node.id⟩,
    ⟨node.initial, false, ?_, ⟨none, .inl (by simp), rfl⟩, Bool.or_false _⟩,
    optional_of_lookup isText_scalar (by simp), optional_of_lookup isText_scalar (by simp),
    optional_of_lookup isText_scalar (by simp),
    listed_of_lookup (fun task _ => taskStateTree_isTaskState task) (by simp),
    targetsOf .transition edges, targetsOf .loopback edges,
    listed_of_lookup (fun text _ => isText_scalar text) (by simp),
    listed_of_lookup (fun text _ => isText_scalar text) (by simp), ?_⟩
  · cases hi : node.initial with
    | false => exact ⟨none, .inl (by simp), rfl⟩
    | true => exact ⟨some true, ⟨.scalar "true", by simp, "true", rfl, by decide⟩, rfl⟩
  · rw [targetsOf_map h, targetsOf_map h]
    simp [childrenFirst, group]

/-- The edges of a graph as a load of its document lists them. -/
def listedEdges (g : Graph) : List Edge := g.nodes.flatMap fun node => childrenFirst (g.outEdges node.id)

theorem graphTree_isDocument {g : Graph} (h : ∀ id, ∀ edge ∈ g.outEdges id, edge.source = id) :
    IsDocument (graphTree g) g.system g.nodes (listedEdges g) := by
  refine ⟨_, rfl, .inr ⟨_, by simp, isInt_intTree kSchemaVersion⟩, ?_,
    g.nodes.map fun node => (node, childrenFirst (g.outEdges node.id)),
    .inr ⟨g.nodes.map fun node => nodeTree node (g.outEdges node.id), by simp, ?_⟩, ?_, ?_⟩
  · cases he : g.system.empty with
    | false => exact .inr ⟨_, by simp, systemTree_isSystem g.system⟩
    | true => exact .inl ⟨.inl (by simp), (System.empty_iff _).mp he⟩
  · rw [List.forall₂_map_left_iff, List.forall₂_map_right_iff, List.forall₂_same]
    exact fun node _ => nodeTree_isNode node (h node.id)
  · rw [List.map_map]
    exact (List.map_id _).symm
  · rw [List.flatMap_map, listedEdges]

/-! ## What was written is tidy -/

theorem tidy_listTree {kind : WireKind} {f : Format WireKind} {items : List Tree} {t : Tree}
    (ht : listTree items = some t) (h : ∀ t ∈ items, f.Tidy accepts t) : (Format.list kind f).Tidy accepts t := by
  unfold listTree at ht
  split at ht
  · cases ht
  · obtain rfl := Option.some.inj ht
    exact tidy_list h

theorem taskParamTree_tidy (task : TaskParam) : taskParamFormat.Tidy accepts (taskParamTree task) :=
  tidy_record (by rfl) <| tidy_fields_cons (fun _ _ => tidy_leaf _ _) <| tidy_fields_cons (fun _ _ => tidy_leaf _ _) <|
    tidy_fields_cons (fun _ _ => tidy_leaf _ _) <| tidy_fields_nil _

theorem systemTree_tidy (system : System) : systemFormat.Tidy accepts (systemTree system) := by
  refine tidy_record (by rfl) <| tidy_fields_cons (fun _ _ => tidy_leaf _ _) <|
    tidy_fields_cons (fun _ _ => tidy_leaf _ _) <| tidy_fields_cons (fun t ht => ?_) <| tidy_fields_nil _
  have ht : listTree (system.tasks.map taskParamTree) = some t := by simpa using ht
  refine tidy_listTree ht ?_
  simpa using fun task _ => taskParamTree_tidy task

theorem taskStateTree_tidy (task : TaskState) : taskStateFormat.Tidy accepts (taskStateTree task) :=
  tidy_record (by rfl) <| tidy_fields_cons (fun _ _ => tidy_leaf _ _) <| tidy_fields_cons (fun _ _ => tidy_leaf _ _) <|
    tidy_fields_cons (fun _ _ => tidy_leaf _ _) <| tidy_fields_nil _

theorem nodeTree_tidy (node : Node) (edges : List Edge) : nodeFormat.Tidy accepts (nodeTree node edges) := by
  have texts : ∀ {l : List String} {t : Tree}, listTree (l.map Tree.scalar) = some t → targetsFormat.Tidy accepts t :=
    fun ht => tidy_listTree ht fun _ _ => tidy_leaf _ _
  refine tidy_record (by rfl) <| tidy_fields_cons (fun _ _ => tidy_leaf _ _) <|
    tidy_fields_cons (fun _ _ => tidy_leaf _ _) <| tidy_fields_cons (fun _ _ => tidy_leaf _ _) <|
      tidy_fields_cons (fun _ _ => tidy_leaf _ _) <| tidy_fields_cons (fun _ _ => tidy_leaf _ _) <|
        tidy_fields_cons (fun _ _ => tidy_leaf _ _) <| tidy_fields_cons (fun t ht => ?_) <|
          tidy_fields_cons (fun t ht => ?_) <| tidy_fields_cons (fun t ht => ?_) <| tidy_fields_nil _
  · have ht : listTree (node.tasks.map taskStateTree) = some t := by simpa using ht
    refine tidy_listTree ht ?_
    simpa using fun task _ => taskStateTree_tidy task
  · exact texts (by simpa using ht)
  · exact texts (by simpa using ht)

theorem graphTree_tidy (g : Graph) : documentFormat.Tidy accepts (graphTree g) := by
  refine tidy_record (by rfl) <| tidy_fields_cons (fun _ _ => tidy_leaf _ _) <|
    tidy_fields_cons (fun t ht => ?_) <| tidy_fields_cons (fun t ht => ?_) <| tidy_fields_nil _
  · cases he : g.system.empty with
    | true => simp [he] at ht
    | false =>
      have : systemTree g.system = t := by simpa [he] using ht
      exact this ▸ systemTree_tidy g.system
  · have : Tree.sequence (g.nodes.map fun node => nodeTree node (g.outEdges node.id)) = t := by simpa using ht
    subst this
    refine tidy_list ?_
    simpa using fun node _ => nodeTree_tidy node _

/-! ## Loading what was written -/

/-- What leaves each node leaves it in the document too, so the edges listed are the graph's. -/
theorem mem_listedEdges {g : Graph} (h : ∀ id, g.outEdges id = leaving g.edges id) {edge : Edge}
    (he : edge ∈ listedEdges g) : edge ∈ g.edges := by
  obtain ⟨node, -, hmem⟩ := List.mem_flatMap.mp he
  rw [(childrenFirst_perm _).mem_iff, h] at hmem
  exact (mem_bucket.mp hmem).1

/-- A load of the document of a well-formed graph succeeds without a warning. -/
theorem load_graphTree {g : Graph} (hw : WellFormed g.system g.nodes g.edges)
    (h : ∀ id, g.outEdges id = leaving g.edges id) (warnings : Option Diagnostics) :
    loadDocument (.valid (graphTree g)) warnings = .ok (.ok (indexed g.system g.nodes (listedEdges g)), warnings) := by
  have hdoc : IsDocument (graphTree g) g.system g.nodes (listedEdges g) :=
    graphTree_isDocument fun id edge he => (mem_bucket.mp (h id ▸ he)).2
  obtain ⟨hclean, hsystem, hnodes, hedges⟩ := (isDocument_iff _ _ _ _).mp hdoc
  have hwarn : fieldWarnings (graphTree g) = [] := by
    rw [fieldWarnings, graphTree_tidy g .root]
    rfl
  refine (load_ok_iff _ _ _ _).mpr ⟨hclean, ?_, ?_, ?_⟩
  · rw [hsystem, hnodes, hedges]
    exact hw.of_mem fun edge he => mem_listedEdges h he
  · rw [hsystem, hnodes, hedges]
  · rw [hwarn]
    cases warnings <;> simp

/-- The text a graph is saved as is read as the graph's document. -/
theorem load_saved {cpp : YamlCpp} {g : Graph} {saved : String} (hs : saveYamlString cpp g = .ok saved)
    (hcpp : cpp.ReadsBack (emitGraph g)) (warnings : Option Diagnostics) :
    loadYamlString cpp saved warnings = loadDocument (.valid (graphTree g)) warnings := by
  obtain ⟨-, text, hemit, rfl⟩ := saveYamlString_ok_iff.mp hs
  unfold loadYamlString
  rw [hcpp text (graphTree g) hemit (emitGraph_build g)]

/-! ## Saving, then loading -/

/-- No loopback comes before a transition. -/
def ChildrenFirst (edges : List Edge) : Prop :=
  edges.Pairwise fun edge later => later.kind = .transition → edge.kind = .transition

theorem childrenFirst_eq_self {edges : List Edge} : childrenFirst edges = edges ↔ ChildrenFirst edges :=
  group_pair_eq_self (by decide) fun edge _ => by cases edge.kind <;> simp

/-- The edges of a rebuilt graph, node by node. -/
theorem edges_flatMap {system : System} {nodes : List Node} {edges : List Edge} (h : Sound nodes edges) :
    (indexed system nodes edges).edges = nodes.flatMap fun node => leaving edges node.id := by
  rw [indexed_edges h, group, ids, List.flatMap_map]
  rfl

theorem flatMap_inj {α β : Type} {f f' : α → List β} {l : List α} (h : ∀ x ∈ l, (f x).length = (f' x).length)
    (he : l.flatMap f = l.flatMap f') : ∀ x ∈ l, f x = f' x := by
  induction l with
  | nil => simp
  | cons y l ih =>
    rw [List.flatMap_cons, List.flatMap_cons] at he
    obtain ⟨hy, hl⟩ := List.append_inj he (h y List.mem_cons_self)
    intro x hx
    rcases List.mem_cons.mp hx with rfl | hx
    · exact hy
    · exact ih (fun z hz => h z (List.mem_cons_of_mem _ hz)) hl x hx

/-- A load lists the edges as the graph does exactly when no loopback comes before a transition. -/
theorem listedEdges_eq_iff {g : Graph} (h : g.edges = g.nodes.flatMap fun node => g.outEdges node.id) :
    listedEdges g = g.edges ↔ ∀ node ∈ g.nodes, ChildrenFirst (g.outEdges node.id) := by
  simp only [← childrenFirst_eq_self]
  rw [h, listedEdges]
  exact ⟨flatMap_inj fun node _ => (childrenFirst_perm _).length_eq, fun h => List.flatMap_congr h⟩

/-- The graph as it is loaded back. -/
theorem indexed_listedEdges {g : Graph} (hs : Sound g.nodes g.edges) (h : ∀ id, g.outEdges id = leaving g.edges id) :
    (indexed g.system g.nodes (listedEdges g)).edges = listedEdges g := by
  rw [indexed_edges (hs.of_mem fun edge he => mem_listedEdges h he), ids]
  refine group_flatMap hs.idsDistinct fun node _ edge he => ?_
  rw [(childrenFirst_perm _).mem_iff, h] at he
  exact (mem_bucket.mp he).2

/-- What a reachable graph answers about the edges leaving a node. -/
theorem Reachable.outEdges {g : Graph} (h : Reachable g) :
    (∀ id, g.outEdges id = leaving g.edges id) ∧ g.edges = g.nodes.flatMap fun node => g.outEdges node.id := by
  obtain ⟨m, hm, rfl⟩ := h.indexed
  have hout : ∀ id, m.indexed.outEdges id = leaving m.indexed.edges id := fun id =>
    (outEdges_indexed hm id).trans (leaving_indexed hm id).symm
  refine ⟨hout, (edges_flatMap hm).trans ?_⟩
  exact List.flatMap_congr fun node _ => (outEdges_indexed hm node.id).symm

/-- Whatever its history, a saved graph is read back without a warning, with its system, its nodes
    and its edges up to order; it is read back equal exactly when, of the edges leaving a node, no
    loopback comes before a transition. -/
theorem save_load_iff {g : Graph} (h : Reachable g) {cpp : YamlCpp} (hcpp : cpp.ReadsBack (emitGraph g))
    {saved : String} (hs : saveYamlString cpp g = .ok saved) (warnings : Option Diagnostics) :
    (∃ g', loadYamlString cpp saved warnings = .ok (.ok g', warnings) ∧ g'.system = g.system ∧ g'.nodes = g.nodes ∧
        g'.edges.Perm g.edges) ∧
      ((∃ g', loadYamlString cpp saved warnings = .ok (.ok g', warnings) ∧ g'.beq g = true) ↔
        ∀ node ∈ g.nodes, ChildrenFirst (g.outEdges node.id)) := by
  obtain ⟨hout, hedges⟩ := h.outEdges
  have hw := (saveYamlString_ok_iff.mp hs).1
  have hlisted := indexed_listedEdges h.sound hout
  rw [load_saved hs hcpp, load_graphTree hw hout]
  constructor
  · refine ⟨_, rfl, rfl, rfl, ?_⟩
    rw [hlisted, hedges, listedEdges]
    exact List.Perm.flatMap_left _ fun node _ => childrenFirst_perm _
  · rw [← listedEdges_eq_iff hedges]
    constructor
    · intro h
      obtain ⟨g', hload, hbeq⟩ := h
      obtain rfl : indexed g.system g.nodes (listedEdges g) = g' := by
        simpa using hload
      rw [← hlisted]
      exact (beq_iff.mp hbeq).2.2
    · intro he
      exact ⟨_, rfl, beq_iff.mpr ⟨rfl, rfl, hlisted.trans he⟩⟩

/-- A yaml-cpp that prints and parses one document. -/
def YamlCpp.knowing (events : List Event) (text : String) : YamlCpp where
  load yaml := if yaml = text ++ "\n" then (build events).elim (.error "bad document") .ok else .error "bad document"
  emit sent := if sent = events then .ok text else .error "unexpected token"

theorem YamlCpp.knowing_readsBack (events : List Event) (text : String) : (knowing events text).ReadsBack events := by
  intro printed t hemit hbuild
  obtain rfl : text = printed := by simpa [knowing] using hemit
  simp [knowing, hbuild]

theorem save_knowing {g : Graph} (hw : WellFormed g.system g.nodes g.edges) (text : String) :
    saveYamlString (.knowing (emitGraph g) text) g = .ok (text ++ "\n") :=
  saveYamlString_ok_iff.mpr ⟨hw, text, if_pos rfl, rfl⟩

/-- A node with an edge of each kind to itself. -/
def selfLoops : String := "schemaVersion: 1\nnodes:\n  - id: a\n    initial: true\n    children: [a]\n    loopback: [a]"

theorem save_load_iff_single :
    ∃ g g', Graph.create {} [{ id := "a", initial := true }] [⟨"a", "a", .transition⟩, ⟨"a", "a", .loopback⟩] = .ok g ∧
      loadYamlString (.knowing (emitGraph g) selfLoops) (selfLoops ++ "\n") (some []) = .ok (.ok g', some []) ∧
      g'.beq g = true := by
  obtain ⟨g, hc⟩ : ∃ g, Graph.create {} [{ id := "a", initial := true }]
    [⟨"a", "a", .transition⟩, ⟨"a", "a", .loopback⟩] = .ok g := ⟨_, rfl⟩
  have hout : ∀ node ∈ g.nodes, ChildrenFirst (g.outEdges node.id) := by
    obtain rfl := Except.ok.inj hc
    intro node hnode
    obtain rfl := List.mem_singleton.mp hnode
    exact List.Pairwise.cons (fun _ _ _ => rfl) (List.pairwise_singleton _ _)
  obtain ⟨g', hload, hbeq⟩ := (save_load_iff (.create hc) (YamlCpp.knowing_readsBack _ _)
    (save_knowing (create_wellFormed hc) selfLoops) (some [])).2.mpr hout
  exact ⟨g, g', hc, hload, hbeq⟩

/-- A loopback added before a transition comes back after it. -/
theorem save_load_loopback_first :
    ∃ g g', Graph.create {} [{ id := "a", initial := true }] [⟨"a", "a", .loopback⟩, ⟨"a", "a", .transition⟩] = .ok g ∧
      (YamlCpp.knowing (emitGraph g) selfLoops).ReadsBack (emitGraph g) ∧
      saveYamlString (.knowing (emitGraph g) selfLoops) g = .ok (selfLoops ++ "\n") ∧
      loadYamlString (.knowing (emitGraph g) selfLoops) (selfLoops ++ "\n") (some []) = .ok (.ok g', some []) ∧
      g'.beq g = false := by
  obtain ⟨g, hc⟩ : ∃ g, Graph.create {} [{ id := "a", initial := true }]
    [⟨"a", "a", .loopback⟩, ⟨"a", "a", .transition⟩] = .ok g := ⟨_, rfl⟩
  have hr := YamlCpp.knowing_readsBack (emitGraph g) selfLoops
  have hw := create_wellFormed hc
  have hs := save_knowing hw selfLoops
  refine ⟨g, _, hc, hr, hs, (load_saved hs hr _).trans (load_graphTree hw (Reachable.create hc).outEdges.1 _), ?_⟩
  obtain rfl := Except.ok.inj hc
  decide

/-! ## Loading, then saving -/

/-- The edges that leave a node of a document are those its own lists give. -/
theorem leaving_edgesOf {doc : Tree} (hd : (ids (nodesOf doc)).Nodup) {t : Tree} (ht : t ∈ documentNodes doc) :
    leaving (edgesOf doc) (nodeOf t).id = edgesFrom t := by
  rw [nodesOf, ids, List.map_map] at hd
  exact bucket_flatMap hd (fun t _ edge he => edgesFrom_source he) ht

theorem targetsFrom_kind {t : Tree} {kind : EdgeKind} {edge : Edge} (h : edge ∈ targetsFrom t kind) :
    edge.kind = kind := by
  obtain ⟨_, _, rfl⟩ := List.mem_map.mp h
  rfl

theorem edgesFrom_childrenFirst (t : Tree) : ChildrenFirst (edgesFrom t) := by
  refine List.pairwise_append.mpr ⟨?_, ?_, fun edge he _ _ _ => targetsFrom_kind he⟩
  · exact List.pairwise_of_forall_mem_list fun edge he _ _ _ => targetsFrom_kind he
  · refine List.pairwise_of_forall_mem_list fun _ _ later hl hk => ?_
    rw [targetsFrom_kind hl] at hk
    cases hk

/-- A loaded graph is read back whole. -/
theorem loaded_listedEdges {doc : Tree} (hs : Sound (nodesOf doc) (edgesOf doc)) :
    listedEdges (indexed (documentSystem doc) (nodesOf doc) (edgesOf doc)) =
      (indexed (documentSystem doc) (nodesOf doc) (edgesOf doc)).edges := by
  refine (listedEdges_eq_iff ?_).mpr fun node hnode => ?_
  · rw [edges_flatMap hs]
    exact List.flatMap_congr fun node _ => (outEdges_indexed hs node.id).symm
  · obtain ⟨t, ht, rfl⟩ := List.mem_map.mp hnode
    rw [outEdges_indexed hs, leaving_edgesOf hs.idsDistinct ht]
    exact edgesFrom_childrenFirst t

/-- A loaded graph can be saved; what is saved is read back as an equal graph without a warning,
    and that graph is saved as the same text. -/
theorem load_save_stable {doc : Tree} {g : Graph} {warnings warnings' : Option Diagnostics}
    (h : loadDocument (.valid doc) warnings = .ok (.ok g, warnings')) {cpp : YamlCpp} (hp : cpp.Prints (emitGraph g))
    (hcpp : cpp.ReadsBack (emitGraph g)) :
    ∃ saved g', saveYamlString cpp g = .ok saved ∧
      (∀ warnings, loadYamlString cpp saved warnings = .ok (.ok g', warnings)) ∧ g'.beq g = true ∧
      saveYamlString cpp g' = .ok saved := by
  obtain ⟨-, hw, rfl, -⟩ := (load_ok_iff doc warnings warnings' g).mp h
  have hs := hw.sound
  have hi : WellFormed _ _ (indexed (documentSystem doc) (nodesOf doc) (edgesOf doc)).edges :=
    hw.of_mem fun edge he => mem_indexed_edges.mp he
  have hout : ∀ id, (indexed (documentSystem doc) (nodesOf doc) (edgesOf doc)).outEdges id =
      leaving (indexed (documentSystem doc) (nodesOf doc) (edgesOf doc)).edges id := fun id =>
    (outEdges_indexed hs id).trans (leaving_indexed hs id).symm
  obtain ⟨text, hemit⟩ := hp
  have hsave := saveYamlString_ok_iff.mpr ⟨hi, text, hemit, rfl⟩
  refine ⟨text ++ "\n", indexed (documentSystem doc) (nodesOf doc) (edgesOf doc), hsave, fun w => ?_,
    beq_iff.mpr ⟨rfl, rfl, rfl⟩, hsave⟩
  rw [load_saved hsave hcpp, load_graphTree hi hout, loaded_listedEdges hs]
  rw [← rebuildIndexes_eq, rebuildIndexes_indexed hs]

theorem load_save_stable_alias :
    ∃ g saved g', loadDocument (.valid (.mapping
          [(.scalar "nodes", .sequence [.mapping
            [(.scalar "loopback", .sequence [.scalar "a"]), (.scalar "children", .sequence [.scalar "a"]),
              (.scalar "isInitial", .scalar "yes"), (.scalar "id", .scalar "a")]])])) none = .ok (.ok g, none) ∧
      saveYamlString (.knowing (emitGraph g) selfLoops) g = .ok saved ∧
      loadYamlString (.knowing (emitGraph g) selfLoops) saved (some []) = .ok (.ok g', some []) ∧ g'.beq g = true := by
  obtain ⟨g, h⟩ : ∃ g, loadDocument (.valid (.mapping
    [(.scalar "nodes", .sequence [.mapping
      [(.scalar "loopback", .sequence [.scalar "a"]), (.scalar "children", .sequence [.scalar "a"]),
        (.scalar "isInitial", .scalar "yes"), (.scalar "id", .scalar "a")]])])) none = .ok (.ok g, none) := ⟨_, rfl⟩
  obtain ⟨saved, g', hsave, hload, hbeq, -⟩ := load_save_stable h
    (show (YamlCpp.knowing (emitGraph g) selfLoops).Prints (emitGraph g) from ⟨_, if_pos rfl⟩)
    (YamlCpp.knowing_readsBack _ _)
  exact ⟨g, saved, g', h, hsave, hload _, hbeq⟩

end Stgx
