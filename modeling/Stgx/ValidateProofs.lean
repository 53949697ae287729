/-
  Stgx.ValidateProofs — what `validateGraph` reports (see `Stgx.Validate`).

  Each loop emits, for each element, what it and the elements before it determine:
  `nodeDiag` and `edgeDiag`. So a diagnostic is traced to the element it is about, and
  the verdict is read off:
  - `validateGraph_errors`: every diagnostic is an error;
  - `validateGraph_nil_iff`: there is none exactly for a well-formed graph;
  - `mem_dangling`: where a `danglingEdge` comes from.
-/

import Mathlib.Data.List.Induction
import Stgx.Validate

namespace Stgx

open Stgx.Lib.Index (Map)
open Stgx.Lib.Loop (loop emit mem_emit emit_eq_nil loop_emit)

/-- The position of the first node with this id; the empty id is never found. -/
def firstOf (nodes : List Node) (id : String) : Option Nat := if id = "" then none else (ids nodes).idxOf? id

theorem firstOf_isSome {nodes : List Node} {id : String} : (firstOf nodes id).isSome ↔ id ≠ "" ∧ id ∈ ids nodes := by
  unfold firstOf
  split
  · simp_all
  · rename_i h
    simp [List.isSome_idxOf?, h]

/-! ## Nodes -/

/-- What `checkNodes` reports at a node, given the nodes before it. -/
def nodeDiag (pre : List Node) (node : Node) : Diagnostics :=
  if node.id = "" then
    [⟨.nodeIdEmpty, .error, nodePath pre.length ++ ".id", "node id must not be empty"⟩]
  else
    match firstOf pre node.id with
    | some first =>
      [⟨.nodeIdDuplicate, .error, nodePath pre.length ++ ".id",
        "duplicate node id \"" ++ node.id ++ "\", first seen at " ++ nodePath first⟩]
    | none => []

/-- `firstIndex` holds the first positions of the nodes seen. -/
def IndexesFirst (pre : List Node) (firstIndex : Map String Nat) : Prop :=
  ∀ id, firstIndex.lookup id = firstOf pre id

theorem firstOf_append (pre : List Node) (node : Node) (id : String) :
    firstOf (pre ++ [node]) id = (firstOf pre id).or (if id ≠ "" ∧ node.id = id then some pre.length else none) := by
  unfold firstOf
  by_cases he : id = ""
  · simp [he]
  · simp only [ids, List.map_append, List.idxOf?, List.findIdx?_append]
    by_cases e : node.id = id <;> simp [he, e]

theorem checkId_step (pre : List Node) (s : NodeScan) (node : Node) (h : IndexesFirst pre s.firstIndex) :
    IndexesFirst (pre ++ [node]) (checkId s pre.length node).firstIndex ∧
      (checkId s pre.length node).diags = s.diags ++ nodeDiag pre node ∧
      (checkId s pre.length node).initialCount = s.initialCount := by
  unfold checkId nodeDiag
  by_cases he : node.id = ""
  · simp only [he, String.isEmpty_iff, if_true]
    refine ⟨fun id => ?_, rfl, trivial⟩
    rw [h id, firstOf_append, he]
    by_cases e : id = ""
    · simp [e]
    · simp [Ne.symm e]
  · simp only [String.isEmpty_iff, he, if_false, h node.id]
    cases hf : firstOf pre node.id with
    | some first =>
      refine ⟨fun id => ?_, rfl, rfl⟩
      rw [h id, firstOf_append]
      by_cases e : node.id = id
      · subst e
        simp [hf]
      · simp [e]
    | none =>
      refine ⟨fun id => ?_, by simp, rfl⟩
      rw [firstOf_append]
      by_cases e : node.id = id
      · subst e
        simp [hf, he]
      · rw [AList.lookup_insert_ne (Ne.symm e), h id]
        simp [e]

/-- The loop's invariant: first positions, and the initial nodes counted. -/
structure NodeScan.Inv (pre : List Node) (s : NodeScan) : Prop where
  first : IndexesFirst pre s.firstIndex
  count : s.initialCount = pre.countP (·.initial)

theorem checkNode_step (pre : List Node) (s : NodeScan) (node : Node) (h : s.Inv pre) :
    (checkNode s pre.length node).Inv (pre ++ [node]) ∧
      (checkNode s pre.length node).diags = s.diags ++ nodeDiag pre node := by
  obtain ⟨hfirst, hdiags, hcount⟩ := checkId_step pre s node h.first
  unfold checkNode
  cases hi : node.initial with
  | true =>
    refine ⟨⟨hfirst, ?_⟩, hdiags⟩
    simp [hcount, h.count, List.countP_append, hi]
  | false =>
    refine ⟨⟨hfirst, ?_⟩, hdiags⟩
    simp [hcount, h.count, List.countP_append, hi]

/-- The closing report of `checkNodes`. -/
def initialDiag (nodes : List Node) : Diagnostics :=
  if nodes.countP (·.initial) = 1 then []
  else
    [⟨.initialCount, .error, "nodes",
      "exactly one node must be initial, found " ++ toString (nodes.countP (·.initial))⟩]

theorem checkNodes_eq (nodes : List Node) :
    (checkNodes nodes [] ∅).1 = emit nodeDiag [] nodes ++ initialDiag nodes ∧
      IndexesFirst nodes (checkNodes nodes [] ∅).2 := by
  have start : NodeScan.Inv [] ⟨∅, 0, []⟩ := ⟨fun id => by simp [firstOf, ids], rfl⟩
  obtain ⟨inv, out⟩ := loop_emit checkNode NodeScan.diags nodeDiag NodeScan.Inv checkNode_step nodes [] _ start
  simp only [List.nil_append, List.length_nil] at inv out
  unfold checkNodes initialDiag
  simp only [inv.count, ne_eq, ite_not]
  split
  · exact ⟨by simp [out], inv.first⟩
  · exact ⟨by simp [out, Diagnostics.add], inv.first⟩

/-! ## Task arity -/

def arityDiag (expected : Nat) (pre : List Node) (node : Node) : Diagnostics :=
  if node.tasks.length = expected then []
  else
    [⟨.taskArityMismatch, .error, nodePath pre.length ++ ".tasks",
      "node \"" ++ node.id ++ "\" has " ++ toString node.tasks.length ++ " task(s), expected "
        ++ toString expected ++ " from system.tasks"⟩]

/-- What `checkTaskArity` reports. -/
def arityDiags (system : System) (nodes : List Node) : Diagnostics :=
  if system.tasks = [] then [] else emit (arityDiag system.tasks.length) [] nodes

theorem checkTaskArity_eq (system : System) (nodes : List Node) (diags : Diagnostics) :
    checkTaskArity system nodes diags = diags ++ arityDiags system nodes := by
  unfold checkTaskArity arityDiags
  by_cases h : system.tasks = []
  · simp [h]
  · have step := loop_emit (checkArity system.tasks.length) id (arityDiag system.tasks.length) (fun _ _ => True)
      (fun pre s node _ => ⟨trivial, by unfold checkArity arityDiag; split <;> simp [Diagnostics.add]⟩)
      nodes [] diags trivial
    simpa [h] using step.2

/-! ## Edges -/

/-- How many of `pre` leave the source of `edge` by the same kind: its position in the
    source's `children` or `loopback` list. -/
def ordinalOf (pre : List Edge) (edge : Edge) : Nat :=
  pre.countP fun e => e.source == edge.source && e.kind == edge.kind

/-- What `checkEdges` reports at an edge, given the edges before it. -/
def edgeDiag (nodes : List Node) (pre : List Edge) (edge : Edge) : Diagnostics :=
  match firstOf nodes edge.source with
  | none =>
    if pre.any (·.source == edge.source) then []
    else
      [⟨.danglingEdge, .error, "edges[" ++ toString pre.length ++ "].source",
        "edge leaves unknown node \"" ++ edge.source ++ "\""⟩]
  | some first =>
    if (firstOf nodes edge.target).isSome then []
    else
      [⟨.danglingEdge, .error,
        nodePath first ++ "." ++ edgeField edge.kind ++ "[" ++ toString (ordinalOf pre edge) ++ "]",
        "unknown node \"" ++ edge.target ++ "\" referenced from \"" ++ edge.source ++ "\""⟩]

/-- The running counters of a source after the edges seen. -/
def countersOf (pre : List Edge) (source : String) : EdgeOrdinals :=
  ⟨ordinalOf pre ⟨source, "", .transition⟩, ordinalOf pre ⟨source, "", .loopback⟩⟩

/-- The running counters are those of the edges seen; the unknown sources are theirs. -/
structure EdgeScan.Inv (nodes : List Node) (pre : List Edge) (s : EdgeScan) : Prop where
  ordinals : ∀ id, (firstOf nodes id).isSome → (s.ordinals.lookup id).getD {} = countersOf pre id
  unknown : ∀ id, firstOf nodes id = none → s.unknownSources.contains id = pre.any (·.source == id)

theorem ordinalOf_append (pre : List Edge) (edge e : Edge) :
    ordinalOf (pre ++ [edge]) e =
      ordinalOf pre e + if edge.source = e.source ∧ edge.kind = e.kind then 1 else 0 := by
  simp only [ordinalOf, List.countP_append, List.countP_singleton]
  congr 1
  by_cases h1 : edge.source = e.source <;> by_cases h2 : edge.kind = e.kind <;> simp [h1, h2]

theorem countersOf_append_ne (pre : List Edge) (edge : Edge) {id : String} (h : edge.source ≠ id) :
    countersOf (pre ++ [edge]) id = countersOf pre id := by
  simp [countersOf, ordinalOf_append, h]

theorem countersOf_next (pre : List Edge) (edge : Edge) :
    (countersOf pre edge.source).next edge.kind = (ordinalOf pre edge, countersOf (pre ++ [edge]) edge.source) := by
  obtain ⟨source, target, kind⟩ := edge
  cases kind <;> simp [countersOf, EdgeOrdinals.next, ordinalOf_append] <;> simp [ordinalOf]

theorem checkEdge_step {nodes : List Node} {firstIndex : Map String Nat} (hfirst : IndexesFirst nodes firstIndex)
    (pre : List Edge) (s : EdgeScan) (edge : Edge) (h : s.Inv nodes pre) :
    (checkEdge firstIndex s pre.length edge).Inv nodes (pre ++ [edge]) ∧
      (checkEdge firstIndex s pre.length edge).diags = s.diags ++ edgeDiag nodes pre edge := by
  have hlookup := hfirst edge.source
  unfold checkEdge edgeDiag
  cases hs : firstOf nodes edge.source with
  | none =>
    rw [hs] at hlookup
    have ordinals : ∀ id, (firstOf nodes id).isSome →
        (s.ordinals.lookup id).getD {} = countersOf (pre ++ [edge]) id := by
      intro id hid
      have hne : edge.source ≠ id := by
        intro he
        subst he
        simp [hs] at hid
      rw [countersOf_append_ne pre edge hne, h.ordinals id hid]
    simp only [hlookup, h.unknown edge.source hs]
    by_cases hseen : pre.any (·.source == edge.source) = true
    · simp only [hseen, if_true, List.append_nil, and_true]
      refine ⟨ordinals, fun id hid => ?_⟩
      rw [h.unknown id hid, List.any_append]
      by_cases e : edge.source = id
      · subst e
        simp [hseen]
      · simp [e]
    · simp only [hseen, if_false, Diagnostics.add, and_true, Bool.false_eq_true]
      refine ⟨ordinals, fun id hid => ?_⟩
      rw [List.contains_cons, h.unknown id hid, List.any_append, Bool.or_comm, BEq.comm]
      simp
  | some first =>
    rw [hs] at hlookup
    have htarget : edge.target ∈ firstIndex ↔ (firstOf nodes edge.target).isSome = true := by
      rw [← AList.lookup_isSome, hfirst edge.target]
    have ordinals : ∀ id, (firstOf nodes id).isSome →
        ((s.ordinals.insert edge.source (countersOf (pre ++ [edge]) edge.source)).lookup id).getD {} =
          countersOf (pre ++ [edge]) id := by
      intro id hid
      by_cases e : edge.source = id
      · subst e
        simp
      · rw [AList.lookup_insert_ne (Ne.symm e), h.ordinals id hid, countersOf_append_ne pre edge e]
    have unknown : ∀ id, firstOf nodes id = none →
        s.unknownSources.contains id = (pre ++ [edge]).any (·.source == id) := by
      intro id hid
      have e : edge.source ≠ id := by
        intro he
        subst he
        simp [hs] at hid
      rw [h.unknown id hid, List.any_append]
      simp [e]
    simp only [hlookup, h.ordinals edge.source (by simp [hs]), countersOf_next, htarget]
    split
    · exact ⟨⟨ordinals, unknown⟩, by simp⟩
    · exact ⟨⟨ordinals, unknown⟩, rfl⟩

theorem checkEdges_eq {nodes : List Node} {firstIndex : Map String Nat} (hfirst : IndexesFirst nodes firstIndex)
    (edges : List Edge) (diags : Diagnostics) :
    checkEdges edges diags firstIndex = diags ++ emit (edgeDiag nodes) [] edges := by
  have start : EdgeScan.Inv nodes [] ⟨∅, [], diags⟩ :=
    ⟨fun id _ => by simp [countersOf, ordinalOf], fun id _ => by simp⟩
  exact (loop_emit (checkEdge firstIndex) EdgeScan.diags (edgeDiag nodes) (EdgeScan.Inv nodes) (checkEdge_step hfirst)
    edges [] _ start).2

/-! ## The whole check -/

theorem validateGraph_eq (system : System) (nodes : List Node) (edges : List Edge) (h : nodes ≠ []) :
    validateGraph system nodes edges =
      emit nodeDiag [] nodes ++ initialDiag nodes ++ arityDiags system nodes ++ emit (edgeDiag nodes) [] edges := by
  obtain ⟨hdiags, hfirst⟩ := checkNodes_eq nodes
  unfold validateGraph
  simp only [List.isEmpty_iff, h, if_false, hdiags, checkTaskArity_eq, checkEdges_eq hfirst]

/-- What `validateGraph` checks. -/
structure WellFormed (system : System) (nodes : List Node) (edges : List Edge) : Prop where
  nonempty : nodes ≠ []
  idsNonempty : ∀ id ∈ ids nodes, id ≠ ""
  idsDistinct : (ids nodes).Nodup
  oneInitial : nodes.countP (·.initial) = 1
  arity : system.tasks ≠ [] → ∀ node ∈ nodes, node.tasks.length = system.tasks.length
  sources : ∀ edge ∈ edges, edge.source ∈ ids nodes
  targets : ∀ edge ∈ edges, edge.target ∈ ids nodes

theorem nodeDiag_nil_iff (pre : List Node) (node : Node) :
    nodeDiag pre node = [] ↔ node.id ≠ "" ∧ node.id ∉ ids pre := by
  unfold nodeDiag
  by_cases he : node.id = ""
  · simp [he]
  · have hf : (firstOf pre node.id).isSome ↔ node.id ∈ ids pre := by simp [firstOf_isSome, he]
    cases h : firstOf pre node.id with
    | none => simpa [he, h] using hf
    | some first => simpa [he, h] using hf

/-- Distinct: no element is one of those before it. -/
theorem nodup_iff_prefix {l : List String} : l.Nodup ↔ ∀ l₁ x l₂, l = l₁ ++ x :: l₂ → x ∉ l₁ := by
  constructor
  · intro h l₁ x l₂ he hx
    subst he
    exact (List.nodup_append.mp h).2.2 x hx x (List.mem_cons_self) rfl
  · intro h
    induction l using List.reverseRecOn with
    | nil => exact List.nodup_nil
    | append_singleton l x ih =>
      refine List.nodup_append.mpr ⟨ih fun l₁ y l₂ he => h l₁ y (l₂ ++ [x]) (by simp [he]), by simp, ?_⟩
      intro a ha b hb
      rw [List.mem_singleton] at hb
      subst hb
      intro he
      subst he
      exact h l a [] rfl ha

/-- The node loop reports nothing exactly when the ids are non-empty and distinct. -/
theorem nodeDiags_nil_iff (nodes : List Node) :
    emit nodeDiag [] nodes = [] ↔ (∀ id ∈ ids nodes, id ≠ "") ∧ (ids nodes).Nodup := by
  rw [emit_eq_nil, nodup_iff_prefix]
  simp only [List.nil_append, nodeDiag_nil_iff]
  constructor
  · intro h
    refine ⟨fun id hid => ?_, fun l₁ id l₂ he => ?_⟩
    · obtain ⟨node, hnode, rfl⟩ := List.mem_map.mp hid
      obtain ⟨l₁, l₂, he⟩ := List.append_of_mem hnode
      exact (h l₁ node l₂ he).1
    · obtain ⟨n₁, rest, rfl, rfl, hrest⟩ := List.map_eq_append_iff.mp he
      obtain ⟨node, n₂, rfl, rfl, rfl⟩ := List.map_eq_cons_iff.mp hrest
      exact (h n₁ node n₂ rfl).2
  · intro h l₁ node l₂ he
    obtain ⟨h1, h2⟩ := h
    subst he
    exact ⟨h1 _ (List.mem_map_of_mem (by simp)), h2 (ids l₁) node.id (ids l₂) (by simp [ids])⟩

theorem initialDiag_nil_iff (nodes : List Node) : initialDiag nodes = [] ↔ nodes.countP (·.initial) = 1 := by
  unfold initialDiag
  split <;> simp_all

theorem arityDiags_nil_iff (system : System) (nodes : List Node) :
    arityDiags system nodes = [] ↔
      (system.tasks ≠ [] → ∀ node ∈ nodes, node.tasks.length = system.tasks.length) := by
  unfold arityDiags
  by_cases h : system.tasks = []
  · simp [h]
  · rw [if_neg h, emit_eq_nil]
    simp only [arityDiag, ite_eq_left_iff, List.cons_ne_nil, imp_false, not_not, ne_eq, h, not_false_eq_true,
      forall_true_left]
    constructor
    · intro hall node hnode
      obtain ⟨l₁, l₂, he⟩ := List.append_of_mem hnode
      exact hall l₁ node l₂ he
    · intro hall l₁ node l₂ he
      subst he
      exact hall node (by simp)

theorem edgeDiag_nil_iff {nodes : List Node} {pre : List Edge} {edge : Edge}
    (hpre : ∀ e ∈ pre, (firstOf nodes e.source).isSome) :
    edgeDiag nodes pre edge = [] ↔ (firstOf nodes edge.source).isSome ∧ (firstOf nodes edge.target).isSome := by
  unfold edgeDiag
  cases hs : firstOf nodes edge.source with
  | none =>
    have : pre.any (·.source == edge.source) = false := by
      refine List.any_eq_false.mpr fun e he h => ?_
      have := hpre e he
      simp_all
    simp [this]
  | some first => by_cases ht : (firstOf nodes edge.target).isSome <;> simp [ht]

/-- The edge loop reports nothing exactly when both endpoints of every edge are known: an
    unknown source is never swallowed by the once-only rule, its first edge reports it. -/
theorem edgeDiags_nil_iff (nodes : List Node) (edges : List Edge) :
    emit (edgeDiag nodes) [] edges = [] ↔
      ∀ edge ∈ edges, (firstOf nodes edge.source).isSome ∧ (firstOf nodes edge.target).isSome := by
  rw [emit_eq_nil]
  simp only [List.nil_append]
  constructor
  · intro h
    induction edges using List.reverseRecOn with
    | nil => simp
    | append_singleton edges edge ih =>
      have hpre := ih fun l₁ e l₂ he => h l₁ e (l₂ ++ [edge]) (by simp [he])
      have hlast := (edgeDiag_nil_iff fun e he => (hpre e he).1).mp (h edges edge [] rfl)
      intro e he
      rcases List.mem_append.mp he with he | he
      · exact hpre e he
      · rw [List.mem_singleton] at he
        exact he ▸ hlast
  · intro h l₁ edge l₂ he
    subst he
    exact (edgeDiag_nil_iff fun e he => (h e (by simp [he])).1).mpr (h edge (by simp))

/-- The check reports nothing exactly for a well-formed graph. -/
theorem validateGraph_nil_iff (system : System) (nodes : List Node) (edges : List Edge) :
    validateGraph system nodes edges = [] ↔ WellFormed system nodes edges := by
  by_cases hne : nodes = []
  · subst hne
    simp only [validateGraph, List.isEmpty_nil, if_true, Diagnostics.add, List.nil_append, List.cons_ne_nil,
      false_iff]
    exact fun h => h.nonempty rfl
  · rw [validateGraph_eq system nodes edges hne]
    simp only [List.append_eq_nil_iff, nodeDiags_nil_iff, initialDiag_nil_iff, arityDiags_nil_iff,
      edgeDiags_nil_iff, firstOf_isSome]
    constructor
    · intro h
      obtain ⟨⟨⟨⟨h1, h2⟩, h3⟩, h4⟩, h5⟩ := h
      exact ⟨hne, h1, h2, h3, h4, fun e he => (h5 e he).1.2, fun e he => (h5 e he).2.2⟩
    · intro h
      have known : ∀ id ∈ ids nodes, id ≠ "" ∧ id ∈ ids nodes := fun id hid => ⟨h.idsNonempty id hid, hid⟩
      exact ⟨⟨⟨⟨h.idsNonempty, h.idsDistinct⟩, h.oneInitial⟩, h.arity⟩,
        fun e he => ⟨known _ (h.sources e he), known _ (h.targets e he)⟩⟩

/-! ## Codes and severities -/

theorem nodeDiag_code {pre : List Node} {node : Node} {d : Diagnostic} (h : d ∈ nodeDiag pre node) :
    d.severity = .error ∧ (d.code = .nodeIdEmpty ∨ d.code = .nodeIdDuplicate) := by
  unfold nodeDiag at h
  split at h
  · simp_all
  · split at h <;> simp_all

theorem initialDiag_code {nodes : List Node} {d : Diagnostic} (h : d ∈ initialDiag nodes) :
    d.severity = .error ∧ d.code = .initialCount := by
  unfold initialDiag at h
  split at h <;> simp_all

theorem arityDiags_code {system : System} {nodes : List Node} {d : Diagnostic} (h : d ∈ arityDiags system nodes) :
    d.severity = .error ∧ d.code = .taskArityMismatch := by
  unfold arityDiags at h
  split at h
  · cases h
  · obtain ⟨l₁, node, l₂, -, hd⟩ := mem_emit.mp h
    unfold arityDiag at hd
    split at hd <;> simp_all

theorem edgeDiag_code {nodes : List Node} {pre : List Edge} {edge : Edge} {d : Diagnostic}
    (h : d ∈ edgeDiag nodes pre edge) : d.severity = .error ∧ d.code = .danglingEdge := by
  unfold edgeDiag at h
  split at h <;> split at h <;> simp_all

/-- Warnings are never produced here. -/
theorem validateGraph_errors (system : System) (nodes : List Node) (edges : List Edge) :
    ∀ d ∈ validateGraph system nodes edges, d.isError = true := by
  intro d hd
  suffices d.severity = .error by simp [Diagnostic.isError, this]
  by_cases hne : nodes = []
  · subst hne
    simp only [validateGraph, List.isEmpty_nil, if_true, Diagnostics.add, List.nil_append, List.mem_singleton] at hd
    rw [hd]
  · rw [validateGraph_eq system nodes edges hne, List.mem_append, List.mem_append, List.mem_append] at hd
    rcases hd with ((hd | hd) | hd) | hd
    · obtain ⟨_, _, _, -, hd⟩ := mem_emit.mp hd
      exact (nodeDiag_code hd).1
    · exact (initialDiag_code hd).1
    · exact (arityDiags_code hd).1
    · obtain ⟨_, _, _, -, hd⟩ := mem_emit.mp hd
      exact (edgeDiag_code hd).1

theorem validateGraph_hasErrors (system : System) (nodes : List Node) (edges : List Edge) :
    (validateGraph system nodes edges).hasErrors = false ↔ WellFormed system nodes edges :=
  (Diagnostics.hasErrors_eq_false (validateGraph_errors system nodes edges)).trans
    (validateGraph_nil_iff system nodes edges)

/-- The edges are checked last, and only there a `danglingEdge` is reported. -/
theorem validateGraph_edges (system : System) (nodes : List Node) (edges : List Edge) (h : nodes ≠ []) :
    ∃ others, validateGraph system nodes edges = others ++ emit (edgeDiag nodes) [] edges ∧
      ∀ d ∈ others, d.code ≠ .danglingEdge := by
  refine ⟨_, validateGraph_eq system nodes edges h, fun d hd hcode => ?_⟩
  rw [List.mem_append, List.mem_append] at hd
  rcases hd with (hd | hd) | hd
  · obtain ⟨_, _, _, -, hd⟩ := mem_emit.mp hd
    rcases (nodeDiag_code hd).2 with h | h <;> rw [hcode] at h <;> cases h
  · have := (initialDiag_code hd).2
    rw [hcode] at this
    cases this
  · have := (arityDiags_code hd).2
    rw [hcode] at this
    cases this

/-- A `danglingEdge` is the report of one edge, given the edges before it. -/
theorem mem_dangling {system : System} {nodes : List Node} {edges : List Edge} {d : Diagnostic} :
    d ∈ validateGraph system nodes edges ∧ d.code = .danglingEdge ↔
      nodes ≠ [] ∧ ∃ pre edge post, edges = pre ++ edge :: post ∧ d ∈ edgeDiag nodes pre edge := by
  by_cases hne : nodes = []
  · subst hne
    simp only [validateGraph, List.isEmpty_nil, if_true, Diagnostics.add, List.nil_append, List.mem_singleton,
      ne_eq, not_true_eq_false, false_and, iff_false, not_and]
    intro he
    subst he
    simp
  · obtain ⟨others, heq, hothers⟩ := validateGraph_edges system nodes edges hne
    rw [heq]
    constructor
    · intro h
      obtain ⟨hd, hcode⟩ := h
      rcases List.mem_append.mp hd with hd | hd
      · exact absurd hcode (hothers d hd)
      · exact ⟨hne, by simpa using mem_emit.mp hd⟩
    · intro h
      obtain ⟨-, pre, edge, post, he, hd⟩ := h
      exact ⟨List.mem_append_right _ (mem_emit.mpr ⟨pre, edge, post, he, by simpa using hd⟩), (edgeDiag_code hd).2⟩

/-- What counts `danglingEdge`s counts what is reported edge by edge. -/
theorem countP_dangling {system : System} {nodes : List Node} {edges : List Edge} (h : nodes ≠ [])
    {p : Diagnostic → Bool} (hp : ∀ d, p d = true → d.code = .danglingEdge) :
    (validateGraph system nodes edges).countP p = (emit (edgeDiag nodes) [] edges).countP p := by
  obtain ⟨others, heq, hothers⟩ := validateGraph_edges system nodes edges h
  have hnone : others.countP p = 0 := List.countP_eq_zero.mpr fun d hd hpd => hothers d hd (hp d hpd)
  rw [heq, List.countP_append, hnone, Nat.zero_add]

end Stgx
