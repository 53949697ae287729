/-
  Stgx.Dangling — where the reports of dangling edges point.

  An edge of a document comes from an entry of a node's list (`edges_split`); its position
  in the report counts the readable entries before it, over all the nodes that carry the
  source's id (`ordinal_eq`). So a report points at the entry it is about when that node is
  the first one with its id and every entry before it is readable.

  - `load_dangling_iff`: every report of a load points at the entry it is about exactly when
    this holds of every entry that names no node.
-/

import Stgx.Accept

namespace Stgx

open Stgx.Lib.Doc
open Stgx.Lib.Index (position_get)
open Stgx.Lib.Loop (append_split first_split flatMap_split filterMap_split getElem?_split)

/-! ## Entries -/

/-- The entries of a node's list, readable or not. -/
def listOf (kind : EdgeKind) (node : Tree) : List Tree := itemsField (edgeField kind) (entriesOf node)

/-- The ids the nodes of a document have. -/
def documentIds (doc : Tree) : List String := (documentNodes doc).filterMap fun node => textField "id" (entriesOf node)

/-- `nodes[i].children[k]` or `nodes[i].loopback[k]`. -/
def entryPath (i : Nat) (kind : EdgeKind) (k : Nat) : Path :=
  .index (.field (.index (.field .root "nodes") i) (edgeField kind)) k

/-- The diagnostic is at an entry of a node's list that is the id of no node, and quotes it. -/
def PointsAtEntry (doc : Tree) (d : Diagnostic) : Prop :=
  ∃ (i : Nat) (kind : EdgeKind) (k : Nat) (node : Tree) (text : String),
    (documentNodes doc)[i]? = some node ∧ (listOf kind node)[k]? = some (.scalar text) ∧ text ∉ documentIds doc ∧
    d.path = (entryPath i kind k).render ∧
    d.message = "unknown node \"" ++ text ++ "\" referenced from \"" ++ (nodeOf node).id ++ "\""

/-- Every entry stands in a node with an id, and names a node unless it is the id of none, its
    node is the first one with that node's id and every entry before it can be read. -/
def EntriesLocated (doc : Tree) : Prop :=
  ∀ (i : Nat) (kind : EdgeKind) (k : Nat) (node : Tree) (text : String),
    (documentNodes doc)[i]? = some node → (listOf kind node)[k]? = some (.scalar text) →
    (nodeOf node).id ≠ "" ∧
      (text ≠ "" ∧ text ∈ documentIds doc ∨
        text ∉ documentIds doc ∧
          (∀ j < i, ∀ other, (documentNodes doc)[j]? = some other → (nodeOf other).id ≠ (nodeOf node).id) ∧
          ∀ j < k, ∀ t, (listOf kind node)[j]? = some t → t.text?.isSome)

theorem entryPath_render (i : Nat) (kind : EdgeKind) (k : Nat) :
    (entryPath i kind k).render = nodePath i ++ "." ++ edgeField kind ++ "[" ++ toString k ++ "]" := by
  have h : (nodePath i).isEmpty = false := by simp [nodePath]
  have hnode : (Path.index (.field .root "nodes") i).render = nodePath i := rfl
  rw [entryPath, Path.render, Path.render, hnode, h]
  simp [String.append_assoc]

theorem entryPath_plain (i : Nat) (kind : EdgeKind) (k : Nat) : (entryPath i kind k).Plain := by
  refine ⟨⟨trivial, by decide⟩, ?_⟩
  cases kind <;> decide

theorem entryPath_inj {i i' k k' : Nat} {kind kind' : EdgeKind}
    (h : (entryPath i kind k).render = (entryPath i' kind' k').render) : i = i' ∧ kind = kind' ∧ k = k' := by
  have := Path.render_injective (entryPath_plain i kind k) (entryPath_plain i' kind' k') h
  simp only [entryPath, Path.index.injEq, Path.field.injEq, true_and] at this
  obtain ⟨⟨rfl, hkind⟩, rfl⟩ := this
  refine ⟨rfl, ?_, rfl⟩
  cases kind <;> cases kind' <;> first | rfl | exact absurd hkind (by decide)

/-- `edges[e].source`. -/
def sourcePath (e : Nat) : Path := .field (.index (.field .root "edges") e) "source"

theorem sourcePath_render (e : Nat) : (sourcePath e).render = "edges[" ++ toString e ++ "].source" := by
  simp [sourcePath, Path.render, String.append_assoc, String.isEmpty_iff]

theorem sourcePath_plain (e : Nat) : (sourcePath e).Plain := ⟨⟨trivial, by decide⟩, by decide⟩

theorem sourcePath_inj {e e' : Nat} (h : (sourcePath e).render = (sourcePath e').render) : e = e' := by
  have := Path.render_injective (sourcePath_plain e) (sourcePath_plain e') h
  simpa [sourcePath] using this

/-- No entry is at an edge's source. -/
theorem entryPath_ne_source (i : Nat) (kind : EdgeKind) (k e : Nat) :
    (sourcePath e).render ≠ (entryPath i kind k).render := by
  intro h
  have := Path.render_injective (sourcePath_plain e) (entryPath_plain i kind k) h
  cases this

theorem unknown_inj {text text' source : String}
    (h : "unknown node \"" ++ text ++ "\" referenced from \"" ++ source ++ "\"" =
      "unknown node \"" ++ text' ++ "\" referenced from \"" ++ source ++ "\"") : text = text' := by
  have := congrArg String.toList h
  simp only [String.toList_append, List.append_assoc, List.append_cancel_left_eq, List.append_cancel_right_eq] at this
  exact String.toList_inj.mp this

/-! ## The edges before an entry -/

/-- The edges a load lists before that of an entry, given the nodes before its node and the entries
    before it in its list. -/
def edgesBefore (before : List Tree) (node : Tree) (kind : EdgeKind) (entries : List Tree) : List Edge :=
  before.flatMap edgesFrom ++
    ((match kind with
      | .transition => []
      | .loopback => targetsFrom node .transition) ++
      (entries.filterMap Tree.text?).map (⟨(nodeOf node).id, ·, kind⟩))

theorem targetsFrom_split {node : Tree} {kind : EdgeKind} {pre : List Edge} {edge : Edge} :
    (∃ post, targetsFrom node kind = pre ++ edge :: post) ↔
      ∃ entries rest text, listOf kind node = entries ++ .scalar text :: rest ∧ edge = ⟨(nodeOf node).id, text, kind⟩ ∧
        pre = (entries.filterMap Tree.text?).map (⟨(nodeOf node).id, ·, kind⟩) := by
  have hmap : targetsFrom node kind =
      (listOf kind node).filterMap fun t => t.text?.map (⟨(nodeOf node).id, ·, kind⟩) := by
    rw [targetsFrom, List.map_filterMap]
    rfl
  rw [hmap, filterMap_split]
  constructor
  · intro h
    obtain ⟨entries, t, rest, hl, rfl, ht⟩ := h
    obtain ⟨text, htext, rfl⟩ := Option.map_eq_some_iff.mp ht
    rw [Tree.text_eq_some.mp htext] at hl
    exact ⟨entries, rest, text, hl, rfl, by rw [List.map_filterMap]⟩
  · intro h
    obtain ⟨entries, rest, text, hl, rfl, rfl⟩ := h
    exact ⟨entries, .scalar text, rest, hl, by rw [List.map_filterMap], rfl⟩

/-- An edge of a document comes from an entry, and the edges before it from what is before that. -/
theorem edges_split {doc : Tree} {pre : List Edge} {edge : Edge} :
    (∃ post, edgesOf doc = pre ++ edge :: post) ↔
      ∃ before node after kind entries text rest, documentNodes doc = before ++ node :: after ∧
        listOf kind node = entries ++ .scalar text :: rest ∧ edge = ⟨(nodeOf node).id, text, kind⟩ ∧
        pre = edgesBefore before node kind entries := by
  rw [edgesOf, flatMap_split]
  constructor
  · intro h
    obtain ⟨before, node, after, pre', hnodes, rfl, h⟩ := h
    rw [edgesFrom, append_split, targetsFrom_split] at h
    rcases h with ⟨entries, rest, text, hl, rfl, rfl⟩ | ⟨pre', rfl, h⟩
    · exact ⟨before, node, after, _, entries, text, rest, hnodes, hl, rfl, rfl⟩
    · obtain ⟨entries, rest, text, hl, rfl, rfl⟩ := targetsFrom_split.mp h
      exact ⟨before, node, after, _, entries, text, rest, hnodes, hl, rfl, rfl⟩
  · intro h
    obtain ⟨before, node, after, kind, entries, text, rest, hnodes, hl, rfl, rfl⟩ := h
    refine ⟨before, node, after, _, hnodes, rfl, ?_⟩
    rw [edgesFrom, append_split]
    cases kind with
    | transition => exact .inl (targetsFrom_split.mpr ⟨entries, rest, text, hl, rfl, rfl⟩)
    | loopback => exact .inr ⟨_, rfl, targetsFrom_split.mpr ⟨entries, rest, text, hl, rfl, rfl⟩⟩

/-! ## The position in a report -/

theorem ordinalOf_append_list (pre pre' : List Edge) (edge : Edge) :
    ordinalOf (pre ++ pre') edge = ordinalOf pre edge + ordinalOf pre' edge := List.countP_append

/-- What a node's lists count for an edge: nothing, unless it has the edge's source for its id. -/
theorem ordinalOf_edgesFrom (node : Tree) (edge : Edge) :
    ordinalOf (edgesFrom node) edge =
      if (nodeOf node).id = edge.source then ((listOf edge.kind node).filterMap Tree.text?).length else 0 := by
  obtain ⟨source, target, kind⟩ := edge
  rw [edgesFrom, ordinalOf_append_list]
  by_cases h : (nodeOf node).id = source
  · cases kind <;> simp [ordinalOf, targetsFrom, listOf, List.countP_map, Function.comp_def, h]
  · simp [ordinalOf, targetsFrom, List.countP_map, Function.comp_def, h]

theorem ordinal_eq (before : List Tree) (node : Tree) (kind : EdgeKind) (entries : List Tree) (text : String) :
    ordinalOf (edgesBefore before node kind entries) ⟨(nodeOf node).id, text, kind⟩ =
      ordinalOf (before.flatMap edgesFrom) ⟨(nodeOf node).id, text, kind⟩ + (entries.filterMap Tree.text?).length := by
  unfold edgesBefore
  rw [ordinalOf_append_list, ordinalOf_append_list]
  cases kind <;> simp [ordinalOf, targetsFrom, List.countP_map, Function.comp_def]

/-- Nodes with other ids do not count. -/
theorem ordinalOf_others {before : List Tree} {edge : Edge} (h : ∀ node ∈ before, (nodeOf node).id ≠ edge.source) :
    ordinalOf (before.flatMap edgesFrom) edge = 0 := by
  refine List.countP_eq_zero.mpr fun e he => ?_
  obtain ⟨node, hnode, he⟩ := List.mem_flatMap.mp he
  simp [edgesFrom_source he, h node hnode]

/-- Every node before with the same id counts. -/
theorem ordinalOf_same {before : List Tree} {node : Tree} (hnode : node ∈ before) (edge : Edge)
    (hid : (nodeOf node).id = edge.source) :
    ((listOf edge.kind node).filterMap Tree.text?).length ≤ ordinalOf (before.flatMap edgesFrom) edge := by
  obtain ⟨l₁, l₂, rfl⟩ := List.append_of_mem hnode
  rw [List.flatMap_append, List.flatMap_cons, ordinalOf_append_list, ordinalOf_append_list, ordinalOf_edgesFrom,
    if_pos hid]
  omega

/-! ## Reports and entries -/

theorem firstOf_known {doc : Tree} {text : String} :
    (firstOf (nodesOf doc) text).isSome ↔ text ≠ "" ∧ text ∈ documentIds doc := by
  rw [firstOf_isSome]
  refine and_congr_right fun hne => ?_
  simp only [ids, nodesOf, List.map_map, List.mem_map, documentIds, List.mem_filterMap, Function.comp_apply]
  refine exists_congr fun node => and_congr_right fun _ => ?_
  show (textField "id" (entriesOf node)).getD "" = text ↔ _
  cases textField "id" (entriesOf node) with
  | none => simp [Ne.symm hne]
  | some id => simp

/-- The node with none of its id before it is the first one with it. -/
theorem firstOf_before {doc : Tree} {before after : List Tree} {node : Tree}
    (hnodes : documentNodes doc = before ++ node :: after) (hid : (nodeOf node).id ≠ "")
    (hfirst : ∀ other ∈ before, (nodeOf other).id ≠ (nodeOf node).id) :
    firstOf (nodesOf doc) (nodeOf node).id = some before.length := by
  have hnone : (before.map fun node => (nodeOf node).id).findIdx? (· == (nodeOf node).id) = none := by
    simpa [List.findIdx?_eq_none_iff] using hfirst
  simp only [firstOf, hid, if_false, ids, nodesOf, hnodes, List.map_append, List.map_cons, List.map_map, List.idxOf?,
    List.findIdx?_append]
  show (((before.map fun node => (nodeOf node).id).findIdx? _).or _) = _
  simp [hnone, List.findIdx?_cons]

/-- The first node with an id that some node has. -/
theorem exists_first {before : List Tree} {node : Tree} {id : String} (hnode : node ∈ before)
    (hid : (nodeOf node).id = id) :
    ∃ l₁ first l₂, before = l₁ ++ first :: l₂ ∧ (nodeOf first).id = id ∧ ∀ other ∈ l₁, (nodeOf other).id ≠ id := by
  have hmatch : ((nodeOf node).id == id) = true := beq_iff_eq.mpr hid
  obtain ⟨l₁, first, l₂, hsplit, hfirst, hl₁⟩ := first_split (p := fun node => (nodeOf node).id == id) hnode hmatch
  exact ⟨l₁, first, l₂, hsplit, beq_iff_eq.mp hfirst, fun other ho => beq_eq_false_iff_ne.mp (hl₁ other ho)⟩

/-- Every `danglingEdge` of the check of a document's parts. -/
def Reported (doc : Tree) (d : Diagnostic) : Prop :=
  d ∈ validateGraph (documentSystem doc) (nodesOf doc) (edgesOf doc) ∧ d.code = .danglingEdge

theorem reported_iff {doc : Tree} {d : Diagnostic} :
    Reported doc d ↔
      ∃ before node after kind entries text rest, documentNodes doc = before ++ node :: after ∧
        listOf kind node = entries ++ .scalar text :: rest ∧
        d ∈ edgeDiag (nodesOf doc) (edgesBefore before node kind entries) ⟨(nodeOf node).id, text, kind⟩ := by
  unfold Reported
  rw [mem_dangling]
  constructor
  · intro h
    obtain ⟨-, pre, edge, post, he, hd⟩ := h
    obtain ⟨before, node, after, kind, entries, text, rest, hnodes, hl, rfl, rfl⟩ := edges_split.mp ⟨post, he⟩
    exact ⟨before, node, after, kind, entries, text, rest, hnodes, hl, hd⟩
  · intro h
    obtain ⟨before, node, after, kind, entries, text, rest, hnodes, hl, hd⟩ := h
    obtain ⟨post, he⟩ := edges_split.mpr ⟨before, node, after, kind, entries, text, rest, hnodes, hl, rfl, rfl⟩
    exact ⟨by simp [nodesOf, hnodes], _, _, post, he, hd⟩

/-- The report of an entry that names no node, in a node with an id. -/
theorem edgeDiag_unknown {nodes : List Node} {pre : List Edge} {edge : Edge} {first : Nat}
    (hsource : firstOf nodes edge.source = some first) (htarget : ¬ (firstOf nodes edge.target).isSome) :
    edgeDiag nodes pre edge =
      [⟨.danglingEdge, .error, (entryPath first edge.kind (ordinalOf pre edge)).render,
        "unknown node \"" ++ edge.target ++ "\" referenced from \"" ++ edge.source ++ "\""⟩] := by
  unfold edgeDiag
  simp only [hsource, htarget, entryPath_render]
  rfl

/-- Located entries are pointed at. -/
theorem points_of_located {doc : Tree} (h : EntriesLocated doc) {d : Diagnostic} (hd : Reported doc d) :
    PointsAtEntry doc d := by
  obtain ⟨before, node, after, kind, entries, text, rest, hnodes, hl, hd⟩ := reported_iff.mp hd
  have hnode : (documentNodes doc)[before.length]? = some node := getElem?_split.mpr ⟨before, after, hnodes, rfl⟩
  have hentry : (listOf kind node)[entries.length]? = some (.scalar text) := getElem?_split.mpr ⟨entries, rest, hl, rfl⟩
  obtain ⟨hid, hcase⟩ := h _ _ _ _ _ hnode hentry
  rcases hcase with hknown | ⟨hunknown, hfirst, hreadable⟩
  · have hmem : (nodeOf node).id ∈ ids (nodesOf doc) := by simp [ids, nodesOf, hnodes]
    obtain ⟨first, hs⟩ := Option.isSome_iff_exists.mp (firstOf_isSome.mpr ⟨hid, hmem⟩)
    simp [edgeDiag, hs, firstOf_known.mpr hknown] at hd
  · have hbefore : ∀ other ∈ before, (nodeOf other).id ≠ (nodeOf node).id := by
      intro other hother
      obtain ⟨j, hj⟩ := List.getElem?_of_mem hother
      obtain ⟨hlt, -⟩ := List.getElem?_eq_some_iff.mp hj
      exact hfirst j hlt other (by rw [hnodes, List.getElem?_append_left hlt, hj])
    have hall : (entries.filterMap Tree.text?).length = entries.length := by
      refine List.filterMap_length_eq_length.mpr fun t ht => ?_
      obtain ⟨j, hj⟩ := List.getElem?_of_mem ht
      obtain ⟨hlt, -⟩ := List.getElem?_eq_some_iff.mp hj
      exact hreadable j hlt t (by rw [hl, List.getElem?_append_left hlt, hj])
    rw [edgeDiag_unknown (firstOf_before hnodes hid hbefore) fun hk => hunknown (firstOf_known.mp hk).2,
      List.mem_singleton, ordinal_eq, ordinalOf_others hbefore, hall, Nat.zero_add] at hd
    subst hd
    exact ⟨before.length, kind, entries.length, node, text, hnode, hentry, hunknown, rfl, rfl⟩

section Pointed

variable {doc : Tree} (h : ∀ d, Reported doc d → PointsAtEntry doc d)
include h

/-- No edge has an empty source: it would be reported at its own position. -/
theorem source_ne_empty {edge : Edge} (he : edge ∈ edgesOf doc) : edge.source ≠ "" := by
  intro hempty
  have hmem : "" ∈ (edgesOf doc).map Edge.source := hempty ▸ List.mem_map_of_mem he
  obtain ⟨sources, rest, hsplit, hfirst⟩ := List.eq_append_cons_of_mem hmem
  obtain ⟨pre, tail, hedges, rfl, htail⟩ := List.map_eq_append_iff.mp hsplit
  obtain ⟨e, post, rfl, hsource, -⟩ := List.map_eq_cons_iff.mp htail
  obtain ⟨before, node, after, kind, entries, text, rest', hnodes, hl, rfl, rfl⟩ := edges_split.mp ⟨post, hedges⟩
  have hunseen : (edgesBefore before node kind entries).any (·.source == (nodeOf node).id) = false := by
    refine List.any_eq_false.mpr fun e' he' heq => hfirst ?_
    rw [beq_iff_eq] at heq
    exact (heq.trans hsource) ▸ List.mem_map_of_mem he'
  have hnone : firstOf (nodesOf doc) (nodeOf node).id = none := if_pos hsource
  have hd : edgeDiag (nodesOf doc) (edgesBefore before node kind entries) ⟨(nodeOf node).id, text, kind⟩ =
      [⟨.danglingEdge, .error, (sourcePath (edgesBefore before node kind entries).length).render,
        "edge leaves unknown node \"" ++ (nodeOf node).id ++ "\""⟩] := by
    simp only [edgeDiag, hnone, hunseen, sourcePath_render]
    rfl
  obtain ⟨i, kind', k, -, -, -, -, -, hpath, -⟩ := h _ (reported_iff.mpr
    ⟨before, node, after, kind, entries, text, rest', hnodes, hl, hd ▸ List.mem_singleton_self _⟩)
  exact entryPath_ne_source i kind' k _ hpath

/-- The report of an entry that names no node is at an entry with the same text. -/
theorem reported_entry {before node after entries rest} {kind : EdgeKind} {text : String} {first : Nat}
    (hnodes : documentNodes doc = before ++ node :: after) (hl : listOf kind node = entries ++ .scalar text :: rest)
    (hfirst : firstOf (nodesOf doc) (nodeOf node).id = some first) (htext : ¬ (firstOf (nodesOf doc) text).isSome) :
    text ∉ documentIds doc ∧ ∃ other, (documentNodes doc)[first]? = some other ∧
      (listOf kind other)[ordinalOf (edgesBefore before node kind entries) ⟨(nodeOf node).id, text, kind⟩]? =
        some (.scalar text) := by
  have hd : edgeDiag (nodesOf doc) (edgesBefore before node kind entries) ⟨(nodeOf node).id, text, kind⟩ = _ :=
    edgeDiag_unknown hfirst htext
  have hr := reported_iff.mpr
    ⟨before, node, after, kind, entries, text, rest, hnodes, hl, hd ▸ List.mem_singleton_self _⟩
  obtain ⟨i, kind', k, other, text', hother, hentry, hunknown, hpath, hmessage⟩ := h _ hr
  obtain ⟨rfl, rfl, rfl⟩ := entryPath_inj hpath
  have hsame : (nodeOf other).id = (nodeOf node).id := by
    have hpos : (ids (nodesOf doc))[first]? = some (nodeOf node).id := by
      unfold firstOf at hfirst
      split at hfirst
      · cases hfirst
      · exact position_get hfirst
    simpa [ids, nodesOf, hother] using hpos
  rw [hsame] at hmessage
  obtain rfl := unknown_inj hmessage
  exact ⟨hunknown, other, hother, hentry⟩

/-- In the first node with its id, the entries before one that names no node can be read. -/
theorem entries_readable {before node after} {kind : EdgeKind} {text : String}
    (hnodes : documentNodes doc = before ++ node :: after) (hid : (nodeOf node).id ≠ "")
    (hfirst : ∀ other ∈ before, (nodeOf other).id ≠ (nodeOf node).id) (htext : ¬ (firstOf (nodesOf doc) text).isSome)
    (entries rest : List Tree) (hl : listOf kind node = entries ++ .scalar text :: rest) :
    (entries.filterMap Tree.text?).length = entries.length := by
  induction hn : entries.length using Nat.strongRecOn generalizing entries rest with
  | ind n ih =>
    obtain ⟨-, other, hother, hentry⟩ := reported_entry h hnodes hl (firstOf_before hnodes hid hfirst) htext
    obtain rfl : node = other := by simpa [hnodes] using hother
    rw [ordinal_eq, ordinalOf_others hfirst, Nat.zero_add] at hentry
    -- otherwise the report is at an entry before this one, where the same text would be counted twice
    by_contra hne
    have hlt : (entries.filterMap Tree.text?).length < entries.length := by
      have := List.length_filterMap_le Tree.text? entries
      omega
    rw [hl, List.getElem?_append_left hlt] at hentry
    obtain ⟨l₁, l₂, rfl, hlen⟩ := getElem?_split.mp hentry
    have hall := ih l₁.length (by simp at hn; omega) l₁ (l₂ ++ .scalar text :: rest) (by rw [hl]; simp) rfl
    simp [Tree.text?] at hlen
    omega

/-- Entries pointed at are located. -/
theorem located_of_points : EntriesLocated doc := by
  intro i kind k node text hnode hentry
  obtain ⟨before, after, hnodes, rfl⟩ := getElem?_split.mp hnode
  obtain ⟨entries, rest, hl, rfl⟩ := getElem?_split.mp hentry
  have hedge : (⟨(nodeOf node).id, text, kind⟩ : Edge) ∈ edgesOf doc := by
    obtain ⟨post, he⟩ :
        ∃ post, edgesOf doc = edgesBefore before node kind entries ++ ⟨(nodeOf node).id, text, kind⟩ :: post :=
      edges_split.mpr ⟨before, node, after, kind, entries, text, rest, hnodes, hl, rfl, rfl⟩
    exact he ▸ List.mem_append_right _ List.mem_cons_self
  have hid : (nodeOf node).id ≠ "" := source_ne_empty h hedge
  refine ⟨hid, ?_⟩
  by_cases htext : (firstOf (nodesOf doc) text).isSome
  · exact .inl (firstOf_known.mp htext)
  · right
    have hfirst : ∀ other ∈ before, (nodeOf other).id ≠ (nodeOf node).id := by
      intro other hother hsame
      obtain ⟨l₁, first, l₂, rfl, hfid, hl₁⟩ := exists_first hother hsame
      have hnodes' : documentNodes doc = l₁ ++ first :: (l₂ ++ node :: after) := by rw [hnodes]; simp
      have hff := firstOf_before hnodes' (hfid ▸ hid) fun other ho => hfid ▸ hl₁ other ho
      rw [hfid] at hff
      obtain ⟨-, other', hother', hentry'⟩ := reported_entry h hnodes hl hff htext
      obtain rfl : first = other' := by simpa [hnodes'] using hother'
      rw [ordinal_eq] at hentry'
      obtain ⟨m₁, m₂, hm, hlen⟩ := getElem?_split.mp hentry'
      -- the first node's own list counts at least the entries up to the one pointed at
      have hall := entries_readable h hnodes' (hfid ▸ hid) (fun other ho => hfid ▸ hl₁ other ho) htext m₁ m₂ hm
      have hmem : first ∈ l₁ ++ first :: l₂ := by simp
      have hcount := ordinalOf_same hmem ⟨(nodeOf node).id, text, kind⟩ hfid
      simp only [hm, List.filterMap_append, List.filterMap_cons, Tree.text?, List.length_append,
        List.length_cons] at hcount
      omega
    obtain ⟨hunknown, -⟩ := reported_entry h hnodes hl (firstOf_before hnodes hid hfirst) htext
    have hall := entries_readable h hnodes hid hfirst htext entries rest hl
    refine ⟨hunknown, fun j hj other hother => ?_, fun j hj t ht => ?_⟩
    · rw [hnodes, List.getElem?_append_left hj] at hother
      exact hfirst other (List.mem_of_getElem? hother)
    · rw [hl, List.getElem?_append_left hj] at ht
      exact List.filterMap_length_eq_length.mp hall t (List.mem_of_getElem? ht)

end Pointed

/-! ## Loads -/

theorem siteDiag_code (site : Site WireKind) : (siteDiag site).code ≠ .danglingEdge := by
  obtain ⟨path, kind, t⟩ := site
  cases kind <;> cases t <;> simp only [siteDiag, Tree.text?, notAnInt, ne_eq, reduceCtorEq, not_false_eq_true]
  split
  · simp
  · unfold versionDiag
    split <;> simp

/-- The `danglingEdge`s of a load are those of the check of the parts read. -/
theorem load_reported {doc : Tree} {warnings warnings' : Option Diagnostics} {diags : Diagnostics}
    (h : loadDocument (.valid doc) warnings = .ok (.error diags, warnings')) (d : Diagnostic) :
    d ∈ diags ∧ d.code = .danglingEdge ↔ Reported doc d := by
  cases he : doc.entries? with
  | none =>
    obtain ⟨first, hload, hcode⟩ := loadDocument_other he warnings
    rw [hload] at h
    obtain rfl : [first] = diags := Except.error.inj (Prod.mk.inj (Except.ok.inj h)).1
    have hnodes : documentNodes doc = [] := by simp [documentNodes, itemsField, entriesOf, he, lookup]
    rw [reported_iff, hnodes, List.mem_singleton]
    constructor
    · intro h
      obtain ⟨rfl, hc⟩ := h
      exact absurd hc hcode
    · intro h
      obtain ⟨before, node, after, kind, entries, text, rest, hsplit, -⟩ := h
      cases before <;> cases hsplit
  | some entries =>
    obtain rfl := Tree.entries_eq_some.mp he
    have hm : missingKeys (.mapping entries) = [] := by
      by_contra hm
      obtain ⟨e, hthrow⟩ := loadDocument_throws hm warnings
      rw [hthrow] at h
      cases h
    rw [loadDocument_mapping hm] at h
    have hdiags : diags = loadErrors (.mapping entries) := by
      cases hl : loadErrors (.mapping entries) with
      | nil =>
        rw [create_of_no_errors hl, hl] at h
        cases h
      | cons d diags =>
        rw [hl] at h
        exact (Except.error.inj (Prod.mk.inj (Except.ok.inj h)).1).symm
    rw [hdiags, Reported, loadErrors, List.mem_append, or_and_right, or_iff_right]
    intro h
    obtain ⟨hd, hcode⟩ := h
    obtain ⟨site, -, rfl⟩ := List.mem_map.mp hd
    exact siteDiag_code site hcode

/-- Every `danglingEdge` of a failed load points at the entry it is about exactly when every entry
    that names no node stands in the first node with its node's id, after readable entries only. -/
theorem load_dangling_iff {doc : Tree} {warnings warnings' : Option Diagnostics} {diags : Diagnostics}
    (h : loadDocument (.valid doc) warnings = .ok (.error diags, warnings')) :
    (∀ d ∈ diags, d.code = .danglingEdge → PointsAtEntry doc d) ↔ EntriesLocated doc := by
  have hreported := load_reported h
  constructor
  · intro hp
    exact located_of_points fun d hd => hp d ((hreported d).mpr hd).1 ((hreported d).mpr hd).2
  · intro hl d hd hcode
    exact points_of_located hl ((hreported d).mp ⟨hd, hcode⟩)

/-- One node with these children. -/
def oneNode (children : List Tree) : Tree :=
  .mapping [(.scalar "nodes", .sequence [.mapping
    [(.scalar "id", .scalar "a"), (.scalar "initial", .scalar "true"), (.scalar "children", .sequence children)]])]

theorem load_dangling_iff_single :
    ∃ diags, loadDocument (.valid (oneNode [.scalar "ghost"])) none = .ok (.error diags, none) ∧
      ((∀ d ∈ diags, d.code = .danglingEdge → PointsAtEntry (oneNode [.scalar "ghost"]) d) ↔
        EntriesLocated (oneNode [.scalar "ghost"])) := by
  obtain ⟨diags, h⟩ : ∃ diags, loadDocument (.valid (oneNode [.scalar "ghost"])) none = .ok (.error diags, none) :=
    ⟨_, rfl⟩
  exact ⟨diags, h, load_dangling_iff h⟩

/-- After an entry that cannot be read, a dangling entry is reported one place too early. -/
theorem load_dangling_shifted :
    ∃ first d, loadDocument (.valid (oneNode [.null, .scalar "ghost"])) none = .ok (.error [first, d], none) ∧
      d = ⟨.danglingEdge, .error, "nodes[0].children[0]", "unknown node \"ghost\" referenced from \"a\""⟩ ∧
      ¬ PointsAtEntry (oneNode [.null, .scalar "ghost"]) d := by
  refine ⟨_, _, rfl, rfl, ?_⟩
  intro h
  obtain ⟨i, kind, k, node, text, hnode, hentry, -, hpath, -⟩ := h
  obtain ⟨rfl, rfl, rfl⟩ := entryPath_inj (show (entryPath 0 .transition 0).render = _ from hpath)
  cases hnode
  cases hentry

end Stgx
