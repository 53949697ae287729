/-
  Stgx.Reports — what a load answers: when it returns, and the errors it returns with.

  - `load_answers_iff`: a load answers every missing key exactly when none is missing; on
    a missing key it throws.
  - `load_reports_all`: with every key there, the errors are one per violated position, in
    reading order, then those of the graph as read.
-/

import Stgx.LoadProofs

namespace Stgx

open Stgx.Lib.Doc
open Stgx.Lib.Loop (indexed_eq_nil)

/-- The errors a result carries. -/
def reported : Result Graph → Diagnostics
  | .error diags => diags
  | .ok _ => []

/-! ## Missing keys -/

/-- Every node that is a mapping has an `id`, every task of the system that is a mapping has a
    `c` and a `d`. -/
def KeysPresent (doc : Tree) : Prop :=
  (∀ node ∈ documentNodes doc, ∀ entries, node = .mapping entries → (lookup "id" entries).isSome) ∧
    ∀ system, lookup "system" (entriesOf doc) = some system →
      ∀ task ∈ itemsField "tasks" (entriesOf system), ∀ entries, task = .mapping entries →
        (lookup "c" entries).isSome ∧ (lookup "d" entries).isSome

/-- Fields under which no format has a required field. -/
theorem fieldMissing_leaf (kind : WireKind) (p : Path) (name : String) (entries : List Entry) :
    fieldMissing (.leaf kind) p name false entries = [] := by
  unfold fieldMissing
  cases lookup name entries with
  | none => rfl
  | some t => exact leaf_missing kind _ t

theorem fieldMissing_required (kind : WireKind) (p : Path) (name : String) (entries : List Entry) :
    fieldMissing (.leaf kind) p name true entries = [] ↔ (lookup name entries).isSome := by
  unfold fieldMissing
  cases lookup name entries with
  | none => simp
  | some t => simp [leaf_missing]

theorem fieldMissing_list (kind : WireKind) (f : Format WireKind) (p : Path) (name : String) (entries : List Entry) :
    fieldMissing (.list kind f) p name false entries = [] ↔
      ∀ i t, (itemsField name entries)[i]? = some t → f.missing ((p.field name).index i) t = [] := by
  unfold fieldMissing itemsField
  cases lookup name entries with
  | none => simp
  | some t =>
    show (Format.list kind f).missing _ t = [] ↔ _
    rw [Format.missing]
    cases hi : t.items? with
    | none => simp [hi]
    | some items => simp [indexed_eq_nil, hi]

theorem targets_missing (p : Path) (name : String) (entries : List Entry) :
    fieldMissing targetsFormat p name false entries = [] :=
  (fieldMissing_list _ _ p name entries).mpr fun _ _ _ => leaf_missing _ _ _

/-- A record lacks nothing when it is no mapping, or its fields are there. -/
theorem missing_record {kind : WireKind} {fields : Fields WireKind} {unsupported : List String} {p : Path} {t : Tree} :
    (Format.record kind fields unsupported).missing p t = [] ↔
      ∀ entries, t = .mapping entries → fields.missing p entries = [] := by
  rw [Format.missing]
  cases t <;> simp [Tree.entries?]

theorem taskParam_missing (p : Path) (t : Tree) :
    taskParamFormat.missing p t = [] ↔
      ∀ entries, t = .mapping entries → (lookup "c" entries).isSome ∧ (lookup "d" entries).isSome := by
  rw [taskParamFormat, missing_record]
  refine forall_congr' fun entries => imp_congr_right fun _ => ?_
  rw [← fieldMissing_required .int p, ← fieldMissing_required .int p]
  simp only [Fields.missing, List.append_eq_nil_iff, and_true]
  exact and_congr_right fun _ => and_iff_left (fieldMissing_leaf .string p "name" entries)

theorem taskState_missing (p : Path) (t : Tree) : taskStateFormat.missing p t = [] := by
  rw [taskStateFormat, missing_record]
  intro entries _
  simp only [Fields.missing, List.append_eq_nil_iff, and_true]
  exact ⟨fieldMissing_leaf .int p "c" entries, fieldMissing_leaf .int p "d" entries,
    fieldMissing_leaf .release p "release" entries⟩

theorem node_missing (p : Path) (t : Tree) :
    nodeFormat.missing p t = [] ↔ ∀ entries, t = .mapping entries → (lookup "id" entries).isSome := by
  rw [nodeFormat, missing_record]
  refine forall_congr' fun entries => imp_congr_right fun _ => ?_
  rw [← fieldMissing_required .string p]
  simp only [Fields.missing, List.append_eq_nil_iff, and_true]
  refine and_iff_left ⟨fieldMissing_leaf .bool p "initial" entries, fieldMissing_leaf .bool p "isInitial" entries,
    fieldMissing_leaf .string p "label" entries, fieldMissing_leaf .string p "borderColor" entries,
    fieldMissing_leaf .string p "fillColor" entries, ?_, targets_missing p "children" entries,
    targets_missing p "loopback" entries⟩
  exact (fieldMissing_list _ _ p "tasks" entries).mpr fun _ _ _ => taskState_missing _ _

theorem forall_getElem? {α : Type} {P : α → Prop} {l : List α} :
    (∀ (i : Nat) (t : α), l[i]? = some t → P t) ↔ ∀ t ∈ l, P t := by
  simp only [List.mem_iff_getElem?]
  exact ⟨fun h t ⟨i, hi⟩ => h i t hi, fun h i t hi => h t ⟨i, hi⟩⟩

theorem system_missing (p : Path) (entries : List Entry) :
    fieldMissing systemFormat p "system" false entries = [] ↔
      ∀ system, lookup "system" entries = some system →
        ∀ task ∈ itemsField "tasks" (entriesOf system), ∀ entries, task = .mapping entries →
          (lookup "c" entries).isSome ∧ (lookup "d" entries).isSome := by
  unfold fieldMissing
  cases lookup "system" entries with
  | none => simp
  | some system =>
    simp only [Option.some.injEq, forall_eq', systemFormat, missing_record]
    have fields : ∀ p entries, (Fields.cons "description" false (.leaf .string) <| .cons "m" false (.leaf .int) <|
          .cons "tasks" false (.list .sequence taskParamFormat) .nil : Fields WireKind).missing p entries = [] ↔
        ∀ task ∈ itemsField "tasks" entries, ∀ entries, task = .mapping entries →
          (lookup "c" entries).isSome ∧ (lookup "d" entries).isSome := by
      intro p entries
      have tasks := fieldMissing_list .sequence taskParamFormat p "tasks" entries
      simp only [taskParam_missing, forall_getElem?] at tasks
      rw [← tasks]
      simp only [Fields.missing, List.append_eq_nil_iff, and_true]
      exact ⟨fun h => h.2.2, fun h => ⟨fieldMissing_leaf .string p "description" entries,
        fieldMissing_leaf .int p "m" entries, h⟩⟩
    simp only [fields]
    cases system <;> simp [entriesOf, Tree.entries?, itemsField, lookup]

theorem missingKeys_nil_iff (doc : Tree) : missingKeys doc = [] ↔ KeysPresent doc := by
  unfold missingKeys KeysPresent documentNodes documentFormat
  rw [missing_record]
  cases doc with
  | mapping entries =>
    have nodes := fieldMissing_list .sequence nodeFormat .root "nodes" entries
    simp only [node_missing, forall_getElem?] at nodes
    rw [show entriesOf (.mapping entries) = entries from rfl, ← nodes, ← system_missing .root entries]
    simp only [Tree.mapping.injEq, forall_eq', Fields.missing, List.append_eq_nil_iff, and_true]
    exact ⟨fun h => ⟨h.2.2, h.2.1⟩, fun h => ⟨fieldMissing_leaf .version .root "schemaVersion" entries, h.2, h.1⟩⟩
  | null => simp [entriesOf, Tree.entries?, itemsField, lookup]
  | scalar text => simp [entriesOf, Tree.entries?, itemsField, lookup]
  | sequence items => simp [entriesOf, Tree.entries?, itemsField, lookup]

/-- Each missing key has an error at its place. -/
structure Answered (doc : Tree) (diags : Diagnostics) : Prop where
  ids : ∀ (i : Nat) (entries : List Entry), (documentNodes doc)[i]? = some (.mapping entries) →
    lookup "id" entries = none → ∃ d ∈ diags, d.isError = true ∧ d.path = "nodes[" ++ toString i ++ "].id"
  tasks : ∀ system, lookup "system" (entriesOf doc) = some system →
    ∀ (i : Nat) (entries : List Entry), (itemsField "tasks" (entriesOf system))[i]? = some (.mapping entries) →
      ∀ key ∈ ["c", "d"], lookup key entries = none →
        ∃ d ∈ diags, d.isError = true ∧ d.path = "system.tasks[" ++ toString i ++ "]." ++ key

/-- Where every key is there, nothing is left to answer. -/
theorem KeysPresent.answered {doc : Tree} (h : KeysPresent doc) (diags : Diagnostics) : Answered doc diags where
  ids i entries hi hid := by
    have := h.1 _ (List.mem_of_getElem? hi) entries rfl
    rw [hid] at this
    cases this
  tasks system hs i entries hi key hkey hnone := by
    obtain ⟨hc, hd⟩ := h.2 system hs _ (List.mem_of_getElem? hi) entries rfl
    rcases List.mem_cons.mp hkey with rfl | hkey
    · rw [hnone] at hc
      cases hc
    · rw [List.mem_singleton.mp hkey] at hnone
      rw [hnone] at hd
      cases hd

theorem loadDocument_returns_iff (doc : Tree) (warnings : Option Diagnostics) :
    (∃ r, loadDocument (.valid doc) warnings = .ok r) ↔ KeysPresent doc := by
  rw [← missingKeys_nil_iff]
  cases he : doc.entries? with
  | none =>
    obtain ⟨d, hd, -⟩ := loadDocument_other he warnings
    refine ⟨fun _ => ?_, fun _ => ⟨_, hd⟩⟩
    rw [missingKeys, documentFormat, missing_record]
    intro entries he
    subst he
    cases he
  | some entries =>
    obtain rfl := Tree.entries_eq_some.mp he
    constructor
    · intro h
      obtain ⟨r, hr⟩ := h
      by_contra hm
      obtain ⟨e, he⟩ := loadDocument_throws hm warnings
      rw [hr] at he
      cases he
    · intro h
      exact ⟨_, loadDocument_mapping h warnings⟩

/-- A load returns, and answers every missing key, exactly when no key is missing. -/
theorem load_answers_iff (cpp : YamlCpp) (yaml : String) (warnings : Option Diagnostics) :
    (∃ result warnings', loadYamlString cpp yaml warnings = .ok (result, warnings') ∧
        ∀ doc, cpp.load yaml = .ok doc → Answered doc (reported result)) ↔
      ∀ doc, cpp.load yaml = .ok doc → KeysPresent doc := by
  unfold loadYamlString
  cases hl : cpp.load yaml with
  | error what =>
    refine ⟨fun _ doc hdoc => ?_, fun _ => ⟨_, _, rfl, fun doc hdoc => ?_⟩⟩
    · cases hdoc
    · cases hdoc
  | ok root =>
    simp only [Except.ok.injEq, forall_eq']
    constructor
    · intro h
      obtain ⟨result, warnings', hr, -⟩ := h
      exact (loadDocument_returns_iff root warnings).mp ⟨_, hr⟩
    · intro h
      obtain ⟨⟨result, warnings'⟩, hr⟩ := (loadDocument_returns_iff root warnings).mpr h
      exact ⟨result, warnings', hr, h.answered _⟩

/-- A node without an `id` escapes as an exception. -/
theorem load_missing_id_throws :
    ∃ cpp : YamlCpp, cpp.load "nodes: [{initial: true}]" =
        .ok (.mapping [(.scalar "nodes", .sequence [.mapping [(.scalar "initial", .scalar "true")]])]) ∧
      ∀ r, loadYamlString cpp "nodes: [{initial: true}]" (some []) ≠ .ok r :=
  ⟨⟨fun _ => .ok (.mapping [(.scalar "nodes", .sequence [.mapping [(.scalar "initial", .scalar "true")]])]),
    fun _ => .error ""⟩, rfl, fun _ h => by cases h⟩

/-! ## Every problem at once -/

/-- The positions of a document that violate the wire format, in reading order. -/
def violations (doc : Tree) : List (Site WireKind) := documentFormat.sites accepts .root doc

/-- No two violations are reported at one position. -/
theorem violations_nodup (doc : Tree) : ((violations doc).map fun site => (siteDiag site).path).Nodup := by
  simp only [siteDiag_path]
  exact Format.sites_nodup documentFormat_proper (show Path.Plain .root from trivial) doc

/-- When nothing is wrong, the graph is built. -/
theorem create_of_no_errors {doc : Tree} (h : loadErrors doc = []) :
    Graph.create (documentSystem doc) (nodesOf doc) (edgesOf doc) =
      .ok (indexed (documentSystem doc) (nodesOf doc) (edgesOf doc)) :=
  create_ok_iff.mpr ⟨(validateGraph_nil_iff _ _ _).mp (List.append_eq_nil_iff.mp h).2, rfl⟩

/-- One load reports every violation once, at its own position and in reading order, and after
    them what is wrong with the graph as far as it was read. -/
theorem load_reports_all {entries : List Entry} (hkeys : KeysPresent (.mapping entries))
    (warnings : Option Diagnostics) :
    ∃ result warnings', loadDocument (.valid (.mapping entries)) warnings = .ok (result, warnings') ∧
      reported result = (violations (.mapping entries)).map siteDiag ++
        validateGraph (documentSystem (.mapping entries)) (nodesOf (.mapping entries)) (edgesOf (.mapping entries)) ∧
      (violations (.mapping entries) ≠ [] → result = .error (reported result)) ∧
      (∀ site ∈ violations (.mapping entries),
        (siteDiag site).path = site.path.render ∧ (siteDiag site).severity = .error) ∧
      ((violations (.mapping entries)).map fun site => (siteDiag site).path).Nodup := by
  have hload := loadDocument_mapping ((missingKeys_nil_iff _).mpr hkeys) warnings
  refine ⟨_, _, hload, ?_, ?_, fun site _ => siteDiag_path site, violations_nodup _⟩
  · show _ = loadErrors (.mapping entries)
    cases he : loadErrors (.mapping entries) with
    | nil => simp [create_of_no_errors he, reported]
    | cons d diags => simp [reported]
  · intro hv
    have hne : loadErrors (.mapping entries) ≠ [] := by
      intro h
      exact hv (List.map_eq_nil_iff.mp (List.append_eq_nil_iff.mp h).1)
    simp [hne, reported]

theorem load_reports_all_two :
    ((violations (.mapping [(.scalar "schemaVersion", .scalar "two"), (.scalar "nodes", .sequence
        [.mapping [(.scalar "id", .scalar "a"), (.scalar "initial", .null)], .scalar "b"])])).map
      fun site => (siteDiag site).path).Nodup := by
  have hkeys : KeysPresent (.mapping [(.scalar "schemaVersion", .scalar "two"), (.scalar "nodes", .sequence
      [.mapping [(.scalar "id", .scalar "a"), (.scalar "initial", .null)], .scalar "b"])]) := by
    constructor <;> simp [documentNodes, itemsField, entriesOf, Tree.entries?, Tree.items?, lookup, Tree.text?]
  obtain ⟨_, _, -, -, -, -, h⟩ := load_reports_all hkeys none
  exact h

end Stgx
