/-
  Stgx.Accept — the documents a load accepts, and what they mean.

  `IsDocument doc system nodes edges` says in the terms of the wire format that a
  document describes these parts. `Denotes f val reads` ties such a description to the
  format its positions are checked against and to the meaning function: a value is
  described as `v` exactly when it has no violation and means `v`. So a load accepts
  exactly the documents that describe a well-formed graph (`load_accepts_iff`).
-/

import Stgx.Reports

namespace Stgx

open Stgx.Lib.Doc
open Stgx.Lib.Loop (indexed_filterMap indexed_eq_nil)
open Stgx.Lib.Grouping (group_flatMap)

variable {α : Type}

/-! ## The wire format, described -/

/-- A scalar that `parse` reads as `v`. -/
def Parses (parse : String → Option α) (t : Tree) (v : α) : Prop := ∃ text, t = .scalar text ∧ parse text = some v

def IsText : Tree → String → Prop := Parses some

def IsInt : Tree → Int32 → Prop := Parses parseInt

def IsBool : Tree → Bool → Prop := Parses parseBool

def IsRelease : Tree → Release → Prop := Parses parseRelease

def Absent (name : String) (entries : List Entry) : Prop :=
  lookup name entries = none ∨ lookup name entries = some .null

def Required (reads : Tree → α → Prop) (name : String) (entries : List Entry) (v : α) : Prop :=
  ∃ t, lookup name entries = some t ∧ reads t v

def Optional (reads : Tree → α → Prop) (name : String) (entries : List Entry) : Option α → Prop
  | none => Absent name entries
  | some v => Required reads name entries v

/-- An optional sequence; absent is empty. -/
def Listed (reads : Tree → α → Prop) (name : String) (entries : List Entry) (l : List α) : Prop :=
  Absent name entries ∧ l = [] ∨ ∃ items, lookup name entries = some (.sequence items) ∧ List.Forall₂ reads items l

def IsTaskParam (t : Tree) (task : TaskParam) : Prop :=
  ∃ entries, t = .mapping entries ∧ Required IsInt "c" entries task.c ∧ Required IsInt "d" entries task.d ∧
    Optional IsText "name" entries task.name

def IsSystem (t : Tree) (system : System) : Prop :=
  ∃ entries, t = .mapping entries ∧ Optional IsText "description" entries system.description ∧
    Optional IsInt "m" entries system.m ∧ Listed IsTaskParam "tasks" entries system.tasks

/-- An optional field with a default. -/
def Defaulted (reads : Tree → α → Prop) (name : String) (entries : List Entry) (out v : α) : Prop :=
  ∃ o, Optional reads name entries o ∧ o.getD out = v

def IsTaskState (t : Tree) (task : TaskState) : Prop :=
  ∃ entries, t = .mapping entries ∧ Defaulted IsInt "c" entries 0 task.c ∧ Defaulted IsInt "d" entries 0 task.d ∧
    Defaulted IsRelease "release" entries .none task.release

/-- A node with the edges its lists give: children before loopback. -/
def IsNode (t : Tree) (described : Node × List Edge) : Prop :=
  ∃ entries, t = .mapping entries ∧ Required IsText "id" entries described.1.id ∧
    (∃ initial isInitial, Defaulted IsBool "initial" entries false initial ∧
      Defaulted IsBool "isInitial" entries false isInitial ∧ (initial || isInitial) = described.1.initial) ∧
    Optional IsText "label" entries described.1.label ∧ Optional IsText "borderColor" entries described.1.borderColor ∧
    Optional IsText "fillColor" entries described.1.fillColor ∧
    Listed IsTaskState "tasks" entries described.1.tasks ∧
    ∃ children loopback, Listed IsText "children" entries children ∧ Listed IsText "loopback" entries loopback ∧
      described.2 = children.map (⟨described.1.id, ·, .transition⟩) ++ loopback.map (⟨described.1.id, ·, .loopback⟩)

/-- The document describes these parts. -/
def IsDocument (doc : Tree) (system : System) (nodes : List Node) (edges : List Edge) : Prop :=
  ∃ entries, doc = .mapping entries ∧
    (Absent "schemaVersion" entries ∨ Required IsInt "schemaVersion" entries 1) ∧
    (Absent "system" entries ∧ system = {} ∨ Required IsSystem "system" entries system) ∧
    ∃ described, Listed IsNode "nodes" entries described ∧
      nodes = described.map Prod.fst ∧ edges = described.flatMap Prod.snd

/-! ## Descriptions and formats -/

/-- Nothing is missing and nothing is violated. -/
def Clean (f : Format WireKind) (p : Path) (t : Tree) : Prop := f.missing p t = [] ∧ f.sites accepts p t = []

def CleanField (f : Format WireKind) (p : Path) (name : String) (required : Bool) (entries : List Entry) : Prop :=
  fieldMissing f p name required entries = [] ∧ (fieldIssues f p name required entries).filterMap Issue.site? = []

def CleanFields (fields : Fields WireKind) (p : Path) (entries : List Entry) : Prop :=
  fields.missing p entries = [] ∧ (fields.issues accepts p entries).filterMap Issue.site? = []

/-- `reads` describes the values without a violation, by their meaning. -/
def Denotes (f : Format WireKind) (val : Tree → α) (reads : Tree → α → Prop) : Prop :=
  ∀ p t v, reads t v ↔ Clean f p t ∧ val t = v

theorem cleanFields_nil (p : Path) (entries : List Entry) : CleanFields .nil p entries ↔ True := by
  simp [CleanFields, Fields.missing, Fields.issues]

theorem cleanFields_cons (f : Format WireKind) (p : Path) (name : String) (required : Bool) (rest : Fields WireKind)
    (entries : List Entry) :
    CleanFields (.cons name required f rest) p entries ↔
      CleanField f p name required entries ∧ CleanFields rest p entries := by
  unfold CleanFields CleanField
  rw [Fields.missing, Fields.issues]
  simp only [List.append_eq_nil_iff, List.filterMap_append]
  exact and_and_and_comm

theorem filterMap_strays (l : List Entry) (f : Entry → Option Stray) :
    (l.filterMap fun entry => (f entry).map (Issue.stray : Stray → Issue WireKind)).filterMap Issue.site? = [] := by
  rw [List.filterMap_filterMap, List.filterMap_eq_nil_iff]
  intro entry _
  cases f entry <;> rfl

theorem clean_record (kind : WireKind) (fields : Fields WireKind) (unsupported : List String) (p : Path) (t : Tree) :
    Clean (.record kind fields unsupported) p t ↔ ∃ entries, t = .mapping entries ∧ CleanFields fields p entries := by
  unfold Clean Format.sites
  cases he : t.entries? with
  | none =>
    rw [Format.issues, he]
    simp only [List.filterMap_cons, Issue.site?, List.cons_ne_nil, and_false, false_iff, not_exists, not_and]
    intro entries he
    subst he
    cases he
  | some entries =>
    obtain rfl := Tree.entries_eq_some.mp he
    rw [record_missing, record_issues, List.filterMap_append, filterMap_strays, List.nil_append]
    simp [CleanFields]

theorem denotes_record {kind : WireKind} {fields : Fields WireKind} {unsupported : List String} {val : Tree → α}
    {reads : List Entry → α → Prop}
    (h : ∀ p entries v, reads entries v ↔ CleanFields fields p entries ∧ val (.mapping entries) = v) :
    Denotes (.record kind fields unsupported) val fun t v => ∃ entries, t = .mapping entries ∧ reads entries v := by
  intro p t v
  rw [clean_record]
  constructor
  · intro h
    obtain ⟨entries, rfl, hr⟩ := h
    obtain ⟨hc, hv⟩ := (h p entries v).mp hr
    exact ⟨⟨entries, rfl, hc⟩, hv⟩
  · intro h
    obtain ⟨⟨entries, rfl, hc⟩, hv⟩ := h
    exact ⟨entries, rfl, (h p entries v).mpr ⟨hc, hv⟩⟩

/-! ## Fields -/

section Leaf

variable {kind : WireKind} {parse : String → Option α} (hparse : ∀ text, accepts kind text = (parse text).isSome)
include hparse

theorem optional_iff (p : Path) (name : String) (entries : List Entry) (o : Option α) :
    Optional (Parses parse) name entries o ↔
      CleanField (.leaf kind) p name false entries ∧ parsedField parse name entries = o := by
  unfold CleanField fieldIssues parsedField textField
  rw [fieldMissing_leaf]
  cases o with
  | none =>
    unfold Optional Absent
    cases lookup name entries with
    | none => simp [present]
    | some t =>
      cases t <;> simp [present, Tree.isNull, Format.issues, Tree.text?, Issue.site?, hparse]
  | some v =>
    unfold Optional Required Parses
    cases lookup name entries with
    | none => simp [present]
    | some t =>
      cases t with
      | scalar text => cases hv : parse text <;> simp [present, Tree.isNull, Format.issues, Tree.text?, hparse, hv]
      | _ => simp [present, Tree.isNull, Format.issues, Tree.text?, Issue.site?]

theorem required_iff (p : Path) (name : String) (entries : List Entry) (out v : α) :
    Required (Parses parse) name entries v ↔
      CleanField (.leaf kind) p name true entries ∧ (parsedField parse name entries).getD out = v := by
  unfold CleanField fieldIssues fieldMissing parsedField textField Required Parses
  cases lookup name entries with
  | none => simp
  | some t =>
    cases t with
    | scalar text =>
      cases hv : parse text <;> simp [present, leaf_missing, Format.issues, Tree.text?, hparse, hv, Issue.site?]
    | _ => simp [present, leaf_missing, Format.issues, Tree.text?, Issue.site?]

theorem defaulted_iff (p : Path) (name : String) (entries : List Entry) (out v : α) :
    Defaulted (Parses parse) name entries out v ↔
      CleanField (.leaf kind) p name false entries ∧ (parsedField parse name entries).getD out = v := by
  unfold Defaulted
  simp only [optional_iff hparse p]
  constructor
  · intro h
    obtain ⟨o, ⟨hc, rfl⟩, rfl⟩ := h
    exact ⟨hc, rfl⟩
  · intro h
    obtain ⟨hc, rfl⟩ := h
    exact ⟨_, ⟨hc, rfl⟩, rfl⟩

end Leaf

theorem denotes_text : Denotes (.leaf .string) (fun t => t.text?.getD "") IsText := by
  intro p t v
  unfold Clean IsText Parses Format.sites
  rw [leaf_missing]
  cases t <;> simp [Format.issues, Tree.text?, accepts, Issue.site?]

/-- An optional list of described items. -/
theorem listed_iff (kind : WireKind) {f : Format WireKind} {val : Tree → α} {reads : Tree → α → Prop}
    (h : Denotes f val reads) (p : Path) (name : String) (entries : List Entry) (l : List α) :
    Listed reads name entries l ↔
      CleanField (.list kind f) p name false entries ∧ (itemsField name entries).map val = l := by
  have described : ∀ (items : List Tree) (l : List α),
      List.Forall₂ reads items l ↔ (∀ t ∈ items, reads t (val t)) ∧ items.map val = l := by
    intro items
    induction items with
    | nil => intro l; cases l <;> simp
    | cons t items ih =>
      intro l
      cases l with
      | nil => simp
      | cons v l =>
        rw [List.forall₂_cons, ih, List.forall_mem_cons, List.map_cons, List.cons.injEq, h p t v, h p t (val t)]
        tauto
  have clean : ∀ (p : Path) (items : List Tree),
      (∀ t ∈ items, reads t (val t)) ↔ Clean (.list kind f) p (.sequence items) := by
    intro p items
    unfold Clean Format.sites
    rw [Format.missing, Format.issues]
    simp only [Tree.items?, indexed_filterMap, indexed_eq_nil, ← forall_and]
    rw [← forall_getElem?]
    refine forall_congr' fun i => forall_congr' fun t => ?_
    rw [h (p.index (0 + i)) t (val t)]
    unfold Clean Format.sites
    tauto
  unfold Listed Absent CleanField fieldMissing fieldIssues itemsField
  cases lookup name entries with
  | none => simp [present, eq_comm]
  | some t =>
    have hclean := clean (p.field name)
    unfold Clean Format.sites at hclean
    cases t with
    | null => simp [present, Tree.isNull, Tree.items?, missing_null, eq_comm]
    | scalar text => simp [present, Tree.isNull, Tree.items?, Format.issues, Issue.site?]
    | mapping entries => simp [present, Tree.isNull, Tree.items?, Format.issues, Issue.site?]
    | sequence items =>
      simp only [present, Tree.isNull, Bool.and_false, Bool.false_eq_true, if_false, ← hclean, Option.bind_some,
        Tree.items?, Option.getD_some]
      simp [described]

/-! ## Sections -/

theorem accepts_string (text : String) : accepts .string text = (some text).isSome := rfl

theorem accepts_int (text : String) : accepts .int text = (parseInt text).isSome := rfl

theorem accepts_bool (text : String) : accepts .bool text = (parseBool text).isSome := rfl

theorem accepts_release (text : String) : accepts .release text = (parseRelease text).isSome := rfl

theorem parsedField_text (name : String) (entries : List Entry) :
    parsedField some name entries = textField name entries := by
  unfold parsedField
  cases textField name entries <;> rfl

theorem denotes_taskParam : Denotes taskParamFormat taskParamOf IsTaskParam := by
  refine denotes_record fun p entries task => ?_
  unfold IsInt IsText
  rw [required_iff accepts_int p "c" entries 0, required_iff accepts_int p "d" entries 0,
    optional_iff accepts_string p "name" entries, parsedField_text, cleanFields_cons, cleanFields_cons,
    cleanFields_cons, cleanFields_nil]
  obtain ⟨c, d, name⟩ := task
  simp only [taskParamOf, TaskParam.mk.injEq]
  tauto

theorem denotes_system : Denotes systemFormat systemOf IsSystem := by
  refine denotes_record fun p entries system => ?_
  unfold IsInt IsText
  rw [optional_iff accepts_string p "description" entries, optional_iff accepts_int p "m" entries,
    listed_iff .sequence denotes_taskParam p "tasks" entries, parsedField_text, cleanFields_cons,
    cleanFields_cons, cleanFields_cons, cleanFields_nil]
  obtain ⟨description, m, tasks⟩ := system
  simp only [systemOf, System.mk.injEq]
  tauto

theorem denotes_taskState : Denotes taskStateFormat taskStateOf IsTaskState := by
  refine denotes_record fun p entries task => ?_
  unfold IsInt IsRelease
  rw [defaulted_iff accepts_int p "c" entries, defaulted_iff accepts_int p "d" entries,
    defaulted_iff accepts_release p "release" entries, cleanFields_cons, cleanFields_cons, cleanFields_cons,
    cleanFields_nil]
  obtain ⟨c, d, release⟩ := task
  simp only [taskStateOf, TaskState.mk.injEq]
  tauto

theorem texts_of_forall₂ {items : List Tree} {l : List String} (h : List.Forall₂ IsText items l) :
    items.filterMap Tree.text? = l := by
  induction h with
  | nil => rfl
  | cons ht _ ih =>
    obtain ⟨text, rfl, hv⟩ := ht
    obtain rfl := Option.some.inj hv
    exact congrArg (text :: ·) ih

/-- A list of node ids: every readable item of a list without a violation is in it. -/
theorem targets_iff (p : Path) (name : String) (entries : List Entry) (l : List String) :
    Listed IsText name entries l ↔
      CleanField targetsFormat p name false entries ∧ (itemsField name entries).filterMap Tree.text? = l := by
  have readable : ∀ l, Listed IsText name entries l → (itemsField name entries).filterMap Tree.text? = l := by
    intro l h
    rcases h with ⟨habsent, rfl⟩ | ⟨items, hl, hitems⟩
    · rcases habsent with h | h <;> simp [itemsField, h, Tree.items?]
    · rw [itemsField, hl]
      exact texts_of_forall₂ hitems
  have all := listed_iff .targets denotes_text p name entries
  constructor
  · intro h
    exact ⟨((all l).mp h).1, readable l h⟩
  · intro h
    obtain ⟨hc, rfl⟩ := h
    have h := (all _).mpr ⟨hc, rfl⟩
    rw [readable _ h]
    exact h

theorem denotes_node : Denotes nodeFormat (fun t => (nodeOf t, edgesFrom t)) IsNode := by
  refine denotes_record fun p entries described => ?_
  simp only [cleanFields_cons, cleanFields_nil, and_true]
  constructor
  · rintro ⟨hid, ⟨initial, isInitial, hinitial, hlegacy, hor⟩, hlabel, hborder, hfill, htasks, children, loopback,
      hchildren, hloopback, hedges⟩
    obtain ⟨cid, vid⟩ := (required_iff accepts_string p "id" entries "" _).mp hid
    obtain ⟨cinitial, rfl⟩ := (defaulted_iff accepts_bool p "initial" entries false _).mp hinitial
    obtain ⟨clegacy, rfl⟩ := (defaulted_iff accepts_bool p "isInitial" entries false _).mp hlegacy
    obtain ⟨clabel, vlabel⟩ := (optional_iff accepts_string p "label" entries _).mp hlabel
    obtain ⟨cborder, vborder⟩ := (optional_iff accepts_string p "borderColor" entries _).mp hborder
    obtain ⟨cfill, vfill⟩ := (optional_iff accepts_string p "fillColor" entries _).mp hfill
    obtain ⟨ctasks, vtasks⟩ := (listed_iff .sequence denotes_taskState p "tasks" entries _).mp htasks
    obtain ⟨cchildren, rfl⟩ := (targets_iff p "children" entries _).mp hchildren
    obtain ⟨cloopback, rfl⟩ := (targets_iff p "loopback" entries _).mp hloopback
    refine ⟨⟨cid, cinitial, clegacy, clabel, cborder, cfill, ctasks, cchildren, cloopback⟩, ?_⟩
    rw [parsedField_text] at vid vlabel vborder vfill
    have hnode : nodeOf (.mapping entries) = described.1 := by
      obtain ⟨⟨id, initial, tasks, label, borderColor, fillColor⟩, edges⟩ := described
      simp only [nodeOf, Node.mk.injEq]
      exact ⟨vid, hor, vtasks, vlabel, vborder, vfill⟩
    refine Prod.ext hnode ?_
    rw [hedges, ← hnode]
    rfl
  · intro h
    obtain ⟨⟨cid, cinitial, clegacy, clabel, cborder, cfill, ctasks, cchildren, cloopback⟩, rfl⟩ := h
    refine ⟨(required_iff accepts_string p "id" entries "" _).mpr ⟨cid, by rw [parsedField_text]; rfl⟩,
      ⟨_, _, (defaulted_iff accepts_bool p "initial" entries false _).mpr ⟨cinitial, rfl⟩,
        (defaulted_iff accepts_bool p "isInitial" entries false _).mpr ⟨clegacy, rfl⟩, rfl⟩,
      (optional_iff accepts_string p "label" entries _).mpr ⟨clabel, parsedField_text _ _⟩,
      (optional_iff accepts_string p "borderColor" entries _).mpr ⟨cborder, parsedField_text _ _⟩,
      (optional_iff accepts_string p "fillColor" entries _).mpr ⟨cfill, parsedField_text _ _⟩,
      (listed_iff .sequence denotes_taskState p "tasks" entries _).mpr ⟨ctasks, rfl⟩,
      _, _, (targets_iff p "children" entries _).mpr ⟨cchildren, rfl⟩,
      (targets_iff p "loopback" entries _).mpr ⟨cloopback, rfl⟩, rfl⟩

/-! ## Documents -/

theorem version_iff (p : Path) (entries : List Entry) :
    Absent "schemaVersion" entries ∨ Required IsInt "schemaVersion" entries 1 ↔
      CleanField (.leaf .version) p "schemaVersion" false entries := by
  unfold CleanField fieldIssues Absent Required IsInt Parses
  rw [fieldMissing_leaf]
  cases lookup "schemaVersion" entries with
  | none => simp [present]
  | some t =>
    cases t with
    | scalar text =>
      by_cases h : parseInt text = some 1 <;>
        simp [present, Tree.isNull, Format.issues, Tree.text?, accepts, kSchemaVersion, h, Issue.site?]
    | _ => simp [present, Tree.isNull, Format.issues, Tree.text?, Issue.site?]

theorem section_iff (p : Path) (entries : List Entry) (system : System) :
    Absent "system" entries ∧ system = {} ∨ Required IsSystem "system" entries system ↔
      CleanField systemFormat p "system" false entries ∧ ((lookup "system" entries).map systemOf).getD {} = system := by
  unfold CleanField fieldMissing fieldIssues Absent Required
  cases lookup "system" entries with
  | none => simp [present, eq_comm]
  | some t =>
    simp only [Option.some.injEq, exists_eq_left', denotes_system (p.field "system") t, Clean, Format.sites]
    cases t with
    | null =>
      have hnull : systemOf .null = {} := rfl
      simp [systemFormat, Format.issues, Tree.entries?, Issue.site?, missing_null, present, Tree.isNull, hnull, eq_comm]
    | _ => simp [present, Tree.isNull]

/-- A document describes its meaning, when it has no violation and misses nothing; `nodes` may be
    absent only where there are no nodes. -/
theorem isDocument_iff (doc : Tree) (system : System) (nodes : List Node) (edges : List Edge) :
    IsDocument doc system nodes edges ↔
      Clean documentFormat .root doc ∧ documentSystem doc = system ∧ nodesOf doc = nodes ∧ edgesOf doc = edges := by
  rw [documentFormat, clean_record]
  simp only [cleanFields_cons, cleanFields_nil, and_true]
  constructor
  · intro h
    obtain ⟨entries, rfl, hversion, hsystem, described, hnodes, rfl, rfl⟩ := h
    obtain ⟨csystem, vsystem⟩ := (section_iff .root entries system).mp hsystem
    obtain ⟨cnodes, rfl⟩ := (listed_iff .sequence denotes_node .root "nodes" entries _).mp hnodes
    refine ⟨⟨entries, rfl, (version_iff .root entries).mp hversion, csystem, cnodes⟩, vsystem, ?_, ?_⟩
    · rw [List.map_map]
      rfl
    · rw [List.flatMap_map]
      rfl
  · intro h
    obtain ⟨⟨entries, rfl, cversion, csystem, cnodes⟩, rfl, rfl, rfl⟩ := h
    refine ⟨entries, rfl, (version_iff .root entries).mpr cversion, (section_iff .root entries _).mpr ⟨csystem, rfl⟩, _,
      (listed_iff .sequence denotes_node .root "nodes" entries _).mpr ⟨cnodes, rfl⟩, ?_, ?_⟩
    · rw [List.map_map]
      rfl
    · rw [List.flatMap_map]
      rfl

/-- What a load returns a graph for. -/
theorem load_ok_iff (doc : Tree) (warnings warnings' : Option Diagnostics) (g : Graph) :
    loadDocument (.valid doc) warnings = .ok (.ok g, warnings') ↔
      Clean documentFormat .root doc ∧ WellFormed (documentSystem doc) (nodesOf doc) (edgesOf doc) ∧
        g = indexed (documentSystem doc) (nodesOf doc) (edgesOf doc) ∧
        warnings' = warnings.map (· ++ fieldWarnings doc) := by
  cases he : doc.entries? with
  | none =>
    obtain ⟨d, hd, -⟩ := loadDocument_other he warnings
    constructor
    · intro h
      rw [hd] at h
      cases h
    · intro h
      obtain ⟨hc, -⟩ := h
      rw [documentFormat, clean_record] at hc
      obtain ⟨entries, rfl, -⟩ := hc
      cases he
  | some entries =>
    obtain rfl := Tree.entries_eq_some.mp he
    have hsites : fieldErrors (.mapping entries) = [] ↔ documentFormat.sites accepts .root (.mapping entries) = [] :=
      List.map_eq_nil_iff
    constructor
    · intro h
      have hm : missingKeys (.mapping entries) = [] := by
        by_contra hm
        obtain ⟨e, he⟩ := loadDocument_throws hm warnings
        rw [he] at h
        cases h
      rw [loadDocument_mapping hm] at h
      have hl : loadErrors (.mapping entries) = [] := by
        cases hl : loadErrors (.mapping entries) with
        | nil => rfl
        | cons d diags => simp [hl] at h
      simp only [hl, List.isEmpty_nil, if_true, Except.ok.injEq, Prod.mk.injEq] at h
      obtain ⟨hf, -⟩ := List.append_eq_nil_iff.mp hl
      obtain ⟨hw, hg⟩ := create_ok_iff.mp h.1
      exact ⟨⟨hm, hsites.mp hf⟩, hw, hg, h.2.symm⟩
    · intro h
      obtain ⟨⟨hm, hs⟩, hw, rfl, rfl⟩ := h
      have hl : loadErrors (.mapping entries) = [] :=
        List.append_eq_nil_iff.mpr ⟨hsites.mpr hs, (validateGraph_nil_iff _ _ _).mpr hw⟩
      rw [loadDocument_mapping hm warnings, hl, create_ok_iff.mpr ⟨hw, rfl⟩]
      rfl

theorem edgesFrom_source {t : Tree} {edge : Edge} (h : edge ∈ edgesFrom t) : edge.source = (nodeOf t).id := by
  simp only [edgesFrom, targetsFrom, List.mem_append, List.mem_map] at h
  rcases h with ⟨_, _, rfl⟩ | ⟨_, _, rfl⟩ <;> rfl

/-- A document's edges are grouped as a graph keeps them. -/
theorem edgesOf_grouped {doc : Tree} (h : Sound (nodesOf doc) (edgesOf doc)) :
    (indexed (documentSystem doc) (nodesOf doc) (edgesOf doc)).edges = edgesOf doc := by
  rw [indexed_edges h]
  have hids : ids (nodesOf doc) = (documentNodes doc).map fun t => (nodeOf t).id := List.map_map
  rw [hids]
  exact group_flatMap (hids ▸ h.idsDistinct) fun _ _ _ he => edgesFrom_source he

/-- A load returns a graph for exactly the documents that describe a well-formed one, and that is
    the graph it returns. -/
theorem load_accepts_iff (doc : Tree) (warnings : Option Diagnostics) :
    ((∃ g warnings', loadDocument (.valid doc) warnings = .ok (.ok g, warnings')) ↔
        ∃ system nodes edges, IsDocument doc system nodes edges ∧ WellFormed system nodes edges) ∧
      ∀ g warnings', loadDocument (.valid doc) warnings = .ok (.ok g, warnings') →
        ∀ system nodes edges, IsDocument doc system nodes edges →
          g.system = system ∧ g.nodes = nodes ∧ g.edges = edges ∧ Graph.create system nodes edges = .ok g := by
  simp only [load_ok_iff, isDocument_iff]
  constructor
  · constructor
    · intro h
      obtain ⟨_, _, hc, hw, -, -⟩ := h
      exact ⟨_, _, _, ⟨hc, rfl, rfl, rfl⟩, hw⟩
    · intro h
      obtain ⟨_, _, _, ⟨hc, rfl, rfl, rfl⟩, hw⟩ := h
      exact ⟨_, _, hc, hw, rfl, rfl⟩
  · intro g warnings' h
    obtain ⟨-, hw, rfl, -⟩ := h
    rintro _ _ _ ⟨-, rfl, rfl, rfl⟩
    exact ⟨rfl, rfl, edgesOf_grouped hw.sound, create_ok_iff.mpr ⟨hw, rfl⟩⟩

end Stgx
