/-
  Stgx.Normal — what a save keeps of a loaded document.

  `normalForm` drops the fields that are null or hold the default, makes the schema
  version and the parameters of a node's tasks explicit, merges `isInitial` into `initial`,
  spells integers, booleans and releases one way, and puts the fields of a section in wire
  order; whatever else is in the document it keeps.

  - `load_save_normal`: a loaded graph is saved as the normal form of the document without
    the entries that were warned about.
-/

import Stgx.RoundTrip

namespace Stgx

open Stgx.Lib.Doc
open Stgx.Lib.Grouping (bucket bucket_flatMap)

variable {α : Type}

/-! ## The normal form -/

/-- The fields called `name`, their values rewritten; `none` drops a field, as null does. -/
def rewritten (name : String) (rewrite : Tree → Option Tree) (entries : List Entry) : List Entry :=
  entries.filterMap fun entry =>
    if entry.1.text? = some name ∧ entry.2.isNull = false then (rewrite entry.2).map (entry.1, ·) else none

/-- A field that is written also where it was left out. -/
def explicit (name : String) (value : Tree) (fields : List Entry) : List Entry :=
  if fields.isEmpty then [(.scalar name, value)] else fields

/-- The entries that are no fields. -/
def others (names : List String) (entries : List Entry) : List Entry :=
  entries.filter fun entry => !entry.1.text?.any names.contains

/-- A scalar that `parse` reads, as it is written. -/
def respelled (parse : String → Option α) (write : α → Option Tree) (t : Tree) : Option Tree :=
  match t.text?.bind parse with
  | some v => write v
  | none => some t

def normalInt : Tree → Option Tree := respelled parseInt fun v => some (intTree v)

def normalFlag : Tree → Option Tree := respelled parseBool fun b => if b then some (.scalar "true") else none

def normalRelease : Tree → Option Tree :=
  respelled parseRelease fun release => if release = .none then none else some (.scalar release.toString)

def normalItems (item : Tree → Tree) : Tree → Option Tree
  | .sequence items => listTree (items.map item)
  | t => some t

def normalTaskParam : Tree → Tree
  | .mapping entries =>
    .mapping <| rewritten "c" normalInt entries ++ rewritten "d" normalInt entries ++ rewritten "name" some entries ++
      others ["c", "d", "name"] entries
  | t => t

def normalSystem : Tree → Option Tree
  | .mapping entries =>
    let fields := rewritten "description" some entries ++ rewritten "m" normalInt entries ++
      rewritten "tasks" (normalItems normalTaskParam) entries ++ others ["description", "m", "tasks"] entries
    if fields.isEmpty then none else some (.mapping fields)
  | t => some t

def normalTaskState : Tree → Tree
  | .mapping entries =>
    .mapping <| explicit "c" (intTree 0) (rewritten "c" normalInt entries) ++
      explicit "d" (intTree 0) (rewritten "d" normalInt entries) ++ rewritten "release" normalRelease entries ++
      others ["c", "d", "release"] entries
  | t => t

/-- One flag for both spellings. -/
def normalInitial (entries : List Entry) : List Entry :=
  ((rewritten "initial" normalFlag entries ++ rewritten "isInitial" normalFlag entries).take 1).map
    fun entry => (.scalar "initial", entry.2)

def normalNode : Tree → Tree
  | .mapping entries =>
    .mapping <| rewritten "id" some entries ++ normalInitial entries ++ rewritten "label" some entries ++
      rewritten "borderColor" some entries ++ rewritten "fillColor" some entries ++
      rewritten "tasks" (normalItems normalTaskState) entries ++ rewritten "children" (normalItems id) entries ++
      rewritten "loopback" (normalItems id) entries ++
      others ["id", "initial", "isInitial", "label", "borderColor", "fillColor", "tasks", "children", "loopback"]
        entries
  | t => t

def normalForm : Tree → Tree
  | .mapping entries =>
    .mapping <| explicit "schemaVersion" (intTree kSchemaVersion) (rewritten "schemaVersion" normalInt entries) ++
      rewritten "system" normalSystem entries ++ rewritten "nodes" (normalItems normalNode) entries ++
      others ["schemaVersion", "system", "nodes"] entries
  | t => t

/-! ## Fields -/

/-- With distinct keys a field is there at most once. -/
theorem rewritten_eq {entries : List Entry} (hd : (entries.map Prod.fst).Nodup) (name : String)
    (rewrite : Tree → Option Tree) :
    rewritten name rewrite entries =
      optionalEntry name ((lookup name entries).bind fun t => if t.isNull then none else rewrite t) := by
  unfold rewritten
  induction entries with
  | nil => rfl
  | cons entry entries ih =>
    obtain ⟨key, value⟩ := entry
    obtain ⟨hnew, hd⟩ := List.nodup_cons.mp hd
    rw [List.filterMap_cons, lookup]
    by_cases hk : key.text? = some name
    · obtain rfl := Tree.text_eq_some.mp hk
      have hrest : entries.filterMap (fun entry => if entry.1.text? = some name ∧ entry.2.isNull = false
          then (rewrite entry.2).map (entry.1, ·) else none) = [] := by
        refine List.filterMap_eq_nil_iff.mpr fun entry he => if_neg fun hc => hnew ?_
        have hmem : entry.1 ∈ entries.map Prod.fst := List.mem_map_of_mem he
        exact Tree.text_eq_some.mp hc.1 ▸ hmem
      rw [hrest, if_pos hk]
      cases hv : value.isNull with
      | true => simp [hv, optionalEntry]
      | false => cases hr : rewrite value <;> simp [hv, hr, Tree.text?, optionalEntry]
    · rw [if_neg hk, ih hd]
      simp [hk]

theorem others_stripped {fields : Fields WireKind} {unsupported names : List String} (entries : List Entry)
    (h : fields.names.all names.contains = true) : others names (stripped fields unsupported entries) = [] := by
  refine List.filter_eq_nil_iff.mpr fun entry he => ?_
  obtain ⟨name, hname, hkey⟩ := stripped_key he
  have := List.all_eq_true.mp h name hname
  simp only [hkey, Tree.text?, Option.any_some, this]
  decide

/-- The fields of a section of a document with distinct keys. -/
def Distinct (entries : List Entry) : Prop :=
  (entries.map Prod.fst).Nodup ∧ ∀ entry ∈ entries, entry.2.DistinctKeys

theorem Distinct.lookup {entries : List Entry} (hd : Distinct entries) {name : String} {t : Tree}
    (h : lookup name entries = some t) : t.DistinctKeys := hd.2 _ (lookup_mem h)

section Described

variable {fields : Fields WireKind} {unsupported : List String} {entries : List Entry} {name : String}
  {reads : Tree → α → Prop} (f : Format WireKind)

/-- A field of a section, rewritten after stripping, by what it is described as. -/
theorem rewritten_optional (hd : Distinct entries) (hname : name ∈ fields.names) (hsup : name ∉ unsupported)
    (hf : ∀ t, fields.stripField (.scalar name) t = f.strip t) {rewrite : Tree → Option Tree} {write : α → Option Tree}
    (h : ∀ t v, reads t v → t.DistinctKeys → (f.strip t).isNull = false ∧ rewrite (f.strip t) = write v)
    {o : Option α} (ho : Optional reads name entries o) :
    rewritten name rewrite (stripped fields unsupported entries) = optionalEntry name (o.bind write) := by
  rw [rewritten_eq (stripped_keys hd.1), lookup_stripped hname hsup]
  cases o with
  | none =>
    rcases ho with ho | ho
    · rw [ho]
      rfl
    · rw [ho, Option.map_some, hf]
      cases f <;> rw [Format.strip] <;> rfl
  | some v =>
    obtain ⟨t, hl, hr⟩ := ho
    obtain ⟨hnull, hw⟩ := h t v hr (hd.lookup hl)
    simp [hl, hf, hnull, hw]

theorem rewritten_kept (hd : Distinct entries) (hname : name ∈ fields.names) (hsup : name ∉ unsupported)
    (hf : ∀ t, fields.stripField (.scalar name) t = f.strip t) {rewrite : Tree → Option Tree} {tree : α → Tree}
    (h : ∀ t v, reads t v → t.DistinctKeys → (f.strip t).isNull = false ∧ rewrite (f.strip t) = some (tree v))
    {o : Option α} (ho : Optional reads name entries o) :
    rewritten name rewrite (stripped fields unsupported entries) = optionalEntry name (o.map tree) := by
  rw [rewritten_optional f hd hname hsup hf h ho, Option.map_eq_bind]
  rfl

/-- A list of a section, its items rewritten after stripping. -/
theorem rewritten_listed (kind : WireKind) (hd : Distinct entries) (hname : name ∈ fields.names)
    (hsup : name ∉ unsupported) (hf : ∀ t, fields.stripField (.scalar name) t = (Format.list kind f).strip t)
    {item : Tree → Tree} {tree : α → Tree} (h : ∀ t v, reads t v → t.DistinctKeys → item (f.strip t) = tree v)
    {l : List α} (hl : Listed reads name entries l) :
    rewritten name (normalItems item) (stripped fields unsupported entries) =
      optionalEntry name (listTree (l.map tree)) := by
  rw [rewritten_eq (stripped_keys hd.1), lookup_stripped hname hsup]
  rcases hl with ⟨habsent, rfl⟩ | ⟨items, hitems, hreads⟩
  · rcases habsent with ho | ho
    · rw [ho]
      rfl
    · rw [ho, Option.map_some, hf, Format.strip]
      rfl
  · have hdist := (hd.lookup hitems).items
    rw [hitems, Option.map_some, hf, strip_list]
    show optionalEntry name (listTree ((items.map f.strip).map item)) = _
    have hmap : (items.map f.strip).map item = l.map tree := by
      clear hitems
      induction hreads with
      | nil => rfl
      | cons ht _ ih =>
        rw [List.map_cons, List.map_cons, List.map_cons, h _ _ ht (hdist _ List.mem_cons_self),
          ih fun t ht => hdist t (List.mem_cons_of_mem _ ht)]
    rw [hmap]

end Described

/-- A scalar field, after stripping. -/
theorem respelled_parsed {kind : WireKind} {parse : String → Option α} (write : α → Option Tree) (t : Tree) (v : α)
    (h : Parses parse t v) (_ : t.DistinctKeys) :
    ((Format.leaf kind).strip t).isNull = false ∧ respelled parse write ((Format.leaf kind).strip t) = write v := by
  obtain ⟨text, rfl, hv⟩ := h
  rw [Format.strip]
  simp [respelled, Tree.text?, Tree.isNull, hv]

theorem string_kept {kind : WireKind} (t : Tree) (v : String) (h : IsText t v) (_ : t.DistinctKeys) :
    ((Format.leaf kind).strip t).isNull = false ∧ some ((Format.leaf kind).strip t) = some (.scalar v) := by
  obtain ⟨text, rfl, hv⟩ := h
  obtain rfl := Option.some.inj hv
  rw [Format.strip]
  exact ⟨rfl, rfl⟩

theorem explicit_default {tree : α → Tree} {name : String} {o : Option α} {out v : α} (h : o.getD out = v) :
    explicit name (tree out) (optionalEntry name (o.bind fun v => some (tree v))) =
      optionalEntry name (some (tree v)) := by
  cases o with
  | none => exact h ▸ rfl
  | some w => exact (show w = v from h) ▸ rfl

theorem dropped_default {write : α → Option Tree} {out v : α} (hout : write out = none) {o : Option α}
    (h : o.getD out = v) : o.bind write = write v := by
  cases o with
  | none => exact h ▸ hout.symm
  | some w => exact (show w = v from h) ▸ rfl

/-! ## Sections -/

/-- An integer field. -/
theorem int_kept {kind : WireKind} (t : Tree) (v : Int32) (h : IsInt t v) (hd : t.DistinctKeys) :
    ((Format.leaf kind).strip t).isNull = false ∧ normalInt ((Format.leaf kind).strip t) = some (intTree v) :=
  respelled_parsed _ t v h hd

theorem taskParam_normal (t : Tree) (task : TaskParam) (h : IsTaskParam t task) (hd : t.DistinctKeys) :
    normalTaskParam (taskParamFormat.strip t) = taskParamTree task := by
  obtain ⟨entries, rfl, hc, hdeadline, hn⟩ := h
  have hd : Distinct entries := hd.entries
  have hc : Optional IsInt "c" entries (some task.c) := hc
  have hdeadline : Optional IsInt "d" entries (some task.d) := hdeadline
  rw [taskParamFormat, strip_record, normalTaskParam,
    rewritten_kept (.leaf .int) hd (by decide) (by decide) (fun _ => rfl) int_kept hc,
    rewritten_kept (.leaf .int) hd (by decide) (by decide) (fun _ => rfl) int_kept hdeadline,
    rewritten_kept (.leaf .string) hd (by decide) (by decide) (fun _ => rfl) string_kept hn,
    others_stripped entries (by decide)]
  simp only [taskParamTree, written_cons, written_nil, List.append_nil, List.append_assoc, Option.map_some]

theorem system_normal (t : Tree) (system : System) (h : IsSystem t system) (hd : t.DistinctKeys) :
    (systemFormat.strip t).isNull = false ∧
      normalSystem (systemFormat.strip t) = if system.empty then none else some (systemTree system) := by
  obtain ⟨entries, rfl, hdescription, hm, htasks⟩ := h
  have hd : Distinct entries := hd.entries
  rw [systemFormat, strip_record, normalSystem,
    rewritten_kept (.leaf .string) hd (by decide) (by decide) (fun _ => rfl) string_kept hdescription,
    rewritten_kept (.leaf .int) hd (by decide) (by decide) (fun _ => rfl) int_kept hm,
    rewritten_listed taskParamFormat .sequence hd (by decide) (by decide) (fun _ => rfl) taskParam_normal htasks,
    others_stripped entries (by decide)]
  refine ⟨rfl, ?_⟩
  obtain ⟨description, m, tasks⟩ := system
  simp only [systemTree, written_cons, written_nil, List.append_nil, List.append_assoc]
  cases description <;> cases m <;> cases tasks <;> simp [optionalEntry, listTree, System.empty]

theorem release_kept {kind : WireKind} (t : Tree) (v : Release) (h : IsRelease t v) (hd : t.DistinctKeys) :
    ((Format.leaf kind).strip t).isNull = false ∧
      normalRelease ((Format.leaf kind).strip t) = if v = .none then none else some (.scalar v.toString) :=
  respelled_parsed _ t v h hd

theorem flag_kept {kind : WireKind} (t : Tree) (v : Bool) (h : IsBool t v) (hd : t.DistinctKeys) :
    ((Format.leaf kind).strip t).isNull = false ∧
      normalFlag ((Format.leaf kind).strip t) = if v then some (.scalar "true") else none :=
  respelled_parsed _ t v h hd

theorem taskState_normal (t : Tree) (task : TaskState) (h : IsTaskState t task) (hd : t.DistinctKeys) :
    normalTaskState (taskStateFormat.strip t) = taskStateTree task := by
  obtain ⟨entries, rfl, ⟨oc, hc, vc⟩, ⟨od, hdeadline, vd⟩, ⟨orelease, hrelease, vrelease⟩⟩ := h
  have hd : Distinct entries := hd.entries
  rw [taskStateFormat, strip_record, normalTaskState,
    rewritten_optional (.leaf .int) hd (by decide) (by decide) (fun _ => rfl) int_kept hc,
    rewritten_optional (.leaf .int) hd (by decide) (by decide) (fun _ => rfl) int_kept hdeadline,
    rewritten_optional (.leaf .release) hd (by decide) (by decide) (fun _ => rfl) release_kept hrelease,
    others_stripped entries (by decide), explicit_default vc, explicit_default vd, dropped_default rfl vrelease]
  simp only [taskStateTree, written_cons, written_nil, List.append_nil, List.append_assoc]

theorem text_normal (t : Tree) (v : String) (h : IsText t v) (_ : t.DistinctKeys) :
    id ((Format.leaf WireKind.string).strip t) = Tree.scalar v := by
  obtain ⟨text, rfl, hv⟩ := h
  obtain rfl := Option.some.inj hv
  rw [Format.strip]
  rfl

theorem targetsOf_lists (id : String) (children loopback : List String) :
    let edges := children.map (⟨id, ·, .transition⟩) ++ loopback.map (⟨id, ·, .loopback⟩)
    targetsOf .transition edges = children ∧ targetsOf .loopback edges = loopback := by
  simp [targetsOf, List.filter_map, Function.comp_def]

theorem merged_flags (initial isInitial : Bool) :
    ((optionalEntry "initial" (if initial then some (.scalar "true") else none) ++
        optionalEntry "isInitial" (if isInitial then some (.scalar "true") else none)).take 1).map
          (fun entry => (Tree.scalar "initial", entry.2)) =
      optionalEntry "initial" (if initial || isInitial then some (.scalar "true") else none) := by
  cases initial <;> cases isInitial <;> rfl

theorem node_normal (t : Tree) (described : Node × List Edge) (h : IsNode t described) (hd : t.DistinctKeys) :
    normalNode (nodeFormat.strip t) = nodeTree described.1 described.2 := by
  obtain ⟨entries, rfl, hid, ⟨initial, isInitial, ⟨oinitial, hinitial, vinitial⟩, ⟨olegacy, hlegacy, vlegacy⟩, hor⟩,
    hlabel, hborder, hfill, htasks, children, loopback, hchildren, hloopback, hedges⟩ := h
  have hd : Distinct entries := hd.entries
  have hid : Optional IsText "id" entries (some described.1.id) := hid
  obtain ⟨htransitions, hloopbacks⟩ := targetsOf_lists described.1.id children loopback
  rw [nodeFormat, strip_record, normalNode, normalInitial,
    rewritten_kept (.leaf .string) hd (by decide) (by decide) (fun _ => rfl) string_kept hid,
    rewritten_optional (.leaf .bool) hd (by decide) (by decide) (fun _ => rfl) flag_kept hinitial,
    rewritten_optional (.leaf .bool) hd (by decide) (by decide) (fun _ => rfl) flag_kept hlegacy,
    rewritten_kept (.leaf .string) hd (by decide) (by decide) (fun _ => rfl) string_kept hlabel,
    rewritten_kept (.leaf .string) hd (by decide) (by decide) (fun _ => rfl) string_kept hborder,
    rewritten_kept (.leaf .string) hd (by decide) (by decide) (fun _ => rfl) string_kept hfill,
    rewritten_listed taskStateFormat .sequence hd (by decide) (by decide) (fun _ => rfl) taskState_normal htasks,
    rewritten_listed (.leaf .string) .targets hd (by decide) (by decide) (fun _ => rfl) text_normal hchildren,
    rewritten_listed (.leaf .string) .targets hd (by decide) (by decide) (fun _ => rfl) text_normal hloopback,
    others_stripped entries (by decide), dropped_default rfl vinitial, dropped_default rfl vlegacy, merged_flags, hor]
  rw [← hedges] at htransitions hloopbacks
  simp only [nodeTree, htransitions, hloopbacks, written_cons, written_nil, List.append_nil, List.append_assoc,
    Option.map_some]

theorem isNode_source {t : Tree} {described : Node × List Edge} (h : IsNode t described) :
    ∀ edge ∈ described.2, edge.source = described.1.id := by
  obtain ⟨entries, -, -, -, -, -, -, -, children, loopback, -, -, hedges⟩ := h
  intro edge he
  rw [hedges, List.mem_append, List.mem_map, List.mem_map] at he
  rcases he with ⟨_, _, rfl⟩ | ⟨_, _, rfl⟩ <;> rfl

/-- The nodes a document describes are those of the graph made of its parts. -/
theorem described_eq (system : System) {described : List (Node × List Edge)} {entries : List Entry}
    (h : Listed IsNode "nodes" entries described)
    (hs : Sound (described.map Prod.fst) (described.flatMap Prod.snd)) :
    described = (described.map Prod.fst).map fun node =>
      (node, (indexed system (described.map Prod.fst) (described.flatMap Prod.snd)).outEdges node.id) := by
  have hsource : ∀ d ∈ described, ∀ edge ∈ d.2, edge.source = d.1.id := by
    intro d hd
    rcases h with ⟨-, rfl⟩ | ⟨items, -, hall⟩
    · cases hd
    · clear hs
      induction hall with
      | nil => cases hd
      | cons ht _ ih =>
        rcases List.mem_cons.mp hd with rfl | hd
        · exact isNode_source ht
        · exact ih hd
  have hids : (described.map fun d => d.1.id).Nodup := by
    have := hs.idsDistinct
    rwa [ids, List.map_map] at this
  rw [List.map_map]
  conv_lhs => rw [← List.map_id described]
  refine List.map_congr_left fun d hd => Prod.ext rfl ?_
  show d.2 = (indexed system _ _).outEdges d.1.id
  rw [outEdges_indexed hs]
  have hown : bucket Edge.source (described.flatMap Prod.snd) d.1.id = d.2 := bucket_flatMap hids hsource hd
  exact hown.symm

/-- A document, stripped, has the document of the graph it describes as its normal form. -/
theorem document_normal {doc : Tree} (hd : doc.DistinctKeys) {system : System} {nodes : List Node} {edges : List Edge}
    (h : IsDocument doc system nodes edges) (hw : WellFormed system nodes edges) :
    normalForm (documentFormat.strip doc) = graphTree (indexed system nodes edges) := by
  obtain ⟨entries, rfl, hversion, hsystem, described, hnodes, rfl, rfl⟩ := h
  have hd : Distinct entries := hd.entries
  have hne : described ≠ [] := fun e => hw.nonempty (by rw [e]; rfl)
  obtain ⟨oversion, hversion, vversion⟩ :
      ∃ o, Optional IsInt "schemaVersion" entries o ∧ o.getD kSchemaVersion = 1 := by
    rcases hversion with h | h
    · exact ⟨none, h, rfl⟩
    · exact ⟨some 1, h, rfl⟩
  obtain ⟨osystem, hsystem, vsystem⟩ : ∃ o, Optional IsSystem "system" entries o ∧ o.getD {} = system := by
    rcases hsystem with ⟨h, he⟩ | h
    · exact ⟨none, h, he.symm⟩
    · exact ⟨some system, h, rfl⟩
  have hlist : listTree (described.map fun d => nodeTree d.1 d.2) =
      some (.sequence (described.map fun d => nodeTree d.1 d.2)) := by
    cases described with
    | nil => exact absurd rfl hne
    | cons d described => rfl
  have hout : (described.map Prod.fst).map (fun node => nodeTree node
      ((indexed system (described.map Prod.fst) (described.flatMap Prod.snd)).outEdges node.id)) =
        described.map fun d => nodeTree d.1 d.2 := by
    conv_rhs => rw [described_eq system hnodes hw.sound]
    rw [List.map_map, List.map_map, List.map_map]
    rfl
  rw [documentFormat, strip_record, normalForm,
    rewritten_optional (.leaf .version) hd (by decide) (by decide) (fun _ => rfl) int_kept hversion,
    rewritten_optional systemFormat hd (by decide) (by decide) (fun _ => rfl) system_normal hsystem,
    rewritten_listed nodeFormat .sequence hd (by decide) (by decide) (fun _ => rfl) node_normal hnodes,
    others_stripped entries (by decide), explicit_default vversion, dropped_default rfl vsystem, hlist]
  simp only [graphTree, indexed_system, indexed_nodes, hout, written_cons, written_nil, List.append_nil,
    List.append_assoc]
  rfl

/-! ## Loaded documents -/

/-- A load warns about each stray entry of the document, in reading order, and about nothing else;
    the graph is saved as the normal form of the document without these entries, and of the whole
    document when there is none. -/
theorem load_save_normal {doc : Tree} (hd : doc.DistinctKeys) {g : Graph} {warnings warnings' : Option Diagnostics}
    (h : loadDocument (.valid doc) warnings = .ok (.ok g, warnings')) :
    warnings' = warnings.map (· ++ (documentFormat.strays accepts .root doc).map strayDiag) ∧
      (∃ events, saveEvents g = .ok events ∧ build events = some (normalForm (documentFormat.strip doc))) ∧
      (documentFormat.strays accepts .root doc = [] →
        ∃ events, saveEvents g = .ok events ∧ build events = some (normalForm doc)) := by
  obtain ⟨hc, hw, rfl, hwarn⟩ := (load_ok_iff doc warnings warnings' g).mp h
  have hi : WellFormed (documentSystem doc) (nodesOf doc)
      (indexed (documentSystem doc) (nodesOf doc) (edgesOf doc)).edges := hw.of_mem fun e he => mem_indexed_edges.mp he
  have hsave : ∃ events, saveEvents (indexed (documentSystem doc) (nodesOf doc) (edgesOf doc)) = .ok events ∧
      build events = some (normalForm (documentFormat.strip doc)) := by
    refine ⟨_, saveEvents_ok_iff.mpr ⟨hi, rfl⟩, ?_⟩
    rw [emitGraph_build, document_normal hd ((isDocument_iff _ _ _ _).mpr ⟨hc, rfl, rfl, rfl⟩) hw]
  refine ⟨hwarn, hsave, fun hstrays => ?_⟩
  rwa [documentFormat.strip_eq_self hstrays hd] at hsave

theorem load_save_normal_extra :
    ∃ g warnings', loadDocument (.valid (.mapping [(.scalar "areas", .null), (.scalar "nodes", .sequence
        [.mapping [(.scalar "isInitial", .scalar "on"), (.scalar "colour", .null), (.scalar "id", .scalar "a")]])]))
          (some []) = .ok (.ok g, warnings') ∧
      ∃ events, saveEvents g = .ok events ∧
        build events = some (normalForm (documentFormat.strip (.mapping
          [(.scalar "areas", .null), (.scalar "nodes", .sequence
            [.mapping [(.scalar "isInitial", .scalar "on"), (.scalar "colour", .null),
              (.scalar "id", .scalar "a")]])]))) := by
  obtain ⟨g, warnings', h⟩ : ∃ g warnings', loadDocument (.valid (.mapping [(.scalar "areas", .null),
    (.scalar "nodes", .sequence [.mapping [(.scalar "isInitial", .scalar "on"), (.scalar "colour", .null),
      (.scalar "id", .scalar "a")]])])) (some []) = .ok (.ok g, warnings') := ⟨_, _, rfl⟩
  refine ⟨g, warnings', h, (load_save_normal ?_ h).2.1⟩
  have hnode : (Tree.mapping [(.scalar "isInitial", .scalar "on"), (.scalar "colour", .null),
      (.scalar "id", .scalar "a")]).DistinctKeys :=
    .mapping (by simp) (by simp [Tree.DistinctKeys.scalar]) (by simp [Tree.DistinctKeys.scalar, Tree.DistinctKeys.null])
  have hnodes : (Tree.sequence [.mapping [(.scalar "isInitial", .scalar "on"), (.scalar "colour", .null),
      (.scalar "id", .scalar "a")]]).DistinctKeys := .sequence (by simpa using hnode)
  exact .mapping (by simp) (by simp [Tree.DistinctKeys.scalar]) (by simp [hnodes, Tree.DistinctKeys.null])

end Stgx
