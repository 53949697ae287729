/-
  Stgx.LoadProofs — what each reader returns and reports (see `Stgx.Load`, `Stgx.Wire`).

  `ReadsAs f p t m v`: reading `t` at `p` by `m` throws when a required field of the
  format `f` is missing, otherwise it returns the meaning `v` and reports the issues of
  `t`, in order. Each reader has its `_reads` lemma, put together along its body; a whole
  load is `loadDocument_mapping`, `loadDocument_throws` and `loadDocument_other`.
-/

import Stgx.GraphProofs
import Stgx.Wire

namespace Stgx

open Stgx.Lib.Collect (Reads loopM)
open Stgx.Lib.Doc
open Stgx.Lib.Loop (loop loop_append loop_append_pair indexed indexed_const indexed_map indexed_eq_nil)

def ReadsAs {α : Type} (f : Format WireKind) (p : Path) (t : Tree) (m : Load α) (v : α) : Prop :=
  Reads m (f.missing p t = []) v ((f.issues accepts p t).map issueDiag)

/-! ## Queries of a valid node -/

section Queries

variable {α : Type}

theorem lift_ok (v : α) : (liftM (Except.ok v : Except YamlException α) : Load α) = pure v := rfl

theorem isScalar_valid (t : Tree) : (NodeRef.valid t).isScalar = .ok t.text?.isSome := rfl

theorem isSequence_valid (t : Tree) : (NodeRef.valid t).isSequence = .ok t.items?.isSome := rfl

theorem isMap_valid (t : Tree) : (NodeRef.valid t).isMap = .ok t.entries?.isSome := rfl

theorem scalar_valid (t : Tree) : (NodeRef.valid t).scalar = .ok (t.text?.getD "") := rfl

theorem items_valid (t : Tree) : (NodeRef.valid t).items = .ok (t.items?.getD []) := rfl

theorem entries_mapping (entries : List Entry) : (NodeRef.valid (.mapping entries)).entries = .ok entries := rfl

/-- The node under a key of a map. -/
def fieldRef (name : String) (entries : List Entry) : NodeRef :=
  match lookup name entries with
  | some t => .valid t
  | none => .invalid name

theorem get_mapping (name : String) (entries : List Entry) :
    (NodeRef.valid (.mapping entries)).get name = .ok (fieldRef name entries) := by
  unfold fieldRef
  show (match lookup name entries with | some t => Except.ok (NodeRef.valid t) | none => _) = _
  cases lookup name entries <;> rfl

theorem isAbsent_valid (t : Tree) : isAbsent (.valid t) = pure t.isNull := rfl

end Queries

theorem render_field' (p : Path) (name : String) : (p.field name).render = fieldPath p.render name := rfl

theorem render_index' (p : Path) (i : Nat) : (p.index i).render = indexPath p.render i := rfl

/-! ## Scalars -/

theorem leaf_missing (kind : WireKind) (p : Path) (t : Tree) : (Format.leaf kind).missing p t = [] := by
  rw [Format.missing]

theorem leaf_reads {α : Type} {kind : WireKind} {p : Path} {t : Tree} {m : Load α} {v : α}
    (h : Reads m True v (((Format.leaf kind).issues accepts p t).map issueDiag)) :
    ReadsAs (.leaf kind) p t m v :=
  h.congr (by simp [leaf_missing]) rfl rfl

theorem readString_reads (p : Path) (t : Tree) :
    ReadsAs (.leaf .string) p t (readString (.valid t) p.render) t.text? := by
  refine leaf_reads ?_
  unfold readString
  simp only [isScalar_valid, scalar_valid, lift_ok, pure_bind, Format.issues, accepts, if_true]
  cases h : t.text? with
  | none => exact (Reads.report _ none).congr Iff.rfl rfl (by simp [issueDiag, siteDiag])
  | some text => exact (Reads.pure (some text)).congr Iff.rfl rfl rfl

theorem readInt_reads (p : Path) (t : Tree) :
    ReadsAs (.leaf .int) p t (readInt (.valid t) p.render) (t.text?.bind parseInt) := by
  refine leaf_reads ?_
  unfold readInt
  simp only [isScalar_valid, scalar_valid, lift_ok, pure_bind, Format.issues]
  cases h : t.text? with
  | none => exact (Reads.report _ none).congr Iff.rfl rfl (by simp [issueDiag, siteDiag, h])
  | some text =>
    simp only [Option.isSome_some, Bool.not_true, Bool.false_eq_true, if_false, Option.getD_some, Option.bind_some]
    split
    · rename_i hv
      exact (Reads.report _ none).congr Iff.rfl hv (by simp [accepts, issueDiag, siteDiag, notAnInt, h, hv])
    · rename_i value hv
      exact (Reads.pure (some value)).congr Iff.rfl hv (by simp [accepts, hv])

theorem readBool_reads (p : Path) (t : Tree) :
    ReadsAs (.leaf .bool) p t (readBool (.valid t) p.render) (t.text?.bind parseBool) := by
  refine leaf_reads ?_
  unfold readBool
  simp only [isScalar_valid, scalar_valid, lift_ok, pure_bind, Format.issues]
  cases h : t.text? with
  | none => exact (Reads.report _ none).congr Iff.rfl rfl (by simp [issueDiag, siteDiag])
  | some text =>
    simp only [Option.isSome_some, if_true, pure_bind, Option.getD_some, Option.bind_some]
    split
    · rename_i value hv
      exact (Reads.pure (some value)).congr Iff.rfl hv (by simp [accepts, hv])
    · rename_i hv
      exact (Reads.report _ none).congr Iff.rfl hv (by simp [accepts, issueDiag, siteDiag, hv])

theorem readRelease_reads (p : Path) (t : Tree) :
    ReadsAs (.leaf .release) p t (readRelease (.valid t) p.render) (t.text?.bind parseRelease) := by
  refine leaf_reads ?_
  unfold readRelease
  simp only [isScalar_valid, scalar_valid, lift_ok, pure_bind, Format.issues]
  cases h : t.text? with
  | none => exact (Reads.report _ none).congr Iff.rfl rfl (by simp [issueDiag, siteDiag, h])
  | some text =>
    simp only [Option.isSome_some, if_true, Option.getD_some, Option.bind_some]
    split
    · rename_i value hv
      exact (Reads.pure (some value)).congr Iff.rfl hv (by simp [accepts, hv])
    · rename_i hv
      exact (Reads.report _ none).congr Iff.rfl hv (by simp [accepts, issueDiag, siteDiag, h, hv])

/-! ## Keys -/

theorem checkKey_reads (p : Path) {known names : List String} (unsupported : List String)
    (hknown : ∀ name, known.contains name = names.contains name) (key : Tree) :
    Reads (checkKey p.render known unsupported key) True ()
      ((strayOf p names unsupported key).toList.map strayDiag) := by
  unfold checkKey strayOf
  cases h : key.text? with
  | none => exact (Reads.add _).congr Iff.rfl rfl (by simp [strayDiag, h])
  | some name =>
    simp only [hknown]
    split
    · exact (Reads.add _).congr Iff.rfl rfl (by simp [strayDiag, h])
    · cases hk : names.contains name with
      | true => exact (Reads.pure ()).congr Iff.rfl rfl rfl
      | false => exact (Reads.add _).congr Iff.rfl rfl (by simp [strayDiag, h])

theorem checkKeys_reads (p : Path) (known : List String) {names : List String} (unsupported : List String)
    (hknown : ∀ name, known.contains name = names.contains name) (entries : List Entry) :
    Reads (checkKeys (.valid (.mapping entries)) p.render known unsupported) True ()
      ((entries.filterMap fun entry => (strayOf p names unsupported entry.1).map Issue.stray).map issueDiag) := by
  unfold checkKeys
  simp only [entries_mapping, lift_ok, pure_bind]
  refine (Reads.loop (fun entry _ _ _ => checkKey_reads p unsupported hknown entry.1) 0 ()).congr (by simp) rfl ?_
  rw [indexed_const]
  induction entries with
  | nil => rfl
  | cons entry entries ih =>
    rw [List.flatMap_cons, ← ih, List.filterMap_cons]
    cases strayOf p names unsupported entry.1 <;> rfl

/-! ## Fields -/

theorem missing_null (f : Format WireKind) (p : Path) : f.missing p .null = [] := by
  cases f <;> rw [Format.missing] <;> rfl

variable {α : Type}

/-- Whether what a field holds lacks a required field. -/
def fieldMissing (f : Format WireKind) (p : Path) (name : String) (required : Bool) (entries : List Entry) :
    List Path :=
  match lookup name entries with
  | some t => f.missing (p.field name) t
  | none => if required then [p.field name] else []

def fieldIssues (f : Format WireKind) (p : Path) (name : String) (required : Bool) (entries : List Entry) :
    List (Issue WireKind) :=
  match present required (lookup name entries) with
  | some t => f.issues accepts (p.field name) t
  | none => []

/-- An optional field: absent and null give the default. -/
theorem readField_reads {f : Format WireKind} (p : Path) (name : String) (entries : List Entry) (value : α)
    {read : NodeRef → String → Load α} {val : Tree → α} (hnull : val .null = value)
    (h : ∀ t, ReadsAs f (p.field name) t (read (.valid t) (p.field name).render) (val t)) :
    Reads (readField (.valid (.mapping entries)) p.render name value read)
      (fieldMissing f p name false entries = []) (((lookup name entries).map val).getD value)
      ((fieldIssues f p name false entries).map issueDiag) := by
  unfold readField fieldMissing fieldIssues
  simp only [get_mapping, lift_ok, pure_bind, fieldRef]
  cases hl : lookup name entries with
  | none => exact (Reads.pure value).congr (by simp) rfl (by simp [present])
  | some t =>
    simp only [isAbsent_valid, pure_bind]
    cases t with
    | null => exact (Reads.pure value).congr (by simp [missing_null]) hnull (by simp [present, Tree.isNull])
    | scalar text => exact (h (.scalar text)).congr Iff.rfl rfl (by simp [present, Tree.isNull])
    | sequence items => exact (h (.sequence items)).congr Iff.rfl rfl (by simp [present, Tree.isNull])
    | mapping entries => exact (h (.mapping entries)).congr Iff.rfl rfl (by simp [present, Tree.isNull])

/-- A required scalar field: its reader asks the node at once, so an absent key throws. -/
theorem readRequired_reads {f : Format WireKind} (p : Path) (name : String) (entries : List Entry) (out : α)
    {read : NodeRef → String → Load (Option α)} {val : Tree → Option α}
    (hinvalid : ∀ key path s, ∃ e, read (.invalid key) path s = .error e)
    (h : ∀ t, ReadsAs f (p.field name) t (read (.valid t) (p.field name).render) (val t)) :
    Reads (readOr out read (fieldRef name entries) (fieldPath p.render name))
      (fieldMissing f p name true entries = []) (((lookup name entries).bind val).getD out)
      ((fieldIssues f p name true entries).map issueDiag) := by
  unfold readOr fieldMissing fieldIssues fieldRef
  cases hl : lookup name entries with
  | none =>
    refine ⟨fun h => by simp at h, fun _ s => ?_⟩
    obtain ⟨e, he⟩ := hinvalid name (fieldPath p.render name) s
    refine ⟨e, ?_⟩
    show (read (.invalid name) (fieldPath p.render name) s).bind _ = _
    rw [he]
    rfl
  | some t =>
    exact ((h t).bind (Reads.pure ((val t).getD out))).congr (by simp) rfl (by simp [present])

theorem readInt_invalid (key path : String) (s : Diagnostics) : ∃ e, readInt (.invalid key) path s = .error e :=
  ⟨.invalidNode key, rfl⟩

theorem readString_invalid (key path : String) (s : Diagnostics) : ∃ e, readString (.invalid key) path s = .error e :=
  ⟨.invalidNode key, rfl⟩

/-- `readOr` over a reader of a present value. -/
theorem readOr_reads {f : Format WireKind} {p : Path} {t : Tree} {read : NodeRef → String → Load (Option α)}
    {val : Option α} (out : α) (h : ReadsAs f p t (read (.valid t) p.render) val) :
    ReadsAs f p t (readOr out read (.valid t) p.render) (val.getD out) :=
  (h.bind (Reads.pure (val.getD out))).congr (by simp) rfl (by simp)

theorem readItems_reads {f : Format WireKind} {p : Path} {t : Tree} {read : NodeRef → String → Load α}
    {val : Tree → α} (h : ∀ i t, ReadsAs f (p.index i) t (read (.valid t) (p.index i).render) (val t)) :
    ReadsAs (.list .sequence f) p t (readItems read (.valid t) p.render) ((t.items?.getD []).map val) := by
  unfold readItems ReadsAs
  simp only [isSequence_valid, items_valid, lift_ok, pure_bind, Format.missing, Format.issues]
  cases hi : t.items? with
  | none => exact (Reads.report _ []).congr (by simp) rfl (by simp [issueDiag, siteDiag])
  | some items =>
    simp only [Option.isSome_some, Bool.not_true, Bool.false_eq_true, if_false, Option.getD_some]
    have hstep : ∀ item ∈ items, ∀ (values : List α) (i : Nat),
        Reads (do return values ++ [← read (.valid item) (indexPath p.render i)])
          (f.missing (p.index i) item = []) (values ++ [val item])
          ((f.issues accepts (p.index i) item).map issueDiag) :=
      fun item _ values i => ((h i item).bind (Reads.pure (values ++ [val item]))).congr (by simp) rfl (by simp)
    exact (Reads.loop hstep 0 []).congr indexed_eq_nil (by simp [loop_append, List.map_eq_flatMap]) (indexed_map ..)

/-! ## Sections -/

/-- The issues of a record: its strays, then its fields. -/
theorem record_issues (kind : WireKind) (fields : Fields WireKind) (unsupported : List String) (p : Path)
    (entries : List Entry) :
    (Format.record kind fields unsupported).issues accepts p (.mapping entries) =
      (entries.filterMap fun entry => (strayOf p fields.names unsupported entry.1).map .stray) ++
        fields.issues accepts p entries := by
  rw [Format.issues]
  rfl

theorem record_missing (kind : WireKind) (fields : Fields WireKind) (unsupported : List String) (p : Path)
    (entries : List Entry) :
    (Format.record kind fields unsupported).missing p (.mapping entries) = fields.missing p entries := by
  rw [Format.missing]
  rfl

/-- A section that is no map is reported at once. -/
theorem section_report {kind : WireKind} {fields : Fields WireKind} {unsupported : List String} {p : Path} {t : Tree}
    (h : t.entries? = none) (out : α) {d : Diagnostic} (hd : d = siteDiag ⟨p, kind, t⟩) :
    ReadsAs (.record kind fields unsupported) p t (do Lib.Collect.add d; return out) out := by
  subst hd
  exact (Reads.report _ out).congr (by simp [Format.missing, h]) rfl (by simp [Format.issues, h, issueDiag])

/-! What a field's reader returns is the field's meaning. -/

theorem text_value (name : String) (entries : List Entry) :
    ((lookup name entries).map Tree.text?).getD none = textField name entries := by
  unfold textField
  cases lookup name entries <;> rfl

theorem required_value (parse : String → Option α) (name : String) (entries : List Entry) :
    ((lookup name entries).bind fun t => t.text?.bind parse) = parsedField parse name entries := by
  unfold parsedField textField
  cases lookup name entries <;> rfl

theorem parsed_value (parse : String → Option α) (name : String) (entries : List Entry) :
    ((lookup name entries).map fun t => t.text?.bind parse).getD none = parsedField parse name entries := by
  unfold parsedField textField
  cases lookup name entries <;> rfl

theorem parsedOr_value (parse : String → Option α) (out : α) (name : String) (entries : List Entry) :
    ((lookup name entries).map fun t => (t.text?.bind parse).getD out).getD out =
      (parsedField parse name entries).getD out := by
  unfold parsedField textField
  cases lookup name entries <;> rfl

theorem items_value (val : Tree → α) (name : String) (entries : List Entry) :
    ((lookup name entries).map fun t => (t.items?.getD []).map val).getD [] = (itemsField name entries).map val := by
  unfold itemsField
  cases lookup name entries <;> rfl

theorem readTaskParam_reads (p : Path) (t : Tree) :
    ReadsAs taskParamFormat p t (readTaskParam (.valid t) p.render) (taskParamOf t) := by
  unfold readTaskParam
  simp only [isMap_valid, lift_ok, pure_bind]
  cases he : t.entries? with
  | none =>
    have hv : taskParamOf t = {} := by simp [taskParamOf, entriesOf, he, parsedField, textField, lookup]
    rw [hv]
    exact section_report he _ rfl
  | some entries =>
    obtain rfl := Tree.entries_eq_some.mp he
    simp only [Option.isSome_some, Bool.not_true, Bool.false_eq_true, if_false, get_mapping, lift_ok, pure_bind]
    have keys := checkKeys_reads p ["c", "d", "name"] [] (fun _ => rfl) entries
    have c := readRequired_reads p "c" entries 0 readInt_invalid (readInt_reads _)
    have d := readRequired_reads p "d" entries 0 readInt_invalid (readInt_reads _)
    have name := readField_reads p "name" entries none rfl (readString_reads _)
    refine (keys.bind (c.bind (d.bind (name.bind (by exact Reads.pure _))))).congr ?_ ?_ ?_
    · rw [taskParamFormat, record_missing]
      simp only [Fields.missing, List.append_eq_nil_iff, true_and, and_true]
      rfl
    · simp only [required_value, text_value]
      rfl
    · rw [taskParamFormat, record_issues]
      simp only [Fields.issues, Fields.names, List.map_append, List.append_nil]
      rfl

theorem readSystem_reads (p : Path) (t : Tree) :
    ReadsAs systemFormat p t (readSystem (.valid t) p.render) (systemOf t) := by
  unfold readSystem
  simp only [isMap_valid, lift_ok, pure_bind]
  cases he : t.entries? with
  | none =>
    have hv : systemOf t = {} := by simp [systemOf, entriesOf, he, parsedField, textField, itemsField, lookup]
    rw [hv]
    exact section_report he _ rfl
  | some entries =>
    obtain rfl := Tree.entries_eq_some.mp he
    simp only [Option.isSome_some, Bool.not_true, Bool.false_eq_true, if_false]
    have keys := checkKeys_reads p ["description", "m", "tasks"] [] (fun _ => rfl) entries
    have description := readField_reads p "description" entries none rfl (readString_reads _)
    have m := readField_reads p "m" entries none rfl (readInt_reads _)
    have tasks := readField_reads p "tasks" entries [] rfl fun t => readItems_reads fun i => readTaskParam_reads _
    refine (keys.bind (description.bind (m.bind (tasks.bind (by exact Reads.pure _))))).congr ?_ ?_ ?_
    · rw [systemFormat, record_missing]
      simp only [Fields.missing, List.append_eq_nil_iff, true_and, and_true]
      rfl
    · simp only [text_value, parsed_value, items_value]
      rfl
    · rw [systemFormat, record_issues]
      simp only [Fields.issues, Fields.names, List.map_append, List.append_nil]
      rfl

theorem readTaskState_reads (p : Path) (t : Tree) :
    ReadsAs taskStateFormat p t (readTaskState (.valid t) p.render) (taskStateOf t) := by
  unfold readTaskState
  simp only [isMap_valid, lift_ok, pure_bind]
  cases he : t.entries? with
  | none =>
    have hv : taskStateOf t = {} := by simp [taskStateOf, entriesOf, he, parsedField, textField, lookup]
    rw [hv]
    exact section_report he _ rfl
  | some entries =>
    obtain rfl := Tree.entries_eq_some.mp he
    simp only [Option.isSome_some, Bool.not_true, Bool.false_eq_true, if_false]
    have keys := checkKeys_reads p ["c", "d", "release"] [] (fun _ => rfl) entries
    have c := readField_reads p "c" entries 0 rfl fun t => readOr_reads 0 (readInt_reads _ t)
    have d := readField_reads p "d" entries 0 rfl fun t => readOr_reads 0 (readInt_reads _ t)
    have release := readField_reads p "release" entries .none rfl fun t => readOr_reads .none (readRelease_reads _ t)
    refine (keys.bind (c.bind (d.bind (release.bind (by exact Reads.pure _))))).congr ?_ ?_ ?_
    · rw [taskStateFormat, record_missing]
      simp only [Fields.missing, List.append_eq_nil_iff, true_and, and_true]
      rfl
    · simp only [parsedOr_value]
      rfl
    · rw [taskStateFormat, record_issues]
      simp only [Fields.issues, Fields.names, List.map_append, List.append_nil]
      rfl

/-- Adds the edges to the readable targets of an optional list. -/
theorem readTarget_reads (p : Path) (kind : EdgeKind) (source : String) (edges : List Edge) (i : Nat) (item : Tree) :
    Reads (readTarget p.render kind source edges i item) ((Format.leaf WireKind.string).missing (p.index i) item = [])
      (edges ++ item.text?.toList.map fun target => ⟨source, target, kind⟩)
      (((Format.leaf .string).issues accepts (p.index i) item).map issueDiag) := by
  have read := readString_reads (p.index i) item
  rw [render_index'] at read
  cases item with
  | scalar text => exact (read.bind (Reads.pure (edges ++ [⟨source, text, kind⟩]))).congr (by simp) rfl (by simp)
  | null => exact (read.bind (Reads.pure edges)).congr (by simp) (by simp [Tree.text?]) (by simp)
  | sequence items => exact (read.bind (Reads.pure edges)).congr (by simp) (by simp [Tree.text?]) (by simp)
  | mapping entries => exact (read.bind (Reads.pure edges)).congr (by simp) (by simp [Tree.text?]) (by simp)

theorem readTargets_reads (p : Path) (kind : EdgeKind) (source : String) (edges : List Edge) (entries : List Entry) :
    Reads (readTargets (fieldRef (edgeField kind) entries) (fieldPath p.render (edgeField kind)) kind source edges)
      (fieldMissing targetsFormat p (edgeField kind) false entries = [])
      (edges ++ ((itemsField (edgeField kind) entries).filterMap Tree.text?).map fun target => ⟨source, target, kind⟩)
      ((fieldIssues targetsFormat p (edgeField kind) false entries).map issueDiag) := by
  rw [← render_field']
  generalize edgeField kind = name
  unfold readTargets fieldMissing fieldIssues itemsField fieldRef
  cases hl : lookup name entries with
  | none => exact (Reads.pure edges).congr (by simp) (by simp) (by simp [present])
  | some t =>
    simp only [isAbsent_valid, pure_bind, isSequence_valid, items_valid, lift_ok, Option.bind_some]
    cases t with
    | null =>
      exact (Reads.pure edges).congr (by simp [missing_null]) (by simp [Tree.items?]) (by simp [present, Tree.isNull])
    | scalar text =>
      exact (Reads.report _ edges).congr (by simp [targetsFormat, Format.missing, Tree.items?]) (by simp [Tree.items?])
        (by simp [present, Tree.isNull, targetsFormat, Format.issues, Tree.items?, issueDiag, siteDiag])
    | mapping entries =>
      exact (Reads.report _ edges).congr (by simp [targetsFormat, Format.missing, Tree.items?]) (by simp [Tree.items?])
        (by simp [present, Tree.isNull, targetsFormat, Format.issues, Tree.items?, issueDiag, siteDiag])
    | sequence items =>
      refine (Reads.loop (fun item _ edges i => readTarget_reads (p.field name) kind source edges i item) 0 edges).congr
        ?_ ?_ ?_
      · rw [targetsFormat, Format.missing]
        exact indexed_eq_nil
      · rw [loop_append, ← List.map_flatMap, List.filterMap_eq_flatMap_toList, Tree.items?, Option.getD_some]
      · rw [present, targetsFormat]
        simp only [Tree.isNull, Bool.and_false, Bool.false_eq_true, if_false, Format.issues, Tree.items?]
        exact indexed_map ..

theorem readFlag_reads {p : Path} {t : Tree} (initial : Bool) :
    ReadsAs (.leaf .bool) p t (readFlag initial (.valid t) p.render) (initial || (t.text?.bind parseBool).getD false) :=
  ((readBool_reads p t).bind (Reads.pure (initial || (t.text?.bind parseBool).getD false))).congr (by simp) rfl
    (by simp)

theorem flag_value (initial : Bool) (name : String) (entries : List Entry) :
    ((lookup name entries).map fun t => initial || (t.text?.bind parseBool).getD false).getD initial =
      (initial || flagOf name entries) := by
  unfold flagOf parsedField textField
  cases lookup name entries <;> simp

/-- The fields `check_keys` knows are the fields of the section, in another order. -/
theorem node_known (name : String) :
    ["id", "initial", "isInitial", "tasks", "children", "loopback", "label", "borderColor", "fillColor"].contains name =
      ["id", "initial", "isInitial", "label", "borderColor", "fillColor", "tasks", "children", "loopback"].contains
        name := by
  rw [Bool.eq_iff_iff, List.contains_iff_mem, List.contains_iff_mem]
  simp only [List.mem_cons, List.not_mem_nil, or_false]
  tauto

theorem readNode_reads (p : Path) (t : Tree) (edges : List Edge) :
    ReadsAs nodeFormat p t (readNode (.valid t) p.render edges) (nodeOf t, edges ++ edgesFrom t) := by
  unfold readNode
  simp only [isMap_valid, lift_ok, pure_bind]
  cases he : t.entries? with
  | none =>
    have hnode : nodeOf t = {} := by
      simp [nodeOf, entriesOf, he, parsedField, textField, itemsField, flagOf, lookup]
    have hedges : edgesFrom t = [] := by simp [edgesFrom, targetsFrom, entriesOf, he, itemsField, lookup]
    rw [hnode, hedges, List.append_nil]
    exact section_report he _ rfl
  | some entries =>
    obtain rfl := Tree.entries_eq_some.mp he
    simp only [Option.isSome_some, Bool.not_true, Bool.false_eq_true, if_false, get_mapping, lift_ok, pure_bind]
    have keys := checkKeys_reads p
      ["id", "initial", "isInitial", "tasks", "children", "loopback", "label", "borderColor", "fillColor"]
      ["hatch", "metadata"] node_known entries
    have id := readRequired_reads p "id" entries "" readString_invalid (readString_reads _)
    have initial := readField_reads p "initial" entries false rfl fun t => readFlag_reads (t := t) false
    have isInitial := readField_reads p "isInitial" entries (false || flagOf "initial" entries) (Bool.or_false _)
      fun t => readFlag_reads (t := t) (false || flagOf "initial" entries)
    have label := readField_reads p "label" entries none rfl (readString_reads _)
    have borderColor := readField_reads p "borderColor" entries none rfl (readString_reads _)
    have fillColor := readField_reads p "fillColor" entries none rfl (readString_reads _)
    have tasks := readField_reads p "tasks" entries [] rfl fun t => readItems_reads fun i => readTaskState_reads _
    have children := readTargets_reads p .transition ((textField "id" entries).getD "") edges entries
    have loopback := readTargets_reads p .loopback ((textField "id" entries).getD "")
      (edges ++ targetsFrom (.mapping entries) .transition) entries
    rw [flag_value] at initial isInitial
    refine (keys.bind <| id.bind <| initial.bind <| isInitial.bind <| label.bind <| borderColor.bind <|
      fillColor.bind <| tasks.bind <| children.bind <| loopback.bind <| by exact Reads.pure _).congr ?_ ?_ ?_
    · rw [nodeFormat, record_missing]
      simp only [Fields.missing, List.append_eq_nil_iff, true_and, and_true]
      rfl
    · rw [text_value, text_value, text_value, items_value, Bool.false_or, edgesFrom, ← List.append_assoc]
      rfl
    · rw [nodeFormat, record_issues]
      simp only [Fields.issues, Fields.names, List.map_append, List.append_nil]
      rfl

/-! ## Documents -/

/-- Any version but the one this build writes is reported. -/
theorem version_reads (version : Int32) :
    Reads (if version < 1 then
          Load.add .schemaVersion "schemaVersion" ("must be a positive integer, got " ++ toString version.toInt)
        else if kSchemaVersion < version then
          Load.add .schemaVersion "schemaVersion"
            ("document is version " ++ toString version.toInt ++ ", this build reads up to " ++
              toString kSchemaVersion.toInt)
        else return () : Load Unit) True ()
      (if version = kSchemaVersion then [] else [versionDiag "schemaVersion" version]) := by
  by_cases hlow : version < 1
  · have hne : version ≠ kSchemaVersion := fun h => Int32.lt_irrefl (h ▸ hlow)
    rw [if_pos hlow, if_neg hne]
    exact (Reads.add _).congr Iff.rfl rfl (by simp [versionDiag, hlow])
  · by_cases hhigh : kSchemaVersion < version
    · have hne : version ≠ kSchemaVersion := fun h => Int32.lt_irrefl (h ▸ hhigh)
      rw [if_neg hlow, if_pos hhigh, if_neg hne]
      exact (Reads.add _).congr Iff.rfl rfl (by simp [versionDiag, hlow])
    · have heq : version = kSchemaVersion := Int32.le_antisymm (Int32.not_lt.mp hhigh) (Int32.not_lt.mp hlow)
      rw [if_neg hlow, if_neg hhigh, if_pos heq]
      exact Reads.pure ()

theorem readSchemaVersion_reads (entries : List Entry) :
    Reads (readSchemaVersion (fieldRef "schemaVersion" entries))
      (fieldMissing (.leaf .version) .root "schemaVersion" false entries = []) ()
      ((fieldIssues (.leaf .version) .root "schemaVersion" false entries).map issueDiag) := by
  unfold readSchemaVersion fieldMissing fieldIssues fieldRef
  cases hl : lookup "schemaVersion" entries with
  | none => exact (Reads.pure ()).congr (by simp) rfl (by simp [present])
  | some t =>
    simp only [isAbsent_valid, pure_bind]
    have hpath : (Path.root.field "schemaVersion").render = "schemaVersion" := by decide
    cases t with
    | null => exact (Reads.pure ()).congr (by simp [missing_null]) rfl (by simp [present, Tree.isNull])
    | scalar text =>
      have read := readInt_reads (Path.root.field "schemaVersion") (.scalar text)
      have hissues : present false (some (Tree.scalar text)) = some (.scalar text) := rfl
      have hval : (Tree.scalar text).text?.bind parseInt = parseInt text := rfl
      rw [hpath, hval] at read
      rw [hissues]
      cases hv : parseInt text with
      | none =>
        rw [hv] at read
        refine (read.bind (Reads.pure ())).congr (by simp [leaf_missing]) rfl ?_
        simp [Format.issues, Tree.text?, accepts, hv, issueDiag, siteDiag, hpath]
      | some version =>
        rw [hv] at read
        refine (read.bind (version_reads version)).congr (by simp [leaf_missing]) rfl ?_
        by_cases heq : version = kSchemaVersion <;>
          simp [Format.issues, Tree.text?, accepts, hv, heq, issueDiag, siteDiag, hpath]
    | sequence items =>
      exact (Reads.report _ ()).congr (by simp [leaf_missing]) rfl
        (by simp [present, Tree.isNull, Format.issues, Tree.text?, issueDiag, siteDiag, hpath])
    | mapping entries =>
      exact (Reads.report _ ()).congr (by simp [leaf_missing]) rfl
        (by simp [present, Tree.isNull, Format.issues, Tree.text?, issueDiag, siteDiag, hpath])

theorem readNodeItem_reads (s : List Node × List Edge) (i : Nat) (item : Tree) :
    Reads (readNodeItem s i item) (nodeFormat.missing ((Path.root.field "nodes").index i) item = [])
      (s.1 ++ [nodeOf item], s.2 ++ edgesFrom item)
      ((nodeFormat.issues accepts ((Path.root.field "nodes").index i) item).map issueDiag) := by
  have hpath : (Path.root.field "nodes").render = "nodes" := by decide
  have read := readNode_reads ((Path.root.field "nodes").index i) item s.2
  rw [render_index', hpath] at read
  exact (read.bind (Reads.pure (s.1 ++ [nodeOf item], s.2 ++ edgesFrom item))).congr (by simp) rfl (by simp)

theorem readNodes_reads (entries : List Entry) :
    Reads (readNodes (fieldRef "nodes" entries))
      (fieldMissing (.list .sequence nodeFormat) .root "nodes" false entries = [])
      ((itemsField "nodes" entries).map nodeOf, (itemsField "nodes" entries).flatMap edgesFrom)
      ((fieldIssues (.list .sequence nodeFormat) .root "nodes" false entries).map issueDiag) := by
  unfold readNodes fieldMissing fieldIssues itemsField fieldRef
  have hpath : (Path.root.field "nodes").render = "nodes" := by decide
  cases hl : lookup "nodes" entries with
  | none => exact (Reads.pure ([], [])).congr (by simp) (by simp) (by simp [present])
  | some t =>
    simp only [isAbsent_valid, pure_bind, isSequence_valid, items_valid, lift_ok, Option.bind_some]
    cases t with
    | null =>
      exact (Reads.pure ([], [])).congr (by simp [missing_null]) (by simp [Tree.items?])
        (by simp [present, Tree.isNull])
    | scalar text =>
      exact (Reads.report _ ([], [])).congr (by simp [Format.missing, Tree.items?]) (by simp [Tree.items?])
        (by simp [present, Tree.isNull, Format.issues, Tree.items?, issueDiag, siteDiag, hpath])
    | mapping entries =>
      exact (Reads.report _ ([], [])).congr (by simp [Format.missing, Tree.items?]) (by simp [Tree.items?])
        (by simp [present, Tree.isNull, Format.issues, Tree.items?, issueDiag, siteDiag, hpath])
    | sequence items =>
      refine (Reads.loop (fun item _ s i => readNodeItem_reads s i item) 0 ([], [])).congr ?_ ?_ ?_
      · rw [Format.missing]
        exact indexed_eq_nil
      · rw [loop_append_pair]
        simp [List.map_eq_flatMap, Tree.items?]
      · rw [present]
        simp only [Tree.isNull, Bool.and_false, Bool.false_eq_true, if_false, Format.issues, Tree.items?]
        exact indexed_map ..

/-- The sections of a document: what they mean and what is reported. -/
theorem readDocument_reads (entries : List Entry) :
    ReadsAs documentFormat .root (.mapping entries) (readDocument (.valid (.mapping entries)))
      (documentSystem (.mapping entries), nodesOf (.mapping entries), edgesOf (.mapping entries)) := by
  unfold readDocument
  simp only [get_mapping, lift_ok, pure_bind]
  have keys := checkKeys_reads .root ["schemaVersion", "system", "nodes"] ["areas", "layout"] (fun _ => rfl) entries
  have version := readSchemaVersion_reads entries
  have system := readField_reads .root "system" entries {} rfl (readSystem_reads _)
  have nodes := readNodes_reads entries
  refine (keys.bind <| version.bind <| system.bind <| nodes.bind <| by exact Reads.pure _).congr ?_ ?_ ?_
  · rw [documentFormat, record_missing]
    simp only [Fields.missing, List.append_eq_nil_iff, true_and, and_true]
    rfl
  · rfl
  · rw [documentFormat, record_issues]
    simp only [Fields.issues, Fields.names, List.map_append, List.append_nil]
    rfl

/-! ## Loads -/

/-- The field-level errors of a document. -/
def fieldErrors (doc : Tree) : Diagnostics := (documentFormat.sites accepts .root doc).map siteDiag

/-- The warnings of a document. -/
def fieldWarnings (doc : Tree) : Diagnostics := (documentFormat.strays accepts .root doc).map strayDiag

/-- All the errors of a load: the field-level ones, then those of the parts as read. -/
def loadErrors (doc : Tree) : Diagnostics :=
  fieldErrors doc ++ validateGraph (documentSystem doc) (nodesOf doc) (edgesOf doc)

/-- The required keys that are not there. -/
def missingKeys (doc : Tree) : List Path := documentFormat.missing .root doc

theorem finish_eq (doc : Tree) (warnings : Option Diagnostics) :
    finish (documentSystem doc) (nodesOf doc) (edgesOf doc)
        ((documentFormat.issues accepts .root doc).map issueDiag) warnings =
      (if (loadErrors doc).isEmpty then Graph.create (documentSystem doc) (nodesOf doc) (edgesOf doc)
        else .error (loadErrors doc), warnings.map (· ++ fieldWarnings doc)) := by
  unfold finish
  simp only [errors_issueDiag, warnings_issueDiag]
  show (if !(loadErrors doc).isEmpty then _ else _) = _
  cases (loadErrors doc).isEmpty <;> rfl

/-- With every required key there, a load of a mapping reports everything or builds the graph. -/
theorem loadDocument_mapping {entries : List Entry} (h : missingKeys (.mapping entries) = [])
    (warnings : Option Diagnostics) :
    loadDocument (.valid (.mapping entries)) warnings =
      .ok (if (loadErrors (.mapping entries)).isEmpty then
            Graph.create (documentSystem (.mapping entries)) (nodesOf (.mapping entries)) (edgesOf (.mapping entries))
          else .error (loadErrors (.mapping entries)), warnings.map (· ++ fieldWarnings (.mapping entries))) := by
  rw [← finish_eq]
  show ((readDocument (.valid (.mapping entries))) []).bind _ = _
  rw [(readDocument_reads entries).returns h]
  rfl

theorem loadDocument_throws {entries : List Entry} (h : missingKeys (.mapping entries) ≠ [])
    (warnings : Option Diagnostics) : ∃ e, loadDocument (.valid (.mapping entries)) warnings = .error e := by
  obtain ⟨e, he⟩ := (readDocument_reads entries).throws h []
  refine ⟨e, ?_⟩
  show ((readDocument (.valid (.mapping entries))) []).bind _ = _
  rw [he]
  rfl

/-- Nothing but a mapping is read any further. -/
theorem loadDocument_other {doc : Tree} (h : doc.entries? = none) (warnings : Option Diagnostics) :
    ∃ d, loadDocument (.valid doc) warnings = .ok (.error [d], warnings) ∧ d.code ≠ .danglingEdge := by
  cases doc with
  | null => exact ⟨_, rfl, by simp⟩
  | scalar text => exact ⟨_, rfl, by simp⟩
  | sequence items => exact ⟨_, rfl, by simp⟩
  | mapping entries => cases h

end Stgx
