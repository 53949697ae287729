/-
  Stgx.Reordered — a load does not look at the order of the entries of a mapping.

  Every reader asks a mapping for its keys by name, so a document and one with the
  entries of its mappings in other orders (`Shuffled`, mapping by mapping) mean the same
  and have the same errors, in the same order; only the warnings about keys come in the
  order of the entries.
  - `load_reordered`: both throw, or both give the same graph or the same errors.
-/

import Stgx.LoadProofs
import Stgx.Lib.Reorder

namespace Stgx

open Stgx.Lib.Doc
open Relation (ReflGen ReflTransGen)

variable {t t' : Tree} {entries entries' : List Entry}

/-! ## Fields -/

theorem map_shuffled {β : Type} {f : Tree → β} (hf : ∀ t t', ReflGen Shuffled t t' → f t = f t')
    {items items' : List Tree} (h : List.Forall₂ (ReflGen Shuffled) items items') : items.map f = items'.map f := by
  induction h with
  | nil => rfl
  | cons hx _ ih => rw [List.map_cons, List.map_cons, hf _ _ hx, ih]

theorem textField_shuffled (h : SameEntries entries entries') (name : String) :
    textField name entries = textField name entries' := by
  unfold textField
  have hvalue := h.lookup name
  generalize lookup name entries = o, lookup name entries' = o' at hvalue
  cases hvalue with
  | none => rfl
  | some ht => exact text_shuffled ht

theorem parsedField_shuffled {α : Type} (h : SameEntries entries entries') (parse : String → Option α)
    (name : String) : parsedField parse name entries = parsedField parse name entries' := by
  rw [parsedField, textField_shuffled h, parsedField]

theorem flagOf_shuffled (h : SameEntries entries entries') (name : String) :
    flagOf name entries = flagOf name entries' := by
  rw [flagOf, parsedField_shuffled h, flagOf]

theorem itemsField_shuffled (h : SameEntries entries entries') (name : String) :
    List.Forall₂ (ReflGen Shuffled) (itemsField name entries) (itemsField name entries') := by
  unfold itemsField
  have hvalue := h.lookup name
  generalize lookup name entries = o, lookup name entries' = o' at hvalue
  cases hvalue with
  | none => exact .nil
  | @some value value' ht =>
    rw [Option.bind_some, Option.bind_some]
    have hitems := items_shuffled ht
    generalize value.items? = items, value'.items? = items' at hitems
    cases hitems with
    | none => exact .nil
    | some hitems => exact hitems

theorem entriesOf_shuffled (h : ReflGen Shuffled t t') : SameEntries (entriesOf t) (entriesOf t') := by
  unfold entriesOf
  have hentries := entries_shuffled h
  generalize t.entries? = o, t'.entries? = o' at hentries
  cases hentries with
  | none => exact .refl []
  | some hentries => exact hentries

/-! ## The meaning -/

theorem taskParamOf_shuffled (h : ReflGen Shuffled t t') : taskParamOf t = taskParamOf t' := by
  have hentries := entriesOf_shuffled h
  simp only [taskParamOf, parsedField_shuffled hentries, textField_shuffled hentries]

theorem taskStateOf_shuffled (h : ReflGen Shuffled t t') : taskStateOf t = taskStateOf t' := by
  have hentries := entriesOf_shuffled h
  simp only [taskStateOf, parsedField_shuffled hentries]

theorem systemOf_shuffled (h : ReflGen Shuffled t t') : systemOf t = systemOf t' := by
  have hentries := entriesOf_shuffled h
  have htasks := map_shuffled (fun _ _ => taskParamOf_shuffled) (itemsField_shuffled hentries "tasks")
  simp only [systemOf, textField_shuffled hentries, parsedField_shuffled hentries, htasks]

theorem nodeOf_shuffled (h : ReflGen Shuffled t t') : nodeOf t = nodeOf t' := by
  have hentries := entriesOf_shuffled h
  have htasks := map_shuffled (fun _ _ => taskStateOf_shuffled) (itemsField_shuffled hentries "tasks")
  simp only [nodeOf, textField_shuffled hentries, flagOf_shuffled hentries, htasks]

theorem targetsFrom_shuffled (h : ReflGen Shuffled t t') (kind : EdgeKind) :
    targetsFrom t kind = targetsFrom t' kind := by
  have htexts := map_shuffled (fun _ _ => text_shuffled) (itemsField_shuffled (entriesOf_shuffled h) (edgeField kind))
  have hfilter : ∀ items : List Tree, items.filterMap Tree.text? = (items.map Tree.text?).filterMap id := by
    intro items
    rw [List.filterMap_map]
    rfl
  rw [targetsFrom, targetsFrom, hfilter, htexts, ← hfilter, nodeOf_shuffled h]

theorem edgesFrom_shuffled (h : ReflGen Shuffled t t') : edgesFrom t = edgesFrom t' := by
  rw [edgesFrom, edgesFrom, targetsFrom_shuffled h, targetsFrom_shuffled h]

/-- The parts of a document are the same, wherever entries changed places. -/
theorem parts_shuffled (h : ReflGen Shuffled t t') :
    documentSystem t = documentSystem t' ∧ nodesOf t = nodesOf t' ∧ edgesOf t = edgesOf t' := by
  have hentries := entriesOf_shuffled h
  have hnodes := itemsField_shuffled hentries "nodes"
  refine ⟨?_, map_shuffled (fun _ _ => nodeOf_shuffled) hnodes, ?_⟩
  · unfold documentSystem
    have hvalue := hentries.lookup "system"
    generalize lookup "system" (entriesOf t) = o, lookup "system" (entriesOf t') = o' at hvalue
    cases hvalue with
    | none => rfl
    | some ht => exact congrArg (fun system => (some system).getD {}) (systemOf_shuffled ht)
  · rw [edgesOf, edgesOf, List.flatMap_def, List.flatMap_def]
    exact congrArg List.flatten (map_shuffled (fun _ _ => edgesFrom_shuffled) hnodes)

/-! ## Reports -/

/-- A violation is reported by where it is, its kind and the text that is there. -/
theorem siteDiag_congr {site site' : Site WireKind} (h : site.summary = site'.summary) :
    siteDiag site = siteDiag site' := by
  obtain ⟨path, kind, value⟩ := site
  obtain ⟨path', kind', value'⟩ := site'
  obtain ⟨hpath, hrest⟩ := Prod.mk.inj h
  obtain ⟨hkind, htext⟩ := Prod.mk.inj hrest
  simp only at hpath hkind htext
  subst hpath hkind
  unfold siteDiag
  simp only [htext]

theorem map_siteDiag {sites sites' : List (Site WireKind)} (h : sites.map Site.summary = sites'.map Site.summary) :
    sites.map siteDiag = sites'.map siteDiag := by
  induction sites generalizing sites' with
  | nil => rw [List.map_eq_nil_iff.mp h.symm]
  | cons site sites ih =>
    cases sites' with
    | nil => cases h
    | cons site' sites' =>
      obtain ⟨hsite, hsites⟩ := List.cons.inj h
      rw [List.map_cons, List.map_cons, siteDiag_congr hsite, ih hsites]

theorem documentIssues_shuffled (h : ReflGen Shuffled t t') :
    SameIssues (documentFormat.issues accepts .root t) (documentFormat.issues accepts .root t') :=
  documentFormat.issues_shuffled .root h

theorem fieldErrors_shuffled (h : ReflGen Shuffled t t') : fieldErrors t = fieldErrors t' :=
  map_siteDiag (documentIssues_shuffled h).sites

theorem fieldWarnings_shuffled (h : ReflGen Shuffled t t') : (fieldWarnings t).Perm (fieldWarnings t') :=
  (documentIssues_shuffled h).strays.map strayDiag

theorem loadErrors_shuffled (h : ReflGen Shuffled t t') : loadErrors t = loadErrors t' := by
  obtain ⟨hsystem, hnodes, hedges⟩ := parts_shuffled h
  rw [loadErrors, fieldErrors_shuffled h, hsystem, hnodes, hedges, loadErrors]

/-! ## Loads -/

/-- Both threw, or both gave the same result, with the same warnings in some order. -/
inductive SameLoad : Except YamlException (Result Graph × Option Diagnostics) →
    Except YamlException (Result Graph × Option Diagnostics) → Prop
  | threw (e e' : YamlException) : SameLoad (.error e) (.error e')
  | answered (result : Result Graph) {w w' : Option Diagnostics} : Option.Rel List.Perm w w' →
      SameLoad (.ok (result, w)) (.ok (result, w'))

theorem perm_refl (w : Option Diagnostics) : Option.Rel List.Perm w w := by
  cases w with
  | none => exact .none
  | some w => exact .some (.refl w)

theorem SameLoad.refl (r : Except YamlException (Result Graph × Option Diagnostics)) : SameLoad r r := by
  cases r with
  | error e => exact .threw e e
  | ok r => exact .answered r.1 (perm_refl r.2)

theorem SameLoad.trans {r r' r'' : Except YamlException (Result Graph × Option Diagnostics)} (h : SameLoad r r')
    (h' : SameLoad r' r'') : SameLoad r r'' := by
  cases h with
  | threw e e' =>
    cases h' with
    | threw _ e'' => exact .threw e e''
  | answered result hw =>
    cases h' with
    | answered _ hw' =>
      refine .answered result ?_
      cases hw with
      | none => exact hw'
      | some hperm =>
        cases hw' with
        | some hperm' => exact .some (hperm.trans hperm')

theorem load_shuffled (h : Shuffled t t') (w : Option Diagnostics) :
    SameLoad (loadDocument (.valid t) w) (loadDocument (.valid t') w) := by
  have hgen : ReflGen Shuffled t t' := .single h
  have hentries := entries_shuffled hgen
  cases he : t.entries? with
  | none =>
    -- a sequence on top
    cases h with
    | entries hd hp => cases he
    | value before after key ht => cases he
    | item before after ht => exact .refl _
  | some entries =>
    rw [he] at hentries
    cases he' : t'.entries? with
    | none =>
      rw [he'] at hentries
      cases hentries
    | some entries' =>
      obtain rfl := Tree.entries_eq_some.mp he
      obtain rfl := Tree.entries_eq_some.mp he'
      have hmissing : missingKeys (.mapping entries) = missingKeys (.mapping entries') :=
        documentFormat.missing_shuffled .root hgen
      by_cases hm : missingKeys (.mapping entries) = []
      · obtain ⟨hsystem, hnodes, hedges⟩ := parts_shuffled hgen
        rw [loadDocument_mapping hm, loadDocument_mapping (hmissing ▸ hm), loadErrors_shuffled hgen, hsystem, hnodes,
          hedges]
        refine .answered _ ?_
        cases w with
        | none => exact .none
        | some w => exact .some ((fieldWarnings_shuffled hgen).append_left w)
      · obtain ⟨e, hthrows⟩ := loadDocument_throws hm w
        obtain ⟨e', hthrows'⟩ := loadDocument_throws (hmissing ▸ hm) w
        rw [hthrows, hthrows']
        exact .threw e e'

/-- However the entries of the mappings of a document are ordered, a load gives the same graph or
    the same errors, and the same warnings in some order. -/
theorem load_reordered {doc doc' : Tree} (h : ReflTransGen Shuffled doc doc') (w : Option Diagnostics) :
    SameLoad (loadDocument (.valid doc) w) (loadDocument (.valid doc') w) := by
  induction h with
  | refl => exact .refl _
  | tail _ hstep ih => exact ih.trans (load_shuffled hstep w)

/-- A node with its flag before its id, and then after it. -/
theorem load_reordered_flag : SameLoad
    (loadDocument (.valid (.mapping [(.scalar "nodes", .sequence
      [.mapping [(.scalar "initial", .scalar "true"), (.scalar "id", .scalar "a")]])])) (some []))
    (loadDocument (.valid (.mapping [(.scalar "nodes", .sequence
      [.mapping [(.scalar "id", .scalar "a"), (.scalar "initial", .scalar "true")]])])) (some [])) :=
  load_reordered (.single (.value [] [] _ (.item [] [] (.entries (by simp) (.swap ..))))) (some [])

end Stgx
