/-
  Stgx.Lib.Strip — documents without stray entries.

  `strip` removes the entries a check finds astray and nothing else: a document with
  distinct keys and no strays is its own stripped form (`strip_eq_self`), and what is
  stripped has, under the name of each field, that field's stripped value
  (`lookup_stripped`). `Tidy` documents have no strays.
-/

import Stgx.Lib.Format

namespace Stgx.Lib.Doc

open Stgx.Lib.Loop (indexed indexed_filterMap indexed_eq_nil)

variable {κ : Type}

mutual
/-- The document without its stray entries. -/
def Format.strip : Format κ → Tree → Tree
  | .leaf _, t => t
  | .list _ item, t =>
    match t.items? with
    | some items => .sequence (items.map fun t => item.strip t)
    | none => t
  | .record _ fields unsupported, t =>
    match t.entries? with
    | some entries =>
      .mapping ((entries.filter fun entry => (strayOf .root fields.names unsupported entry.1).isNone).map
        fun entry => (entry.1, fields.stripField entry.1 entry.2))
    | none => t
def Fields.stripField : Fields κ → Tree → Tree → Tree
  | .nil, _, t => t
  | .cons name _ format rest, key, t => if key.text? = some name then format.strip t else rest.stripField key t
end

/-- The entries of a record that are no strays, stripped. -/
def stripped (fields : Fields κ) (unsupported : List String) (entries : List Entry) : List Entry :=
  (entries.filter fun entry => (strayOf .root fields.names unsupported entry.1).isNone).map
    fun entry => (entry.1, fields.stripField entry.1 entry.2)

/-! ## Strays -/

/-- Whether an entry is astray does not depend on where it is. -/
theorem strayOf_isNone (path : Path) (names unsupported : List String) (key : Tree) :
    (strayOf path names unsupported key).isNone = (strayOf .root names unsupported key).isNone := by
  unfold strayOf
  split
  · rfl
  · split
    · rfl
    · split <;> rfl

/-- The entries that stay have the fields' names for keys. -/
theorem strayOf_eq_none {path : Path} {names unsupported : List String} {key : Tree} :
    strayOf path names unsupported key = none ↔ ∃ name, key = .scalar name ∧ name ∈ names ∧ name ∉ unsupported := by
  unfold strayOf
  cases key with
  | scalar name =>
    by_cases hu : name ∈ unsupported <;> by_cases hn : name ∈ names <;> simp [Tree.text?, hu, hn]
  | _ => simp [Tree.text?]

section Check

variable (accepts : κ → String → Bool)

/-- No entry of the document is astray. -/
def Format.Tidy (format : Format κ) (t : Tree) : Prop := ∀ path, format.strays accepts path t = []

def Fields.Tidy (fields : Fields κ) (entries : List Entry) : Prop :=
  ∀ path, (fields.issues accepts path entries).filterMap Issue.stray? = []

variable {accepts}

theorem tidy_leaf (kind : κ) (t : Tree) : (Format.leaf kind).Tidy accepts t := by
  intro path
  unfold Format.strays
  rw [Format.issues]
  split
  · split <;> rfl
  · rfl

theorem tidy_list {kind : κ} {item : Format κ} {items : List Tree} (h : ∀ t ∈ items, item.Tidy accepts t) :
    (Format.list kind item).Tidy accepts (.sequence items) := by
  intro path
  unfold Format.strays
  rw [Format.issues]
  simp only [Tree.items?, indexed_filterMap, indexed_eq_nil]
  exact fun i t hi => h t (List.mem_of_getElem? hi) _

theorem tidy_fields_nil (entries : List Entry) : (Fields.nil : Fields κ).Tidy accepts entries := fun _ => by
  rw [Fields.issues]
  rfl

theorem tidy_fields_cons {name : String} {required : Bool} {format : Format κ} {rest : Fields κ} {entries : List Entry}
    (h : ∀ t, lookup name entries = some t → format.Tidy accepts t) (hrest : rest.Tidy accepts entries) :
    (Fields.cons name required format rest).Tidy accepts entries := by
  intro path
  rw [Fields.issues, List.filterMap_append, hrest path, List.append_nil]
  split
  · rename_i t ht
    cases hl : lookup name entries with
    | none => simp [hl, present] at ht
    | some v =>
      simp only [hl, present] at ht
      split at ht
      · cases ht
      · obtain rfl := Option.some.inj ht
        exact h v hl _
  · rfl

/-- The strays of a record: its own, then those in its fields. -/
theorem record_strays (kind : κ) (fields : Fields κ) (unsupported : List String) (path : Path) (entries : List Entry) :
    (Format.record kind fields unsupported).strays accepts path (.mapping entries) =
      entries.filterMap (fun entry => strayOf path fields.names unsupported entry.1) ++
        (fields.issues accepts path entries).filterMap Issue.stray? := by
  unfold Format.strays
  rw [Format.issues]
  simp only [Tree.entries?, List.filterMap_append, List.filterMap_filterMap]
  congr 2
  funext entry
  cases strayOf path fields.names unsupported entry.1 <;> rfl

theorem tidy_record {kind : κ} {fields : Fields κ} {unsupported : List String} {values : List (String × Option Tree)}
    (hnames : (values.map Prod.fst).all (fun name => fields.names.contains name && !unsupported.contains name) = true)
    (h : fields.Tidy accepts (written values)) :
    (Format.record kind fields unsupported).Tidy accepts (.mapping (written values)) := by
  intro path
  rw [record_strays, h path, List.append_nil, List.filterMap_eq_nil_iff]
  intro entry hentry
  obtain ⟨name, hname, hkey⟩ := written_key hentry
  have hknown := List.all_eq_true.mp hnames name hname
  simp only [Bool.and_eq_true, Bool.not_eq_true', List.contains_eq_mem, decide_eq_false_iff_not,
    decide_eq_true_eq] at hknown
  exact strayOf_eq_none.mpr ⟨name, hkey, hknown⟩

end Check

/-! ## Stripping -/

theorem Tree.DistinctKeys.entries {entries : List Entry} (h : (Tree.mapping entries).DistinctKeys) :
    (entries.map Prod.fst).Nodup ∧ ∀ entry ∈ entries, entry.2.DistinctKeys := by
  cases h with
  | mapping hd _ hv => exact ⟨hd, hv⟩

theorem Tree.DistinctKeys.items {items : List Tree} (h : (Tree.sequence items).DistinctKeys) :
    ∀ t ∈ items, t.DistinctKeys := by
  cases h with
  | sequence h => exact h

/-- With distinct keys, an entry under a name is the one found. -/
theorem lookup_of_mem {entries : List Entry} (hd : (entries.map Prod.fst).Nodup) {entry : Entry} (h : entry ∈ entries)
    {name : String} (hkey : entry.1.text? = some name) : lookup name entries = some entry.2 := by
  induction entries with
  | nil => cases h
  | cons first entries ih =>
    obtain ⟨key, value⟩ := first
    obtain ⟨hnew, hd⟩ := List.nodup_cons.mp hd
    rw [lookup]
    rcases List.mem_cons.mp h with rfl | h
    · rw [if_pos hkey]
    · rw [if_neg, ih hd h]
      intro hk
      have hsame : entry.1 = key := by rw [Tree.text_eq_some.mp hkey, Tree.text_eq_some.mp hk]
      have hmem : entry.1 ∈ entries.map Prod.fst := List.mem_map_of_mem h
      exact hnew (hsame ▸ hmem)

section Strip

variable {accepts : κ → String → Bool}

mutual
/-- Stripping removes nothing where nothing is astray. -/
theorem Format.strip_eq_self (format : Format κ) {path : Path} {t : Tree} (h : format.strays accepts path t = [])
    (hd : t.DistinctKeys) : format.strip t = t := by
  cases format with
  | leaf kind => rw [Format.strip]
  | list kind item =>
    rw [Format.strip]
    cases t with
    | sequence items =>
      unfold Format.strays at h
      rw [Format.issues] at h
      simp only [Tree.items?, indexed_filterMap, indexed_eq_nil] at h
      show Tree.sequence _ = _
      congr 1
      conv_rhs => rw [← List.map_id items]
      refine List.map_congr_left fun t ht => ?_
      obtain ⟨i, hi⟩ := List.getElem?_of_mem ht
      exact item.strip_eq_self (h i t hi) (hd.items t ht)
    | _ => rfl
  | record kind fields unsupported =>
    rw [Format.strip]
    cases t with
    | mapping entries =>
      rw [record_strays, List.append_eq_nil_iff, List.filterMap_eq_nil_iff] at h
      obtain ⟨hkeys, hentries⟩ := hd.entries
      have hall : (entries.filter fun entry => (strayOf .root fields.names unsupported entry.1).isNone) = entries := by
        refine List.filter_eq_self.mpr fun entry he => ?_
        rw [← strayOf_isNone path, h.1 entry he]
        rfl
      show Tree.mapping _ = _
      rw [hall]
      congr 1
      conv_rhs => rw [← List.map_id entries]
      refine List.map_congr_left fun entry he => ?_
      exact Prod.ext rfl (fields.stripField_eq_self h.2 hkeys hentries he)
    | _ => rfl
theorem Fields.stripField_eq_self (fields : Fields κ) {path : Path} {entries : List Entry}
    (h : (fields.issues accepts path entries).filterMap Issue.stray? = []) (hkeys : (entries.map Prod.fst).Nodup)
    (hd : ∀ entry ∈ entries, entry.2.DistinctKeys) {entry : Entry} (he : entry ∈ entries) :
    fields.stripField entry.1 entry.2 = entry.2 := by
  cases fields with
  | nil => rw [Fields.stripField]
  | cons name required format rest =>
    rw [Fields.issues, List.filterMap_append, List.append_eq_nil_iff] at h
    rw [Fields.stripField]
    split
    · rename_i hname
      rw [lookup_of_mem hkeys he hname] at h
      cases hn : (!required && entry.2.isNull) with
      | true =>
        -- an optional field that is null is not checked
        have hnull : entry.2 = .null := by
          cases hv : entry.2 with
          | null => rfl
          | _ => simp [hv, Tree.isNull] at hn
        rw [hnull]
        cases format <;> rw [Format.strip] <;> rfl
      | false =>
        simp only [present, hn, Bool.false_eq_true, if_false] at h
        exact format.strip_eq_self h.1 (hd entry he)
    · exact rest.stripField_eq_self h.2 hkeys hd he
end

end Strip

theorem strip_record (kind : κ) (fields : Fields κ) (unsupported : List String) (entries : List Entry) :
    (Format.record kind fields unsupported).strip (.mapping entries) =
      .mapping (stripped fields unsupported entries) := by
  rw [Format.strip]
  rfl

theorem strip_list (kind : κ) (item : Format κ) (items : List Tree) :
    (Format.list kind item).strip (.sequence items) = .sequence (items.map item.strip) := by
  rw [Format.strip]
  rfl

theorem stripped_keys {fields : Fields κ} {unsupported : List String} {entries : List Entry}
    (h : (entries.map Prod.fst).Nodup) : ((stripped fields unsupported entries).map Prod.fst).Nodup := by
  rw [stripped, List.map_map]
  exact h.sublist (List.filter_sublist.map _)

/-- What is stripped has only the fields' names for keys. -/
theorem stripped_key {fields : Fields κ} {unsupported : List String} {entries : List Entry} {entry : Entry}
    (h : entry ∈ stripped fields unsupported entries) : ∃ name ∈ fields.names, entry.1 = .scalar name := by
  obtain ⟨e, he, rfl⟩ := List.mem_map.mp h
  obtain ⟨name, hkey, hname, -⟩ := strayOf_eq_none.mp (Option.isNone_iff_eq_none.mp (List.mem_filter.mp he).2)
  exact ⟨name, hname, hkey⟩

theorem lookup_map (name : String) (f : Tree → Tree → Tree) (entries : List Entry) :
    lookup name (entries.map fun entry => (entry.1, f entry.1 entry.2)) =
      (lookup name entries).map (f (.scalar name)) := by
  induction entries with
  | nil => rfl
  | cons entry entries ih =>
    rw [List.map_cons, lookup, lookup]
    split
    · rename_i hk
      rw [Tree.text_eq_some.mp hk]
      rfl
    · exact ih

/-- What is stripped has each field, stripped. -/
theorem lookup_stripped {fields : Fields κ} {unsupported : List String} {name : String} (hname : name ∈ fields.names)
    (hsupported : name ∉ unsupported) (entries : List Entry) :
    lookup name (stripped fields unsupported entries) =
      (lookup name entries).map (fields.stripField (.scalar name)) := by
  rw [stripped, lookup_map, lookup_filter]
  intro value
  rw [strayOf_eq_none.mpr ⟨name, rfl, hname, hsupported⟩]
  rfl

end Stgx.Lib.Doc
