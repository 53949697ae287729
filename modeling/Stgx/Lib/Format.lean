/-
  Stgx.Lib.Format — what a document is checked against, and what a check finds.

  A format is a leaf (a scalar whose text its kind accepts), a list of one format, or a
  record of named fields, required or optional; κ names the kinds. `issues` walks a
  document in reading order and gives a violation for every outermost position whose
  value has the wrong shape or text, and a stray for every entry of a record under a key
  that is no field of it. `missing` gives the required fields that are not there.

  - `sites_nodup`: no position is violated twice, also as it is written out.
-/

import Mathlib.Data.List.Nodup
import Stgx.Lib.Loop
import Stgx.Lib.Path
import Stgx.Lib.Tree

namespace Stgx.Lib.Doc

open Stgx.Lib.Loop (indexed mem_indexed indexed_filterMap indexed_map)

variable {κ : Type}

mutual
inductive Format (κ : Type) where
  | leaf (kind : κ)
  | list (kind : κ) (item : Format κ)
  | record (kind : κ) (fields : Fields κ) (unsupported : List String)
inductive Fields (κ : Type) where
  | nil
  | cons (name : String) (required : Bool) (format : Format κ) (rest : Fields κ)
end

/-- A value that is not of the kind its position asks for. -/
structure Site (κ : Type) where
  path : Path
  kind : κ
  value : Tree

/-- An entry of the record at `record` under a key that is no field of it. -/
structure Stray where
  record : Path
  key : Tree
  unsupported : Bool

inductive Issue (κ : Type) where
  | site (site : Site κ)
  | stray (stray : Stray)

def Issue.site? : Issue κ → Option (Site κ)
  | site s => some s
  | stray _ => none

def Issue.stray? : Issue κ → Option Stray
  | site _ => none
  | stray s => some s

def Fields.names : Fields κ → List String
  | .nil => []
  | .cons name _ _ rest => name :: rest.names

/-- The value a field's check looks at: an optional field that is null counts as absent. -/
def present (required : Bool) : Option Tree → Option Tree
  | some t => if !required && t.isNull then none else some t
  | none => none

/-- The stray that an entry is, if it is one. -/
def strayOf (path : Path) (names unsupported : List String) (key : Tree) : Option Stray :=
  match key.text? with
  | none => some ⟨path, key, false⟩
  | some name =>
    if unsupported.contains name then some ⟨path, key, true⟩
    else if names.contains name then none
    else some ⟨path, key, false⟩

section Check

variable (accepts : κ → String → Bool)

mutual
def Format.issues : Format κ → Path → Tree → List (Issue κ)
  | .leaf kind, path, t =>
    match t.text? with
    | some text => if accepts kind text then [] else [.site ⟨path, kind, t⟩]
    | none => [.site ⟨path, kind, t⟩]
  | .list kind item, path, t =>
    match t.items? with
    | some items => indexed (fun i t => item.issues (path.index i) t) 0 items
    | none => [.site ⟨path, kind, t⟩]
  | .record kind fields unsupported, path, t =>
    match t.entries? with
    | some entries =>
      (entries.filterMap fun entry => (strayOf path fields.names unsupported entry.1).map .stray) ++
        fields.issues path entries
    | none => [.site ⟨path, kind, t⟩]
def Fields.issues : Fields κ → Path → List Entry → List (Issue κ)
  | .nil, _, _ => []
  | .cons name required format rest, path, entries =>
    (match present required (lookup name entries) with
      | some t => format.issues (path.field name) t
      | none => []) ++ rest.issues path entries
end

/-- The violated positions, in reading order. -/
def Format.sites (format : Format κ) (path : Path) (t : Tree) : List (Site κ) :=
  (format.issues accepts path t).filterMap Issue.site?

/-- The stray entries, in reading order. -/
def Format.strays (format : Format κ) (path : Path) (t : Tree) : List Stray :=
  (format.issues accepts path t).filterMap Issue.stray?

end Check

mutual
/-- The required fields that are not there. -/
def Format.missing : Format κ → Path → Tree → List Path
  | .leaf _, _, _ => []
  | .list _ item, path, t =>
    match t.items? with
    | some items => indexed (fun i t => item.missing (path.index i) t) 0 items
    | none => []
  | .record _ fields _, path, t =>
    match t.entries? with
    | some entries => fields.missing path entries
    | none => []
def Fields.missing : Fields κ → Path → List Entry → List Path
  | .nil, _, _ => []
  | .cons name required format rest, path, entries =>
    (match lookup name entries with
      | some t => format.missing (path.field name) t
      | none => if required then [path.field name] else []) ++ rest.missing path entries
end

/-! ## Positions of the violations -/

mutual
/-- The fields of a record have distinct, plain names. -/
def Format.proper : Format κ → Bool
  | .leaf _ => true
  | .list _ item => item.proper
  | .record _ fields _ => decide fields.names.Nodup && fields.proper
def Fields.proper : Fields κ → Bool
  | .nil => true
  | .cons name _ format rest => Path.plainName name && format.proper && rest.proper
end

section Positions

variable {accepts : κ → String → Bool}

/-- The positions of the violations among issues. -/
def positions (issues : List (Issue κ)) : List Path := (issues.filterMap Issue.site?).map Site.path

@[simp] theorem positions_append (issues issues' : List (Issue κ)) :
    positions (issues ++ issues') = positions issues ++ positions issues' := by
  simp [positions]

theorem positions_indexed {α : Type} (f : Nat → α → List (Issue κ)) (i : Nat) (l : List α) :
    positions (indexed f i l) = indexed (fun i x => positions (f i x)) i l := by
  rw [positions, indexed_filterMap, indexed_map]
  rfl

/-- Strays are no violations. -/
theorem positions_strays (l : List Entry) (f : Entry → Option Stray) :
    positions (l.filterMap fun entry => (f entry).map (Issue.stray : Stray → Issue κ)) = [] := by
  induction l with
  | nil => rfl
  | cons entry l ih =>
    rw [List.filterMap_cons]
    cases f entry with
    | none => exact ih
    | some stray => exact ih

mutual
theorem Format.positions_under (format : Format κ) (path : Path) (t : Tree) :
    ∀ p ∈ positions (format.issues accepts path t), path.Under p := by
  intro p hp
  cases format with
  | leaf kind =>
    rw [Format.issues] at hp
    split at hp
    · split at hp
      · cases hp
      · exact List.mem_singleton.mp hp ▸ .refl
    · exact List.mem_singleton.mp hp ▸ .refl
  | list kind item =>
    rw [Format.issues] at hp
    split at hp
    · rw [positions_indexed] at hp
      obtain ⟨k, x, -, hp⟩ := mem_indexed.mp hp
      exact (Path.Under.index _ .refl).trans (item.positions_under _ x p hp)
    · exact List.mem_singleton.mp hp ▸ .refl
  | record kind fields unsupported =>
    rw [Format.issues] at hp
    split at hp
    · rw [positions_append, positions_strays, List.nil_append] at hp
      obtain ⟨name, -, hp⟩ := fields.positions_under path _ p hp
      exact (Path.Under.field _ .refl).trans hp
    · exact List.mem_singleton.mp hp ▸ .refl
theorem Fields.positions_under (fields : Fields κ) (path : Path) (entries : List Entry) :
    ∀ p ∈ positions (fields.issues accepts path entries), ∃ name ∈ fields.names, (path.field name).Under p := by
  intro p hp
  cases fields with
  | nil => cases hp
  | cons name required format rest =>
    rw [Fields.issues, positions_append, List.mem_append] at hp
    rcases hp with hp | hp
    · split at hp
      · exact ⟨name, List.mem_cons_self, format.positions_under _ _ p hp⟩
      · cases hp
    · obtain ⟨other, hother, hp⟩ := rest.positions_under path entries p hp
      exact ⟨other, List.mem_cons_of_mem _ hother, hp⟩
end

/-- Positions collected from different children of a list are different. -/
theorem nodup_indexed {α : Type} {f : Nat → α → List Path} {path : Path} {l : List α}
    (hd : ∀ i x, (f i x).Nodup) (hu : ∀ i x, ∀ p ∈ f i x, (path.index i).Under p) (i : Nat) :
    (indexed f i l).Nodup := by
  induction l generalizing i with
  | nil => exact List.nodup_nil
  | cons x l ih =>
    refine List.nodup_append.mpr ⟨hd i x, ih (i + 1), fun p hp q hq => ?_⟩
    obtain ⟨k, y, -, hq⟩ := mem_indexed.mp hq
    intro he
    subst he
    have := (hu i x p hp).index_inj (hu _ y p hq)
    omega

mutual
theorem Format.positions_nodup (format : Format κ) (h : format.proper = true) (path : Path) (t : Tree) :
    (positions (format.issues accepts path t)).Nodup := by
  cases format with
  | leaf kind =>
    rw [Format.issues]
    split
    · split
      · exact List.nodup_nil
      · exact List.nodup_singleton _
    · exact List.nodup_singleton _
  | list kind item =>
    rw [Format.issues]
    split
    · rw [positions_indexed]
      exact nodup_indexed (fun i x => item.positions_nodup h _ x) (fun i x => item.positions_under _ x) 0
    · exact List.nodup_singleton _
  | record kind fields unsupported =>
    rw [Format.proper, Bool.and_eq_true, decide_eq_true_eq] at h
    rw [Format.issues]
    split
    · rw [positions_append, positions_strays, List.nil_append]
      exact fields.positions_nodup h.1 h.2 path _
    · exact List.nodup_singleton _
theorem Fields.positions_nodup (fields : Fields κ) (hn : fields.names.Nodup) (h : fields.proper = true) (path : Path)
    (entries : List Entry) : (positions (fields.issues accepts path entries)).Nodup := by
  cases fields with
  | nil => exact List.nodup_nil
  | cons name required format rest =>
    rw [Fields.proper, Bool.and_eq_true, Bool.and_eq_true] at h
    obtain ⟨hnew, hn⟩ := List.nodup_cons.mp hn
    rw [Fields.issues, positions_append]
    refine List.nodup_append.mpr ⟨?_, rest.positions_nodup hn h.2 path entries, fun p hp q hq => ?_⟩
    · split
      · exact format.positions_nodup h.1.2 _ _
      · exact List.nodup_nil
    · obtain ⟨other, hother, hq⟩ := rest.positions_under path entries q hq
      intro he
      subst he
      split at hp
      · exact hnew ((format.positions_under _ _ p hp).field_inj hq ▸ hother)
      · cases hp
end

mutual
theorem Format.positions_plain (format : Format κ) (h : format.proper = true) {path : Path} (hpath : path.Plain)
    (t : Tree) : ∀ p ∈ positions (format.issues accepts path t), p.Plain := by
  intro p hp
  cases format with
  | leaf kind =>
    rw [Format.issues] at hp
    split at hp
    · split at hp
      · cases hp
      · exact List.mem_singleton.mp hp ▸ hpath
    · exact List.mem_singleton.mp hp ▸ hpath
  | list kind item =>
    rw [Format.issues] at hp
    split at hp
    · rw [positions_indexed] at hp
      obtain ⟨k, x, -, hp⟩ := mem_indexed.mp hp
      exact item.positions_plain h (show (path.index _).Plain from hpath) x p hp
    · exact List.mem_singleton.mp hp ▸ hpath
  | record kind fields unsupported =>
    rw [Format.proper, Bool.and_eq_true] at h
    rw [Format.issues] at hp
    split at hp
    · rw [positions_append, positions_strays, List.nil_append] at hp
      exact fields.positions_plain h.2 hpath _ p hp
    · exact List.mem_singleton.mp hp ▸ hpath
theorem Fields.positions_plain (fields : Fields κ) (h : fields.proper = true) {path : Path} (hpath : path.Plain)
    (entries : List Entry) : ∀ p ∈ positions (fields.issues accepts path entries), p.Plain := by
  intro p hp
  cases fields with
  | nil => cases hp
  | cons name required format rest =>
    rw [Fields.proper, Bool.and_eq_true, Bool.and_eq_true] at h
    rw [Fields.issues, positions_append, List.mem_append] at hp
    rcases hp with hp | hp
    · split at hp
      · exact format.positions_plain h.1.2 (show (path.field name).Plain from ⟨hpath, h.1.1⟩) _ p hp
      · cases hp
    · exact rest.positions_plain h.2 hpath entries p hp
end

/-- No position is violated twice, also as it is written out. -/
theorem Format.sites_nodup {format : Format κ} (h : format.proper = true) {path : Path} (hpath : path.Plain)
    (t : Tree) : ((format.sites accepts path t).map fun site => site.path.render).Nodup := by
  have hplain : ∀ p ∈ positions (format.issues accepts path t), p.Plain := format.positions_plain h hpath t
  have hnodup : ((positions (format.issues accepts path t)).map Path.render).Nodup :=
    (List.nodup_map_iff_inj_on (format.positions_nodup h path t)).mpr fun p hp q hq he =>
      Path.render_injective (hplain p hp) (hplain q hq) he
  rw [positions, List.map_map] at hnodup
  exact hnodup

end Positions

end Stgx.Lib.Doc
