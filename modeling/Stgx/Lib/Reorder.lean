/-
  Stgx.Lib.Reorder — documents up to the order of the entries of their mappings.

  `Shuffled` puts the entries of one mapping, anywhere in a document, in another order.
  The keys of that mapping have to differ: `lookup` answers with the first entry there is.
  - `text_shuffled`, `items_shuffled`, `entries_shuffled`: what a reader can see of a
    document, before and after;
  - `Format.issues_shuffled`, `Format.missing_shuffled`: a check finds the same violations
    and the same gaps in the same order, and the same strays in some order.
-/

import Mathlib.Data.List.Perm.Basic
import Mathlib.Logic.Relation
import Stgx.Lib.Strip

namespace Stgx.Lib.Doc

open Stgx.Lib.Loop (indexed)
open Relation (ReflGen)

inductive Shuffled : Tree → Tree → Prop
  | entries {entries entries' : List Entry} : (entries.map Prod.fst).Nodup → entries.Perm entries' →
      Shuffled (.mapping entries) (.mapping entries')
  | value (before after : List Entry) (key : Tree) {t t' : Tree} : Shuffled t t' →
      Shuffled (.mapping (before ++ (key, t) :: after)) (.mapping (before ++ (key, t') :: after))
  | item (before after : List Tree) {t t' : Tree} : Shuffled t t' →
      Shuffled (.sequence (before ++ t :: after)) (.sequence (before ++ t' :: after))

/-! ## What a reader sees -/

theorem text_shuffled {t t' : Tree} (h : ReflGen Shuffled t t') : t.text? = t'.text? := by
  rcases h with - | h
  · rfl
  · cases h <;> rfl

theorem isNull_shuffled {t t' : Tree} (h : ReflGen Shuffled t t') : t.isNull = t'.isNull := by
  rcases h with - | h
  · rfl
  · cases h <;> rfl

theorem forall₂_middle {α : Type} {r : α → α → Prop} [Std.Refl r] (before after : List α) {x x' : α}
    (h : r x x') : List.Forall₂ r (before ++ x :: after) (before ++ x' :: after) :=
  List.rel_append (List.forall₂_refl before) (.cons h (List.forall₂_refl after))

/-- The items are those there were, one of them shuffled. -/
theorem items_shuffled {t t' : Tree} (h : ReflGen Shuffled t t') :
    Option.Rel (List.Forall₂ (ReflGen Shuffled)) t.items? t'.items? := by
  rcases h with - | h
  · cases t.items? with
    | none => exact .none
    | some items => exact .some (List.forall₂_refl items)
  · cases h with
    | entries hd hp => exact .none
    | value before after key ht => exact .none
    | item before after ht => exact .some (forall₂_middle before after (.single ht))

/-- The entries hold the same keys in some order, and what is found under a key is what was, or that shuffled. -/
structure SameEntries (entries entries' : List Entry) : Prop where
  lookup : ∀ name, Option.Rel (ReflGen Shuffled) (lookup name entries) (lookup name entries')
  keys : (entries.map Prod.fst).Perm (entries'.map Prod.fst)

theorem rel_refl (o : Option Tree) : Option.Rel (ReflGen Shuffled) o o := by
  cases o with
  | none => exact .none
  | some t => exact .some .refl

theorem SameEntries.refl (entries : List Entry) : SameEntries entries entries :=
  ⟨fun _ => rel_refl _, .refl _⟩

/-- With distinct keys the order of the entries does not matter to a lookup. -/
theorem lookup_perm {entries entries' : List Entry} (hd : (entries.map Prod.fst).Nodup) (hp : entries.Perm entries')
    (name : String) : lookup name entries = lookup name entries' := by
  have hd' : (entries'.map Prod.fst).Nodup := (hp.map Prod.fst).nodup_iff.mp hd
  cases h : lookup name entries with
  | some value => exact (lookup_of_mem hd' (hp.mem_iff.mp (lookup_mem h)) rfl).symm
  | none =>
    cases h' : lookup name entries' with
    | none => rfl
    | some value =>
      rw [lookup_of_mem hd (hp.mem_iff.mpr (lookup_mem h')) rfl] at h
      cases h

theorem lookup_middle (before after : List Entry) (key : Tree) {t t' : Tree} (h : Shuffled t t') (name : String) :
    Option.Rel (ReflGen Shuffled) (lookup name (before ++ (key, t) :: after))
      (lookup name (before ++ (key, t') :: after)) := by
  rw [lookup_append, lookup_append]
  cases lookup name before with
  | some value => exact .some .refl
  | none =>
    rw [Option.none_or, Option.none_or, lookup, lookup]
    split
    · exact .some (.single h)
    · exact rel_refl _

theorem entries_shuffled {t t' : Tree} (h : ReflGen Shuffled t t') :
    Option.Rel SameEntries t.entries? t'.entries? := by
  rcases h with - | h
  · cases t.entries? with
    | none => exact .none
    | some entries => exact .some (.refl entries)
  · cases h with
    | entries hd hp =>
      refine .some ⟨fun name => ?_, hp.map Prod.fst⟩
      rw [lookup_perm hd hp]
      exact rel_refl _
    | value before after key ht =>
      refine .some ⟨lookup_middle before after key ht, ?_⟩
      rw [List.map_append, List.map_append]
      exact .refl _
    | item before after ht => exact .none

/-! ## What a check finds -/

variable {κ : Type} {accepts : κ → String → Bool}

/-- Where a violation is, of what kind, and the text that is there, if any. -/
def Site.summary (site : Site κ) : Path × κ × Option String := (site.path, site.kind, site.value.text?)

def summaries (issues : List (Issue κ)) : List (Path × κ × Option String) :=
  (issues.filterMap Issue.site?).map Site.summary

def straysIn (issues : List (Issue κ)) : List Stray := issues.filterMap Issue.stray?

/-- The same violations in the same order, the same strays in some order. -/
structure SameIssues (issues issues' : List (Issue κ)) : Prop where
  sites : summaries issues = summaries issues'
  strays : (straysIn issues).Perm (straysIn issues')

theorem SameIssues.refl (issues : List (Issue κ)) : SameIssues issues issues := ⟨rfl, .refl _⟩

theorem SameIssues.append {issues issues' more more' : List (Issue κ)} (h : SameIssues issues issues')
    (hmore : SameIssues more more') : SameIssues (issues ++ more) (issues' ++ more') := by
  constructor
  · have hsites := h.sites
    have hsites' := hmore.sites
    simp only [summaries] at hsites hsites' ⊢
    rw [List.filterMap_append, List.filterMap_append, List.map_append, List.map_append, hsites, hsites']
  · simp only [straysIn, List.filterMap_append]
    exact h.strays.append hmore.strays

theorem SameIssues.site {path : Path} {kind : κ} {t t' : Tree} (h : ReflGen Shuffled t t') :
    SameIssues [.site ⟨path, kind, t⟩] [.site ⟨path, kind, t'⟩] :=
  ⟨by simp [summaries, Issue.site?, Site.summary, text_shuffled h], .refl _⟩

/-- Strays alone, in another order. -/
theorem SameIssues.of_perm {strays strays' : List Stray} (h : strays.Perm strays') :
    SameIssues (strays.map (Issue.stray : Stray → Issue κ)) (strays'.map Issue.stray) := by
  have hnone : ∀ strays : List Stray, summaries (strays.map (Issue.stray : Stray → Issue κ)) = [] := by
    intro strays
    rw [summaries, List.filterMap_map]
    exact congrArg _ (List.filterMap_eq_nil_iff.mpr fun _ _ => rfl)
  have hself : ∀ strays : List Stray, straysIn (strays.map (Issue.stray : Stray → Issue κ)) = strays := by
    intro strays
    rw [straysIn, List.filterMap_map]
    exact List.filterMap_some
  constructor
  · rw [hnone, hnone]
  · rw [hself, hself]
    exact h

theorem SameIssues.indexed {α : Type} {r : α → α → Prop} {f : Nat → α → List (Issue κ)}
    (hf : ∀ i x x', r x x' → SameIssues (f i x) (f i x')) {l l' : List α} (h : List.Forall₂ r l l') (i : Nat) :
    SameIssues (indexed f i l) (indexed f i l') := by
  induction h generalizing i with
  | nil => exact .refl _
  | cons hx _ ih => exact (hf i _ _ hx).append (ih (i + 1))

theorem present_shuffled (required : Bool) {o o' : Option Tree} (h : Option.Rel (ReflGen Shuffled) o o') :
    Option.Rel (ReflGen Shuffled) (present required o) (present required o') := by
  cases h with
  | none => exact .none
  | some ht =>
    rw [present, present, isNull_shuffled ht]
    split
    · exact .none
    · exact .some ht

theorem strays_perm (path : Path) (names unsupported : List String) {entries entries' : List Entry}
    (h : SameEntries entries entries') :
    SameIssues (κ := κ) (entries.filterMap fun entry => (strayOf path names unsupported entry.1).map Issue.stray)
      (entries'.filterMap fun entry => (strayOf path names unsupported entry.1).map Issue.stray) := by
  have hkeys : ∀ entries : List Entry,
      (entries.filterMap fun entry => (strayOf path names unsupported entry.1).map (Issue.stray : Stray → Issue κ)) =
        ((entries.map Prod.fst).filterMap (strayOf path names unsupported)).map Issue.stray := by
    intro entries
    rw [List.map_filterMap, List.filterMap_map]
    rfl
  rw [hkeys, hkeys]
  exact .of_perm (h.keys.filterMap _)

mutual
theorem Format.issues_shuffled (format : Format κ) (path : Path) {t t' : Tree} (h : ReflGen Shuffled t t') :
    SameIssues (format.issues accepts path t) (format.issues accepts path t') := by
  cases format with
  | leaf kind =>
    rw [Format.issues, Format.issues, ← text_shuffled h]
    split
    · split
      · exact .refl _
      · exact .site h
    · exact .site h
  | list kind item =>
    rw [Format.issues, Format.issues]
    have hview := items_shuffled h
    generalize t.items? = items, t'.items? = items' at hview
    cases hview with
    | none => exact .site h
    | some hitems =>
      have hitem : ∀ i x x', ReflGen Shuffled x x' →
          SameIssues (item.issues accepts (path.index i) x) (item.issues accepts (path.index i) x') :=
        fun i x x' hx => item.issues_shuffled (path.index i) hx
      exact .indexed hitem hitems 0
  | record kind fields unsupported =>
    rw [Format.issues, Format.issues]
    have hview := entries_shuffled h
    generalize t.entries? = entries, t'.entries? = entries' at hview
    cases hview with
    | none => exact .site h
    | some hentries =>
      exact (strays_perm path fields.names unsupported hentries).append (fields.issues_shuffled path hentries)
theorem Fields.issues_shuffled (fields : Fields κ) (path : Path) {entries entries' : List Entry}
    (h : SameEntries entries entries') :
    SameIssues (fields.issues accepts path entries) (fields.issues accepts path entries') := by
  cases fields with
  | nil => exact .refl _
  | cons name required format rest =>
    rw [Fields.issues, Fields.issues]
    refine .append ?_ (rest.issues_shuffled path h)
    have hview := present_shuffled required (h.lookup name)
    generalize present required (lookup name entries) = o, present required (lookup name entries') = o' at hview
    cases hview with
    | none => exact .refl _
    | some ht => exact format.issues_shuffled (path.field name) ht
end

theorem indexed_shuffled {α β : Type} {r : α → α → Prop} {f : Nat → α → List β}
    (hf : ∀ i x x', r x x' → f i x = f i x') {l l' : List α} (h : List.Forall₂ r l l') (i : Nat) :
    indexed f i l = indexed f i l' := by
  induction h generalizing i with
  | nil => rfl
  | cons hx _ ih => rw [indexed, indexed, hf i _ _ hx, ih]

mutual
theorem Format.missing_shuffled (format : Format κ) (path : Path) {t t' : Tree} (h : ReflGen Shuffled t t') :
    format.missing path t = format.missing path t' := by
  cases format with
  | leaf kind => rw [Format.missing, Format.missing]
  | list kind item =>
    rw [Format.missing, Format.missing]
    have hview := items_shuffled h
    generalize t.items? = items, t'.items? = items' at hview
    cases hview with
    | none => rfl
    | some hitems =>
      have hitem : ∀ i x x', ReflGen Shuffled x x' →
          item.missing (path.index i) x = item.missing (path.index i) x' :=
        fun i x x' hx => item.missing_shuffled (path.index i) hx
      exact indexed_shuffled hitem hitems 0
  | record kind fields unsupported =>
    rw [Format.missing, Format.missing]
    have hview := entries_shuffled h
    generalize t.entries? = entries, t'.entries? = entries' at hview
    cases hview with
    | none => rfl
    | some hentries => exact fields.missing_shuffled path hentries
theorem Fields.missing_shuffled (fields : Fields κ) (path : Path) {entries entries' : List Entry}
    (h : SameEntries entries entries') : fields.missing path entries = fields.missing path entries' := by
  cases fields with
  | nil => rfl
  | cons name required format rest =>
    rw [Fields.missing, Fields.missing, rest.missing_shuffled path h]
    have hview := h.lookup name
    generalize lookup name entries = o, lookup name entries' = o' at hview
    cases hview with
    | none => rfl
    | some ht => exact congrArg (· ++ rest.missing path entries') (format.missing_shuffled (path.field name) ht)
end

end Stgx.Lib.Doc
