/-
  Stgx.Lib.Ordered — ordered maps and sets, as ascending lists of entries.

  A map carries the proof that its keys ascend, so every key has one entry at most.
  - `find_upsert`: an entry is changed, or made, and no other.
  - `mem_lowerBound`, `mem_upTo`: the entries from a key on, and those up to one.
-/

import Mathlib.Order.Lattice
import Mathlib.Data.List.Basic

namespace Stgx.Lib.Ordered

variable {κ ν : Type} [LinearOrder κ]

abbrev Ascending (entries : List (κ × ν)) : Prop := entries.Pairwise fun e f => e.1 < f.1

/-! ## Entries -/

/-- Change the value at `k`, or make one. -/
def upsertEntry (k : κ) (f : Option ν → ν) : List (κ × ν) → List (κ × ν)
  | [] => [(k, f none)]
  | e :: entries =>
    if k < e.1 then (k, f none) :: e :: entries
    else if k = e.1 then (k, f (some e.2)) :: entries
    else e :: upsertEntry k f entries

/-- Every entry is an old one, or the one at `k`. -/
theorem upsertEntry_keys {k : κ} {f : Option ν → ν} {entries : List (κ × ν)} {e : κ × ν}
    (h : e ∈ upsertEntry k f entries) : e ∈ entries ∨ e.1 = k := by
  induction entries with
  | nil =>
    rw [List.mem_singleton.mp h]
    exact Or.inr rfl
  | cons e' entries ih =>
    unfold upsertEntry at h
    split at h
    · rcases List.mem_cons.mp h with rfl | h
      · exact Or.inr rfl
      · exact Or.inl h
    · split at h
      · rcases List.mem_cons.mp h with rfl | h
        · exact Or.inr rfl
        · exact Or.inl (List.mem_cons_of_mem _ h)
      · rcases List.mem_cons.mp h with rfl | h
        · exact Or.inl List.mem_cons_self
        · rcases ih h with h | h
          · exact Or.inl (List.mem_cons_of_mem _ h)
          · exact Or.inr h

theorem upsertEntry_ascending (k : κ) (f : Option ν → ν) {entries : List (κ × ν)} (h : Ascending entries) :
    Ascending (upsertEntry k f entries) := by
  induction entries with
  | nil => exact List.pairwise_singleton _ _
  | cons e entries ih =>
    obtain ⟨hlt, hrest⟩ := List.pairwise_cons.mp h
    unfold upsertEntry
    split
    · rename_i hk
      refine List.pairwise_cons.mpr ⟨fun e' he' => ?_, h⟩
      rcases List.mem_cons.mp he' with rfl | he'
      · exact hk
      · exact lt_trans hk (hlt e' he')
    · rename_i hk
      split
      · rename_i heq
        subst heq
        exact List.pairwise_cons.mpr ⟨hlt, hrest⟩
      · rename_i hne
        refine List.pairwise_cons.mpr ⟨fun e' he' => ?_, ih hrest⟩
        rcases upsertEntry_keys he' with he' | he'
        · exact hlt e' he'
        · rw [he']
          exact lt_of_le_of_ne (not_lt.mp hk) (Ne.symm hne)

def findEntry (k : κ) (entries : List (κ × ν)) : Option ν := (entries.find? fun e => e.1 = k).map Prod.snd

theorem findEntry_cons_eq {e : κ × ν} {entries : List (κ × ν)} : findEntry e.1 (e :: entries) = some e.2 := by
  simp [findEntry]

theorem findEntry_cons_ne {k : κ} {e : κ × ν} {entries : List (κ × ν)} (h : k ≠ e.1) :
    findEntry k (e :: entries) = findEntry k entries := by
  simp [findEntry, Ne.symm h]

theorem findEntry_none {k : κ} {entries : List (κ × ν)} (h : ∀ e ∈ entries, e.1 ≠ k) : findEntry k entries = none := by
  rw [findEntry, List.find?_eq_none.mpr fun e he => by simpa using h e he]
  rfl

theorem findEntry_upsertEntry {k k' : κ} {f : Option ν → ν} {entries : List (κ × ν)} (h : Ascending entries) :
    findEntry k' (upsertEntry k f entries) =
      if k' = k then some (f (findEntry k entries)) else findEntry k' entries := by
  induction entries with
  | nil =>
    by_cases hk : k' = k
    · subst hk
      rw [if_pos rfl]
      exact findEntry_cons_eq
    · rw [if_neg hk]
      exact findEntry_cons_ne hk
  | cons e entries ih =>
    obtain ⟨hlt, hrest⟩ := List.pairwise_cons.mp h
    unfold upsertEntry
    split
    · rename_i hk
      have hnone : findEntry k (e :: entries) = none := by
        refine findEntry_none fun e' he' => ?_
        rcases List.mem_cons.mp he' with rfl | he'
        · exact ne_of_gt hk
        · exact ne_of_gt (lt_trans hk (hlt e' he'))
      by_cases hk' : k' = k
      · subst hk'
        rw [if_pos rfl, hnone]
        exact findEntry_cons_eq
      · rw [if_neg hk']
        exact findEntry_cons_ne hk'
    · split
      · rename_i heq
        subst heq
        by_cases hk' : k' = e.1
        · subst hk'
          rw [if_pos rfl, findEntry_cons_eq]
          exact findEntry_cons_eq
        · rw [if_neg hk', findEntry_cons_ne hk']
          exact findEntry_cons_ne hk'
      · rename_i hne
        by_cases hk' : k' = e.1
        · subst hk'
          rw [if_neg (Ne.symm hne), findEntry_cons_eq, findEntry_cons_eq]
        · rw [findEntry_cons_ne hk', findEntry_cons_ne hk', findEntry_cons_ne hne, ih hrest]

theorem mem_entries {k : κ} {v : ν} {entries : List (κ × ν)} (h : Ascending entries) :
    (k, v) ∈ entries ↔ findEntry k entries = some v := by
  induction entries with
  | nil => simp [findEntry]
  | cons e entries ih =>
    obtain ⟨hlt, hrest⟩ := List.pairwise_cons.mp h
    by_cases hk : k = e.1
    · subst hk
      rw [findEntry_cons_eq, Option.some_inj, List.mem_cons]
      constructor
      · intro hm
        rcases hm with hm | hm
        · rw [← hm]
        · exact absurd (hlt _ hm) (lt_irrefl _)
      · exact fun hv => Or.inl (by rw [← hv])
    · rw [findEntry_cons_ne hk, ← ih hrest, List.mem_cons]
      constructor
      · intro hm
        rcases hm with hm | hm
        · exact absurd (congrArg Prod.fst hm) hk
        · exact hm
      · exact Or.inr

/-! ## Scans -/

/-- Where `p` holds up to some place, a scan stops exactly there. -/
theorem mem_takeWhile {α : Type} {p : α → Bool} {l : List α} (h : l.Pairwise fun x y => p y = true → p x = true)
    {x : α} :
    x ∈ l.takeWhile p ↔ x ∈ l ∧ p x = true := by
  induction l with
  | nil => simp
  | cons y l ih =>
    obtain ⟨hy, hl⟩ := List.pairwise_cons.mp h
    by_cases hp : p y = true
    · rw [List.takeWhile_cons_of_pos hp, List.mem_cons, ih hl, List.mem_cons]
      constructor
      · intro hm
        rcases hm with rfl | hm
        · exact ⟨Or.inl rfl, hp⟩
        · exact ⟨Or.inr hm.1, hm.2⟩
      · intro hm
        rcases hm.1 with rfl | hmem
        · exact Or.inl rfl
        · exact Or.inr ⟨hmem, hm.2⟩
    · rw [List.takeWhile_cons_of_neg hp]
      refine ⟨fun hm => absurd hm List.not_mem_nil, fun hm => ?_⟩
      rcases List.mem_cons.mp hm.1 with rfl | hmem
      · exact absurd hm.2 hp
      · exact absurd (hy x hmem hm.2) hp

theorem mem_dropWhile {α : Type} {p : α → Bool} {l : List α} (h : l.Pairwise fun x y => p y = true → p x = true)
    {x : α} :
    x ∈ l.dropWhile p ↔ x ∈ l ∧ p x = false := by
  induction l with
  | nil => simp
  | cons y l ih =>
    obtain ⟨hy, hl⟩ := List.pairwise_cons.mp h
    by_cases hp : p y = true
    · rw [List.dropWhile_cons_of_pos hp, ih hl, List.mem_cons]
      constructor
      · exact fun hm => ⟨Or.inr hm.1, hm.2⟩
      · intro hm
        rcases hm.1 with rfl | hmem
        · rw [hp] at hm
          exact absurd hm.2 (by simp)
        · exact ⟨hmem, hm.2⟩
    · rw [List.dropWhile_cons_of_neg hp]
      refine ⟨fun hm => ⟨hm, ?_⟩, And.left⟩
      rcases List.mem_cons.mp hm with rfl | hmem
      · simpa using hp
      · exact Bool.eq_false_iff.mpr fun hx => hp (hy x hmem hx)

/-! ## Maps -/

/-- Every key is there once, in order. -/
structure OrderedMap (κ ν : Type) [LinearOrder κ] where
  entries : List (κ × ν)
  ascending : Ascending entries

namespace OrderedMap

def empty : OrderedMap κ ν := ⟨[], List.Pairwise.nil⟩

instance : EmptyCollection (OrderedMap κ ν) := ⟨empty⟩

def find (m : OrderedMap κ ν) (k : κ) : Option ν := findEntry k m.entries

/-- Change the value at `k`, or make one. -/
def upsert (m : OrderedMap κ ν) (k : κ) (f : Option ν → ν) : OrderedMap κ ν :=
  ⟨upsertEntry k f m.entries, upsertEntry_ascending k f m.ascending⟩

/-- `emplace`: a value that is there stays. -/
def emplace (m : OrderedMap κ ν) (k : κ) (v : ν) : OrderedMap κ ν := m.upsert k fun old => old.getD v

/-- The entries from `lower_bound(k)` on. -/
def lowerBound (m : OrderedMap κ ν) (k : κ) : List (κ × ν) := m.entries.dropWhile fun e => e.1 < k

/-- The entries before the first one past `k`. -/
def upTo (m : OrderedMap κ ν) (k : κ) : List (κ × ν) := m.entries.takeWhile fun e => ¬ k < e.1

theorem find_empty (k : κ) : (∅ : OrderedMap κ ν).find k = none := rfl

theorem find_upsert (m : OrderedMap κ ν) (k k' : κ) (f : Option ν → ν) :
    (m.upsert k f).find k' = if k' = k then some (f (m.find k)) else m.find k' :=
  findEntry_upsertEntry m.ascending

theorem mem_entries_iff {m : OrderedMap κ ν} {k : κ} {v : ν} : (k, v) ∈ m.entries ↔ m.find k = some v :=
  mem_entries m.ascending

theorem mem_lowerBound {m : OrderedMap κ ν} {k : κ} {e : κ × ν} :
    e ∈ m.lowerBound k ↔ e ∈ m.entries ∧ k ≤ e.1 := by
  rw [lowerBound, mem_dropWhile (m.ascending.imp fun hlt hf => by simpa using lt_trans hlt (by simpa using hf))]
  simp

theorem mem_upTo {m : OrderedMap κ ν} {k : κ} {e : κ × ν} : e ∈ m.upTo k ↔ e ∈ m.entries ∧ e.1 ≤ k := by
  rw [upTo, mem_takeWhile (m.ascending.imp fun hlt hf => by simpa using le_trans (le_of_lt hlt) (by simpa using hf))]
  simp

end OrderedMap

/-! ## Sets -/

abbrev OrderedSet (κ : Type) [LinearOrder κ] := OrderedMap κ Unit

namespace OrderedSet

def insert (s : OrderedSet κ) (k : κ) : OrderedSet κ := s.upsert k fun _ => ()

def items (s : OrderedSet κ) : List κ := s.entries.map Prod.fst

theorem mem_items {s : OrderedSet κ} {k : κ} : k ∈ s.items ↔ s.find k = some () := by
  rw [← OrderedMap.mem_entries_iff]
  constructor
  · intro h
    obtain ⟨⟨k', u⟩, he, rfl⟩ := List.mem_map.mp h
    exact he
  · exact fun h => List.mem_map.mpr ⟨_, h, rfl⟩

theorem mem_insert {s : OrderedSet κ} {k k' : κ} : k' ∈ (insert s k).items ↔ k' = k ∨ k' ∈ s.items := by
  rw [mem_items, mem_items, insert, OrderedMap.find_upsert]
  split
  · rename_i h
    exact iff_of_true rfl (Or.inl h)
  · rename_i h
    exact (or_iff_right h).symm

theorem mem_foldl_insert {α : Type} {f : α → κ} {l : List α} {s : OrderedSet κ} {k : κ} :
    k ∈ (l.foldl (fun s a => insert s (f a)) s).items ↔ (∃ a ∈ l, k = f a) ∨ k ∈ s.items := by
  induction l generalizing s with
  | nil => simp
  | cons a l ih =>
    rw [List.foldl_cons, ih, mem_insert]
    simp only [List.mem_cons, exists_eq_or_imp, or_assoc]
    constructor
    · rintro (h | h | h)
      · exact Or.inr (Or.inl h)
      · exact Or.inl h
      · exact Or.inr (Or.inr h)
    · rintro (h | h | h)
      · exact Or.inr (Or.inl h)
      · exact Or.inl h
      · exact Or.inr (Or.inr h)

theorem items_ascending (s : OrderedSet κ) : s.items.Pairwise (· < ·) := List.pairwise_map.mpr s.ascending

theorem items_nodup (s : OrderedSet κ) : s.items.Nodup := s.items_ascending.imp ne_of_lt

end OrderedSet

end Stgx.Lib.Ordered
