/-
  Stgx.Lib.Index — a map from keys to values that keeps the first value put under a
  key (`try_emplace`), and the position index of a list of keys built with it.

  `lookup_emplaceFrom`: indexing a list of keys gives every key the value of its first
  position. With distinct keys the position of a key is its only one, so editing the
  list at the position found is editing the items that carry the key (`modify_position`,
  `eraseIdx_position`).
-/

import Mathlib.Data.List.AList

namespace Stgx.Lib.Index

universe u v

variable {κ : Type u} [DecidableEq κ]

/-- A finite map, each key at most once. -/
abbrev Map (κ : Type u) (β : Type v) := AList fun _ : κ => β

variable {β : Type v}

/-- Put `v` under `k` unless the key is taken. -/
def tryEmplace (m : Map κ β) (k : κ) (v : β) : Map κ β := if k ∈ m then m else m.insert k v

theorem lookup_tryEmplace (m : Map κ β) (k j : κ) (v : β) :
    (tryEmplace m k v).lookup j = (m.lookup j).or (if k = j then some v else none) := by
  unfold tryEmplace
  by_cases e : k = j
  · subst e
    by_cases hk : k ∈ m
    · obtain ⟨w, hw⟩ := Option.isSome_iff_exists.mp (AList.lookup_isSome.mpr hk)
      simp [hk, hw]
    · simp [hk, AList.lookup_eq_none.mpr hk]
  · rw [if_neg e, Option.or_none]
    split
    · rfl
    · rw [AList.lookup_insert_ne (Ne.symm e)]

/-- Index the keys `ks`, the first at position `i`, each under its position's value. -/
def emplaceFrom (value : Nat → β) : Nat → List κ → Map κ β → Map κ β
  | _, [], m => m
  | i, k :: ks, m => emplaceFrom value (i + 1) ks (tryEmplace m k (value i))

theorem lookup_emplaceFrom (value : Nat → β) (ks : List κ) (j : κ) :
    ∀ (i : Nat) (m : Map κ β),
      (emplaceFrom value i ks m).lookup j = (m.lookup j).or ((ks.idxOf? j).map fun p => value (i + p)) := by
  induction ks with
  | nil => intro i m; simp [emplaceFrom]
  | cons k ks ih =>
    intro i m
    rw [emplaceFrom, ih, lookup_tryEmplace, List.idxOf?_cons, Option.or_assoc]
    by_cases e : k = j
    · subst e
      simp
    · have : (k == j) = false := by simpa using e
      simp only [if_neg e, this, Option.none_or, Bool.false_eq_true, if_false, Option.map_map]
      congr 1
      refine Option.map_congr fun p _ => ?_
      show value (i + 1 + p) = value (i + (p + 1))
      congr 1
      omega

/-- The index of a list of keys: every key under the value of its first position. -/
theorem lookup_index (value : Nat → β) (ks : List κ) (j : κ) :
    (emplaceFrom value 0 ks ∅).lookup j = (ks.idxOf? j).map value := by
  simp [lookup_emplaceFrom]

theorem mem_index (value : Nat → β) (ks : List κ) (j : κ) : j ∈ emplaceFrom value 0 ks ∅ ↔ j ∈ ks := by
  rw [← AList.lookup_isSome, lookup_index, Option.isSome_map, List.isSome_idxOf?]

/-! ## Positions -/

theorem position_get {ks : List κ} {k : κ} {i : Nat} (h : ks.idxOf? k = some i) : ks[i]? = some k := by
  obtain ⟨hi, hk, -⟩ := List.idxOf?_eq_some_iff.mp h
  rw [List.getElem?_eq_getElem hi, hk]

theorem position_lt {ks : List κ} {k : κ} {i : Nat} (h : ks.idxOf? k = some i) : i < ks.length :=
  (List.idxOf?_eq_some_iff.mp h).1

/-- Two keys found at one position are one key. -/
theorem position_inj {ks : List κ} {k k' : κ} {i : Nat} (h : ks.idxOf? k = some i) (h' : ks.idxOf? k' = some i) :
    k = k' := Option.some.inj ((position_get h).symm.trans (position_get h'))

/-- With distinct keys, every position is the position of its key. -/
theorem position_of_get {ks : List κ} (hks : ks.Nodup) {k : κ} {i : Nat} (h : ks[i]? = some k) :
    ks.idxOf? k = some i := by
  obtain ⟨hi, hk⟩ := List.getElem?_eq_some_iff.mp h
  refine List.idxOf?_eq_some_iff.mpr ⟨hi, hk, fun j hj e => ?_⟩
  have := (List.Nodup.getElem_inj_iff hks).mp (e.trans hk.symm)
  omega

variable {α : Type v} (key : α → κ)

/-- Editing the item at a key's position is editing the items that carry the key. -/
theorem modify_position (f : α → α) {l : List α} (hl : (l.map key).Nodup) {k : κ} {i : Nat}
    (h : (l.map key).idxOf? k = some i) : l.modify i f = l.map fun x => if key x = k then f x else x := by
  refine List.ext_getElem? fun j => ?_
  have hget := position_get h
  rw [List.getElem?_map] at hget
  rw [List.getElem?_modify, List.getElem?_map]
  cases hx : l[j]? with
  | none => rfl
  | some x =>
    simp only [Option.map_some]
    by_cases e : i = j
    · subst e
      rw [hx, Option.map_some, Option.some.injEq] at hget
      simp [hget]
    · have hne : key x ≠ k := by
        intro he
        subst he
        exact e (Option.some.inj (h.symm.trans (position_of_get hl (by rw [List.getElem?_map, hx]; rfl))))
      simp [e, hne]

/-- Erasing the item at a key's position is dropping the items that carry the key. -/
theorem eraseIdx_position : ∀ {l : List α}, (l.map key).Nodup → ∀ {k : κ} {i : Nat},
    (l.map key).idxOf? k = some i → l.eraseIdx i = l.filter fun x => key x ≠ k := by
  intro l
  induction l with
  | nil => intro _ k i h; cases h
  | cons x l ih =>
    intro hl k i h
    rw [List.map_cons, List.nodup_cons] at hl
    rw [List.map_cons, List.idxOf?_cons] at h
    by_cases e : key x = k
    · subst e
      simp only [beq_self_eq_true, if_true, Option.some.injEq] at h
      subst h
      have keep : l.filter (fun y => key y ≠ key x) = l := by
        refine List.filter_eq_self.mpr fun y hy => ?_
        have : key y ≠ key x := fun h' => hl.1 (h' ▸ List.mem_map_of_mem hy)
        simpa using this
      rw [List.eraseIdx_cons_zero, List.filter_cons_of_neg (by simp), keep]
    · have hb : (key x == k) = false := by simpa using e
      simp only [hb, Bool.false_eq_true, if_false, Option.map_eq_some_iff] at h
      obtain ⟨p, hp, rfl⟩ := h
      rw [List.eraseIdx_cons_succ, ih hl.2 hp, List.filter_cons_of_pos (by simpa using e)]

/-- The item at a key's position is the first one that carries the key. -/
theorem get_position (l : List α) (k : κ) :
    ((l.map key).idxOf? k).bind (l[·]?) = l.find? fun x => key x = k := by
  induction l with
  | nil => rfl
  | cons x l ih =>
    rw [List.map_cons, List.idxOf?_cons, List.find?_cons]
    by_cases e : key x = k
    · simp [e]
    · have hb : (key x == k) = false := by simpa using e
      simp only [hb, Bool.false_eq_true, if_false, e, decide_false, ← ih]
      cases (l.map key).idxOf? k <;> rfl

end Stgx.Lib.Index
