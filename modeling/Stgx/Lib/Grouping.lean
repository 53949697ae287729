/-
  Stgx.Lib.Grouping — stable grouping of a list by a key, over any types.

  `bucket key l k` is the part of `l` that carries key `k`, in order; `group ks key l`
  concatenates the buckets of the keys `ks`. A grouping is determined by its buckets
  alone (`group_congr`), so any edit of a list that is described bucket by bucket has
  the same effect before and after grouping: this is what lets a store keep a grouped
  list and still answer like one that keeps insertion order.

  - `bucket_group`: grouping changes no bucket.
  - `group_perm`: it is a permutation when every key is listed.
  - `group_flatMap`, `group_pair_eq_self`: a list laid out bucket by bucket is grouped
    already, and so is a list of two kinds when none of the first comes after the second.
  - `SameBuckets`: lists that agree bucket by bucket, and the edits that keep them so.
-/

import Mathlib.Data.List.Nodup
import Mathlib.Data.List.Perm.Basic

namespace Stgx.Lib.Grouping

universe u v

variable {α : Type u} {κ : Type v} [DecidableEq κ]

/-- The items of `l` that carry key `k`, in order. -/
def bucket (key : α → κ) (l : List α) (k : κ) : List α := l.filter fun x => key x = k

/-- `l` regrouped: the buckets of `ks`, one after the other. -/
def group (ks : List κ) (key : α → κ) (l : List α) : List α := ks.flatMap (bucket key l)

/-! ## Buckets -/

@[simp] theorem bucket_nil (key : α → κ) (k : κ) : bucket key [] k = [] := rfl

theorem mem_bucket {key : α → κ} {l : List α} {k : κ} {x : α} : x ∈ bucket key l k ↔ x ∈ l ∧ key x = k := by
  simp [bucket]

/-- No item carries the key. -/
theorem bucket_eq_nil {key : α → κ} {l : List α} {k : κ} (h : ∀ x ∈ l, key x ≠ k) : bucket key l k = [] :=
  List.filter_eq_nil_iff.mpr fun x hx => by simpa using h x hx

@[simp] theorem bucket_append (key : α → κ) (l l' : List α) (k : κ) :
    bucket key (l ++ l') k = bucket key l k ++ bucket key l' k := List.filter_append ..

theorem bucket_cons (key : α → κ) (x : α) (l : List α) (k : κ) :
    bucket key (x :: l) k = if key x = k then x :: bucket key l k else bucket key l k := by
  by_cases h : key x = k <;> simp [bucket, h]

theorem bucket_filter (key : α → κ) (p : α → Bool) (l : List α) (k : κ) :
    bucket key (l.filter p) k = (bucket key l k).filter p := by
  simp only [bucket, List.filter_filter, Bool.and_comm]

/-- The bucket of another key's bucket is empty, the bucket of its own is itself. -/
theorem bucket_bucket (key : α → κ) (l : List α) (k j : κ) :
    bucket key (bucket key l k) j = if k = j then bucket key l j else [] := by
  split
  · rename_i h
    subst h
    simp [bucket]
  · rename_i h
    refine bucket_eq_nil fun x hx => ?_
    rw [(mem_bucket.mp hx).2]
    exact h

/-- Relabelling the items relabels the buckets, as long as no other key takes the name. -/
theorem bucket_map {key : α → κ} {f : α → α} {l : List α} {k k' : κ}
    (h : ∀ x ∈ l, key (f x) = k' ↔ key x = k) : bucket key (l.map f) k' = (bucket key l k).map f := by
  induction l with
  | nil => rfl
  | cons x l ih =>
    have hx := h x (List.mem_cons_self)
    have hl := ih fun y hy => h y (List.mem_cons_of_mem _ hy)
    rw [List.map_cons, bucket_cons, bucket_cons, hl]
    by_cases e : key x = k
    · rw [if_pos e, if_pos (hx.mpr e), List.map_cons]
    · rw [if_neg e, if_neg fun e' => e (hx.mp e')]

theorem bucket_erase [DecidableEq α] (key : α → κ) (l : List α) (x : α) (k : κ) :
    bucket key (l.erase x) k = (bucket key l k).erase x := by
  rw [bucket, bucket, List.erase_filter]

theorem bucket_flatMap_not_mem {ks : List κ} {key : α → κ} {l : List α} {k : κ} (h : k ∉ ks) :
    bucket key (ks.flatMap (bucket key l)) k = [] := by
  refine bucket_eq_nil fun x hx he => ?_
  obtain ⟨j, hj, hxj⟩ := List.mem_flatMap.mp hx
  have hk := (mem_bucket.mp hxj).2
  subst he
  exact h (hk ▸ hj)

/-! ## Grouping -/

@[simp] theorem group_nil (ks : List κ) (key : α → κ) : group ks key [] = [] := by
  simp [group]

theorem group_no_keys (key : α → κ) (l : List α) : group [] key l = [] := rfl

theorem group_cons_key (k : κ) (ks : List κ) (key : α → κ) (l : List α) :
    group (k :: ks) key l = bucket key l k ++ group ks key l := List.flatMap_cons ..

theorem group_append_keys (ks ks' : List κ) (key : α → κ) (l : List α) :
    group (ks ++ ks') key l = group ks key l ++ group ks' key l := List.flatMap_append ..

theorem mem_group {ks : List κ} {key : α → κ} {l : List α} {x : α} :
    x ∈ group ks key l ↔ x ∈ l ∧ key x ∈ ks := by
  simp only [group, List.mem_flatMap, mem_bucket]
  constructor
  · intro h
    obtain ⟨k, hk, hx, rfl⟩ := h
    exact ⟨hx, hk⟩
  · intro h
    obtain ⟨hx, hk⟩ := h
    exact ⟨key x, hk, hx, rfl⟩

/-- A grouping is determined by its buckets. -/
theorem group_congr {ks : List κ} {key : α → κ} {l l' : List α}
    (h : ∀ k ∈ ks, bucket key l k = bucket key l' k) : group ks key l = group ks key l' :=
  List.flatMap_congr h

/-- Grouping changes no bucket. -/
theorem bucket_group {ks : List κ} (hks : ks.Nodup) (key : α → κ) (l : List α) {k : κ} (hk : k ∈ ks) :
    bucket key (group ks key l) k = bucket key l k := by
  induction ks with
  | nil => cases hk
  | cons j ks ih =>
    obtain ⟨hj, hks⟩ := List.nodup_cons.mp hks
    rw [group_cons_key, bucket_append, bucket_bucket]
    rcases List.mem_cons.mp hk with rfl | hk
    · rw [if_pos rfl, group, bucket_flatMap_not_mem hj, List.append_nil]
    · have hne : j ≠ k := fun e => hj (e ▸ hk)
      rw [if_neg hne, List.nil_append, ih hks hk]

theorem bucket_group_not_mem {ks : List κ} (key : α → κ) (l : List α) {k : κ} (hk : k ∉ ks) :
    bucket key (group ks key l) k = [] := bucket_flatMap_not_mem hk

/-- With every key listed, grouping changes no bucket at all. -/
theorem bucket_group_listed {ks : List κ} (hks : ks.Nodup) {key : α → κ} {l : List α} (h : ∀ x ∈ l, key x ∈ ks)
    (k : κ) : bucket key (group ks key l) k = bucket key l k := by
  by_cases hk : k ∈ ks
  · exact bucket_group hks key l hk
  · rw [bucket_group_not_mem key l hk]
    refine (bucket_eq_nil fun x hx he => ?_).symm
    subst he
    exact hk (h x hx)

/-- A grouping by keys in order is in order of the keys. -/
theorem group_sorted {r : κ → κ → Prop} (hr : ∀ k, r k k) {ks : List κ} (hks : ks.Pairwise r) (key : α → κ)
    (l : List α) : (group ks key l).Pairwise fun x y => r (key x) (key y) := by
  refine List.pairwise_flatMap.mpr ⟨fun k _ => ?_, hks.imp fun hkj x hx y hy => ?_⟩
  · refine List.pairwise_of_forall_mem_list fun x hx y hy => ?_
    rw [(mem_bucket.mp hx).2, (mem_bucket.mp hy).2]
    exact hr k
  · rw [(mem_bucket.mp hx).2, (mem_bucket.mp hy).2]
    exact hkj

/-- Keys that no item carries can be left out. -/
theorem group_append_unused {ks ks' : List κ} {key : α → κ} {l : List α} (h : ∀ x ∈ l, key x ∉ ks') :
    group (ks ++ ks') key l = group ks key l := by
  rw [group_append_keys]
  have : group ks' key l = [] := by
    refine List.eq_nil_iff_forall_not_mem.mpr fun x hx => ?_
    obtain ⟨hl, hk⟩ := mem_group.mp hx
    exact h x hl hk
  rw [this, List.append_nil]

/-- With every key listed, grouping is a permutation. -/
theorem group_perm {ks : List κ} (hks : ks.Nodup) {key : α → κ} {l : List α} (h : ∀ x ∈ l, key x ∈ ks) :
    (group ks key l).Perm l := by
  classical
  refine List.perm_iff_count.mpr fun x => ?_
  by_cases hx : x ∈ l
  · have hk := h x hx
    have own : ∀ m : List α, m.count x = (bucket key m (key x)).count x := fun m => by
      rw [bucket, List.count_filter (by simp)]
    rw [own, bucket_group hks key l hk, ← own]
  · rw [List.count_eq_zero_of_not_mem hx, List.count_eq_zero_of_not_mem fun h' => hx (mem_group.mp h').1]

/-- Relabelling the items and the keys relabels the grouping. -/
theorem group_map {key : α → κ} {f : α → α} {σ : κ → κ} {ks : List κ} {l : List α}
    (h : ∀ k ∈ ks, ∀ x ∈ l, key (f x) = σ k ↔ key x = k) :
    group (ks.map σ) key (l.map f) = (group ks key l).map f := by
  rw [group, group, List.flatMap_map, List.map_flatMap]
  exact List.flatMap_congr fun k hk => bucket_map (h k hk)

/-- Grouping by the image of an injective relabelling of the keys is the same grouping. -/
theorem group_rekey {ι : Type*} [DecidableEq ι] (is : List ι) (σ : ι → κ) (key : α → κ) (key' : α → ι) (l : List α)
    (h : ∀ i ∈ is, ∀ x ∈ l, key' x = i ↔ key x = σ i) : group is key' l = group (is.map σ) key l := by
  rw [group, group, List.flatMap_map]
  refine List.flatMap_congr fun i hi => List.filter_congr fun x hx => ?_
  simp only [h i hi x hx]

/-- In a list laid out bucket by bucket, each bucket is what was laid out for it. -/
theorem bucket_flatMap {ι : Type*} {f : ι → List α} {σ : ι → κ} {key : α → κ} {is : List ι} (hd : (is.map σ).Nodup)
    (hkey : ∀ i ∈ is, ∀ x ∈ f i, key x = σ i) {i : ι} (hi : i ∈ is) : bucket key (is.flatMap f) (σ i) = f i := by
  induction is with
  | nil => cases hi
  | cons j is ih =>
    obtain ⟨hj, hd⟩ := List.nodup_cons.mp hd
    have htail : ∀ i ∈ is, ∀ x ∈ f i, key x = σ i := fun i hi => hkey i (List.mem_cons_of_mem _ hi)
    have hhead : ∀ x ∈ f j, key x = σ j := hkey j List.mem_cons_self
    rw [List.flatMap_cons, bucket_append]
    rcases List.mem_cons.mp hi with rfl | hi
    · have h1 : bucket key (f i) (σ i) = f i := List.filter_eq_self.mpr fun x hx => by simp [hhead x hx]
      have h2 : bucket key (is.flatMap f) (σ i) = [] := by
        refine bucket_eq_nil fun x hx => ?_
        obtain ⟨k, hk, hx⟩ := List.mem_flatMap.mp hx
        rw [htail k hk x hx]
        exact fun e => hj (e ▸ List.mem_map_of_mem hk)
      rw [h1, h2, List.append_nil]
    · have h1 : bucket key (f j) (σ i) = [] := by
        refine bucket_eq_nil fun x hx => ?_
        rw [hhead x hx]
        exact fun e => hj (e ▸ List.mem_map_of_mem hi)
      rw [h1, List.nil_append, ih hd htail hi]

/-- A list laid out bucket by bucket is grouped. -/
theorem group_flatMap {ι : Type*} {f : ι → List α} {σ : ι → κ} {key : α → κ} {is : List ι} (hd : (is.map σ).Nodup)
    (hkey : ∀ i ∈ is, ∀ x ∈ f i, key x = σ i) : group (is.map σ) key (is.flatMap f) = is.flatMap f := by
  rw [group, List.flatMap_map]
  exact List.flatMap_congr fun i hi => bucket_flatMap hd hkey hi

/-! ## Two keys -/

/-- Two buckets are grouped as they stand when no item of the first comes after one of the second. -/
theorem group_pair_eq_self {k k' : κ} (hne : k ≠ k') {key : α → κ} {l : List α} (h : ∀ x ∈ l, key x = k ∨ key x = k') :
    group [k, k'] key l = l ↔ l.Pairwise fun a b => key b = k → key a = k := by
  have unfolded : ∀ l, group [k, k'] key l = bucket key l k ++ bucket key l k' := fun l => by simp [group]
  induction l with
  | nil => simp
  | cons x l ih =>
    have ih := ih fun y hy => h y (List.mem_cons_of_mem _ hy)
    rw [unfolded] at ih
    rw [unfolded, List.pairwise_cons, bucket_cons, bucket_cons]
    rcases h x List.mem_cons_self with hx | hx
    · simp [hx, hne, ih]
    · have hk : key x ≠ k := fun e => hne (e.symm.trans hx)
      rw [if_neg hk, if_pos hx]
      constructor
      · intro he
        cases hb : bucket key l k with
        | cons y ys =>
          -- the first item would carry the first key
          have hy : key y = k := (mem_bucket.mp (hb ▸ List.mem_cons_self)).2
          rw [hb] at he
          exact absurd ((List.cons.inj he).1 ▸ hy) hk
        | nil =>
          rw [hb, List.nil_append] at he ih
          refine ⟨fun y hy hyk => ?_, ih.mp (List.cons.inj he).2⟩
          have : y ∈ bucket key l k := mem_bucket.mpr ⟨hy, hyk⟩
          rw [hb] at this
          cases this
      · intro h
        obtain ⟨hfirst, hrest⟩ := h
        have hb : bucket key l k = [] := bucket_eq_nil fun y hy e => hk (hfirst y hy e)
        have := ih.mpr hrest
        rw [hb, List.nil_append] at this ⊢
        rw [this]

/-! ## Lists with the same buckets -/

/-- The same items under each key, in the same order. -/
def SameBuckets (key : α → κ) (l l' : List α) : Prop := ∀ k, bucket key l k = bucket key l' k

namespace SameBuckets

variable {key : α → κ} {l l' : List α}

theorem mem_iff (h : SameBuckets key l l') {x : α} : x ∈ l ↔ x ∈ l' := by
  have hown : ∀ m : List α, x ∈ m ↔ x ∈ bucket key m (key x) := fun m => by rw [mem_bucket, and_iff_left rfl]
  rw [hown l, h, ← hown]

theorem append (h : SameBuckets key l l') (l'' : List α) : SameBuckets key (l ++ l'') (l' ++ l'') := fun k => by
  rw [bucket_append, bucket_append, h]

theorem filter (h : SameBuckets key l l') (p : α → Bool) : SameBuckets key (l.filter p) (l'.filter p) := fun k => by
  rw [bucket_filter, bucket_filter, h]

theorem erase [DecidableEq α] (h : SameBuckets key l l') (x : α) : SameBuckets key (l.erase x) (l'.erase x) :=
  fun k => by rw [bucket_erase, bucket_erase, h]

/-- Relabelling the items keeps the buckets the same, as long as it merges none. -/
theorem map (h : SameBuckets key l l') {f : α → α} (hf : ∀ x ∈ l, ∀ y ∈ l, key (f x) = key (f y) ↔ key x = key y) :
    SameBuckets key (l.map f) (l'.map f) := by
  intro k
  by_cases hk : ∃ x ∈ l, key (f x) = k
  · obtain ⟨x, hx, rfl⟩ := hk
    rw [bucket_map fun y hy => hf y hy x hx, bucket_map fun y hy => hf y (h.mem_iff.mpr hy) x hx, h]
  · have hnone : ∀ m : List α, (∀ x ∈ m, x ∈ l) → bucket key (m.map f) k = [] := by
      refine fun m hm => bucket_eq_nil fun y hy he => hk ?_
      obtain ⟨x, hx, rfl⟩ := List.mem_map.mp hy
      exact ⟨x, hm x hx, he⟩
    rw [hnone l fun _ hx => hx, hnone l' fun _ hx => h.mem_iff.mpr hx]

end SameBuckets

end Stgx.Lib.Grouping
