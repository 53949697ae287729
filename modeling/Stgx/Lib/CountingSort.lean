/-
  Stgx.Lib.CountingSort — the stable counting sort on arrays, over any item type.

  Three loops: `tallyFrom` counts the items of each bucket and notes each item's
  bucket, the running sums of the counts are the buckets' offsets, and `scatterFrom`
  moves each item to the cursor of its bucket and advances the cursor. Every array
  access is checked: an access out of bounds makes the whole run `none`.

  `countingSort_eq`: when every key is below the bucket count the run succeeds, and
  its result is the stable grouping of the items by bucket. `countingStores_eq`: the
  scatter stores to every slot exactly once.

  The scatter's invariant is a layout: the destination is the buckets one after the
  other, each its items placed so far followed by its free slots (`layout`), and the
  cursors stand between the two (`cursors`).
-/

import Mathlib.Logic.Function.Basic
import Stgx.Lib.Grouping

namespace Stgx.Lib.CountingSort

open Stgx.Lib.Grouping

variable {α : Type}

/-- A checked store into an array. -/
def write {β : Type} (l : List β) (i : Nat) (v : β) : Option (List β) :=
  if i < l.length then some (l.set i v) else none

structure Tally where
  counts : List Nat
  buckets : List Nat
  deriving DecidableEq, Repr

/-- Note the bucket of each item and count it, items from index `i` on. -/
def tallyFrom (key : α → Nat) : Nat → List α → Tally → Option Tally
  | _, [], t => some t
  | i, x :: xs, t => do
    let buckets ← write t.buckets i (key x)
    let count ← t.counts[key x]?
    let counts ← write t.counts (key x) (count + 1)
    tallyFrom key (i + 1) xs ⟨counts, buckets⟩

/-- The sums of the prefixes of an array, from `acc` on: the offset of each bucket and the total. -/
def runningSums : Nat → List Nat → List Nat
  | acc, [] => [acc]
  | acc, c :: counts => acc :: runningSums (acc + c) counts

structure Scatter (α : Type) where
  next : List Nat
  slots : List α
  deriving DecidableEq, Repr

/-- Move each item to its bucket's cursor and advance the cursor, items from index `i` on. -/
def scatterFrom (buckets : List Nat) : Nat → List α → Scatter α → Option (Scatter α)
  | _, [], s => some s
  | i, x :: xs, s => do
    let bucket ← buckets[i]?
    let pos ← s.next[bucket]?
    let next ← write s.next bucket (pos + 1)
    let slots ← write s.slots pos x
    scatterFrom buckets (i + 1) xs ⟨next, slots⟩

/-! ## Arrays given by a function -/

/-- The array of length `n` that holds `f i` at `i`. -/
def tabulate {β : Type} (n : Nat) (f : Nat → β) : List β := (List.range n).map f

@[simp] theorem length_tabulate {β : Type} (n : Nat) (f : Nat → β) : (tabulate n f).length = n := by
  simp [tabulate]

theorem tabulate_get {β : Type} {n i : Nat} (f : Nat → β) (h : i < n) : (tabulate n f)[i]? = some (f i) := by
  simp [tabulate, h]

theorem tabulate_congr {β : Type} {n : Nat} {f g : Nat → β} (h : ∀ i < n, f i = g i) :
    tabulate n f = tabulate n g :=
  List.map_congr_left fun i hi => h i (List.mem_range.mp hi)

theorem write_tabulate {β : Type} {n i : Nat} (f : Nat → β) (v : β) (h : i < n) :
    write (tabulate n f) i v = some (tabulate n (Function.update f i v)) := by
  unfold write
  rw [length_tabulate, if_pos h]
  congr 1
  refine List.ext_getElem? fun j => ?_
  rcases Nat.lt_or_ge j n with hj | hj
  · rw [tabulate_get _ hj, List.getElem?_set]
    by_cases e : i = j
    · subst e
      simp [h]
    · rw [if_neg e, tabulate_get _ hj, Function.update_of_ne (Ne.symm e)]
  · rw [List.getElem?_eq_none (by simpa using hj), List.getElem?_eq_none (by simpa using hj)]

/-! ## Counting -/

/-- How many items of `xs` have key `b`. -/
def count (key : α → Nat) (xs : List α) (b : Nat) : Nat := (bucket key xs b).length

theorem count_cons (key : α → Nat) (x : α) (xs : List α) (b : Nat) :
    count key (x :: xs) b = count key xs b + if key x = b then 1 else 0 := by
  unfold count
  rw [bucket_cons]
  split <;> simp

theorem write_append_replicate {β : Type} (pre : List β) (n : Nat) (a v : β) :
    write (pre ++ List.replicate (n + 1) a) pre.length v = some (pre ++ [v] ++ List.replicate n a) := by
  unfold write
  rw [if_pos (by simp)]
  simp [List.set_append_right, List.replicate_succ]

theorem tallyFrom_eq (key : α → Nat) (n : Nat) (a : Nat) :
    ∀ (xs : List α) (pre : List Nat) (f : Nat → Nat), (∀ x ∈ xs, key x < n) →
      tallyFrom key pre.length xs ⟨tabulate n f, pre ++ List.replicate xs.length a⟩ =
        some ⟨tabulate n fun b => f b + count key xs b, pre ++ xs.map key⟩ := by
  intro xs
  induction xs with
  | nil => intro pre f _; simp [tallyFrom, count]
  | cons x xs ih =>
    intro pre f h
    have hx := h x (List.mem_cons_self)
    have := ih (pre ++ [key x]) (Function.update f (key x) (f (key x) + 1))
      fun y hy => h y (List.mem_cons_of_mem _ hy)
    simp only [List.length_append, List.length_cons, List.length_nil, Nat.zero_add] at this
    simp only [tallyFrom, List.length_cons, write_append_replicate, tabulate_get f hx,
      write_tabulate f _ hx, Option.bind_eq_bind, Option.bind_some, this]
    rw [List.map_cons, List.append_assoc, List.singleton_append]
    congr 2
    refine tabulate_congr fun b _ => ?_
    rw [count_cons]
    by_cases e : key x = b
    · subst e
      simp; omega
    · rw [Function.update_of_ne (Ne.symm e), if_neg e]; omega

/-! ## Offsets -/

/-- The sum of `f` below `n`: where bucket `n` starts when bucket `b` takes `f b` slots. -/
def start (f : Nat → Nat) : Nat → Nat
  | 0 => 0
  | n + 1 => start f n + f n

theorem start_succ (f : Nat → Nat) (n : Nat) : start f (n + 1) = start f n + f n := rfl

theorem start_le (f : Nat → Nat) {m n : Nat} (h : m ≤ n) : start f m ≤ start f n := by
  induction h with
  | refl => exact Nat.le_refl _
  | step _ ih => exact Nat.le_trans ih (Nat.le_add_right ..)

theorem start_congr {f g : Nat → Nat} {n : Nat} (h : ∀ i < n, f i = g i) : start f n = start g n := by
  induction n with
  | zero => rfl
  | succ n ih => rw [start_succ, start_succ, h n (Nat.lt_succ_self n), ih fun i hi => h i (Nat.lt_succ_of_lt hi)]

theorem tabulate_succ {β : Type} (n : Nat) (f : Nat → β) : tabulate (n + 1) f = tabulate n f ++ [f n] := by
  simp [tabulate, List.range_succ]

theorem foldl_tabulate (f : Nat → Nat) (n : Nat) : (tabulate n f).foldl (· + ·) 0 = start f n := by
  induction n with
  | zero => rfl
  | succ n ih => rw [tabulate_succ, List.foldl_append, ih, start_succ, List.foldl_cons, List.foldl_nil]

theorem runningSums_append (counts : List Nat) (acc c : Nat) :
    runningSums acc (counts ++ [c]) = runningSums acc counts ++ [counts.foldl (· + ·) acc + c] := by
  induction counts generalizing acc with
  | nil => rfl
  | cons d counts ih => rw [List.cons_append, runningSums, ih, runningSums, List.foldl_cons, List.cons_append]

/-- The running sums of the counts are the starts of the buckets, and the total. -/
theorem runningSums_tabulate (f : Nat → Nat) (n : Nat) : runningSums 0 (tabulate n f) = tabulate (n + 1) (start f) := by
  induction n with
  | zero => rfl
  | succ n ih => rw [tabulate_succ n f, runningSums_append, ih, foldl_tabulate, tabulate_succ (n + 1), start_succ]

/-- The groups of the first `n` buckets take as many slots as these buckets. -/
theorem length_group (key : α → Nat) (xs : List α) (n : Nat) :
    (group (List.range n) key xs).length = start (count key xs) n := by
  induction n with
  | zero => rfl
  | succ n ih =>
    rw [List.range_succ, group_append_keys, List.length_append, ih, start_succ, group_cons_key, group_no_keys,
      List.append_nil, count]

/-- Counting every bucket counts every item. -/
theorem start_count (key : α → Nat) (n : Nat) (xs : List α) (h : ∀ x ∈ xs, key x < n) :
    start (count key xs) n = xs.length := by
  have hg : (group (List.range n) key xs).Perm xs :=
    group_perm List.nodup_range fun x hx => List.mem_range.mpr (h x hx)
  rw [← length_group, hg.length_eq]

/-! ## Scattering -/

/-- The buckets one after the other, each its placed items, then its free slots. -/
def layout (n : Nat) (placed free : Nat → List α) : List α := (List.range n).flatMap fun b => placed b ++ free b

/-- The slots a bucket takes. -/
def size (placed free : Nat → List α) (b : Nat) : Nat := (placed b).length + (free b).length

/-- Each bucket's cursor: past what it has placed. -/
def cursors (n : Nat) (placed free : Nat → List α) : List Nat :=
  tabulate n fun b => start (size placed free) b + (placed b).length

theorem layout_succ (n : Nat) (placed free : Nat → List α) :
    layout (n + 1) placed free = layout n placed free ++ (placed n ++ free n) := by
  simp [layout, List.range_succ]

theorem length_layout (n : Nat) (placed free : Nat → List α) :
    (layout n placed free).length = start (size placed free) n := by
  induction n with
  | zero => rfl
  | succ n ih => rw [layout_succ, List.length_append, ih, start_succ, List.length_append, size]

theorem layout_congr {n : Nat} {placed placed' free free' : Nat → List α}
    (hp : ∀ b < n, placed b = placed' b) (hf : ∀ b < n, free b = free' b) :
    layout n placed free = layout n placed' free' :=
  List.flatMap_congr fun b hb => by rw [hp b (List.mem_range.mp hb), hf b (List.mem_range.mp hb)]

/-- A store at a bucket's cursor places the item in the bucket's first free slot. -/
theorem write_layout {n b : Nat} (placed free : Nat → List α) (x y : α) (rest : List α) (hb : b < n)
    (hf : free b = y :: rest) :
    write (layout n placed free) (start (size placed free) b + (placed b).length) x =
      some (layout n (Function.update placed b (placed b ++ [x])) (Function.update free b rest)) := by
  induction n with
  | zero => omega
  | succ n ih =>
    rw [layout_succ, layout_succ]
    unfold write at ih ⊢
    rcases Nat.lt_succ_iff_lt_or_eq.mp hb with hb | rfl
    · have hin : start (size placed free) b + (placed b).length < (layout n placed free).length := by
        have := ih hb
        split at this
        · assumption
        · cases this
      have hset := ih hb
      rw [if_pos hin] at hset
      rw [if_pos (by rw [List.length_append]; omega), List.set_append_left _ _ hin, Option.some.inj hset,
        Function.update_of_ne (by omega), Function.update_of_ne (by omega)]
    · rw [if_pos (by simp [length_layout, hf]), List.set_append_right _ _ (by simp [length_layout]),
        length_layout, hf]
      have hrest : layout b (Function.update placed b (placed b ++ [x])) (Function.update free b rest) =
          layout b placed free :=
        layout_congr (fun c hc => Function.update_of_ne (by omega) ..)
          (fun c hc => Function.update_of_ne (by omega) ..)
      simp [hrest]

/-- Placing an item keeps every bucket's size. -/
theorem size_update {placed free : Nat → List α} {b : Nat} {x y : α} {rest : List α} (hf : free b = y :: rest) :
    size (Function.update placed b (placed b ++ [x])) (Function.update free b rest) = size placed free := by
  funext c
  by_cases e : c = b
  · subst e
    simp [size, hf]; omega
  · simp [size, Function.update_of_ne e]

theorem cursors_update {n b : Nat} {placed free : Nat → List α} {x y : α} {rest : List α} (hb : b < n)
    (hf : free b = y :: rest) :
    write (cursors n placed free) b (start (size placed free) b + (placed b).length + 1) =
      some (cursors n (Function.update placed b (placed b ++ [x])) (Function.update free b rest)) := by
  rw [cursors, write_tabulate _ _ hb, cursors, size_update hf]
  congr 1
  refine tabulate_congr fun c _ => ?_
  by_cases e : c = b
  · subst e
    simp; omega
  · rw [Function.update_of_ne e, Function.update_of_ne e]

theorem scatterFrom_eq (key : α → Nat) (n : Nat) :
    ∀ (xs : List α) (pre : List Nat) (placed free : Nat → List α), (∀ x ∈ xs, key x < n) →
      (∀ b < n, (free b).length = count key xs b) →
      scatterFrom (pre ++ xs.map key) pre.length xs ⟨cursors n placed free, layout n placed free⟩ =
        some ⟨cursors n (fun b => placed b ++ bucket key xs b) (fun _ => []),
          layout n (fun b => placed b ++ bucket key xs b) (fun _ => [])⟩ := by
  intro xs
  induction xs with
  | nil =>
    intro pre placed free _ hfree
    have hnil : ∀ b < n, free b = [] := fun b hb => List.eq_nil_of_length_eq_zero (by simpa [count] using hfree b hb)
    simp only [scatterFrom, bucket_nil, List.append_nil, Option.some.injEq, Scatter.mk.injEq]
    refine ⟨tabulate_congr fun b hb => ?_, layout_congr (fun _ _ => rfl) hnil⟩
    rw [start_congr (g := size placed fun _ => []) fun c hc => by rw [size, size, hnil c (by omega)]]
  | cons x xs ih =>
    intro pre placed free hkey hfree
    have hx := hkey x (List.mem_cons_self)
    obtain ⟨y, rest, hy⟩ : ∃ y rest, free (key x) = y :: rest := by
      have := hfree (key x) hx
      rw [count_cons, if_pos rfl] at this
      exact List.exists_cons_of_length_pos (by omega)
    have hlen : ∀ b < n, (Function.update free (key x) rest b).length = count key xs b := by
      intro b hb
      have := hfree b hb
      rw [count_cons] at this
      by_cases e : b = key x
      · subst e
        simp only [Function.update_self, hy, List.length_cons, if_true] at this ⊢
        omega
      · rw [Function.update_of_ne e]
        rw [if_neg (Ne.symm e)] at this
        exact this
    have step := ih (pre ++ [key x]) (Function.update placed (key x) (placed (key x) ++ [x]))
      (Function.update free (key x) rest) (fun z hz => hkey z (List.mem_cons_of_mem _ hz)) hlen
    have hplaced : (fun b => Function.update placed (key x) (placed (key x) ++ [x]) b ++ bucket key xs b) =
        fun b => placed b ++ bucket key (x :: xs) b := by
      funext b
      rw [bucket_cons]
      by_cases e : key x = b
      · subst e
        simp
      · rw [Function.update_of_ne (Ne.symm e), if_neg e]
    have hbucket : (pre ++ key x :: xs.map key)[pre.length]? = some (key x) := by simp
    have hcursor : (cursors n placed free)[key x]? =
        some (start (size placed free) (key x) + (placed (key x)).length) := tabulate_get _ hx
    simp only [List.length_append, List.length_cons, List.length_nil, Nat.zero_add, List.append_assoc,
      List.cons_append, List.nil_append, hplaced] at step
    simp only [scatterFrom, List.map_cons, hbucket, hcursor, cursors_update (x := x) hx hy,
      write_layout placed free x y rest hx hy, Option.bind_eq_bind, Option.bind_some, step]

/-! ## The sort -/

/-- What a run leaves: the counts, the offsets (one past the last bucket included) and the
    items in their new order. -/
structure Sorted (α : Type) where
  counts : List Nat
  offsets : List Nat
  items : List α
  deriving DecidableEq, Repr

/-- The whole sort into `n` buckets. -/
def countingSort [Inhabited α] (n : Nat) (key : α → Nat) (xs : List α) : Option (Sorted α) := do
  let tally ← tallyFrom key 0 xs ⟨List.replicate n 0, List.replicate xs.length 0⟩
  let offsets := runningSums 0 tally.counts
  let scattered ← scatterFrom tally.buckets 0 xs ⟨offsets.dropLast, List.replicate xs.length default⟩
  return ⟨tally.counts, offsets, scattered.slots⟩

theorem layout_free (n : Nat) (a : α) (f : Nat → Nat) :
    layout n (fun _ => []) (fun b => List.replicate (f b) a) = List.replicate (start f n) a := by
  induction n with
  | zero => rfl
  | succ n ih => rw [layout_succ, ih, start_succ, List.nil_append, List.replicate_append_replicate]

theorem replicate_tabulate {β : Type} (n : Nat) (a : β) : List.replicate n a = tabulate n fun _ => a := by
  refine (List.eq_replicate_iff.mpr ⟨by simp, fun b hb => ?_⟩).symm
  simp only [tabulate, List.mem_map] at hb
  obtain ⟨_, _, rfl⟩ := hb
  rfl

theorem tally_eq {n : Nat} {key : α → Nat} {xs : List α} (h : ∀ x ∈ xs, key x < n) :
    tallyFrom key 0 xs ⟨List.replicate n 0, List.replicate xs.length 0⟩ =
      some ⟨tabulate n (count key xs), xs.map key⟩ := by
  have tally := tallyFrom_eq key n 0 xs [] (fun _ => 0) h
  simp only [List.length_nil, List.nil_append, Nat.zero_add] at tally
  rw [replicate_tabulate, tally]

/-- The cursors start at the offsets, without the total. -/
theorem dropLast_offsets (f : Nat → Nat) (n : Nat) : (tabulate (n + 1) (start f)).dropLast = tabulate n (start f) := by
  rw [tabulate_succ, List.dropLast_concat]

/-- Scattering into empty slots from the offsets on groups the items by bucket. -/
theorem scatter_group {n : Nat} {key : α → Nat} {xs : List α} (h : ∀ x ∈ xs, key x < n) (a : α) :
    ∃ next, scatterFrom (xs.map key) 0 xs ⟨tabulate n (start (count key xs)), List.replicate xs.length a⟩ =
      some ⟨next, group (List.range n) key xs⟩ := by
  have scatter := scatterFrom_eq key n xs [] (fun _ => []) (fun b => List.replicate (count key xs b) a) h (by simp)
  simp only [List.length_nil, List.nil_append] at scatter
  rw [layout_free, start_count key n xs h] at scatter
  have hcursors : cursors n (fun _ => ([] : List α)) (fun b => List.replicate (count key xs b) a) =
      tabulate n (start (count key xs)) := by
    refine tabulate_congr fun b _ => ?_
    rw [List.length_nil, Nat.add_zero]
    exact start_congr fun c _ => by simp [size]
  rw [hcursors] at scatter
  exact ⟨_, by simpa [layout, group] using scatter⟩

/-- With every key below the bucket count, no access is out of bounds and the items come out
    grouped by bucket, each bucket in its old order. -/
theorem countingSort_eq [Inhabited α] {n : Nat} {key : α → Nat} {xs : List α} (h : ∀ x ∈ xs, key x < n) :
    countingSort n key xs =
      some ⟨tabulate n (count key xs), tabulate (n + 1) (start (count key xs)), group (List.range n) key xs⟩ := by
  obtain ⟨next, scatter⟩ := scatter_group h default
  simp only [countingSort, tally_eq h, Option.bind_eq_bind, Option.bind_some, runningSums_tabulate, dropLast_offsets,
    scatter, pure]

/-- The slice between a bucket's offset and the next one's is the bucket. -/
theorem slice_group {n b : Nat} (key : α → Nat) (xs : List α) (hb : b < n) :
    ((group (List.range n) key xs).drop (start (count key xs) b)).take (count key xs b) = bucket key xs b := by
  obtain ⟨m, rfl⟩ : ∃ m, n = b + 1 + m := ⟨n - (b + 1), by omega⟩
  rw [List.range_add, group_append_keys, List.range_succ, group_append_keys, group_cons_key, List.append_assoc,
    List.append_assoc, ← length_group, List.drop_left, count, List.take_left]

/-! ## The stores of the scatter -/

/-- The slots that `scatterFrom` stores to, store by store. -/
def storesFrom (buckets : List Nat) : Nat → List α → List Nat → Option (List Nat)
  | _, [], _ => some []
  | i, _ :: xs, next => do
    let bucket ← buckets[i]?
    let pos ← next[bucket]?
    let next ← write next bucket (pos + 1)
    let stores ← storesFrom buckets (i + 1) xs next
    return pos :: stores

/-- The slots the sort's scatter stores to. -/
def countingStores (n : Nat) (key : α → Nat) (xs : List α) : Option (List Nat) := do
  let tally ← tallyFrom key 0 xs ⟨List.replicate n 0, List.replicate xs.length 0⟩
  storesFrom tally.buckets 0 xs (runningSums 0 tally.counts).dropLast

/-- Store each item at its slot, one after the other. -/
def storeAll : List Nat → List α → List α → List α
  | p :: ps, x :: xs, slots => storeAll ps xs (slots.set p x)
  | _, _, slots => slots

theorem storeAll_get_not_mem {ps : List Nat} {p : Nat} (hp : p ∉ ps) (xs slots : List α) :
    (storeAll ps xs slots)[p]? = slots[p]? := by
  induction ps generalizing xs slots with
  | nil => cases xs <;> rfl
  | cons q ps ih =>
    rw [List.mem_cons, not_or] at hp
    cases xs with
    | nil => rfl
    | cons x xs => rw [storeAll, ih hp.2, List.getElem?_set_ne (Ne.symm hp.1)]

/-- What is stored at distinct slots stays there. -/
theorem storeAll_get {ps : List Nat} (hd : ps.Nodup) {xs slots : List α} (hin : ∀ p ∈ ps, p < slots.length)
    (hlen : ps.length = xs.length) {j p : Nat} (hj : ps[j]? = some p) : (storeAll ps xs slots)[p]? = xs[j]? := by
  induction ps generalizing xs slots j with
  | nil => cases hj
  | cons q ps ih =>
    obtain ⟨hq, hd⟩ := List.nodup_cons.mp hd
    cases xs with
    | nil => cases hlen
    | cons x xs =>
      rw [storeAll]
      cases j with
      | zero =>
        obtain rfl : q = p := Option.some.inj hj
        have hlt : q < slots.length := hin q List.mem_cons_self
        rw [storeAll_get_not_mem hq, List.getElem?_set_self hlt]
        rfl
      | succ j =>
        refine ih hd (fun p hp => ?_) (Nat.succ.inj hlen) hj
        rw [List.length_set]
        exact hin p (List.mem_cons_of_mem _ hp)

/-- A scatter is its stores, all of them in bounds. -/
theorem scatterFrom_stores {buckets : List Nat} {xs : List α} {i : Nat} {next next' : List Nat} {slots slots' : List α}
    (h : scatterFrom buckets i xs ⟨next, slots⟩ = some ⟨next', slots'⟩) :
    ∃ ps, storesFrom buckets i xs next = some ps ∧ ps.length = xs.length ∧ (∀ p ∈ ps, p < slots.length) ∧
      slots' = storeAll ps xs slots := by
  induction xs generalizing i next slots with
  | nil =>
    cases h
    exact ⟨[], rfl, rfl, by simp, rfl⟩
  | cons x xs ih =>
    simp only [scatterFrom, Option.bind_eq_bind, Option.bind_eq_some_iff] at h
    obtain ⟨bucket, hbucket, pos, hpos, cursors, hnext, stored, hslots, hrest⟩ := h
    obtain ⟨ps, hps, hlen, hin, ht⟩ := ih hrest
    have hwrite : pos < slots.length ∧ slots.set pos x = stored := by
      unfold write at hslots
      split at hslots
      · exact ⟨‹_›, Option.some.inj hslots⟩
      · cases hslots
    obtain ⟨hlt, rfl⟩ := hwrite
    refine ⟨pos :: ps, ?_, by simp [hlen], fun p hp => ?_, ht⟩
    · simp [storesFrom, hbucket, hpos, hnext, hps]
    · rcases List.mem_cons.mp hp with rfl | hp
      · exact hlt
      · simpa using hin p hp

/-- The stores do not look at the items. -/
theorem storesFrom_map {β : Type} (f : α → β) (buckets : List Nat) (xs : List α) (i : Nat) (next : List Nat) :
    storesFrom buckets i (xs.map f) next = storesFrom buckets i xs next := by
  induction xs generalizing i next with
  | nil => rfl
  | cons x xs ih => simp only [List.map_cons, storesFrom, ih]

/-- Each slot is stored to exactly once, and what is stored there stays. -/
theorem countingStores_eq {n : Nat} {key : α → Nat} {xs : List α} (h : ∀ x ∈ xs, key x < n) :
    ∃ ps, countingStores n key xs = some ps ∧ ps.Perm (List.range xs.length) ∧
      ∀ (j p : Nat), ps[j]? = some p → (group (List.range n) key xs)[p]? = xs[j]? := by
  -- marked items show which slots were stored to: one that was not is still unmarked
  have hmarked : ∀ x ∈ xs.map some, (fun o : Option α => o.elim 0 key) x < n := by
    intro o ho
    obtain ⟨x, hx, rfl⟩ := List.mem_map.mp ho
    exact h x hx
  obtain ⟨next, marked⟩ := scatter_group hmarked none
  have hkeys : (xs.map some).map (fun o : Option α => o.elim 0 key) = xs.map key := by simp
  have hcount : count (fun o : Option α => o.elim 0 key) (xs.map some) = count key xs := by
    funext b
    rw [count, count, bucket, bucket, List.filter_map, List.length_map]
    rfl
  rw [hkeys, hcount, List.length_map] at marked
  obtain ⟨ps, hps, hlen, hin, hslots⟩ := scatterFrom_stores marked
  rw [storesFrom_map] at hps
  simp only [List.length_map, List.length_replicate] at hlen hin
  have hall : List.range xs.length ⊆ ps := by
    intro p hp
    rw [List.mem_range] at hp
    by_contra hn
    have hget : (group (List.range n) (fun o : Option α => o.elim 0 key) (xs.map some))[p]? = some none := by
      rw [hslots, storeAll_get_not_mem hn]
      simp [hp]
    obtain ⟨hmem, -⟩ := mem_group.mp (List.mem_of_getElem? hget)
    simp at hmem
  have hperm : ps.Perm (List.range xs.length) :=
    ((List.subperm_of_subset List.nodup_range hall).perm_of_length_le (by simp [hlen])).symm
  refine ⟨ps, ?_, hperm, fun j p hj => ?_⟩
  · simp only [countingStores, tally_eq h, Option.bind_eq_bind, Option.bind_some, runningSums_tabulate,
      dropLast_offsets, hps]
  · cases xs with
    | nil => simp_all
    | cons x xs =>
      obtain ⟨next', scatter⟩ := scatter_group h x
      obtain ⟨qs, hqs, hqlen, hqin, hqslots⟩ := scatterFrom_stores scatter
      obtain rfl : ps = qs := Option.some.inj (hps.symm.trans hqs)
      rw [hqslots]
      exact storeAll_get (hperm.nodup_iff.mpr List.nodup_range) hqin hqlen hj

end Stgx.Lib.CountingSort
