/-
  Stgx.Lib.BreadthFirst — breadth-first search that numbers what it finds.

  `search` takes the items in the order they were found and looks at the successors of
  each: one that is there already is a known arc, any other is found now, unless `skip`
  leaves it out. Every item gets a label when it is found, and the arcs of its own.
  - `search_explored`: when the search ends, it has found each item once, all of them
    reached from the first; the arcs of an item are its successors among the items found,
    and what is not found was skipped (`Explored`). The arcs by which items were found,
    read in order, number them.
  - `search_ends`: it ends when everything reached lies in a finite set.
  - `Explored.shortest`: without skipping, the arcs by which items were found form
    shortest paths from the first.
-/

import Mathlib.Data.List.Nodup
import Mathlib.Data.List.Perm.Subperm
import Mathlib.Logic.Relation

namespace Stgx.Lib.BreadthFirst

/-- The position of a successor, and whether it had been found before. -/
abbrev Arc := ℕ × Bool

/-- While one item is expanded: the items found, their labels, and the arcs of this one. -/
structure Expansion (α β : Type) where
  found : List α
  labels : List β
  arcs : List Arc

structure Search (α β : Type) where
  found : List α
  labels : List β
  /-- Of the items expanded so far, which are the first ones found. -/
  arcs : List (List Arc)

section Search

variable {α β : Type} [BEq α] [LawfulBEq α] (next : α → List α) (label : α → α → β) (skip : List α → α → Bool)

def visit (x : α) (e : Expansion α β) (t : α) : Expansion α β :=
  if t ∈ e.found then { e with arcs := e.arcs ++ [(e.found.idxOf t, true)] }
  else if skip e.found t then e
  else ⟨e.found ++ [t], e.labels ++ [label x t], e.arcs ++ [(e.found.length, false)]⟩

def expand (x : α) (s : Search α β) : Search α β :=
  let e := (next x).foldl (visit label skip x) ⟨s.found, s.labels, []⟩
  ⟨e.found, e.labels, s.arcs ++ [e.arcs]⟩

theorem expand_eq (x : α) (s : Search α β) :
    expand next label skip x s =
      ⟨((next x).foldl (visit label skip x) ⟨s.found, s.labels, []⟩).found,
        ((next x).foldl (visit label skip x) ⟨s.found, s.labels, []⟩).labels,
        s.arcs ++ [((next x).foldl (visit label skip x) ⟨s.found, s.labels, []⟩).arcs]⟩ := rfl

/-- Expand the items found, one after the other, until none is left. -/
def search : ℕ → Search α β → Option (Search α β)
  | 0, _ => none
  | fuel + 1, s =>
    match s.found[s.arcs.length]? with
    | none => some s
    | some x => search fuel (expand next label skip x s)

theorem search_next {s : Search α β} {x : α} (h : s.found[s.arcs.length]? = some x) (fuel : ℕ) :
    search next label skip (fuel + 1) s = search next label skip fuel (expand next label skip x s) := by
  rw [search, h]

theorem search_done {s : Search α β} (h : s.found[s.arcs.length]? = none) (fuel : ℕ) :
    search next label skip (fuel + 1) s = some s := by
  rw [search, h]

def start (first : α) (firstLabel : β) : Search α β := ⟨[first], [firstLabel], []⟩

/-! ## One expansion -/

/-- What is skipped stays skipped as more is found. -/
def Monotone : Prop := ∀ found more t, skip found t = true → skip (found ++ more) t = true

/-- The arcs by which items are found. -/
def newly (arcs : List Arc) : List ℕ := (arcs.filter fun a => !a.2).map Prod.fst

/-- What the successors `ts` of `x` add to the items in `found`. -/
structure Adds (x : α) (ts found new : List α) (labels : List β) (arcs : List Arc) : Prop where
  nodup : (found ++ new).Nodup
  isNext : ∀ t ∈ new, t ∈ ts ∧ skip found t = false
  skipped : ∀ t ∈ ts, t ∉ found ++ new → skip (found ++ new) t = true
  labels : labels = new.map (label x)
  targets : arcs.map Prod.fst = (ts.filter (· ∈ found ++ new)).map (found ++ new).idxOf
  discoveries : newly arcs = List.range' found.length new.length

variable {next label skip} {x t : α} {ts found new : List α} {labels : List β} {arcs : List Arc}

theorem Adds.nil (h : found.Nodup) : Adds label skip x [] found [] [] [] where
  nodup := by simpa using h
  isNext t ht := absurd ht List.not_mem_nil
  skipped t ht := absurd ht List.not_mem_nil
  labels := rfl
  targets := rfl
  discoveries := rfl

/-- A successor found before. -/
theorem Adds.known (ht : t ∈ found) (h : Adds label skip x ts found new labels arcs) :
    Adds label skip x (t :: ts) found new labels ((found.idxOf t, true) :: arcs) where
  nodup := h.nodup
  isNext u hu := ⟨List.mem_cons_of_mem _ (h.isNext u hu).1, (h.isNext u hu).2⟩
  skipped u hu := by
    rcases List.mem_cons.mp hu with rfl | hu
    · exact fun hn => absurd (List.mem_append_left _ ht) hn
    · exact h.skipped u hu
  labels := h.labels
  targets := by
    rw [List.filter_cons_of_pos (by simp [ht]), List.map_cons, List.map_cons, List.idxOf_append_of_mem ht, h.targets]
  discoveries := h.discoveries

/-- A successor left out, now and from now on. -/
theorem Adds.left (hmono : Monotone skip) (ht : t ∉ found) (hskip : skip found t = true)
    (h : Adds label skip x ts found new labels arcs) : Adds label skip x (t :: ts) found new labels arcs := by
  have hnot : t ∉ found ++ new := by
    intro hm
    rcases List.mem_append.mp hm with hm | hm
    · exact ht hm
    · rw [(h.isNext t hm).2] at hskip
      cases hskip
  refine ⟨h.nodup, fun u hu => ?_, fun u hu => ?_, h.labels, ?_, h.discoveries⟩
  · exact ⟨List.mem_cons_of_mem _ (h.isNext u hu).1, (h.isNext u hu).2⟩
  · rcases List.mem_cons.mp hu with rfl | hu
    · exact fun _ => hmono _ _ _ hskip
    · exact h.skipped u hu
  · rw [List.filter_cons_of_neg (by simpa using hnot)]
    exact h.targets

/-- A successor found now, at the next position. -/
theorem Adds.discovered (hmono : Monotone skip) (ht : t ∉ found) (hskip : skip found t = false)
    (h : Adds label skip x ts (found ++ [t]) new labels arcs) :
    Adds label skip x (t :: ts) found (t :: new) (label x t :: labels) ((found.length, false) :: arcs) := by
  obtain ⟨hnodup, hnext, hskipped, hlabels, htargets, hdiscoveries⟩ := h
  have happ : found ++ [t] ++ new = found ++ t :: new := by simp
  rw [happ] at hnodup hskipped htargets
  refine ⟨hnodup, fun u hu => ?_, fun u hu => ?_, by rw [hlabels, List.map_cons], ?_, ?_⟩
  · rcases List.mem_cons.mp hu with rfl | hu
    · exact ⟨List.mem_cons_self, hskip⟩
    · obtain ⟨hts, hnew⟩ := hnext u hu
      refine ⟨List.mem_cons_of_mem _ hts, ?_⟩
      by_contra hc
      rw [hmono _ [t] u (by simpa using hc)] at hnew
      cases hnew
  · rcases List.mem_cons.mp hu with rfl | hu
    · exact fun hc => absurd (by simp) hc
    · exact hskipped u hu
  · have hat : (found ++ t :: new).idxOf t = found.length := by
      rw [List.idxOf_append_of_notMem ht]
      simp
    rw [List.filter_cons_of_pos (by simp), List.map_cons, List.map_cons, hat, htargets]
  · show found.length :: newly arcs = _
    rw [hdiscoveries, List.length_append, List.length_singleton, List.length_cons, List.range'_succ]

theorem foldl_visit (hmono : Monotone skip) (x : α) (ts : List α) :
    ∀ e : Expansion α β, e.found.Nodup →
      ∃ new labels arcs, ts.foldl (visit label skip x) e = ⟨e.found ++ new, e.labels ++ labels, e.arcs ++ arcs⟩ ∧
        Adds label skip x ts e.found new labels arcs := by
  induction ts with
  | nil =>
    intro e he
    exact ⟨[], [], [], by simp, Adds.nil he⟩
  | cons t ts ih =>
    intro e he
    rw [List.foldl_cons, visit]
    split
    · rename_i ht
      obtain ⟨new, labels, arcs, hfold, h⟩ := ih { e with arcs := e.arcs ++ [(e.found.idxOf t, true)] } he
      exact ⟨new, labels, _, by rw [hfold]; simp, h.known ht⟩
    · rename_i ht
      split
      · rename_i hskip
        obtain ⟨new, labels, arcs, hfold, h⟩ := ih e he
        exact ⟨new, labels, arcs, hfold, h.left hmono ht hskip⟩
      · rename_i hskip
        have hnodup : (e.found ++ [t]).Nodup := by
          rw [List.nodup_append]
          exact ⟨he, List.nodup_singleton t, fun u hu v hv huv => ht (by rwa [huv, List.mem_singleton.mp hv] at hu)⟩
        obtain ⟨new, labels, arcs, hfold, h⟩ :=
          ih ⟨e.found ++ [t], e.labels ++ [label x t], e.arcs ++ [(e.found.length, false)]⟩ hnodup
        exact ⟨t :: new, _, _, by rw [hfold]; simp, h.discovered hmono ht (by simpa using hskip)⟩

/-- An item is found at the position its arc names. -/
theorem Adds.at_position (h : Adds label skip x ts found new labels arcs) {a : Arc} (ha : a ∈ arcs)
    (hnew : a.2 = false) :
    ∃ k t, a.1 = found.length + k ∧ new[k]? = some t := by
  have hmem : a.1 ∈ newly arcs := List.mem_map_of_mem (List.mem_filter.mpr ⟨ha, by rw [hnew]; rfl⟩)
  rw [h.discoveries, List.mem_range'_1] at hmem
  have hlt : a.1 - found.length < new.length := by omega
  exact ⟨a.1 - found.length, new[a.1 - found.length], by omega, List.getElem?_eq_getElem hlt⟩

/-! ## The search -/

variable (next label skip) in
/-- What holds while searching; `first` is where the search starts. -/
structure Searched (first : α) (firstLabel : β) (s : Search α β) : Prop where
  nodup : s.found.Nodup
  starts : s.found[0]? = some first
  expanded : s.arcs.length ≤ s.found.length
  labelled : s.labels.length = s.found.length
  reached : ∀ y ∈ s.found, Relation.ReflTransGen (fun x y => y ∈ next x) first y
  targets : ∀ (i : ℕ) (arcs : List Arc), s.arcs[i]? = some arcs → ∃ x, s.found[i]? = some x ∧
    arcs.map Prod.fst = ((next x).filter (· ∈ s.found)).map s.found.idxOf ∧
      ∀ t ∈ next x, t ∉ s.found → skip s.found t = true
  /-- The arcs by which items were found number them. -/
  discoveries : newly s.arcs.flatten = List.range' 1 (s.found.length - 1)
  /-- An arc leads to an item found before the later items were expanded. -/
  ordered : s.arcs.Pairwise fun arcs later : List Arc => ∀ a ∈ arcs, ∀ b ∈ later, b.2 = false → a.1 < b.1
  forward : ∀ (i : ℕ) (arcs : List Arc), s.arcs[i]? = some arcs → ∀ a ∈ arcs, a.2 = false → i < a.1
  labels : ∀ (i : ℕ) (arcs : List Arc) (x : α), s.arcs[i]? = some arcs → s.found[i]? = some x →
    ∀ a ∈ arcs, a.2 = false →
    ∃ t, s.found[a.1]? = some t ∧ s.labels[a.1]? = some (label x t)
  firstLabel : s.labels[0]? = some firstLabel

theorem searched_start (first : α) (firstLabel : β) :
    Searched next label skip first firstLabel (start first firstLabel) where
  nodup := List.nodup_singleton first
  starts := rfl
  expanded := Nat.zero_le _
  labelled := rfl
  reached y hy := by
    obtain rfl := List.mem_singleton.mp hy
    exact Relation.ReflTransGen.refl
  targets i arcs h := absurd h (by simp [start])
  discoveries := rfl
  ordered := List.Pairwise.nil
  forward i arcs h := absurd h (by simp [start])
  labels i arcs x h := absurd h (by simp [start])
  firstLabel := rfl

variable {first : α} {firstLabel : β} {s : Search α β}

theorem Searched.target_lt (h : Searched next label skip first firstLabel s) {i : ℕ} {arcs : List Arc}
    (hi : s.arcs[i]? = some arcs) {a : Arc} (ha : a ∈ arcs) : a.1 < s.found.length := by
  obtain ⟨x, -, htargets, -⟩ := h.targets i arcs hi
  have hmem : a.1 ∈ arcs.map Prod.fst := List.mem_map_of_mem ha
  rw [htargets] at hmem
  obtain ⟨t, ht, he⟩ := List.mem_map.mp hmem
  rw [← he]
  exact List.idxOf_lt_length_iff.mpr (by simpa using (List.mem_filter.mp ht).2)

/-- What a successor of an expanded item is now, it stays. -/
theorem Adds.targets_old (hmono : Monotone skip) (hadds : Adds label skip x ts found new labels arcs) {ys : List α}
    (h : ∀ t ∈ ys, t ∉ found → skip found t = true) :
    (ys.filter (· ∈ found ++ new)).map (found ++ new).idxOf = (ys.filter (· ∈ found)).map found.idxOf ∧
      ∀ t ∈ ys, t ∉ found ++ new → skip (found ++ new) t = true := by
  have hsame : ys.filter (· ∈ found ++ new) = ys.filter (· ∈ found) := by
    refine List.filter_congr fun t ht => ?_
    rw [decide_eq_decide]
    constructor
    · intro hm
      rcases List.mem_append.mp hm with hm | hm
      · exact hm
      · by_contra hn
        have hskip := h t ht hn
        rw [(hadds.isNext t hm).2] at hskip
        cases hskip
    · exact fun hm => List.mem_append_left _ hm
  rw [hsame]
  constructor
  · refine List.map_congr_left fun t ht => List.idxOf_append_of_mem ?_
    simpa using (List.mem_filter.mp ht).2
  · exact fun t ht hn => hmono _ _ _ (h t ht fun hm => hn (List.mem_append_left _ hm))

/-- The arcs of the items expanded before, and those of the one expanded now. -/
theorem getElem?_concat {γ : Type} {l : List γ} {c d : γ} {i : ℕ} (h : (l ++ [c])[i]? = some d) :
    l[i]? = some d ∨ i = l.length ∧ d = c := by
  rcases Nat.lt_trichotomy i l.length with hi | rfl | hi
  · exact Or.inl (by rwa [List.getElem?_append_left hi] at h)
  · exact Or.inr ⟨rfl, by simpa using h.symm⟩
  · rw [List.getElem?_eq_none (by simp; omega)] at h
    cases h

theorem getElem?_append_of_some {γ : Type} {l l' : List γ} {i : ℕ} {c : γ} (h : l[i]? = some c) :
    (l ++ l')[i]? = some c := by
  rw [List.getElem?_append_left (List.getElem?_eq_some_iff.mp h).1]
  exact h

section Expand

variable (hmono : Monotone skip) (h : Searched next label skip first firstLabel s)
  (hx : s.found[s.arcs.length]? = some x) (hadds : Adds label skip x (next x) s.found new labels arcs)

include h hx hadds

include hmono in
theorem Searched.targets_expand (i : ℕ) (as : List Arc) (hi : (s.arcs ++ [arcs])[i]? = some as) :
    ∃ y, (s.found ++ new)[i]? = some y ∧
      as.map Prod.fst = ((next y).filter (· ∈ s.found ++ new)).map (s.found ++ new).idxOf ∧
      ∀ t ∈ next y, t ∉ s.found ++ new → skip (s.found ++ new) t = true := by
  rcases getElem?_concat hi with hi | ⟨rfl, rfl⟩
  · obtain ⟨y, hy, htargets, hskipped⟩ := h.targets i as hi
    have hold := hadds.targets_old hmono hskipped
    exact ⟨y, getElem?_append_of_some hy, htargets.trans hold.1.symm, hold.2⟩
  · exact ⟨x, getElem?_append_of_some hx, hadds.targets, hadds.skipped⟩

theorem Searched.discoveries_expand :
    newly (s.arcs ++ [arcs]).flatten = List.range' 1 ((s.found ++ new).length - 1) := by
  have hd := h.discoveries
  have hd' := hadds.discoveries
  have hlt := (List.getElem?_eq_some_iff.mp hx).1
  simp only [newly, List.flatten_append, List.filter_append, List.map_append, List.flatten_singleton] at hd hd' ⊢
  rw [hd, hd', List.length_append, show s.found.length + new.length - 1 = (s.found.length - 1) + new.length by omega,
    ← List.range'_append_1, show 1 + (s.found.length - 1) = s.found.length by omega]

omit hx in
theorem Searched.ordered_expand :
    (s.arcs ++ [arcs]).Pairwise fun arcs later : List Arc => ∀ a ∈ arcs, ∀ b ∈ later, b.2 = false → a.1 < b.1 := by
  rw [List.pairwise_append]
  refine ⟨h.ordered, List.pairwise_singleton _ _, fun as has bs hbs a ha b hb hnew => ?_⟩
  obtain ⟨i, hi⟩ := List.mem_iff_getElem?.mp has
  rw [List.mem_singleton.mp hbs] at hb
  obtain ⟨k, t, hk, -⟩ := hadds.at_position hb hnew
  have := h.target_lt hi ha
  omega

theorem Searched.labels_expand (i : ℕ) (as : List Arc) (y : α) (hi : (s.arcs ++ [arcs])[i]? = some as)
    (hy : (s.found ++ new)[i]? = some y) (a : Arc) (ha : a ∈ as) (hnew : a.2 = false) :
    ∃ t, (s.found ++ new)[a.1]? = some t ∧ (s.labels ++ labels)[a.1]? = some (label y t) := by
  rcases getElem?_concat hi with hi | ⟨rfl, rfl⟩
  · obtain ⟨z, hz, -⟩ := h.targets i as hi
    rw [getElem?_append_of_some hz] at hy
    obtain rfl := Option.some.inj hy
    obtain ⟨t, ht, hlabel⟩ := h.labels i as z hi hz a ha hnew
    exact ⟨t, getElem?_append_of_some ht, getElem?_append_of_some hlabel⟩
  · rw [getElem?_append_of_some hx] at hy
    obtain rfl := Option.some.inj hy
    obtain ⟨k, t, hk, ht⟩ := hadds.at_position ha hnew
    refine ⟨t, ?_, ?_⟩
    · rw [hk, List.getElem?_append_right (by omega), Nat.add_sub_cancel_left]
      exact ht
    · rw [hk, List.getElem?_append_right (by rw [h.labelled]; omega), h.labelled, Nat.add_sub_cancel_left, hadds.labels,
        List.getElem?_map, ht, Option.map_some]

end Expand

theorem expand_adds (hmono : Monotone skip) (h : s.found.Nodup) (x : α) :
    ∃ new labels arcs, expand next label skip x s = ⟨s.found ++ new, s.labels ++ labels, s.arcs ++ [arcs]⟩ ∧
      Adds label skip x (next x) s.found new labels arcs := by
  obtain ⟨new, labels, arcs, hfold, hadds⟩ := foldl_visit hmono x (next x) ⟨s.found, s.labels, []⟩ h
  exact ⟨new, labels, arcs, by rw [expand_eq, hfold]; rfl, hadds⟩

theorem expand_nodup (hmono : Monotone skip) (h : s.found.Nodup) (x : α) :
    (expand next label skip x s).found.Nodup := by
  obtain ⟨new, labels, arcs, hs, hadds⟩ := expand_adds hmono h x
  rw [hs]
  exact hadds.nodup

theorem expand_arcs_length (x : α) : (expand next label skip x s).arcs.length = s.arcs.length + 1 := by
  rw [expand_eq, List.length_append, List.length_singleton]

theorem searched_expand (hmono : Monotone skip) (h : Searched next label skip first firstLabel s)
    (hx : s.found[s.arcs.length]? = some x) :
    Searched next label skip first firstLabel (expand next label skip x s) := by
  obtain ⟨new, labels, arcs, hs, hadds⟩ := expand_adds hmono h.nodup x
  have hlt : s.arcs.length < s.found.length := (List.getElem?_eq_some_iff.mp hx).1
  rw [hs]
  constructor
  · exact hadds.nodup
  · exact getElem?_append_of_some h.starts
  · simp only [List.length_append, List.length_singleton]
    omega
  · rw [List.length_append, List.length_append, h.labelled, hadds.labels, List.length_map]
  · intro y hy
    rcases List.mem_append.mp hy with hy | hy
    · exact h.reached y hy
    · exact (h.reached x (List.mem_of_getElem? hx)).tail (hadds.isNext y hy).1
  · exact h.targets_expand hmono hx hadds
  · exact h.discoveries_expand hx hadds
  · exact h.ordered_expand hadds
  · intro i as hi a ha hnew
    rcases getElem?_concat hi with hi | ⟨rfl, rfl⟩
    · exact h.forward i as hi a ha hnew
    · obtain ⟨k, t, hk, -⟩ := hadds.at_position ha hnew
      omega
  · exact h.labels_expand hx hadds
  · exact getElem?_append_of_some h.firstLabel

/-! ## The end of it -/

variable (next label skip) in
/-- A search that has expanded all it found. -/
structure Explored (first : α) (firstLabel : β) (s : Search α β) : Prop extends
    Searched next label skip first firstLabel s where
  all : s.arcs.length = s.found.length

theorem search_explored (hmono : Monotone skip) (fuel : ℕ) :
    ∀ s r, Searched next label skip first firstLabel s → search next label skip fuel s = some r →
      Explored next label skip first firstLabel r := by
  induction fuel with
  | zero =>
    intro s r _ hr
    cases hr
  | succ fuel ih =>
    intro s r h hr
    unfold search at hr
    split at hr
    · rename_i hnone
      obtain rfl := Option.some.inj hr
      exact ⟨h, Nat.le_antisymm h.expanded (List.getElem?_eq_none_iff.mp hnone)⟩
    · rename_i x hx
      exact ih _ r (searched_expand hmono h hx) hr

/-- More fuel changes nothing. -/
theorem search_more {fuel fuel' : ℕ} (hle : fuel ≤ fuel') :
    ∀ s r, search next label skip fuel s = some r → search next label skip fuel' s = some r := by
  induction fuel generalizing fuel' with
  | zero => exact fun s r hr => absurd hr (by simp [search])
  | succ fuel ih =>
    intro s r hr
    obtain ⟨k, rfl⟩ := Nat.exists_eq_add_of_le' (Nat.lt_of_lt_of_le fuel.succ_pos hle)
    rw [search] at hr ⊢
    split at hr
    · exact hr
    · exact ih (by omega) _ r hr

section Finite

variable {domain : List α} (hdomain : ∀ y, Relation.ReflTransGen (fun x y => y ∈ next x) first y → y ∈ domain)

include hdomain

theorem Searched.length_le (h : Searched next label skip first firstLabel s) : s.found.length ≤ domain.length :=
  (List.subperm_of_subset h.nodup fun y hy => hdomain y (h.reached y hy)).length_le

/-- A search that can reach finitely many items ends before it has expanded more than that many. -/
theorem search_ends (hmono : Monotone skip) (fuel : ℕ) :
    ∀ s, Searched next label skip first firstLabel s → domain.length < fuel + s.arcs.length →
      ∃ r, search next label skip fuel s = some r := by
  induction fuel with
  | zero =>
    intro s h hlt
    have := h.length_le hdomain
    have := h.expanded
    omega
  | succ fuel ih =>
    intro s h hlt
    unfold search
    split
    · exact ⟨s, rfl⟩
    · rename_i x hx
      refine ih _ (searched_expand hmono h hx) ?_
      rw [expand_arcs_length]
      omega

end Finite

/-! ## What is found -/

variable {r : Search α β}

/-- What is reached and not found was skipped, on the way or itself. -/
theorem Explored.skipped (h : Explored next label skip first firstLabel r) {x t : α} (hx : x ∈ r.found)
    (ht : t ∈ next x)
    (hn : t ∉ r.found) : skip r.found t = true := by
  obtain ⟨i, hi⟩ := List.mem_iff_getElem?.mp hx
  have hlt := (List.getElem?_eq_some_iff.mp hi).1
  obtain ⟨y, hy, -, hskip⟩ := h.targets i _ (List.getElem?_eq_getElem (by rw [h.all]; exact hlt))
  rw [hi] at hy
  obtain rfl := Option.some.inj hy
  exact hskip t ht hn

/-- When nothing is skipped, everything reached is found. -/
theorem Explored.mem_found (h : Explored next label skip first firstLabel r) (hnever : ∀ found t, skip found t = false)
    (y : α) : y ∈ r.found ↔ Relation.ReflTransGen (fun x y => y ∈ next x) first y := by
  constructor
  · exact h.reached y
  · intro hy
    induction hy with
    | refl => exact List.mem_of_getElem? h.starts
    | tail _ hstep ih =>
      by_contra hn
      have hskip := h.skipped ih hstep hn
      rw [hnever] at hskip
      cases hskip

/-! ## Shortest paths -/

/-- `n` arcs by which items were found lead from the first item to the one at position `j`. -/
inductive Depth (arcs : List (List Arc)) : ℕ → ℕ → Prop
  | first : Depth arcs 0 0
  | found {n i j : ℕ} {as : List Arc} : Depth arcs n i → arcs[i]? = some as → (j, false) ∈ as → Depth arcs (n + 1) j

/-- `n` steps lead from `first` to an item. -/
inductive Walk (next : α → List α) (first : α) : ℕ → α → Prop
  | start : Walk next first 0 first
  | step {n : ℕ} {x t : α} : Walk next first n x → t ∈ next x → Walk next first (n + 1) t

/-- Items are found in the order of those they are found from. -/
theorem Searched.found_from_le (h : Searched next label skip first firstLabel s) {i i' : ℕ} {as bs : List Arc}
    {a b : Arc}
    (hi : s.arcs[i]? = some as) (ha : a ∈ as) (hi' : s.arcs[i']? = some bs) (hb : b ∈ bs) (hnew : b.2 = false)
    (hle : b.1 ≤ a.1) : i' ≤ i := by
  by_contra hlt
  obtain ⟨hil, rfl⟩ := List.getElem?_eq_some_iff.mp hi
  obtain ⟨hil', rfl⟩ := List.getElem?_eq_some_iff.mp hi'
  have := List.pairwise_iff_getElem.mp h.ordered i i' hil hil' (by omega) a ha b hb hnew
  omega

/-- Every item but the first is found from an earlier one. -/
theorem Searched.found_from (h : Searched next label skip first firstLabel s) {j : ℕ} (hpos : 0 < j)
    (hj : j < s.found.length) : ∃ (i : ℕ) (as : List Arc), s.arcs[i]? = some as ∧ (j, false) ∈ as := by
  have hmem : j ∈ newly s.arcs.flatten := by
    rw [h.discoveries, List.mem_range'_1]
    omega
  obtain ⟨a, ha, rfl⟩ := List.mem_map.mp hmem
  obtain ⟨ha, hnew⟩ := List.mem_filter.mp ha
  obtain ⟨as, has, ha⟩ := List.mem_flatten.mp ha
  obtain ⟨i, hi⟩ := List.mem_iff_getElem?.mp has
  have hnew : a.2 = false := by simpa using hnew
  exact ⟨i, as, hi, by rw [← hnew]; exact ha⟩

theorem Searched.depth (h : Searched next label skip first firstLabel s) (j : ℕ) (hj : j < s.found.length) :
    ∃ n, Depth s.arcs n j := by
  induction j using Nat.strongRecOn with
  | ind j ih =>
    by_cases hpos : 0 < j
    · obtain ⟨i, as, hi, ha⟩ := h.found_from hpos hj
      have hlt := h.forward i as hi _ ha rfl
      obtain ⟨n, hn⟩ := ih i hlt (by omega)
      exact ⟨n + 1, hn.found hi ha⟩
    · obtain rfl : j = 0 := by omega
      exact ⟨0, .first⟩

/-- Items found later are no nearer. -/
theorem Searched.depth_mono (h : Searched next label skip first firstLabel s) {n n' j j' : ℕ} (hd : Depth s.arcs n j)
    (hd' : Depth s.arcs n' j') (hle : j ≤ j') : n ≤ n' := by
  induction hd' generalizing n j with
  | first =>
    cases hd with
    | first => exact Nat.le_refl 0
    | found _ hi ha =>
      have := h.forward _ _ hi _ ha rfl
      omega
  | found _ hi' ha' ih =>
    cases hd with
    | first => exact Nat.zero_le _
    | found hd hi ha => exact Nat.succ_le_succ (ih hd (h.found_from_le hi' ha' hi ha rfl hle))

theorem Searched.walk_of_depth (h : Searched next label skip first firstLabel s) {n j : ℕ} (hd : Depth s.arcs n j) :
    ∀ y, s.found[j]? = some y → Walk next first n y := by
  induction hd with
  | first =>
    intro y hy
    rw [h.starts] at hy
    obtain rfl := Option.some.inj hy
    exact .start
  | @found n i j as _ hi ha ih =>
    intro y hy
    obtain ⟨x, hx, htargets, -⟩ := h.targets i as hi
    have hmem : j ∈ as.map Prod.fst := List.mem_map_of_mem ha
    rw [htargets] at hmem
    obtain ⟨t, ht, rfl⟩ := List.mem_map.mp hmem
    obtain ⟨hnext, hfound⟩ := List.mem_filter.mp ht
    rw [List.getElem?_idxOf (by simpa using hfound)] at hy
    obtain rfl := Option.some.inj hy
    exact (ih x hx).step hnext

omit [BEq α] [LawfulBEq α] in
theorem Walk.reached {n : ℕ} {y : α} (h : Walk next first n y) :
    Relation.ReflTransGen (fun x y => y ∈ next x) first y := by
  induction h with
  | start => exact Relation.ReflTransGen.refl
  | step _ ht ih => exact ih.tail ht

/-- No walk to an item is shorter than the arcs by which it was found. -/
theorem Explored.depth_le (h : Explored next label skip first firstLabel r) (hnever : ∀ found t, skip found t = false)
    {k : ℕ} {y : α} (hwalk : Walk next first k y) :
    ∀ n j, r.found[j]? = some y → Depth r.arcs n j → n ≤ k := by
  induction hwalk with
  | start =>
    intro n j hj hd
    have hlt := (List.getElem?_eq_some_iff.mp hj).1
    have hzero : j = 0 := (List.getElem?_inj hlt h.nodup).mp (hj.trans h.starts.symm)
    exact h.depth_mono hd .first (Nat.le_of_eq hzero)
  | @step k x t hwalk ht ih =>
    intro n j hj hd
    have hx : x ∈ r.found := (h.mem_found hnever x).mpr hwalk.reached
    obtain ⟨i, hi⟩ := List.mem_iff_getElem?.mp hx
    have hlt := (List.getElem?_eq_some_iff.mp hi).1
    obtain ⟨m, hm⟩ := h.depth i hlt
    have hlt' : i < r.arcs.length := by rw [h.all]; exact hlt
    have hi' : r.arcs[i]? = some r.arcs[i] := List.getElem?_eq_getElem hlt'
    obtain ⟨y, hy, htargets, -⟩ := h.targets i _ hi'
    rw [hi] at hy
    obtain rfl := Option.some.inj hy
    -- the arc from `x` to `t`, and the one by which `t` was found
    have hmem : j ∈ r.arcs[i].map Prod.fst := by
      rw [htargets]
      refine List.mem_map.mpr ⟨t, List.mem_filter.mpr ⟨ht, by simpa using List.mem_of_getElem? hj⟩, ?_⟩
      exact (List.getElem?_inj (List.idxOf_lt_length_iff.mpr (List.mem_of_getElem? hj)) h.nodup).mp
        ((List.getElem?_idxOf (List.mem_of_getElem? hj)).trans hj.symm)
    obtain ⟨a, ha, haj⟩ := List.mem_map.mp hmem
    cases hd with
    | first => exact Nat.zero_le _
    | found hd hi'' hb =>
      have hle := h.found_from_le hi' ha hi'' hb rfl (Nat.le_of_eq haj.symm)
      exact Nat.succ_le_succ (Nat.le_trans (h.depth_mono hd hm hle) (ih m i hi hm))

/-- The arcs by which items were found form shortest paths. -/
theorem Explored.shortest (h : Explored next label skip first firstLabel r) (hnever : ∀ found t, skip found t = false)
    {j : ℕ} {y : α} (hj : r.found[j]? = some y) :
    ∃ n, Depth r.arcs n j ∧ Walk next first n y ∧ ∀ k, Walk next first k y → n ≤ k := by
  obtain ⟨n, hn⟩ := h.depth j (List.getElem?_eq_some_iff.mp hj).1
  exact ⟨n, hn, h.walk_of_depth hn y hj, fun k hk => h.depth_le hnever hk n j hj hn⟩

end Search

end Stgx.Lib.BreadthFirst
