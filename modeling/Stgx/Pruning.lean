/-
  Stgx.Pruning — the index by sums finds a dominating state exactly when there is one.

  `Visited` files the states seen by `sum_c` and `sum_d`; `is_dominated` looks only where
  both sums are at least as bad, and stops at the first `sum_d` past that.
  - `visited_agrees`: after any states were added, the index answers as a scan of all of
    them would.
-/

import Stgx.Gfp

namespace Stgx

open Stgx.Lib.Ordered (OrderedMap OrderedSet)
open Stgx.Lib.Ordered.OrderedMap (find_upsert mem_entries_iff mem_lowerBound mem_upTo)
open Stgx.Lib.Ordered.OrderedSet (mem_insert mem_items)

/-- A scan of all the states seen. -/
def dominated (seen : List State) (state : State) : Bool := seen.any fun other => other ≠ state && other.dominates state

namespace Visited

/-- The states filed under two sums. -/
def bySums (visited : Visited) (c d : ℤ) : OrderedSet State := (((visited.index.find c).getD ∅).find d).getD ∅

/-- The states filed are those in `seen`, each under its sums. -/
def Holds (visited : Visited) (seen : List State) : Prop :=
  ∀ c d state, state ∈ (visited.bySums c d).items ↔ state ∈ seen ∧ state.sumC = c ∧ state.sumD = d

theorem bySums_add (visited : Visited) (state : State) (c d : ℤ) :
    (visited.add state).bySums c d =
      if c = state.sumC ∧ d = state.sumD then OrderedSet.insert (visited.bySums c d) state else visited.bySums c d := by
  unfold bySums add
  rw [find_upsert]
  by_cases hc : c = state.sumC
  · subst hc
    rw [if_pos rfl, Option.getD_some, find_upsert]
    by_cases hd : d = state.sumD
    · subst hd
      rw [if_pos rfl, if_pos ⟨rfl, rfl⟩, Option.getD_some]
    · rw [if_neg hd, if_neg fun h => hd h.2]
  · rw [if_neg hc, if_neg fun h => hc h.1]

theorem holds_empty : Holds {} [] := by
  intro c d state
  refine iff_of_false (fun h => ?_) fun h => absurd h.1 List.not_mem_nil
  rw [mem_items] at h
  cases h

theorem Holds.add {visited : Visited} {seen : List State} (h : visited.Holds seen) (state : State) :
    (visited.add state).Holds (seen ++ [state]) := by
  intro c d other
  rw [bySums_add, List.mem_append, List.mem_singleton]
  split
  · rename_i hcd
    obtain ⟨rfl, rfl⟩ := hcd
    rw [mem_insert, h]
    constructor
    · intro ho
      rcases ho with rfl | ho
      · exact ⟨Or.inr rfl, rfl, rfl⟩
      · exact ⟨Or.inl ho.1, ho.2⟩
    · intro ho
      rcases ho.1 with hm | hm
      · exact Or.inr ⟨hm, ho.2⟩
      · exact Or.inl hm
  · rename_i hcd
    rw [h]
    constructor
    · exact fun ho => ⟨Or.inl ho.1, ho.2⟩
    · intro ho
      rcases ho.1 with hm | rfl
      · exact ⟨hm, ho.2⟩
      · exact absurd ⟨ho.2.1.symm, ho.2.2.symm⟩ hcd

theorem contains_eq (visited : Visited) (state : State) :
    visited.contains state = ((visited.bySums state.sumC state.sumD).find state).isSome := by
  unfold contains bySums
  cases visited.index.find state.sumC with
  | none => rfl
  | some byC =>
    dsimp only [Option.getD_some]
    cases byC.find state.sumD <;> rfl

theorem contains_iff {visited : Visited} {seen : List State} (h : visited.Holds seen) (state : State) :
    visited.contains state = true ↔ state ∈ seen := by
  rw [contains_eq, Option.isSome_iff_exists]
  have hiff := h state.sumC state.sumD state
  rw [mem_items] at hiff
  constructor
  · intro hs
    obtain ⟨u, hu⟩ := hs
    exact (hiff.mp hu).1
  · exact fun hs => ⟨(), hiff.mpr ⟨hs, rfl, rfl⟩⟩

/-- What is filed anywhere is filed under some sums. -/
theorem exists_entry_iff {visited : Visited} {c d : ℤ} {state : State} :
    (∃ byC, (c, byC) ∈ visited.index.entries ∧ ∃ states, (d, states) ∈ byC.entries ∧ state ∈ OrderedSet.items states) ↔
      state ∈ (visited.bySums c d).items := by
  unfold bySums
  constructor
  · intro h
    obtain ⟨byC, hbyC, states, hstates, hs⟩ := h
    rw [mem_entries_iff.mp hbyC, Option.getD_some, mem_entries_iff.mp hstates, Option.getD_some]
    exact hs
  · intro h
    cases hc : visited.index.find c with
    | none =>
      rw [hc] at h
      exact absurd h List.not_mem_nil
    | some byC =>
      rw [hc, Option.getD_some] at h
      cases hd : byC.find d with
      | none =>
        rw [hd] at h
        exact absurd h List.not_mem_nil
      | some states =>
        rw [hd, Option.getD_some] at h
        exact ⟨byC, mem_entries_iff.mpr hc, states, mem_entries_iff.mpr hd, h⟩

/-- `is_dominated` agrees with the scan of all the states seen. -/
theorem isDominated_eq {visited : Visited} {seen : List State} (h : visited.Holds seen) {state : State}
    (hlength : ∀ other ∈ seen, other.length = state.length) : visited.isDominated state = dominated seen state := by
  rw [Bool.eq_iff_iff, isDominated, dominated, List.any_eq_true, List.any_eq_true]
  constructor
  · intro hdom
    obtain ⟨⟨c, byC⟩, hbyC, hdom⟩ := hdom
    obtain ⟨⟨d, states⟩, hstates, hdom⟩ := List.any_eq_true.mp hdom
    obtain ⟨other, hother, hdom⟩ := List.any_eq_true.mp hdom
    have hfiled := exists_entry_iff.mp ⟨byC, (mem_lowerBound.mp hbyC).1, states, (mem_upTo.mp hstates).1, hother⟩
    refine ⟨other, ((h c d other).mp hfiled).1, ?_⟩
    split at hdom
    · cases hdom
    · rename_i hne
      rw [hdom, Bool.and_true]
      simpa using hne
  · intro hdom
    obtain ⟨other, hother, hdom⟩ := hdom
    rw [Bool.and_eq_true, decide_eq_true_eq] at hdom
    obtain ⟨hne, hdom⟩ := hdom
    have hsums := sums_le ((dominates_iff (hlength other hother)).mp hdom)
    obtain ⟨byC, hbyC, states, hstates, hfiled⟩ :=
      exists_entry_iff.mpr ((h other.sumC other.sumD other).mpr ⟨hother, rfl, rfl⟩)
    refine ⟨_, mem_lowerBound.mpr ⟨hbyC, hsums.1⟩, List.any_eq_true.mpr ⟨_, mem_upTo.mpr ⟨hstates, hsums.2⟩, ?_⟩⟩
    exact List.any_eq_true.mpr ⟨other, hfiled, by rw [if_neg hne, hdom]⟩

/-- The index after some states were added. -/
def after (states : List State) : Visited := states.foldl add {}

theorem holds_after (states : List State) : (after states).Holds states := by
  have h : ∀ seen visited, Holds visited seen → Holds (states.foldl add visited) (seen ++ states) := by
    induction states with
    | nil =>
      intro seen visited h
      rwa [List.append_nil]
    | cons state states ih =>
      intro seen visited h
      rw [List.append_cons]
      exact ih _ _ (h.add state)
  exact h [] {} holds_empty

end Visited

/-- Whatever states were added, the index by sums answers as the list of them. -/
theorem visited_agrees {n : ℕ} {states : List State} (hlength : ∀ state ∈ states, state.length = n) {state : State}
    (hn : state.length = n) :
    (Visited.after states).contains state = decide (state ∈ states) ∧
      (Visited.after states).isDominated state = dominated states state := by
  constructor
  · rw [Bool.eq_iff_iff, Visited.contains_iff (Visited.holds_after states), decide_eq_true_eq]
  · exact Visited.isDominated_eq (Visited.holds_after states) fun other hother => (hlength other hother).trans hn.symm

theorem visited_agrees_pair :
    (Visited.after [[⟨1, 2⟩, ⟨0, 0⟩], [⟨1, 2⟩, ⟨1, 1⟩]]).isDominated [⟨1, 2⟩, ⟨0, 1⟩] =
      dominated [[⟨1, 2⟩, ⟨0, 0⟩], [⟨1, 2⟩, ⟨1, 1⟩]] [⟨1, 2⟩, ⟨0, 1⟩] :=
  (visited_agrees (n := 2) (by decide) rfl).2

end Stgx
