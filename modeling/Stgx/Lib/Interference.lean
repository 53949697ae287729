/-
  Stgx.Lib.Interference — which tasks disturb which under fixed priorities.

  - `first_meets`: with a processor for it and each task before it, a task meets its deadline.
  - `reachable_restrict_iff`: the first tasks run as if there were no others.
  - `move_anywhere`: if any processor works, from every state every reachable state but the
    idle one can be reached again.
-/

import Mathlib.Algebra.Order.BigOperators.Group.Finset
import Mathlib.Data.Finset.Max
import Mathlib.Order.UpperLower.Basic
import Stgx.Lib.FixedPriority

namespace Stgx.Lib.FixedPriority

variable {ι κ : Type} [Fintype ι] [LinearOrder ι] [Fintype κ] [LinearOrder κ] {m : ℕ∞}

/-! ## The first tasks -/

/-- The tasks of a higher priority. -/
def before (i : ι) : Finset ι := Finset.univ.filter (· < i)

theorem ahead_le (s : State ι) (i : ι) : (ahead s i).card ≤ (before i).card :=
  Finset.card_le_card fun j hj => by
    rw [ahead, Finset.mem_filter] at hj
    exact Finset.mem_filter.mpr ⟨hj.1, hj.2.1⟩

theorem runs_of_first {s : State ι} {i : ι} (hi : ((before i).card : ℕ∞) < m) (hwork : 0 < (s i).work) : Runs m s i :=
  ⟨hwork, lt_of_le_of_lt (Nat.cast_le.mpr (ahead_le s i)) hi⟩

/-- With a processor for each task before it and one more, a task is never late. -/
theorem first_meets {tasks : State ι} {i : ι} (hi : ((before i).card : ℕ∞) < m)
    (htask : (tasks i).work ≤ (tasks i).due) {s : State ι} (h : Reachable tasks m s) : (s i).work ≤ (s i).due := by
  induction h with
  | refl => exact Nat.le_refl 0
  | @tail s t _ hstep ih =>
    obtain ⟨R, rfl⟩ := hstep
    have htick : (tick m s i).work ≤ (tick m s i).due := by
      rw [tick_due]
      by_cases hwork : 0 < (s i).work
      · rw [tick_runs (runs_of_first hi hwork)]
        omega
      · have := (tick_work m s i).2
        omega
    by_cases hrel : i ∈ R ∧ tick m s i = 0
    · rw [release_mem hrel.1 hrel.2]
      exact htask
    · rw [release_off (not_and_or.mp hrel)]
      exact htick

/-! ## Restriction -/

section Restriction

variable (f : κ ↪o ι) (hf : IsLowerSet (Set.range f))
include hf

/-- The tasks ahead of one of the first are among the first. -/
theorem ahead_restrict (s : State ι) (k : κ) : ahead s (f k) = (ahead (s ∘ f) k).map f.toEmbedding := by
  ext j
  simp only [ahead, Finset.mem_map, Finset.mem_filter, Finset.mem_univ, true_and, Function.comp_apply]
  constructor
  · intro hj
    obtain ⟨i, rfl⟩ := hf hj.1.le ⟨k, rfl⟩
    exact ⟨i, ⟨f.lt_iff_lt.mp hj.1, hj.2⟩, rfl⟩
  · intro hj
    obtain ⟨i, hi, rfl⟩ := hj
    exact ⟨f.lt_iff_lt.mpr hi.1, hi.2⟩

theorem tick_restrict (s : State ι) : tick m s ∘ f = tick m (s ∘ f) := by
  funext k
  have hruns : Runs m s (f k) ↔ Runs m (s ∘ f) k := by
    rw [Runs, Runs, ahead_restrict f hf, Finset.card_map]
    rfl
  refine Job.ext ?_ rfl
  show (tick m s (f k)).work = (tick m (s ∘ f) k).work
  by_cases h : Runs m (s ∘ f) k
  · rw [tick_runs (hruns.mpr h), tick_runs h]
    rfl
  · rw [tick_waits fun hr => h (hruns.mp hr), tick_waits h]
    rfl

omit [Fintype ι] [Fintype κ] hf in
theorem release_restrict (tasks s : State ι) (R : Set ι) :
    release tasks R s ∘ f = release (tasks ∘ f) (Set.preimage f R) (s ∘ f) := rfl

/-- The first tasks run as if there were no others. -/
theorem reachable_restrict_iff {tasks : State ι} {t : State κ} :
    Reachable (tasks ∘ f) m t ↔ ∃ s, Reachable tasks m s ∧ s ∘ f = t := by
  constructor
  · intro h
    induction h with
    | refl => exact ⟨0, Relation.ReflTransGen.refl, rfl⟩
    | tail _ hstep ih =>
      obtain ⟨s, hs, rfl⟩ := ih
      obtain ⟨R, rfl⟩ := hstep
      refine ⟨release tasks (Set.image f R) (tick m s), hs.tail ⟨_, rfl⟩, ?_⟩
      rw [release_restrict, tick_restrict f hf, Set.preimage_image_eq R f.injective]
  · intro h
    obtain ⟨s, hs, rfl⟩ := h
    induction hs with
    | refl => exact Relation.ReflTransGen.refl
    | tail _ hstep ih =>
      obtain ⟨R, rfl⟩ := hstep
      refine ih.tail ⟨Set.preimage f R, ?_⟩
      rw [release_restrict, tick_restrict f hf]

end Restriction

/-! ## Recurrence -/

/-- What is left to do and to wait for. -/
def pending (s : State ι) : ℕ := ∑ i, ((s i).work + (s i).due)

/-- With work left somewhere, the first job that has some runs. -/
theorem exists_runs (hm : m ≠ 0) {s : State ι} (h : ∃ i, 0 < (s i).work) : ∃ i, Runs m s i := by
  have hne : (Finset.univ.filter fun i => 0 < (s i).work).Nonempty := by
    obtain ⟨i, hi⟩ := h
    exact ⟨i, Finset.mem_filter.mpr ⟨Finset.mem_univ i, hi⟩⟩
  have hmin := Finset.min'_mem _ hne
  refine ⟨_, (Finset.mem_filter.mp hmin).2, ?_⟩
  have hnone : ahead s (Finset.min' _ hne) = ∅ := by
    refine Finset.filter_eq_empty_iff.mpr fun j _ hj => ?_
    exact absurd (Finset.min'_le _ j (Finset.mem_filter.mpr ⟨Finset.mem_univ j, hj.2⟩)) (not_le.mpr hj.1)
  rw [hnone, Finset.card_empty, Nat.cast_zero]
  exact pos_of_ne_zero hm

theorem pending_tick (hm : m ≠ 0) {s : State ι} (h : s ≠ 0) : pending (tick m s) < pending s := by
  have hle : ∀ i ∈ Finset.univ, (tick m s i).work + (tick m s i).due ≤ (s i).work + (s i).due := by
    intro i _
    have := (tick_work m s i).2
    rw [tick_due]
    omega
  refine Finset.sum_lt_sum hle ?_
  by_cases hwork : ∃ i, 0 < (s i).work
  · obtain ⟨i, hi⟩ := exists_runs hm hwork
    refine ⟨i, Finset.mem_univ i, ?_⟩
    have := hi.1
    rw [tick_runs hi, tick_due]
    omega
  · obtain ⟨i, hi⟩ := Function.ne_iff.mp h
    have hnone : (s i).work = 0 := Nat.eq_zero_of_not_pos fun hpos => hwork ⟨i, hpos⟩
    have hdue : (s i).due ≠ 0 := fun hdue => hi (Job.ext hnone hdue)
    refine ⟨i, Finset.mem_univ i, ?_⟩
    have := (tick_work m s i).2
    rw [tick_due]
    omega

/-- Naming busy tasks only, all that is left gets done. -/
theorem drains (hm : m ≠ 0) (tasks s : State ι) :
    ∃ u, Relation.ReflTransGen (Move tasks m) s u ∧ tick m u = 0 := by
  induction hn : pending s using Nat.strong_induction_on generalizing s with
  | h n ih =>
    by_cases hz : tick m s = 0
    · exact ⟨s, Relation.ReflTransGen.refl, hz⟩
    · have hne : s ≠ 0 := fun hs => hz (by rw [hs, tick_zero])
      obtain ⟨i, hi⟩ := Function.ne_iff.mp hz
      obtain ⟨u, hu, hdone⟩ := ih _ (hn ▸ pending_tick hm hne) (tick m s) rfl
      exact ⟨u, Relation.ReflTransGen.head ⟨{i}, Set.singleton_nonempty i, (release_busy hi).symm⟩ hu, hdone⟩

/-- From every state the moves lead to every reachable state but the idle one. -/
theorem move_anywhere (hm : m ≠ 0) {tasks t : State ι} (ht : Reachable tasks m t) (hne : t ≠ 0) (s : State ι) :
    Relation.TransGen (Move tasks m) s t := by
  rw [reachable_iff_moves] at ht
  obtain ⟨u, hu, hdone⟩ := drains hm tasks s
  rcases Relation.ReflTransGen.cases_head ht with h | ⟨c, ⟨R, hR, rfl⟩, hc⟩
  · exact absurd h.symm hne
  · have hmove : Move tasks m u (release tasks R (tick m 0)) := ⟨R, hR, by rw [hdone, tick_zero]⟩
    exact Relation.TransGen.trans_right hu (Relation.TransGen.head' hmove hc)

end Stgx.Lib.FixedPriority
