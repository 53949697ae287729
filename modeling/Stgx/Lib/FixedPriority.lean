/-
  Stgx.Lib.FixedPriority — sporadic tasks under global fixed-priority scheduling, in unit
  steps of time.

  The tasks are ordered by priority, the first the highest. A state gives the job of each
  task: the work left, and the time left to its deadline; both are zero when the task is
  idle. In a step the first `m` jobs with work left do a unit of it, every deadline comes
  a unit nearer, and then any idle tasks release a job.
  - `tick_dominates`: a state at least as bad in every component stays so when both run.
  - `safe_of_cover`: a set of states that has a state at least as bad for each of its
    steps, and misses no deadline, shows that no deadline is missed.
  - `MeetsDeadlines.mono`: a task set that meets its deadlines meets them with less
    work, later deadlines and more processors.
  - `absoluteDominant_iff`: such a set has all the states that no other dominates.
  - `meetsDeadlines_iff`: a missed deadline shows as soon as the work left exceeds the
    time left, and never shows unless one is missed.
-/

import Mathlib.Data.ENat.Basic
import Mathlib.Data.Fintype.Card
import Mathlib.Logic.Relation

namespace Stgx.Lib.FixedPriority

/-- The work left, and the time left to do it. -/
@[ext]
structure Job where
  work : ℕ
  due : ℕ
  deriving DecidableEq

instance : Zero Job := ⟨⟨0, 0⟩⟩

@[simp] theorem zero_work : (0 : Job).work = 0 := rfl

@[simp] theorem zero_due : (0 : Job).due = 0 := rfl

/-- The job of each task. -/
abbrev State (ι : Type) := ι → Job

variable {ι : Type}

/-! ## Releases -/

open Classical in
/-- The idle tasks among `R` release a job. -/
noncomputable def release (tasks : State ι) (R : Set ι) (s : State ι) : State ι := fun i =>
  if i ∈ R ∧ s i = 0 then tasks i else s i

theorem release_mem {tasks s : State ι} {R : Set ι} {i : ι} (hi : i ∈ R) (h : s i = 0) :
    release tasks R s i = tasks i := if_pos ⟨hi, h⟩

theorem release_off {tasks s : State ι} {R : Set ι} {i : ι} (h : i ∉ R ∨ s i ≠ 0) : release tasks R s i = s i := by
  refine if_neg fun hc => ?_
  rcases h with h | h
  · exact h hc.1
  · exact h hc.2

theorem release_empty (tasks s : State ι) : release tasks ∅ s = s := by
  funext i
  exact release_off (Or.inl (Set.notMem_empty i))

/-- Releasing a task that is not idle changes nothing. -/
theorem release_busy {tasks s : State ι} {i : ι} (h : s i ≠ 0) : release tasks {i} s = s := by
  funext j
  by_cases hj : j = i
  · subst hj
    exact release_off (Or.inr h)
  · exact release_off (Or.inl hj)

/-- Some job has more work left than time. -/
def Missed (s : State ι) : Prop := ∃ i, (s i).due < (s i).work

/-! ## Dominance -/

/-- `s` is at least as bad as `t` in every component. -/
def Dominates (s t : State ι) : Prop := ∀ i, (t i).work ≤ (s i).work ∧ (s i).due ≤ (t i).due

theorem Dominates.refl (s : State ι) : Dominates s s := fun _ => ⟨Nat.le_refl _, Nat.le_refl _⟩

theorem Dominates.trans {s t u : State ι} (h : Dominates s t) (h' : Dominates t u) : Dominates s u := fun i =>
  ⟨Nat.le_trans (h' i).1 (h i).1, Nat.le_trans (h i).2 (h' i).2⟩

theorem Dominates.antisymm {s t : State ι} (h : Dominates s t) (h' : Dominates t s) : s = t :=
  funext fun i => Job.ext (Nat.le_antisymm (h' i).1 (h i).1) (Nat.le_antisymm (h i).2 (h' i).2)

theorem Dominates.missed {s t : State ι} (h : Dominates s t) (ht : Missed t) : Missed s := by
  obtain ⟨i, hi⟩ := ht
  obtain ⟨hwork, hdue⟩ := h i
  exact ⟨i, by omega⟩

/-- Whatever the better state releases, the worse one can release to stay at least as bad,
    or has missed a deadline. -/
theorem release_dominates {tasks tasks' a b : State ι} (ht : Dominates tasks tasks') (h : Dominates a b) (R : Set ι) :
    Missed (release tasks {i ∈ R | b i = 0} a) ∧ {i ∈ R | b i = 0}.Nonempty ∨
      Dominates (release tasks {i ∈ R | b i = 0} a) (release tasks' R b) := by
  by_cases hbusy : ∃ i ∈ R, b i = 0 ∧ a i ≠ 0
  · -- its deadline has come, and it is not idle: there is work left
    obtain ⟨i, hi, hb, ha⟩ := hbusy
    refine Or.inl ⟨⟨i, ?_⟩, i, hi, hb⟩
    obtain ⟨-, hdue⟩ := h i
    rw [release_off (Or.inr ha)]
    rw [hb, zero_due] at hdue
    have hwork : (a i).work ≠ 0 := fun hw => ha (Job.ext hw (by rw [zero_due]; omega))
    omega
  · refine Or.inr fun i => ?_
    by_cases hi : i ∈ R ∧ b i = 0
    · have ha : a i = 0 := by
        by_contra ha
        exact hbusy ⟨i, hi.1, hi.2, ha⟩
      have hmem : i ∈ {i ∈ R | b i = 0} := hi
      rw [release_mem hmem ha, release_mem hi.1 hi.2]
      exact ht i
    · have hoff : i ∉ {i ∈ R | b i = 0} := hi
      have hb : i ∉ R ∨ b i ≠ 0 := not_and_or.mp hi
      rw [release_off (Or.inl hoff), release_off hb]
      exact h i

/-! ## Steps -/

variable [Fintype ι] [LinearOrder ι]

/-- The tasks before `i` that have work left. -/
def ahead (s : State ι) (i : ι) : Finset ι := Finset.univ.filter fun j => j < i ∧ 0 < (s j).work

/-- Of the jobs with work left, the first `m` run. -/
def Runs (m : ℕ∞) (s : State ι) (i : ι) : Prop := 0 < (s i).work ∧ ((ahead s i).card : ℕ∞) < m

open Classical in
/-- A unit of time. -/
noncomputable def tick (m : ℕ∞) (s : State ι) : State ι := fun i =>
  ⟨if Runs m s i then (s i).work - 1 else (s i).work, (s i).due - 1⟩

/-- A unit of time, and any releases. -/
def Step (tasks : State ι) (m : ℕ∞) (s t : State ι) : Prop := ∃ R, t = release tasks R (tick m s)

/-- A step for which some task is named. -/
def Move (tasks : State ι) (m : ℕ∞) (s t : State ι) : Prop := ∃ R : Set ι, R.Nonempty ∧ t = release tasks R (tick m s)

/-- The states of a run: `pattern` names the tasks to release after each unit of time. -/
noncomputable def run (tasks : State ι) (m : ℕ∞) (pattern : ℕ → Set ι) : ℕ → State ι
  | 0 => 0
  | n + 1 => release tasks (pattern n) (tick m (run tasks m pattern n))

/-- Whatever is released when, no job has work left at its deadline. -/
def MeetsDeadlines (tasks : State ι) (m : ℕ∞) : Prop :=
  ∀ pattern n i, (run tasks m pattern n i).due = 0 → (run tasks m pattern n i).work = 0

/-- A state of some run. -/
def Reachable (tasks : State ι) (m : ℕ∞) (s : State ι) : Prop := Relation.ReflTransGen (Step tasks m) 0 s

theorem tick_due (m : ℕ∞) (s : State ι) (i : ι) : (tick m s i).due = (s i).due - 1 := rfl

theorem tick_runs {m : ℕ∞} {s : State ι} {i : ι} (h : Runs m s i) : (tick m s i).work = (s i).work - 1 := if_pos h

theorem tick_waits {m : ℕ∞} {s : State ι} {i : ι} (h : ¬ Runs m s i) : (tick m s i).work = (s i).work := if_neg h

theorem tick_work (m : ℕ∞) (s : State ι) (i : ι) :
    (s i).work - 1 ≤ (tick m s i).work ∧ (tick m s i).work ≤ (s i).work := by
  by_cases h : Runs m s i
  · rw [tick_runs h]
    omega
  · rw [tick_waits h]
    omega

theorem tick_zero (m : ℕ∞) : tick m (0 : State ι) = 0 := by
  funext i
  refine Job.ext ?_ rfl
  exact Nat.le_zero.mp (tick_work m (0 : State ι) i).2

/-! ## Runs -/

theorem run_reachable (tasks : State ι) (m : ℕ∞) (pattern : ℕ → Set ι) (n : ℕ) :
    Reachable tasks m (run tasks m pattern n) := by
  induction n with
  | zero => exact Relation.ReflTransGen.refl
  | succ n ih => exact ih.tail ⟨pattern n, rfl⟩

/-- The first `n` steps of a run look at the first `n` releases only. -/
theorem run_congr {tasks : State ι} {m : ℕ∞} {pattern pattern' : ℕ → Set ι} {n : ℕ}
    (h : ∀ k < n, pattern k = pattern' k) : run tasks m pattern n = run tasks m pattern' n := by
  induction n with
  | zero => rfl
  | succ n ih => rw [run, run, ih fun k hk => h k (by omega), h n (by omega)]

/-- A run can be continued by any release. -/
theorem run_extend (tasks : State ι) (m : ℕ∞) (pattern : ℕ → Set ι) (n : ℕ) (R : Set ι) :
    ∃ pattern', run tasks m pattern' (n + 1) = release tasks R (tick m (run tasks m pattern n)) := by
  refine ⟨fun k => if k = n then R else pattern k, ?_⟩
  rw [run, if_pos rfl, run_congr fun k hk => if_neg (show ¬ k = n by omega)]

/-- The states of the runs are the reachable ones. -/
theorem reachable_iff {tasks : State ι} {m : ℕ∞} {s : State ι} :
    Reachable tasks m s ↔ ∃ pattern n, run tasks m pattern n = s := by
  constructor
  · intro h
    induction h with
    | refl => exact ⟨fun _ => ∅, 0, rfl⟩
    | tail _ hstep ih =>
      obtain ⟨pattern, n, rfl⟩ := ih
      obtain ⟨R, rfl⟩ := hstep
      obtain ⟨pattern', hrun⟩ := run_extend tasks m pattern n R
      exact ⟨pattern', n + 1, hrun⟩
  · intro h
    obtain ⟨pattern, n, rfl⟩ := h
    exact run_reachable tasks m pattern n

/-- Time passing without a release is a move as well: a busy task is named, unless nothing is
    left and the state is the first one. -/
theorem step_cases {tasks : State ι} {m : ℕ∞} {s t : State ι} (h : Step tasks m s t) : t = 0 ∨ Move tasks m s t := by
  obtain ⟨R, rfl⟩ := h
  by_cases hR : R.Nonempty
  · exact Or.inr ⟨R, hR, rfl⟩
  · rw [Set.not_nonempty_iff_eq_empty.mp hR, release_empty]
    by_cases hz : tick m s = 0
    · exact Or.inl hz
    · obtain ⟨i, hi⟩ := Function.ne_iff.mp hz
      exact Or.inr ⟨{i}, Set.singleton_nonempty i, (release_busy hi).symm⟩

theorem reachable_iff_moves {tasks : State ι} {m : ℕ∞} {s : State ι} :
    Reachable tasks m s ↔ Relation.ReflTransGen (Move tasks m) 0 s := by
  constructor
  · intro h
    induction h with
    | refl => exact Relation.ReflTransGen.refl
    | tail _ hstep ih =>
      rcases step_cases hstep with rfl | hmove
      · exact Relation.ReflTransGen.refl
      · exact ih.tail hmove
  · intro h
    refine Relation.ReflTransGen.mono (fun s t hmove => ?_) _ _ h
    obtain ⟨R, -, rfl⟩ := hmove
    exact ⟨R, rfl⟩

/-! ## Deadlines -/

/-- A job with more work left than time is at its deadline some steps later. -/
theorem unfinished_of_missed {tasks : State ι} {m : ℕ∞} {i : ι} (d : ℕ) :
    ∀ s, Reachable tasks m s → (s i).due = d → (s i).due < (s i).work →
      ∃ t, Reachable tasks m t ∧ (t i).due = 0 ∧ 0 < (t i).work := by
  induction d with
  | zero =>
    intro s hs hd hlt
    exact ⟨s, hs, hd, by omega⟩
  | succ d ih =>
    intro s hs hd hlt
    have hwork := (tick_work m s i).1
    have hdue := tick_due m s i
    refine ih (tick m s) (hs.tail ⟨∅, (release_empty tasks _).symm⟩) (by omega) (by omega)

/-- Deadlines are met exactly when no reachable state has a job with more work left than time. -/
theorem meetsDeadlines_iff {tasks : State ι} {m : ℕ∞} :
    MeetsDeadlines tasks m ↔ ∀ s, Reachable tasks m s → ¬ Missed s := by
  constructor
  · intro h s hs hmissed
    obtain ⟨i, hi⟩ := hmissed
    obtain ⟨t, ht, hdue, hwork⟩ := unfinished_of_missed _ s hs rfl hi
    obtain ⟨pattern, n, rfl⟩ := reachable_iff.mp ht
    have := h pattern n i hdue
    omega
  · intro h pattern n i hdue
    by_contra hwork
    exact h _ (run_reachable tasks m pattern n) ⟨i, by omega⟩

/-! ## Sustainability -/

/-- No more jobs are ahead in the better state. -/
theorem Dominates.ahead_card {s t : State ι} (h : Dominates s t) (i : ι) : (ahead t i).card ≤ (ahead s i).card := by
  refine Finset.card_le_card fun j hj => ?_
  simp only [ahead, Finset.mem_filter, Finset.mem_univ, true_and] at hj ⊢
  exact ⟨hj.1, Nat.lt_of_lt_of_le hj.2 (h j).1⟩

/-- The worse state stays at least as bad, on no more processors. -/
theorem tick_dominates {s t : State ι} (h : Dominates s t) {m m' : ℕ∞} (hm : m ≤ m') :
    Dominates (tick m s) (tick m' t) := by
  intro i
  obtain ⟨hwork, hdue⟩ := h i
  refine ⟨?_, by rw [tick_due, tick_due]; omega⟩
  by_cases hlt : (t i).work < (s i).work
  · have := (tick_work m' t i).2
    have := (tick_work m s i).1
    omega
  · have hsame : (t i).work = (s i).work := by omega
    by_cases hruns : Runs m s i
    · -- the same work is left, and no more jobs are ahead: the better one runs as well
      have hruns' : Runs m' t i := by
        refine ⟨hsame ▸ hruns.1, ?_⟩
        have hcard : ((ahead t i).card : ℕ∞) ≤ (ahead s i).card := by exact_mod_cast h.ahead_card i
        exact lt_of_le_of_lt hcard (lt_of_lt_of_le hruns.2 hm)
      rw [tick_runs hruns, tick_runs hruns', hsame]
    · rw [tick_waits hruns, ← hsame]
      exact (tick_work m' t i).2

/-! ## Covers -/

/-- The states of `V` stand for all: for every move out of one, some state of `V` is at least as bad. -/
structure Covers (tasks : State ι) (m : ℕ∞) (V : Set (State ι)) : Prop where
  first : 0 ∈ V
  moves : ∀ s ∈ V, ∀ t, Move tasks m s t → ∃ u ∈ V, Dominates u t

/-- What a harmless cover stands for is harmless: a task set no worse misses no deadline on as
    many processors. -/
theorem safe_of_cover {tasks : State ι} {m : ℕ∞} {V : Set (State ι)} (hV : Covers tasks m V)
    (hsafe : ∀ s ∈ V, ¬ Missed s) {tasks' : State ι} (ht : Dominates tasks tasks') {m' : ℕ∞} (hm : m ≤ m') :
    ∀ t, Reachable tasks' m' t → ∃ s ∈ V, Dominates s t := by
  intro t hreach
  induction hreach with
  | refl => exact ⟨0, hV.first, Dominates.refl 0⟩
  | @tail t t' _ hstep ih =>
    obtain ⟨s, hs, hdom⟩ := ih
    obtain ⟨R, rfl⟩ := hstep
    have htick := tick_dominates hdom hm
    by_cases hR : {i ∈ R | tick m' t i = 0}.Nonempty
    · obtain ⟨u, hu, hcover⟩ := hV.moves s hs _ ⟨_, hR, rfl⟩
      rcases release_dominates ht htick R with hmissed | hrel
      · exact absurd (hcover.missed hmissed.1) (hsafe u hu)
      · exact ⟨u, hu, hcover.trans hrel⟩
    · have hnone : release tasks' R (tick m' t) = tick m' t := by
        funext i
        refine release_off (not_and_or.mp fun hi => hR ⟨i, hi⟩)
      rw [hnone]
      by_cases hz : tick m s = 0
      · exact ⟨0, hV.first, hz ▸ htick⟩
      · obtain ⟨i, hi⟩ := Function.ne_iff.mp hz
        obtain ⟨u, hu, hcover⟩ := hV.moves s hs _ ⟨{i}, Set.singleton_nonempty i, rfl⟩
        rw [release_busy hi] at hcover
        exact ⟨u, hu, hcover.trans htick⟩

/-- A cover is harmless exactly when the deadlines are met, if its states are reachable. -/
theorem meetsDeadlines_of_cover {tasks : State ι} {m : ℕ∞} {V : Set (State ι)} (hV : Covers tasks m V)
    (hreach : ∀ s ∈ V, Reachable tasks m s) : MeetsDeadlines tasks m ↔ ∀ s ∈ V, ¬ Missed s := by
  rw [meetsDeadlines_iff]
  constructor
  · intro h s hs
    exact h s (hreach s hs)
  · intro h t ht hmissed
    obtain ⟨s, hs, hdom⟩ := safe_of_cover hV h (Dominates.refl tasks) (le_refl m) t ht
    exact h s hs (hdom.missed hmissed)

/-- The reachable states cover themselves. -/
theorem covers_reachable (tasks : State ι) (m : ℕ∞) : Covers tasks m {s | Reachable tasks m s} where
  first := Relation.ReflTransGen.refl
  moves s hs t hmove := by
    obtain ⟨R, -, rfl⟩ := hmove
    exact ⟨_, Relation.ReflTransGen.tail hs ⟨R, rfl⟩, Dominates.refl _⟩

/-- A reachable state that no other reachable state dominates. -/
def AbsoluteDominant (tasks : State ι) (m : ℕ∞) (s : State ι) : Prop :=
  Reachable tasks m s ∧ ∀ t, Reachable tasks m t → Dominates t s → t = s

/-- Reachable states that stand for all have the same absolute dominants. -/
theorem absoluteDominant_iff {tasks : State ι} {m : ℕ∞} {V : Set (State ι)}
    (hreach : ∀ s ∈ V, Reachable tasks m s) (habove : ∀ t, Reachable tasks m t → ∃ s ∈ V, Dominates s t)
    {s : State ι} : AbsoluteDominant tasks m s ↔ s ∈ V ∧ ∀ t ∈ V, Dominates t s → t = s := by
  constructor
  · intro ⟨hs, htop⟩
    obtain ⟨t, ht, hdom⟩ := habove s hs
    exact ⟨htop t (hreach t ht) hdom ▸ ht, fun t ht => htop t (hreach t ht)⟩
  · intro ⟨hs, htop⟩
    refine ⟨hreach s hs, fun t ht hdom => ?_⟩
    obtain ⟨u, hu, hcover⟩ := habove t ht
    have hsame : u = s := htop u hu (hcover.trans hdom)
    exact hdom.antisymm (hsame ▸ hcover)

/-- Less work, later deadlines and more processors do no harm. -/
theorem MeetsDeadlines.mono {tasks tasks' : State ι} {m m' : ℕ∞} (h : MeetsDeadlines tasks m)
    (ht : Dominates tasks tasks') (hm : m ≤ m') : MeetsDeadlines tasks' m' := by
  rw [meetsDeadlines_iff] at h ⊢
  intro t hreach hmissed
  obtain ⟨s, hs, hdom⟩ := safe_of_cover (covers_reachable tasks m) h ht hm t hreach
  exact h s hs (hdom.missed hmissed)

end Stgx.Lib.FixedPriority
