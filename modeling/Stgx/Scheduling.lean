/-
  Stgx.Scheduling — the states of the example are those of global fixed-priority scheduling.

  `abstract` reads a vector of jobs as a state of `Lib.FixedPriority`, one task for each
  position; a negative `m` never equals `used_cores`, so it counts as no limit.
  - `gfp_tick`: `gfp` is a unit of time;
  - `mem_successors`: the next states are those of the moves, for up to 30 tasks.
-/

import Mathlib.Data.Fintype.Fin
import Stgx.Exploring
import Stgx.Lib.FixedPriority
import Stgx.Lib.Masks

namespace Stgx

open Stgx.Lib
open Stgx.Lib.FixedPriority (ahead Runs tick release Move)

/-! ## Jobs -/

/-- What is left of a job of `task`, some time after its release. -/
structure Job.Within (task job : Job) : Prop where
  c_nonneg : 0 ≤ job.c.toInt
  c_le : job.c.toInt ≤ task.c.toInt
  d_nonneg : 0 ≤ job.d.toInt
  d_le : job.d.toInt ≤ task.d.toInt

/-- A task whose work and deadline are not negative. -/
def Job.Proper (task : Job) : Prop := 0 ≤ task.c.toInt ∧ 0 ≤ task.d.toInt

instance (task : Job) : Decidable task.Proper := inferInstanceAs (Decidable (_ ∧ _))

/-- The jobs of a state are jobs of the tasks. -/
def Fits (tasks : List Job) (state : State) : Prop := List.Forall₂ Job.Within tasks state

def Job.abstract (job : Job) : FixedPriority.Job := ⟨job.c.toInt.toNat, job.d.toInt.toNat⟩

def abstract (n : ℕ) (state : State) : FixedPriority.State (Fin n) := fun i => (state[i.val]?.getD {}).abstract

/-- `used_cores` counts up from zero. -/
def cores (m : Int32) : ℕ∞ := if m.toInt < 0 then ⊤ else (m.toInt.toNat : ℕ∞)

theorem toInt_pred {x : Int32} (h : 0 ≤ x.toInt) : (x - 1).toInt = x.toInt - 1 := by
  have hlt := x.toInt_lt
  rw [Int32.toInt_sub, show (1 : Int32).toInt = 1 by decide]
  exact Int.bmod_eq_of_le (by omega) (by omega)

/-- The time left, a unit later. -/
theorem toInt_next_d {x : Int32} (h : 0 ≤ x.toInt) : (max 0 (x - 1)).toInt = max 0 (x.toInt - 1) := by
  have hpred := toInt_pred h
  show (if (0 : Int32) ≤ x - 1 then x - 1 else 0).toInt = _
  split
  · rename_i hle
    have hle := Int32.le_iff_toInt_le.mp hle
    rw [Int32.toInt_zero] at hle
    omega
  · rename_i hle
    rw [Int32.le_iff_toInt_le, Int32.toInt_zero] at hle
    rw [Int32.toInt_zero]
    omega

theorem Int32_eq_zero {x : Int32} : x = 0 ↔ x.toInt = 0 := by
  rw [← Int32.toInt_inj, Int32.toInt_zero]

variable {n : ℕ} {task job : Job} {tasks : List Job} {state : State} {m : Int32}

theorem Job.Within.zero (h : task.Proper) : task.Within {} := ⟨le_refl _, h.1, le_refl _, h.2⟩

theorem Job.Within.released (h : task.Proper) : task.Within task := ⟨h.1, le_refl _, h.2, le_refl _⟩

theorem Job.Within.eq_zero_iff (h : task.Within job) : job = {} ↔ job.abstract = 0 := by
  constructor
  · rintro rfl
    rfl
  · intro habs
    have hc : job.c.toInt.toNat = 0 := congrArg FixedPriority.Job.work habs
    have hd : job.d.toInt.toNat = 0 := congrArg FixedPriority.Job.due habs
    have := h.c_nonneg
    have := h.d_nonneg
    exact Job.ext (Int32_eq_zero.mpr (by omega)) (Int32_eq_zero.mpr (by omega))

/-- The job after a unit of time, in which it runs or waits. -/
def Job.after (runs : Bool) (job : Job) : Job := ⟨if runs then job.c - 1 else job.c, max 0 (job.d - 1)⟩

theorem Job.Within.after {runs : Bool} (h : task.Within job) (hruns : runs = true → job.c ≠ 0) :
    task.Within (job.after runs) := by
  obtain ⟨hc, hct, hd, hdt⟩ := h
  have hnext : (job.after runs).d.toInt = max 0 (job.d.toInt - 1) := toInt_next_d hd
  cases runs with
  | false => exact ⟨hc, hct, by omega, by omega⟩
  | true =>
    have hpred : (job.after true).c.toInt = job.c.toInt - 1 := toInt_pred hc
    have hne : job.c.toInt ≠ 0 := fun h => hruns rfl (Int32_eq_zero.mpr h)
    exact ⟨by omega, by omega, by omega, by omega⟩

/-! ## A unit of time -/

/-- A job that is not done. -/
def Job.busy (job : Job) : Bool := decide (job.c ≠ 0)

/-- Whether a job runs, `used` cores being used by those before. -/
def runsAt (m : Int32) (used : ℤ) (job : Job) : Bool := job.busy && decide (used ≠ m.toInt)

theorem gfpFrom_cons (m : Int32) (used : ℤ) (job : Job) (jobs : State) :
    gfpFrom m used (job :: jobs) =
      job.after (runsAt m used job) :: gfpFrom m (if runsAt m used job then used + 1 else used) jobs := by
  rw [gfpFrom]
  unfold runsAt Job.busy Job.after
  by_cases hc : job.c = 0
  · simp [hc]
  · by_cases hused : used = m.toInt
    · simp [hused]
    · simp [hc, hused]

/-- A job runs when fewer than `m` of those before are busy. -/
theorem gfpFrom_getElem? (m : Int32) (state : State) :
    ∀ (used : ℤ) (i : ℕ), 0 ≤ used → (m.toInt < 0 ∨ used ≤ m.toInt) →
      (gfpFrom m used state)[i]? = state[i]?.map fun job => job.after
        (job.busy && decide (m.toInt < 0 ∨ used + (state.take i).countP Job.busy < m.toInt)) := by
  induction state with
  | nil => exact fun used i _ _ => rfl
  | cons job jobs ih =>
    intro used i hnonneg hle
    rw [gfpFrom_cons]
    cases i with
    | zero =>
      rw [List.getElem?_cons_zero, List.getElem?_cons_zero, Option.map_some, List.take_zero, List.countP_nil, runsAt]
      refine congrArg (fun b => some (job.after (job.busy && b))) ?_
      rw [decide_eq_decide]
      omega
    | succ i =>
      rw [List.getElem?_cons_succ, List.getElem?_cons_succ, List.take_succ_cons, List.countP_cons, runsAt]
      cases hbusy : job.busy with
      | false =>
        rw [Bool.false_and, if_neg Bool.false_ne_true, if_neg Bool.false_ne_true]
        exact ih used i hnonneg hle
      | true =>
        rw [Bool.true_and, if_pos rfl]
        -- once all cores are used, they stay so
        by_cases hused : used = m.toInt
        · rw [if_neg (by simpa using hused), ih used i hnonneg hle]
          refine congrArg (fun b => jobs[i]?.map fun job => job.after (job.busy && b)) ?_
          rw [decide_eq_decide]
          omega
        · rw [if_pos (by simpa using hused), ih (used + 1) i (by omega) (by omega)]
          refine congrArg (fun b => jobs[i]?.map fun job => job.after (job.busy && b)) ?_
          rw [decide_eq_decide]
          omega

theorem gfp_getElem? (state : State) (m : Int32) (i : ℕ) :
    (gfp state m)[i]? = state[i]?.map fun job => job.after
      (job.busy && decide (m.toInt < 0 ∨ ((state.take i).countP Job.busy : ℤ) < m.toInt)) := by
  rw [gfp, gfpFrom_getElem? m state 0 i (le_refl 0) (by omega)]
  simp only [Int.zero_add]

/-- The busy jobs before one, as tasks. -/
theorem card_before (p : Job → Bool) (state : State) : ∀ {n : ℕ} (i : Fin n), state.length = n →
    (Finset.univ.filter fun j : Fin n => j < i ∧ p (state[j.val]?.getD {}) = true).card =
      (state.take i).countP p := by
  induction state with
  | nil =>
    intro n i h
    subst h
    exact i.elim0
  | cons job jobs ih =>
    intro n i h
    rw [List.length_cons] at h
    subst h
    rw [Fin.card_filter_univ_succ]
    cases i using Fin.cases with
    | zero => simp
    | succ i =>
      rw [Fin.val_succ, List.take_succ_cons, List.countP_cons, ← ih i rfl]
      by_cases hp : p job = true <;> simp [hp, add_comm]

theorem Job.Within.abstract_after (h : task.Within job) (runs : Bool) :
    (job.after runs).abstract = ⟨if runs then job.abstract.work - 1 else job.abstract.work, job.abstract.due - 1⟩ := by
  have hpred := toInt_pred h.c_nonneg
  have hnext := toInt_next_d h.d_nonneg
  refine FixedPriority.Job.ext ?_ ?_
  · cases runs with
    | false => rfl
    | true =>
      show (job.c - 1).toInt.toNat = job.c.toInt.toNat - 1
      omega
  · show (max 0 (job.d - 1)).toInt.toNat = job.d.toInt.toNat - 1
    omega

theorem Job.Within.busy_iff (h : task.Within job) : job.busy = true ↔ 0 < job.abstract.work := by
  have hc := h.c_nonneg
  rw [Job.busy, decide_eq_true_iff, Ne, Int32_eq_zero]
  show ¬ job.c.toInt = 0 ↔ 0 < job.c.toInt.toNat
  omega

theorem Fits.length (h : Fits tasks state) : state.length = tasks.length := h.length_eq.symm

/-- The job of a task, on both sides. -/
theorem Fits.abstract_at (h : Fits tasks state) (i : Fin tasks.length) :
    ∃ job, state[i.val]? = some job ∧ (tasks[i]).Within job ∧ abstract tasks.length state i = job.abstract := by
  have hlt : i.val < state.length := by rw [h.length]; exact i.isLt
  have hget : state[i.val]? = some state[i.val] := List.getElem?_eq_getElem hlt
  exact ⟨state[i.val], hget, List.forall₂_iff_get.mp h |>.2 i i.isLt hlt, by rw [abstract, hget, Option.getD_some]⟩

theorem Fits.ahead_card (h : Fits tasks state) (i : Fin tasks.length) :
    (ahead (abstract tasks.length state) i).card = (state.take i).countP Job.busy := by
  rw [← card_before Job.busy state i h.length]
  refine congrArg Finset.card (Finset.filter_congr fun j _ => ?_)
  obtain ⟨job, hjob, hwithin, habs⟩ := h.abstract_at j
  rw [habs, hjob, Option.getD_some, hwithin.busy_iff]

theorem lt_cores {k : ℕ} : (k : ℕ∞) < cores m ↔ m.toInt < 0 ∨ (k : ℤ) < m.toInt := by
  unfold cores
  split
  · rename_i hneg
    exact iff_of_true (WithTop.coe_lt_top k) (Or.inl hneg)
  · rename_i hneg
    rw [Nat.cast_lt]
    omega

theorem cores_le {m' : Int32} (h : 0 ≤ m.toInt) (hle : m.toInt ≤ m'.toInt) : cores m ≤ cores m' := by
  unfold cores
  rw [if_neg (by omega), if_neg (by omega), Nat.cast_le]
  omega

/-- `gfp` is a unit of time. -/
theorem gfp_tick (h : Fits tasks state) (m : Int32) :
    abstract tasks.length (gfp state m) = tick (cores m) (abstract tasks.length state) := by
  funext i
  obtain ⟨job, hjob, hwithin, habs⟩ := h.abstract_at i
  have hruns : (job.busy && decide (m.toInt < 0 ∨ ((state.take i).countP Job.busy : ℤ) < m.toInt)) = true ↔
      Runs (cores m) (abstract tasks.length state) i := by
    rw [Bool.and_eq_true, decide_eq_true_iff, Runs, habs, h.ahead_card, lt_cores, hwithin.busy_iff]
  rw [abstract, gfp_getElem?, hjob, Option.map_some, Option.getD_some, hwithin.abstract_after]
  refine FixedPriority.Job.ext ?_ (by rw [FixedPriority.tick_due, habs])
  by_cases hr : Runs (cores m) (abstract tasks.length state) i
  · rw [FixedPriority.tick_runs hr, habs]
    exact if_pos (hruns.mpr hr)
  · rw [FixedPriority.tick_waits hr, habs]
    exact if_neg fun hc => hr (hruns.mp hc)

theorem Fits.gfp (h : Fits tasks state) (m : Int32) : Fits tasks (gfp state m) := by
  rw [Fits, List.forall₂_iff_get]
  refine ⟨by rw [gfp_length, h.length], fun i hi hi' => ?_⟩
  have hget := gfp_getElem? state m i
  obtain ⟨job, hjob, hwithin, -⟩ := h.abstract_at ⟨i, hi⟩
  rw [hjob, Option.map_some, List.getElem?_eq_getElem hi', Option.some.injEq] at hget
  rw [List.get_eq_getElem, List.get_eq_getElem, hget]
  refine hwithin.after fun hruns => ?_
  have hbusy := (Bool.and_eq_true _ _ ▸ hruns).1
  exact of_decide_eq_true hbusy

/-! ## Releases -/

theorem releaseTask_getElem? (tasks : List Job) (released : State) (j i : ℕ) :
    (releaseTask tasks released j)[i]? =
      if i = j ∧ released[i]? = some {} then some (tasks[i]?.getD {}) else released[i]? := by
  unfold releaseTask
  by_cases hi : i = j
  · subst hi
    by_cases hidle : released[i]? = some {}
    · rw [if_pos hidle, if_pos ⟨rfl, hidle⟩, List.getElem?_set_self (List.getElem?_eq_some_iff.mp hidle).1]
    · rw [if_neg hidle, if_neg fun h => hidle h.2]
  · rw [if_neg (show ¬(i = j ∧ released[i]? = some {}) from fun h => hi h.1)]
    split
    · exact List.getElem?_set_ne fun h => hi h.symm
    · rfl

/-- A task is released once: the job it has then is what another release would make it. -/
theorem releaseAll_getElem? (tasks : List Job) (combination : List ℕ) (i : ℕ) : ∀ released : State,
    (combination.foldl (releaseTask tasks) released)[i]? =
      if i ∈ combination ∧ released[i]? = some {} then some (tasks[i]?.getD {}) else released[i]? := by
  induction combination with
  | nil => exact fun released => (if_neg fun h => List.not_mem_nil h.1).symm
  | cons j combination ih =>
    intro released
    rw [List.foldl_cons, ih]
    have hstep := releaseTask_getElem? tasks released j i
    by_cases hidle : released[i]? = some {}
    · by_cases hi : i = j
      · rw [if_pos ⟨hi, hidle⟩] at hstep
        rw [hstep, ite_self, if_pos ⟨hi ▸ List.mem_cons_self, hidle⟩]
      · rw [if_neg fun h => hi h.1] at hstep
        rw [hstep]
        simp [hi]
    · rw [if_neg fun h => hidle h.2] at hstep
      rw [hstep, if_neg fun h => hidle h.2, if_neg fun h => hidle h.2]

theorem Fits.release (h : Fits tasks state) (hproper : ∀ task ∈ tasks, task.Proper) (combination : List ℕ) :
    Fits tasks (combination.foldl (releaseTask tasks) state) := by
  rw [Fits, List.forall₂_iff_get]
  refine ⟨by rw [releaseAll_length, h.length], fun i hi hi' => ?_⟩
  have hget := releaseAll_getElem? tasks combination i state
  obtain ⟨job, hjob, hwithin, -⟩ := h.abstract_at ⟨i, hi⟩
  rw [List.getElem?_eq_getElem hi'] at hget
  rw [List.get_eq_getElem, List.get_eq_getElem]
  split at hget
  · rw [List.getElem?_eq_getElem hi, Option.getD_some, Option.some.injEq] at hget
    rw [hget]
    exact Job.Within.released (hproper _ (List.getElem_mem hi))
  · rw [hjob, Option.some.injEq] at hget
    rw [hget]
    exact hwithin

theorem release_abstract (h : Fits tasks state) (combination : List ℕ) :
    abstract tasks.length (combination.foldl (releaseTask tasks) state) =
      release (abstract tasks.length tasks) {i | i.val ∈ combination} (abstract tasks.length state) := by
  funext i
  obtain ⟨job, hjob, hwithin, habs⟩ := h.abstract_at i
  rw [abstract, releaseAll_getElem?]
  by_cases hi : i.val ∈ combination ∧ job = {}
  · have hidle : abstract tasks.length state i = 0 := habs.trans (hwithin.eq_zero_iff.mp hi.2)
    have hmem : i ∈ {i : Fin tasks.length | i.val ∈ combination} := hi.1
    rw [if_pos ⟨hi.1, by rw [hjob, hi.2]⟩, FixedPriority.release_mem hmem hidle]
    rfl
  · have hoff : i ∉ {i : Fin tasks.length | i.val ∈ combination} ∨ abstract tasks.length state i ≠ 0 := by
      rw [habs, Ne, ← hwithin.eq_zero_iff]
      exact not_and_or.mp hi
    rw [if_neg fun h => hi ⟨h.1, Option.some.inj (hjob.symm.trans h.2)⟩, FixedPriority.release_off hoff]
    rfl

/-! ## Sets of tasks -/

/-- `1 << 31` would be negative. -/
theorem oneShl_eq {n : ℕ} (h : n ≤ 30) : oneShl n = ((2 ^ n : ℕ) : ℤ) := by
  have hle : 2 ^ n ≤ 2 ^ 30 := Nat.pow_le_pow_right (by decide) h
  have hcast : (2 : ℤ) ^ n = ((2 ^ n : ℕ) : ℤ) := (Int.natCast_pow 2 n).symm
  unfold oneShl
  rw [hcast]
  generalize 2 ^ n = k at hle ⊢
  exact Int.bmod_eq_of_le (by omega) (by omega)

theorem mask_bit (mask i : ℕ) : mask &&& (1 <<< i) ≠ 0 ↔ mask.testBit i = true := by
  rw [Nat.one_shiftLeft, Nat.land_comm, Nat.two_pow_and]
  cases mask.testBit i with
  | false => simp
  | true => simp

theorem allCombinations_eq {n : ℕ} (h : n ≤ 30) : allCombinations n = Masks.subsets n := by
  rw [allCombinations, oneShl_eq h, Int.toNat_natCast, Masks.subsets]
  refine List.map_congr_left fun mask _ => List.filter_congr fun i _ => ?_
  rw [Bool.eq_iff_iff, decide_eq_true_iff, mask_bit]

/-- Up to 30 tasks, every nonempty set of tasks is listed, once. -/
theorem allCombinations_complete {n : ℕ} (h : n ≤ 30) :
    (allCombinations n).Nodup ∧ ∀ combination, combination ∈ allCombinations n ↔
      combination ≠ [] ∧ combination.Sublist (List.range n) := by
  rw [allCombinations_eq h]
  exact ⟨Masks.nodup_subsets n, fun combination => Masks.mem_subsets⟩

theorem allCombinations_complete_pair : (allCombinations 2).Nodup ∧ ∀ combination, combination ∈ allCombinations 2 ↔
    combination ≠ [] ∧ combination.Sublist (List.range 2) :=
  allCombinations_complete (by decide)

/-! ## Moves -/

theorem fits_idle (hproper : ∀ task ∈ tasks, task.Proper) : Fits tasks (idle tasks) := by
  rw [Fits, idle, List.forall₂_map_right_iff, List.forall₂_same]
  exact fun task ht => Job.Within.zero (hproper task ht)

theorem abstract_idle (tasks : List Job) : abstract tasks.length (idle tasks) = 0 := by
  funext i
  rw [abstract, idle, List.getElem?_map, List.getElem?_eq_getElem i.isLt]
  rfl

theorem Job.Within.abstract_inj {task' job' : Job} (h : task.Within job) (h' : task'.Within job')
    (he : job.abstract = job'.abstract) : job = job' := by
  have hc : job.c.toInt.toNat = job'.c.toInt.toNat := congrArg FixedPriority.Job.work he
  have hd : job.d.toInt.toNat = job'.d.toInt.toNat := congrArg FixedPriority.Job.due he
  have := h.c_nonneg
  have := h.d_nonneg
  have := h'.c_nonneg
  have := h'.d_nonneg
  exact Job.ext (Int32.toInt_inj.mp (by omega)) (Int32.toInt_inj.mp (by omega))

/-- Vectors that fit are told apart by what they say of the tasks. -/
theorem Fits.abstract_inj {next : State} (h : Fits tasks state) (h' : Fits tasks next)
    (he : abstract tasks.length state = abstract tasks.length next) : state = next := by
  refine List.ext_getElem (h.length.trans h'.length.symm) fun i hi hi' => ?_
  have hlt : i < tasks.length := by rw [← h.length]; exact hi
  obtain ⟨job, hjob, hwithin, habs⟩ := h.abstract_at ⟨i, hlt⟩
  obtain ⟨job', hjob', hwithin', habs'⟩ := h'.abstract_at ⟨i, hlt⟩
  rw [List.getElem?_eq_getElem hi, Option.some.injEq] at hjob
  rw [List.getElem?_eq_getElem hi', Option.some.injEq] at hjob'
  rw [hjob, hjob']
  exact hwithin.abstract_inj hwithin' (habs.symm.trans ((congrFun he _).trans habs'))

/-- Whatever sets of tasks may be released. -/
theorem Fits.successor (h : Fits tasks state) (hproper : ∀ task ∈ tasks, task.Proper)
    {combinations : List (List ℕ)} {next : State} (hnext : next ∈ nextStates state tasks m combinations) :
    Fits tasks next := by
  obtain ⟨combination, -, rfl⟩ := mem_nextStates.mp hnext
  exact (h.gfp m).release hproper combination

/-- A set of tasks, listed in order. -/
theorem exists_listed (R : Set (Fin n)) :
    ∃ combination : List ℕ, combination.Sublist (List.range n) ∧ {i : Fin n | i.val ∈ combination} = R := by
  classical
  refine ⟨(List.range n).filter fun i => ∃ h : i < n, (⟨i, h⟩ : Fin n) ∈ R, List.filter_sublist, Set.ext fun i => ?_⟩
  simp

/-- Every move leads to one of the next states. -/
theorem exists_successor (hn : tasks.length ≤ 30) (h : Fits tasks state) {t : FixedPriority.State (Fin tasks.length)}
    (hmove : Move (abstract tasks.length tasks) (cores m) (abstract tasks.length state) t) :
    ∃ next ∈ successors tasks m state, abstract tasks.length next = t := by
  obtain ⟨R, ⟨i, hi⟩, rfl⟩ := hmove
  obtain ⟨combination, hsub, rfl⟩ := exists_listed R
  refine ⟨combination.foldl (releaseTask tasks) (gfp state m), mem_nextStates.mpr ⟨combination, ?_, rfl⟩, ?_⟩
  · rw [allCombinations_eq hn, Masks.mem_subsets]
    exact ⟨List.ne_nil_of_mem hi, hsub⟩
  · rw [release_abstract (h.gfp m), gfp_tick h m]

/-- The next states are those of the moves. -/
theorem mem_successors (hn : tasks.length ≤ 30) (hproper : ∀ task ∈ tasks, task.Proper) (h : Fits tasks state)
    {next : State} :
    next ∈ successors tasks m state ↔ Fits tasks next ∧
      Move (abstract tasks.length tasks) (cores m) (abstract tasks.length state) (abstract tasks.length next) := by
  constructor
  · intro hnext
    refine ⟨h.successor hproper hnext, ?_⟩
    obtain ⟨combination, hmem, rfl⟩ := mem_nextStates.mp hnext
    rw [allCombinations_eq hn, Masks.mem_subsets] at hmem
    obtain ⟨i, hi⟩ := List.exists_mem_of_ne_nil _ hmem.1
    have hlt := List.mem_range.mp (hmem.2.subset hi)
    rw [Move, ← gfp_tick h m]
    exact ⟨_, ⟨⟨i, hlt⟩, hi⟩, release_abstract (h.gfp m) combination⟩
  · rintro ⟨hfits, hmove⟩
    obtain ⟨next', hnext', habs⟩ := exists_successor hn h hmove
    rwa [hfits.abstract_inj (h.successor hproper hnext') habs.symm]

/-! ## Deadlines and dominance -/

theorem Fits.deadlineMiss_iff (h : Fits tasks state) :
    state.deadlineMiss = true ↔ FixedPriority.Missed (abstract tasks.length state) := by
  have hlate : ∀ {task job : Job}, task.Within job → (job.c > job.d ↔ job.abstract.due < job.abstract.work) := by
    intro task job hwithin
    have := hwithin.c_nonneg
    have := hwithin.d_nonneg
    rw [gt_iff_lt, Int32.lt_iff_toInt_lt]
    show job.d.toInt < job.c.toInt ↔ job.d.toInt.toNat < job.c.toInt.toNat
    omega
  rw [State.deadlineMiss, List.any_eq_true]
  constructor
  · rintro ⟨job, hjob, hlt⟩
    obtain ⟨i, hi, rfl⟩ := List.mem_iff_getElem.mp hjob
    have htask : i < tasks.length := by rw [← h.length]; exact hi
    obtain ⟨job, hjob, hwithin, habs⟩ := h.abstract_at ⟨i, htask⟩
    rw [List.getElem?_eq_getElem hi, Option.some.injEq] at hjob
    refine ⟨⟨i, htask⟩, ?_⟩
    rw [habs, ← hlate hwithin, ← hjob]
    exact of_decide_eq_true hlt
  · rintro ⟨i, hlt⟩
    obtain ⟨job, hjob, hwithin, habs⟩ := h.abstract_at i
    rw [habs, ← hlate hwithin] at hlt
    exact ⟨job, List.mem_of_getElem? hjob, decide_eq_true hlt⟩

theorem Fits.dominates_iff {other : State} (h : Fits tasks state) (h' : Fits tasks other) :
    state.dominates other = true ↔
      FixedPriority.Dominates (abstract tasks.length state) (abstract tasks.length other) := by
  rw [Stgx.dominates_iff (h.length.trans h'.length.symm), List.forall₂_iff_get]
  have hat : ∀ {task task' job job' : Job}, task.Within job → task'.Within job' → (job.AtLeast job' ↔
      job'.abstract.work ≤ job.abstract.work ∧ job.abstract.due ≤ job'.abstract.due) := by
    intro task task' job job' hj hj'
    have := hj.c_nonneg
    have := hj.d_nonneg
    have := hj'.c_nonneg
    have := hj'.d_nonneg
    show job'.c.toInt ≤ job.c.toInt ∧ job.d.toInt ≤ job'.d.toInt ↔
      job'.c.toInt.toNat ≤ job.c.toInt.toNat ∧ job.d.toInt.toNat ≤ job'.d.toInt.toNat
    omega
  constructor
  · intro hall i
    obtain ⟨job, hjob, hwithin, habs⟩ := h.abstract_at i
    obtain ⟨job', hjob', hwithin', habs'⟩ := h'.abstract_at i
    obtain ⟨hi, rfl⟩ := List.getElem?_eq_some_iff.mp hjob
    obtain ⟨hi', rfl⟩ := List.getElem?_eq_some_iff.mp hjob'
    rw [habs, habs', ← hat hwithin hwithin']
    exact hall.2 i hi hi'
  · intro hall
    refine ⟨h.length.trans h'.length.symm, fun i hi hi' => ?_⟩
    have htask : i < tasks.length := by rw [← h.length]; exact hi
    obtain ⟨job, hjob, hwithin, habs⟩ := h.abstract_at ⟨i, htask⟩
    obtain ⟨job', hjob', hwithin', habs'⟩ := h'.abstract_at ⟨i, htask⟩
    have hboth := hall ⟨i, htask⟩
    rw [habs, habs', ← hat hwithin hwithin'] at hboth
    rw [List.getElem?_eq_getElem hi, Option.some.injEq] at hjob
    rw [List.getElem?_eq_getElem hi', Option.some.injEq] at hjob'
    rw [List.get_eq_getElem, List.get_eq_getElem, hjob, hjob']
    exact hboth

/-- Jobs that ask for more are worse, whatever their values. -/
theorem dominates_abstract {other : State} (h : List.Forall₂ Job.AtLeast state other) (n : ℕ) :
    FixedPriority.Dominates (abstract n state) (abstract n other) := by
  intro i
  unfold abstract
  by_cases hi : i.val < state.length
  · have hi' : i.val < other.length := by rw [← h.length_eq]; exact hi
    have hat := (List.forall₂_iff_get.mp h).2 i.val hi hi'
    rw [List.getElem?_eq_getElem hi, List.getElem?_eq_getElem hi', Option.getD_some, Option.getD_some]
    exact ⟨Int.toNat_le_toNat hat.1, Int.toNat_le_toNat hat.2⟩
  · have hi' : ¬ i.val < other.length := by rw [← h.length_eq]; exact hi
    rw [List.getElem?_eq_none (Nat.not_lt.mp hi), List.getElem?_eq_none (Nat.not_lt.mp hi')]
    exact FixedPriority.Dominates.refl (fun _ : Fin n => (({} : Job).abstract)) i

end Stgx
