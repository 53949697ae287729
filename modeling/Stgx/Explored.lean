/-
  Stgx.Explored — what an exploration says of the task set.

  - `explore_terminates`: there is one, with no more states than the tasks have jobs to combine.
  - `explored_states`: its states are reachable, each listed once, and without pruning all are.
  - `explored_arcs`: its arcs are the moves between the states it lists, and all but the
    first are discovered by one arc; `explored_shortest`: without pruning these are
    shortest paths from the idle state.
  - `schedulable_iff`: with or without pruning, it says of the task set whether every
    deadline is met; `pruned_covers`: what pruning leaves out is dominated.
-/

import Mathlib.Data.List.Sections
import Mathlib.Data.Set.Card
import Stgx.Scheduling

namespace Stgx

open Stgx.Lib
open Stgx.Lib.BreadthFirst (Arc Search Searched Explored search start Walk Depth newly)
open Stgx.Lib.FixedPriority (Move MeetsDeadlines Missed Dominates)

variable {tasks : List Job} {m : Int32} {prune : Bool} {fuel : ℕ} {out : Exploration}

/-! ## Termination -/

/-- What can be left of a job of `task`. -/
def jobsOf (task : Job) : List Job :=
  (List.range (task.c.toInt.toNat + 1)).flatMap fun c : ℕ =>
    (List.range (task.d.toInt.toNat + 1)).map fun d : ℕ => ⟨Int32.ofInt c, Int32.ofInt d⟩

theorem mem_jobsOf {task job : Job} (h : task.Within job) : job ∈ jobsOf task := by
  obtain ⟨hc, hct, hd, hdt⟩ := h
  have hc' : job.c.toInt.toNat < task.c.toInt.toNat + 1 := by omega
  have hd' : job.d.toInt.toNat < task.d.toInt.toNat + 1 := by omega
  refine List.mem_flatMap.mpr ⟨_, List.mem_range.mpr hc', List.mem_map.mpr ⟨_, List.mem_range.mpr hd', ?_⟩⟩
  rw [Int.toNat_of_nonneg hc, Int.toNat_of_nonneg hd, Int32.ofInt_toInt, Int32.ofInt_toInt]

/-- The number of combinations of their jobs. -/
def stateBound (tasks : List Job) : ℕ :=
  (tasks.map fun task => (task.c.toInt.toNat + 1) * (task.d.toInt.toNat + 1)).prod

theorem length_sections {α : Type} (lists : List (List α)) : lists.sections.length = (lists.map List.length).prod := by
  induction lists with
  | nil => rfl
  | cons l lists ih => simp [List.sections, List.length_flatMap, ih, Nat.mul_comm]

theorem length_jobsOf (task : Job) : (jobsOf task).length = (task.c.toInt.toNat + 1) * (task.d.toInt.toNat + 1) := by
  simp [jobsOf, List.length_flatMap]

theorem length_combined (tasks : List Job) : (tasks.map jobsOf).sections.length = stateBound tasks := by
  rw [length_sections, stateBound, List.map_map]
  exact congrArg List.prod (List.map_congr_left fun task _ => length_jobsOf task)

theorem Fits.mem_combined {state : State} (h : Fits tasks state) : state ∈ (tasks.map jobsOf).sections := by
  rw [List.mem_sections, List.forall₂_map_right_iff]
  exact List.Forall₂.flip (h.imp fun _ _ => mem_jobsOf)

theorem reached_fits (hproper : ∀ task ∈ tasks, task.Proper) {combinations : List (List ℕ)} {state : State}
    (h : Relation.ReflTransGen (fun x y => y ∈ nextStates x tasks m combinations) (idle tasks) state) :
    Fits tasks state := by
  induction h with
  | refl => exact fits_idle hproper
  | tail _ hnext ih => exact ih.successor hproper hnext

/-- The exploration ends, whatever sets of tasks may be released: there are only so many states. -/
theorem explore_terminates (hproper : ∀ task ∈ tasks, task.Proper) (m : Int32) (prune : Bool)
    (combinations : List (List ℕ)) :
    ∃ out, out.states.length ≤ stateBound tasks ∧
      ∀ fuel, stateBound tasks < fuel → Explorer.loop tasks m prune combinations fuel (explorer tasks) = some out := by
  have hdomain : ∀ state,
      Relation.ReflTransGen (fun x y => y ∈ nextStates x tasks m combinations) (idle tasks) state →
        state ∈ (tasks.map jobsOf).sections := fun state h => (reached_fits hproper h).mem_combined
  have hstart : Searched (nextStates · tasks m combinations) (labelOf tasks m) (skips prune) (idle tasks)
      (tasks.map fun _ => .none) (start (idle tasks) (tasks.map fun _ => .none)) := BreadthFirst.searched_start _ _
  obtain ⟨s, hs⟩ := BreadthFirst.search_ends hdomain (skips_monotone prune) (stateBound tasks + 1) _ hstart
    (by rw [length_combined]; omega)
  have hexplored := BreadthFirst.search_explored (skips_monotone prune) _ _ s hstart hs
  refine ⟨Exploration.ofSearch s, ?_, fun fuel hlt => ?_⟩
  · rw [← length_combined]
    exact hexplored.length_le hdomain
  · rw [loop_search, BreadthFirst.search_more hlt _ s hs]
    rfl

/-- `explore` releases the sets of `all_combinations`. -/
theorem explore_terminates_kTasks : ∃ out, out.states.length ≤ stateBound kTasks ∧
    ∀ fuel, stateBound kTasks < fuel → explore kTasks kM kPrune fuel = some out :=
  explore_terminates (by decide) kM kPrune (allCombinations kTasks.length)

/-! ## The search -/

/-- The result of `explore` is that of a search that has ended. -/
theorem exists_explored (h : explore tasks m prune fuel = some out) :
    ∃ s, Explored (successors tasks m) (labelOf tasks m) (skips prune) (idle tasks) (tasks.map fun _ => .none) s ∧
      out = Exploration.ofSearch s := by
  rw [explore_eq, Option.map_eq_some_iff] at h
  obtain ⟨s, hs, rfl⟩ := h
  exact ⟨s, BreadthFirst.search_explored (skips_monotone prune) fuel _ s (BreadthFirst.searched_start _ _) hs, rfl⟩

/-- What the program finds. -/
def kTasksExploration : Exploration where
  states := [[{}, {}], [{}, ⟨1, 2⟩], [⟨1, 2⟩, {}], [⟨1, 2⟩, ⟨1, 2⟩], [{}, ⟨0, 1⟩], [⟨1, 2⟩, ⟨0, 1⟩], [⟨0, 1⟩, {}],
    [⟨0, 1⟩, ⟨1, 2⟩], [⟨0, 1⟩, ⟨1, 1⟩]]
  releases := [[.none, .none], [.none, .up], [.up, .none], [.up, .up], [.none, .down], [.up, .down], [.down, .none],
    [.down, .up], [.down, .none]]
  arcs := [[(1, false), (2, false), (3, false)], [(4, false), (5, false)], [(6, false), (7, false)], [(8, false)],
    [(1, true), (2, true), (3, true)], [(6, true), (7, true)], [(1, true), (2, true), (3, true)],
    [(4, true), (5, true)], [(1, true), (2, true), (3, true)]]

theorem explore_kTasks : explore kTasks kM kPrune 10 = some kTasksExploration := by decide

/-- The program's task set is schedulable, explored with or without pruning. -/
theorem kTasks_explored (prune : Bool) :
    ∃ out, explore kTasks kM prune 10 = some out ∧ out.schedulable = true := by
  cases prune with
  | false => exact ⟨_, explore_kTasks, rfl⟩
  | true =>
    exact Option.map_eq_some_iff.mp
      (show (explore kTasks kM true 10).map Exploration.schedulable = some true by decide)

theorem kTasks_proper : ∀ task ∈ kTasks, task.Proper := by decide

/-! ## States -/

theorem schedulable_eq {s : Search State (List Release)} :
    (Exploration.ofSearch s).schedulable = true ↔ ∀ state ∈ s.found, state.deadlineMiss = false := by
  show (!s.found.any State.deadlineMiss) = true ↔ _
  rw [Bool.not_eq_true', List.any_eq_false]
  simp only [Bool.not_eq_true]

theorem reached_reachable (hn : tasks.length ≤ 30) (hproper : ∀ task ∈ tasks, task.Proper) {state : State}
    (h : Relation.ReflTransGen (fun x y => y ∈ successors tasks m x) (idle tasks) state) :
    FixedPriority.Reachable (abstract tasks.length tasks) (cores m) (abstract tasks.length state) := by
  rw [FixedPriority.reachable_iff_moves]
  induction h with
  | refl => rw [abstract_idle]
  | tail hx hnext ih =>
    exact ih.tail ((mem_successors hn hproper (reached_fits hproper hx)).mp hnext).2

theorem exists_reached (hn : tasks.length ≤ 30) (hproper : ∀ task ∈ tasks, task.Proper)
    {s : FixedPriority.State (Fin tasks.length)}
    (h : FixedPriority.Reachable (abstract tasks.length tasks) (cores m) s) :
    ∃ state, Relation.ReflTransGen (fun x y => y ∈ successors tasks m x) (idle tasks) state ∧
      abstract tasks.length state = s := by
  rw [FixedPriority.reachable_iff_moves] at h
  induction h with
  | refl => exact ⟨idle tasks, Relation.ReflTransGen.refl, abstract_idle tasks⟩
  | tail _ hmove ih =>
    obtain ⟨state, hstate, rfl⟩ := ih
    obtain ⟨next, hnext, habs⟩ := exists_successor hn (reached_fits hproper hstate) hmove
    exact ⟨next, hstate.tail hnext, habs⟩

/-- The states listed are reachable, each once; without pruning, they are all that are. -/
theorem explored_states (hn : tasks.length ≤ 30) (hproper : ∀ task ∈ tasks, task.Proper)
    (h : explore tasks m prune fuel = some out) :
    (out.states.map (abstract tasks.length)).Nodup ∧
      (∀ s ∈ out.states.map (abstract tasks.length),
        FixedPriority.Reachable (abstract tasks.length tasks) (cores m) s) ∧
      (prune = false → ∀ s, FixedPriority.Reachable (abstract tasks.length tasks) (cores m) s →
        s ∈ out.states.map (abstract tasks.length)) := by
  obtain ⟨r, hr, rfl⟩ := exists_explored h
  have hfits : ∀ state ∈ r.found, Fits tasks state := fun state hs => reached_fits hproper (hr.reached state hs)
  refine ⟨?_, ?_, ?_⟩
  · exact hr.nodup.map_on fun a ha b hb he => (hfits a ha).abstract_inj (hfits b hb) he
  · intro s hs
    obtain ⟨state, hfound, rfl⟩ := List.mem_map.mp hs
    exact reached_reachable hn hproper (hr.reached state hfound)
  · rintro rfl s hs
    obtain ⟨state, hstate, habs⟩ := exists_reached hn hproper hs
    exact List.mem_map.mpr ⟨state, (hr.mem_found (fun _ _ => rfl) state).mpr hstate, habs⟩

/-! ## Deadlines -/

/-- The states found, with or without pruning, stand for all. -/
theorem explored_covers (hn : tasks.length ≤ 30) (hproper : ∀ task ∈ tasks, task.Proper)
    {s : Search State (List Release)}
    (h : Explored (successors tasks m) (labelOf tasks m) (skips prune) (idle tasks) (tasks.map fun _ => .none) s) :
    FixedPriority.Covers (abstract tasks.length tasks) (cores m)
      {t | ∃ state ∈ s.found, abstract tasks.length state = t} := by
  have hfits : ∀ state ∈ s.found, Fits tasks state := fun state hs => reached_fits hproper (h.reached state hs)
  constructor
  · exact ⟨idle tasks, List.mem_of_getElem? h.starts, abstract_idle tasks⟩
  · rintro _ ⟨state, hs, rfl⟩ t hmove
    obtain ⟨next, hnext, rfl⟩ := exists_successor hn (hfits state hs) hmove
    by_cases hfound : next ∈ s.found
    · exact ⟨_, ⟨next, hfound, rfl⟩, Dominates.refl _⟩
    · -- left out: some state found is at least as bad
      have hskip := h.skipped hs hnext hfound
      rw [skips, Bool.and_eq_true, dominated, List.any_eq_true] at hskip
      obtain ⟨-, other, hother, hdom⟩ := hskip
      rw [Bool.and_eq_true] at hdom
      exact ⟨_, ⟨other, hother, rfl⟩,
        ((hfits other hother).dominates_iff ((hfits state hs).successor hproper hnext)).mp hdom.2⟩

/-- With or without pruning, the exploration decides whether every deadline is met. -/
theorem schedulable_iff (hn : tasks.length ≤ 30) (hproper : ∀ task ∈ tasks, task.Proper)
    (h : explore tasks m prune fuel = some out) :
    out.schedulable = true ↔ MeetsDeadlines (abstract tasks.length tasks) (cores m) := by
  obtain ⟨r, hr, rfl⟩ := exists_explored h
  have hfits : ∀ state ∈ r.found, Fits tasks state := fun state hs => reached_fits hproper (hr.reached state hs)
  have hreach : ∀ t ∈ {t | ∃ state ∈ r.found, abstract tasks.length state = t},
      FixedPriority.Reachable (abstract tasks.length tasks) (cores m) t := by
    rintro _ ⟨state, hs, rfl⟩
    exact reached_reachable hn hproper (hr.reached state hs)
  rw [schedulable_eq, FixedPriority.meetsDeadlines_of_cover (explored_covers hn hproper hr) hreach]
  constructor
  · rintro hmiss _ ⟨state, hs, rfl⟩
    rw [← (hfits state hs).deadlineMiss_iff, hmiss state hs]
    exact Bool.false_ne_true
  · intro hmiss state hs
    rw [← Bool.not_eq_true, (hfits state hs).deadlineMiss_iff]
    exact hmiss _ ⟨state, hs, rfl⟩

theorem schedulable_iff_kTasks : MeetsDeadlines (abstract kTasks.length kTasks) (cores kM) := by
  obtain ⟨out, h, hsched⟩ := kTasks_explored true
  exact (schedulable_iff (by decide) kTasks_proper h).mp hsched

/-- Less work, later deadlines and more cores keep a task set schedulable, with or without pruning. -/
theorem schedulable_mono (hn : tasks.length ≤ 30) (hproper : ∀ task ∈ tasks, task.Proper)
    (h : explore tasks m prune fuel = some out) {tasks' : List Job} {m' : Int32} {prune' : Bool} {fuel' : ℕ}
    {out' : Exploration} (hproper' : ∀ task ∈ tasks', task.Proper) (h' : explore tasks' m' prune' fuel' = some out')
    (htasks : List.Forall₂ Job.AtLeast tasks tasks') (hm : cores m ≤ cores m') (hsched : out.schedulable = true) :
    out'.schedulable = true := by
  have hlength := htasks.length_eq
  obtain ⟨r, hr, rfl⟩ := exists_explored h
  obtain ⟨r', hr', rfl⟩ := exists_explored h'
  have hcover := explored_covers hn hproper hr
  have hsafe : ∀ t ∈ {t | ∃ state ∈ r.found, abstract tasks.length state = t}, ¬ Missed t := by
    rintro _ ⟨state, hs, rfl⟩
    rw [← (reached_fits hproper (hr.reached state hs)).deadlineMiss_iff, schedulable_eq.mp hsched state hs]
    exact Bool.false_ne_true
  rw [hlength] at hcover hsafe
  rw [schedulable_eq]
  intro state hs
  have hreach := reached_reachable (hlength ▸ hn) hproper' (hr'.reached state hs)
  obtain ⟨t, ht, hdom⟩ := FixedPriority.safe_of_cover hcover hsafe (dominates_abstract htasks _) hm _ hreach
  rw [← Bool.not_eq_true, (reached_fits hproper' (hr'.reached state hs)).deadlineMiss_iff]
  exact fun hmissed => hsafe t ht (hdom.missed hmissed)

/-- A second core, and one task shorter. -/
theorem schedulable_mono_kTasks :
    ∃ out', explore [⟨1, 2⟩, ⟨0, 2⟩] 2 false 10 = some out' ∧ out'.schedulable = true := by
  obtain ⟨out, h, hsched⟩ := kTasks_explored true
  obtain ⟨out', h'⟩ := Option.isSome_iff_exists.mp
    (show (explore [⟨1, 2⟩, ⟨0, 2⟩] 2 false 10).isSome = true by decide)
  exact ⟨out', h', schedulable_mono (by decide) kTasks_proper h (by decide) h'
    (.cons ⟨by decide, by decide⟩ (.cons ⟨by decide, by decide⟩ .nil)) (cores_le (by decide) (by decide)) hsched⟩

/-! ## Counts -/

/-- Without pruning, the misses counted are the reachable states with one. -/
theorem explored_misses (hn : tasks.length ≤ 30) (hproper : ∀ task ∈ tasks, task.Proper)
    (h : explore tasks m false fuel = some out) :
    out.deadlineMisses =
      {s | FixedPriority.Reachable (abstract tasks.length tasks) (cores m) s ∧ Missed s}.ncard := by
  classical
  obtain ⟨hnodup, hreach, hall⟩ := explored_states hn hproper h
  have hstates := fun s => Iff.intro (hreach s) (hall rfl s)
  obtain ⟨r, hr, rfl⟩ := exists_explored h
  have hfits : ∀ state ∈ r.found, Fits tasks state := fun state hs => reached_fits hproper (hr.reached state hs)
  have hset : {s | FixedPriority.Reachable (abstract tasks.length tasks) (cores m) s ∧ Missed s} =
      (((r.found.filter State.deadlineMiss).map (abstract tasks.length)).toFinset : Set _) := by
    ext s
    rw [Set.mem_ofPred_eq, ← hstates s, List.coe_toFinset, Set.mem_ofPred_eq, List.mem_map, List.mem_map]
    constructor
    · rintro ⟨⟨state, hs, rfl⟩, hmissed⟩
      exact ⟨state, List.mem_filter.mpr ⟨hs, (hfits state hs).deadlineMiss_iff.mpr hmissed⟩, rfl⟩
    · rintro ⟨state, hs, rfl⟩
      obtain ⟨hs, hmiss⟩ := List.mem_filter.mp hs
      exact ⟨⟨state, hs, rfl⟩, (hfits state hs).deadlineMiss_iff.mp hmiss⟩
  rw [hset, Set.ncard_coe_finset, List.toFinset_card_of_nodup, List.length_map]
  · exact List.countP_eq_length_filter
  · exact hnodup.sublist (List.filter_sublist.map _)

theorem explored_misses_overload :
    2 = {s | FixedPriority.Reachable (abstract 2 [⟨1, 1⟩, ⟨1, 1⟩]) (cores 1) s ∧ Missed s}.ncard := by
  obtain ⟨out, h, hmisses⟩ := Option.map_eq_some_iff.mp
    (show (explore [⟨1, 1⟩, ⟨1, 1⟩] 1 false 10).map Exploration.deadlineMisses = some 2 by decide)
  exact hmisses.symm.trans (explored_misses (by decide) (by decide) h)

theorem explored_fits (hproper : ∀ task ∈ tasks, task.Proper) (h : explore tasks m prune fuel = some out) :
    ∀ state ∈ out.states, Fits tasks state := by
  obtain ⟨r, hr, rfl⟩ := exists_explored h
  exact fun state hs => reached_fits hproper (hr.reached state hs)

/-- For every reachable state one is listed that is at least as bad, if pruning found no miss. -/
theorem exists_above (hn : tasks.length ≤ 30) (hproper : ∀ task ∈ tasks, task.Proper)
    (h : explore tasks m prune fuel = some out) (hsched : prune = true → out.schedulable = true)
    {t : FixedPriority.State (Fin tasks.length)}
    (ht : FixedPriority.Reachable (abstract tasks.length tasks) (cores m) t) :
    ∃ other ∈ out.states, Dominates (abstract tasks.length other) t := by
  cases prune with
  | false =>
    obtain ⟨other, hother, rfl⟩ := List.mem_map.mp ((explored_states hn hproper h).2.2 rfl t ht)
    exact ⟨other, hother, Dominates.refl _⟩
  | true =>
    have hfits := explored_fits hproper h
    obtain ⟨r, hr, rfl⟩ := exists_explored h
    have hmiss : ∀ t ∈ {t | ∃ state ∈ r.found, abstract tasks.length state = t}, ¬ Missed t := by
      rintro _ ⟨other, hother, rfl⟩
      rw [← (hfits other hother).deadlineMiss_iff, schedulable_eq.mp (hsched rfl) other hother]
      exact Bool.false_ne_true
    obtain ⟨_, ⟨other, hother, rfl⟩, hdom⟩ := FixedPriority.safe_of_cover (explored_covers hn hproper hr) hmiss
      (Dominates.refl _) (le_refl _) t ht
    exact ⟨other, hother, hdom⟩

/-- Pruning lists fewer states, and when deadlines are met one at least as bad as each. -/
theorem pruned_covers (hn : tasks.length ≤ 30) (hproper : ∀ task ∈ tasks, task.Proper)
    {out' : Exploration} {fuel' : ℕ} (h : explore tasks m false fuel = some out)
    (h' : explore tasks m true fuel' = some out') :
    out'.states ⊆ out.states ∧ out'.states.length ≤ out.states.length ∧
      (out'.schedulable = true → ∀ state ∈ out.states, ∃ other ∈ out'.states, other.dominates state = true) := by
  have hfits := explored_fits hproper h
  obtain ⟨r, hr, rfl⟩ := exists_explored h
  obtain ⟨r', hr', hout'⟩ := exists_explored h'
  have hsub : out'.states ⊆ r.found := fun state hs =>
    (hr.mem_found (fun _ _ => rfl) state).mpr (hr'.reached state (by rw [hout'] at hs; exact hs))
  have hnodup : out'.states.Nodup := hout' ▸ hr'.nodup
  refine ⟨hsub, (List.subperm_of_subset hnodup hsub).length_le, fun hsched state hs => ?_⟩
  obtain ⟨other, hother, hdom⟩ := exists_above hn hproper h' (fun _ => hsched)
    (reached_reachable hn hproper (hr.reached state hs))
  exact ⟨other, hother, ((hfits other (hsub hother)).dominates_iff (hfits state hs)).mpr hdom⟩

theorem pruned_covers_kTasks : ∃ out out', explore kTasks kM false 10 = some out ∧
    explore kTasks kM true 10 = some out' ∧
    ∀ state ∈ out.states, ∃ other ∈ out'.states, other.dominates state = true := by
  obtain ⟨out, h, -⟩ := kTasks_explored false
  obtain ⟨out', h', hsched⟩ := kTasks_explored true
  exact ⟨out, out', h, h', (pruned_covers (by decide) kTasks_proper h h').2.2 hsched⟩

/-! ## Arcs -/

theorem successors_nodup (state : State) : (successors tasks m state).Nodup := Lib.Ordered.OrderedSet.items_nodup _

/-- Among the states listed, with or without pruning, the arcs are the moves; those that
    discover a state number the states. -/
theorem explored_arcs (hn : tasks.length ≤ 30) (hproper : ∀ task ∈ tasks, task.Proper)
    (h : explore tasks m prune fuel = some out) :
    out.arcs.length = out.states.length ∧ newly out.arcs.flatten = List.range' 1 (out.states.length - 1) ∧
      ∀ (i : ℕ) (state : State) (arcs : List Arc), out.states[i]? = some state → out.arcs[i]? = some arcs →
        (arcs.map Prod.fst).Nodup ∧
        ∀ j next, out.states[j]? = some next → (j ∈ arcs.map Prod.fst ↔
          Move (abstract tasks.length tasks) (cores m) (abstract tasks.length state) (abstract tasks.length next)) := by
  obtain ⟨r, hr, rfl⟩ := exists_explored h
  refine ⟨hr.all, hr.discoveries, fun i state arcs (hi : r.found[i]? = some state)
    (harcs : r.arcs[i]? = some arcs) => ?_⟩
  obtain ⟨x, hx, htargets, -⟩ := hr.targets i arcs harcs
  obtain rfl := Option.some.inj (hx.symm.trans hi)
  have hfits : ∀ state ∈ r.found, Fits tasks state := fun state hs => reached_fits hproper (hr.reached state hs)
  rw [htargets]
  constructor
  · refine List.Nodup.map_on (fun a ha b hb he => ?_) ((successors_nodup x).filter _)
    exact (List.idxOf_inj (by simpa using (List.mem_filter.mp ha).2)).mp he
  · intro j next (hj : r.found[j]? = some next)
    have hnext := List.mem_of_getElem? hj
    have hmove : next ∈ successors tasks m x ↔ _ := mem_successors hn hproper (hfits x (List.mem_of_getElem? hi))
    rw [and_iff_right (hfits next hnext)] at hmove
    rw [← hmove, List.mem_map]
    constructor
    · rintro ⟨t, ht, rfl⟩
      rw [List.getElem?_idxOf (by simpa using (List.mem_filter.mp ht).2), Option.some.injEq] at hj
      exact hj ▸ (List.mem_filter.mp ht).1
    · intro hs
      refine ⟨next, List.mem_filter.mpr ⟨hs, by simpa using hnext⟩, ?_⟩
      exact (List.getElem?_inj (List.idxOf_lt_length_iff.mpr hnext) hr.nodup).mp
        ((List.getElem?_idxOf hnext).trans hj.symm)

theorem run_of_walk (hn : tasks.length ≤ 30) (hproper : ∀ task ∈ tasks, task.Proper)
    {n : ℕ} {state : State} (h : Walk (successors tasks m) (idle tasks) n state) :
    ∃ pattern, FixedPriority.run (abstract tasks.length tasks) (cores m) pattern n = abstract tasks.length state := by
  induction h with
  | start => exact ⟨fun _ => ∅, (abstract_idle tasks).symm⟩
  | step hwalk hnext ih =>
    obtain ⟨pattern, hrun⟩ := ih
    obtain ⟨R, -, hR⟩ := ((mem_successors hn hproper (reached_fits hproper hwalk.reached)).mp hnext).2
    obtain ⟨pattern', hrun'⟩ := FixedPriority.run_extend (abstract tasks.length tasks) (cores m) pattern _ R
    exact ⟨pattern', by rw [hrun', hrun, hR]⟩

/-- A run may wait in the first state; a walk does not. -/
theorem walk_of_run (hn : tasks.length ≤ 30) (hproper : ∀ task ∈ tasks, task.Proper)
    (pattern : ℕ → Set (Fin tasks.length)) (n : ℕ) :
    ∃ k ≤ n, ∃ state, Walk (successors tasks m) (idle tasks) k state ∧
      abstract tasks.length state = FixedPriority.run (abstract tasks.length tasks) (cores m) pattern n := by
  induction n with
  | zero => exact ⟨0, le_refl 0, idle tasks, .start, abstract_idle tasks⟩
  | succ n ih =>
    obtain ⟨k, hk, state, hwalk, habs⟩ := ih
    have hstep : FixedPriority.Step (abstract tasks.length tasks) (cores m) (abstract tasks.length state)
        (FixedPriority.run (abstract tasks.length tasks) (cores m) pattern (n + 1)) := ⟨pattern n, by rw [habs]; rfl⟩
    rcases FixedPriority.step_cases hstep with hzero | hmove
    · exact ⟨0, Nat.zero_le _, idle tasks, .start, by rw [hzero, abstract_idle]⟩
    · obtain ⟨next, hnext, hn'⟩ := exists_successor hn (reached_fits hproper hwalk.reached) hmove
      exact ⟨k + 1, by omega, next, hwalk.step hnext, hn'⟩

/-- Without pruning, the arcs that discover states count to each the least time in which a run
    gets there. -/
theorem explored_shortest (hn : tasks.length ≤ 30) (hproper : ∀ task ∈ tasks, task.Proper)
    (h : explore tasks m false fuel = some out) {j : ℕ} {state : State}
    (hj : out.states[j]? = some state) :
    (∃ n, Depth out.arcs n j) ∧ ∀ n, Depth out.arcs n j →
      IsLeast {k | ∃ pattern, FixedPriority.run (abstract tasks.length tasks) (cores m) pattern k =
        abstract tasks.length state} n := by
  obtain ⟨r, hr, rfl⟩ := exists_explored h
  obtain ⟨n, hdepth, hwalk, hleast⟩ := hr.shortest (fun _ _ => rfl) hj
  refine ⟨⟨n, hdepth⟩, fun n' hdepth' => ?_⟩
  obtain rfl : n = n' := Nat.le_antisymm (hr.depth_mono hdepth hdepth' (le_refl j))
    (hr.depth_mono hdepth' hdepth (le_refl j))
  refine ⟨run_of_walk hn hproper hwalk, ?_⟩
  rintro k ⟨pattern, hrun⟩
  obtain ⟨k', hle, state', hwalk', habs⟩ := walk_of_run hn hproper pattern k
  have hsame : state' = state := (reached_fits hproper hwalk'.reached).abstract_inj (reached_fits hproper hwalk.reached)
    (habs.trans hrun)
  exact Nat.le_trans (hleast k' (hsame ▸ hwalk')) hle

/-- Both tasks released together: a step later the first is done and the second still has its work. -/
theorem explored_shortest_kTasks :
    IsLeast {k | ∃ pattern, FixedPriority.run (abstract 2 kTasks) (cores kM) pattern k =
      abstract 2 [⟨0, 1⟩, ⟨1, 1⟩]} 2 := by
  have hdepth : Depth kTasksExploration.arcs 2 8 :=
    .found (.found .first (i := 0) (j := 3) rfl (by decide)) rfl (by decide)
  exact (explored_shortest (by decide) kTasks_proper explore_kTasks rfl).2 2 hdepth

/-! ## Release marks -/

open Classical in
/-- The mark of a task in a step from `s` to `t`: its job is released or finishes. -/
noncomputable def stepMark {n : ℕ} (c : ℕ∞) (s t : FixedPriority.State (Fin n)) (k : Fin n) : Release :=
  if FixedPriority.tick c s k = 0 ∧ t k ≠ 0 then .up
  else if 0 < (s k).work ∧ (FixedPriority.tick c s k).work = 0 then .down
  else .none

theorem releasesOf_mark (hproper : ∀ task ∈ tasks, task.Proper)
    {state next : State} (h : Fits tasks state) (hnext : next ∈ successors tasks m state)
    (k : Fin tasks.length) : (releasesOf state next tasks m)[k.val]? =
      some (stepMark (cores m) (abstract tasks.length state) (abstract tasks.length next) k) := by
  have hfits := h.successor hproper hnext
  obtain ⟨job, hjob, hjw, hjabs⟩ := h.abstract_at k
  obtain ⟨scheduled, hsched, hsw, hsabs⟩ := (h.gfp m).abstract_at k
  obtain ⟨job', hjob', hjw', hjabs'⟩ := hfits.abstract_at k
  have hk : k.val < tasks.length := k.isLt
  have htask : tasks[k.val]? = some tasks[k.val] := List.getElem?_eq_getElem hk
  have hlt : k.val < next.length := by rw [hfits.length]; exact k.isLt
  -- an idle task either releases its job or stays idle
  have hcase : scheduled = {} → job' = tasks[k.val] ∨ job' = {} := by
    intro hidle
    obtain ⟨combination, -, rfl⟩ := mem_nextStates.mp hnext
    rw [releaseAll_getElem?, htask, hsched, Option.getD_some] at hjob'
    split at hjob'
    · exact Or.inl (Option.some.inj hjob').symm
    · exact Or.inr ((Option.some.inj hjob').symm.trans hidle)
  have hup : (scheduled = {} ∧ job' = tasks[k.val] ∧ tasks[k.val] ≠ {}) ↔
      scheduled.abstract = 0 ∧ job'.abstract ≠ 0 := by
    have hbusy : job'.abstract ≠ 0 ↔ job' ≠ {} := not_congr hjw'.eq_zero_iff.symm
    rw [← hsw.eq_zero_iff, hbusy]
    refine and_congr_right fun hidle => ?_
    rcases hcase hidle with hsame | hsame
    · rw [hsame, and_iff_right rfl]
    · rw [hsame]
      exact iff_of_false (fun hc => hc.2 hc.1.symm) fun hc => hc rfl
  have hdown : (job.c > 0 ∧ scheduled.c = 0) ↔ 0 < job.abstract.work ∧ scheduled.abstract.work = 0 := by
    have := hjw.c_nonneg
    have := hsw.c_nonneg
    rw [gt_iff_lt, Int32.lt_iff_toInt_lt, Int32_eq_zero, Int32.toInt_zero]
    show 0 < job.c.toInt ∧ scheduled.c.toInt = 0 ↔ 0 < job.c.toInt.toNat ∧ scheduled.c.toInt.toNat = 0
    omega
  rw [releasesOf, List.getElem?_map, List.getElem?_range hlt, Option.map_some, hjob, hsched, hjob', htask,
    Option.getD_some, Option.getD_some, Option.getD_some, Option.getD_some, stepMark, ← gfp_tick h m, hjabs, hsabs,
    hjabs']
  unfold releaseOf
  simp only [hup, hdown]

/-- The marks of a state tell of the step that discovered it. -/
theorem explored_marks (hproper : ∀ task ∈ tasks, task.Proper) (h : explore tasks m prune fuel = some out) :
    out.releases[0]? = some (tasks.map fun _ => .none) ∧
      ∀ (i j : ℕ) (state : State) (arcs : List Arc), out.states[i]? = some state → out.arcs[i]? = some arcs →
        (j, false) ∈ arcs → ∃ next releases, out.states[j]? = some next ∧ out.releases[j]? = some releases ∧
          ∀ k : Fin tasks.length, releases[k.val]? =
            some (stepMark (cores m) (abstract tasks.length state) (abstract tasks.length next) k) := by
  obtain ⟨r, hr, rfl⟩ := exists_explored h
  refine ⟨hr.firstLabel, fun i j state arcs (hi : r.found[i]? = some state) (harcs : r.arcs[i]? = some arcs) hj => ?_⟩
  obtain ⟨next, hnext, hlabel⟩ := hr.labels i arcs state harcs hi (j, false) hj rfl
  obtain ⟨x, hx, htargets, -⟩ := hr.targets i arcs harcs
  obtain rfl := Option.some.inj (hx.symm.trans hi)
  have hfits := reached_fits hproper (hr.reached x (List.mem_of_getElem? hi))
  have hmem : j ∈ arcs.map Prod.fst := List.mem_map_of_mem hj
  rw [htargets] at hmem
  obtain ⟨t, ht, rfl⟩ := List.mem_map.mp hmem
  have hfound : r.found[r.found.idxOf t]? = some t := List.getElem?_idxOf (by simpa using (List.mem_filter.mp ht).2)
  obtain rfl := Option.some.inj (hfound.symm.trans hnext)
  exact ⟨t, _, hfound, hlabel, releasesOf_mark hproper hfits (List.mem_filter.mp ht).1⟩

/-- The step in which the first task finishes while the second waits. -/
theorem explored_marks_kTasks :
    stepMark (cores kM) (abstract 2 [⟨1, 2⟩, ⟨1, 2⟩]) (abstract 2 [⟨0, 1⟩, ⟨1, 1⟩]) 0 = .down ∧
      stepMark (cores kM) (abstract 2 [⟨1, 2⟩, ⟨1, 2⟩]) (abstract 2 [⟨0, 1⟩, ⟨1, 1⟩]) 1 = .none := by
  obtain ⟨next, releases, hnext, hreleases, hmarks⟩ := (explored_marks kTasks_proper explore_kTasks).2 3 8
    [⟨1, 2⟩, ⟨1, 2⟩] [(8, false)] rfl rfl (by decide)
  obtain rfl := Option.some.inj hnext
  obtain rfl := Option.some.inj hreleases
  exact ⟨(Option.some.inj (hmarks ⟨0, by decide⟩)).symm, (Option.some.inj (hmarks ⟨1, by decide⟩)).symm⟩

/-! ## More tasks -/

/-- `1 << 31` is negative, so with 31 tasks no job is ever released. -/
theorem explore_overflow (hlength : tasks.length = 31) (m : Int32) (prune : Bool) (fuel : ℕ) :
    explore tasks m prune (fuel + 2) = some ⟨[idle tasks], [tasks.map fun _ => .none], [[]], true, 0⟩ := by
  have hnone : allCombinations tasks.length = [] := by
    rw [hlength]
    rfl
  have hnext : ∀ state, successors tasks m state = [] := by
    intro state
    rw [successors, hnone]
    rfl
  rw [explore_eq, BreadthFirst.search_next _ _ _ rfl, BreadthFirst.expand_eq, hnext,
    BreadthFirst.search_done _ _ _ rfl, Option.map_some]
  have hmiss := idle_no_miss tasks
  simp [Exploration.ofSearch, start, hmiss]

theorem explore_overflow_tight : ∃ tasks : List Job, explore tasks 1 false 2 =
    some ⟨[idle tasks], [tasks.map fun _ => .none], [[]], true, 0⟩ :=
  ⟨List.replicate 31 ⟨1, 0⟩, explore_overflow (by decide) 1 false 0⟩

end Stgx
