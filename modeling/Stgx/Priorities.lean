/-
  Stgx.Priorities — what the order of the tasks says of an exploration.

  - `explored_first`: a task with a core for it and each task before it is never late, and
    with a core for each task the deadlines are met exactly when no task asks for more
    work than time.
  - `explored_prefix`: the states of the first tasks are those they have without the others.
  - `gfp_recurrent`: in the graph, paths lead from every node to every node but the initial
    one.
-/

import Mathlib.Order.Fin.Basic
import Mathlib.Order.Interval.Finset.Fin
import Stgx.GfpGraph
import Stgx.Lib.Interference

namespace Stgx

open Stgx.Lib
open Stgx.Lib.FixedPriority (Move before)

variable {tasks : List Job} {m : Int32} {prune : Bool} {fuel : ℕ} {out : Exploration}

/-! ## The first tasks -/

theorem card_before_fin {n : ℕ} (i : Fin n) : (before i).card = i.val := by
  have hIio : before i = Finset.Iio i := by
    ext j
    simp [before]
  rw [hIio, Fin.card_Iio]

theorem Job.Within.le_iff {task job : Job} (h : task.Within job) :
    job.abstract.work ≤ job.abstract.due ↔ job.c ≤ job.d := by
  have := h.c_nonneg
  have := h.d_nonneg
  rw [Int32.le_iff_toInt_le]
  show job.c.toInt.toNat ≤ job.d.toInt.toNat ↔ _
  omega

theorem schedulable_iff_states (h : explore tasks m prune fuel = some out) :
    out.schedulable = true ↔ ∀ state ∈ out.states, state.deadlineMiss = false := by
  obtain ⟨r, hr, rfl⟩ := exists_explored h
  exact schedulable_eq

theorem abstract_task {i : ℕ} {hlt : i < tasks.length} {task : Job} (h : tasks[i]? = some task) :
    abstract tasks.length tasks ⟨i, hlt⟩ = task.abstract := by
  rw [abstract, h, Option.getD_some]

theorem on_time_of_first (hn : tasks.length ≤ 30) (hproper : ∀ task ∈ tasks, task.Proper)
    (h : explore tasks m prune fuel = some out) {i : ℕ} {task : Job} (htask : tasks[i]? = some task)
    (hi : (i : ℕ∞) < cores m) (hle : task.c ≤ task.d) {state : State} (hs : state ∈ out.states) {job : Job}
    (hjob : state[i]? = some job) : job.c ≤ job.d := by
  obtain ⟨hlt, -⟩ := List.getElem?_eq_some_iff.mp htask
  have hbefore : ((before (⟨i, hlt⟩ : Fin tasks.length)).card : ℕ∞) < cores m := by rwa [card_before_fin]
  have hasks : (abstract tasks.length tasks ⟨i, hlt⟩).work ≤ (abstract tasks.length tasks ⟨i, hlt⟩).due := by
    rw [abstract_task htask]
    exact (Job.Within.released (hproper task (List.mem_of_getElem? htask))).le_iff.mpr hle
  have hmeets := FixedPriority.first_meets hbefore hasks
    ((explored_states hn hproper h).2.1 _ (List.mem_map_of_mem hs))
  obtain ⟨job', hjob', hwithin, habs⟩ := (explored_fits hproper h state hs).abstract_at ⟨i, hlt⟩
  obtain rfl := Option.some.inj (hjob.symm.trans hjob')
  rw [habs] at hmeets
  exact hwithin.le_iff.mp hmeets

/-- The state right after a release shows what a task asks for. -/
theorem asks_of_schedulable (hn : tasks.length ≤ 30) (hproper : ∀ task ∈ tasks, task.Proper)
    (h : explore tasks m prune fuel = some out) (hsched : out.schedulable = true) {task : Job} (htask : task ∈ tasks) :
    task.c ≤ task.d := by
  obtain ⟨i, hget⟩ := List.mem_iff_getElem?.mp htask
  obtain ⟨hlt, -⟩ := List.getElem?_eq_some_iff.mp hget
  have hrelease : FixedPriority.Reachable (abstract tasks.length tasks) (cores m)
      (FixedPriority.release (abstract tasks.length tasks) {⟨i, hlt⟩} (FixedPriority.tick (cores m) 0)) :=
    Relation.ReflTransGen.single ⟨_, rfl⟩
  obtain ⟨other, hother, hdom⟩ := exists_above hn hproper h (fun _ => hsched) hrelease
  have hclean : ¬ FixedPriority.Missed (abstract tasks.length other) := by
    rw [← (explored_fits hproper h other hother).deadlineMiss_iff, (schedulable_iff_states h).mp hsched other hother]
    exact Bool.false_ne_true
  have hkept := fun hlate => hclean (hdom.missed ⟨⟨i, hlt⟩, hlate⟩)
  rw [FixedPriority.release_mem (Set.mem_singleton _) (by rw [FixedPriority.tick_zero]; rfl), abstract_task hget]
    at hkept
  exact (Job.Within.released (hproper task htask)).le_iff.mp (Nat.le_of_not_lt hkept)

/-- A task that has a core, those before it having theirs, is never late. With a core for each, the
    task set is schedulable exactly when no task asks for more work than time. -/
theorem explored_first (hn : tasks.length ≤ 30) (hproper : ∀ task ∈ tasks, task.Proper)
    (h : explore tasks m prune fuel = some out) :
    (∀ (i : ℕ) (task : Job), tasks[i]? = some task → (i : ℕ∞) < cores m → task.c ≤ task.d →
      ∀ state ∈ out.states, ∀ job, state[i]? = some job → job.c ≤ job.d) ∧
      ((tasks.length : ℕ∞) ≤ cores m → (out.schedulable = true ↔ ∀ task ∈ tasks, task.c ≤ task.d)) := by
  refine ⟨fun i task htask hi hle state hs job hjob => on_time_of_first hn hproper h htask hi hle hs hjob,
    fun hall => ⟨fun hsched task htask => asks_of_schedulable hn hproper h hsched htask, fun hle => ?_⟩⟩
  rw [schedulable_iff_states h]
  intro state hs
  refine List.any_eq_false.mpr fun job hjob => ?_
  obtain ⟨i, hget⟩ := List.mem_iff_getElem?.mp hjob
  have hlt : i < tasks.length := by
    rw [← (explored_fits hproper h state hs).length]
    exact (List.getElem?_eq_some_iff.mp hget).1
  have hcore : (i : ℕ∞) < cores m := lt_of_lt_of_le (Nat.cast_lt.mpr hlt) hall
  rw [decide_eq_true_eq]
  exact Int32.not_lt.mpr
    (on_time_of_first hn hproper h (List.getElem?_eq_getElem hlt) hcore (hle _ (List.getElem_mem hlt)) hs hget)

theorem explored_first_kTasks : ∃ out, explore kTasks 2 true 20 = some out ∧ out.schedulable = true := by
  obtain ⟨out, h⟩ := Option.isSome_iff_exists.mp (show (explore kTasks 2 true 20).isSome = true by decide)
  exact ⟨out, h, ((explored_first (by decide) kTasks_proper h).2 (le_of_eq rfl)).mpr (by decide)⟩

/-! ## Further tasks -/

section Prefix

variable (tasks) (more : List Job)

/-- The first tasks among all. -/
def firstTasks : Fin tasks.length ↪o Fin (tasks ++ more).length :=
  Fin.castLEOrderEmb (by rw [List.length_append]; exact Nat.le_add_right _ _)

theorem firstTasks_lower : IsLowerSet (Set.range (firstTasks tasks more)) := by
  rintro _ j hle ⟨k, rfl⟩
  exact ⟨⟨j.val, lt_of_le_of_lt hle k.isLt⟩, rfl⟩

theorem abstract_first (state : State) :
    abstract tasks.length (state.take tasks.length) =
      abstract (tasks ++ more).length state ∘ firstTasks tasks more := by
  funext k
  show ((state.take tasks.length)[k.val]?.getD {}).abstract = (state[k.val]?.getD {}).abstract
  rw [List.getElem?_take_of_lt k.isLt]

theorem abstract_tasks_first :
    abstract tasks.length tasks = abstract (tasks ++ more).length (tasks ++ more) ∘ firstTasks tasks more := by
  rw [← abstract_first, List.take_left]

variable {tasks more}

theorem Fits.first {state : State} (h : Fits (tasks ++ more) state) : Fits tasks (state.take tasks.length) := by
  have htake := List.forall₂_take tasks.length h
  rwa [List.take_left] at htake

/-- A task is not disturbed by those after it: the states of the first tasks are the first parts
    of the states of all. -/
theorem explored_prefix (hn : (tasks ++ more).length ≤ 30) (hproper : ∀ task ∈ tasks ++ more, task.Proper)
    {out' : Exploration} {fuel' : ℕ} (h : explore tasks m false fuel = some out)
    (h' : explore (tasks ++ more) m false fuel' = some out') (state : State) :
    state ∈ out.states ↔ ∃ whole ∈ out'.states, whole.take tasks.length = state := by
  have hn' : tasks.length ≤ 30 := by
    rw [List.length_append] at hn
    omega
  have hproper' : ∀ task ∈ tasks, task.Proper := fun task ht => hproper task (List.mem_append_left _ ht)
  have hfits := explored_fits hproper' h
  have hfits' := explored_fits hproper h'
  obtain ⟨-, hreach, hall⟩ := explored_states hn' hproper' h
  obtain ⟨-, hreach', hall'⟩ := explored_states hn hproper h'
  rw [abstract_tasks_first tasks more] at hreach hall
  constructor
  · intro hs
    obtain ⟨s, hs', he⟩ := (FixedPriority.reachable_restrict_iff _ (firstTasks_lower tasks more)).mp
      (hreach _ (List.mem_map_of_mem hs))
    obtain ⟨whole, hwhole, rfl⟩ := List.mem_map.mp (hall' rfl s hs')
    rw [← abstract_first] at he
    exact ⟨whole, hwhole, (hfits' whole hwhole).first.abstract_inj (hfits state hs) he⟩
  · rintro ⟨whole, hwhole, rfl⟩
    have hfirst := (FixedPriority.reachable_restrict_iff _ (firstTasks_lower tasks more)).mpr
      ⟨_, hreach' _ (List.mem_map_of_mem hwhole), rfl⟩
    rw [← abstract_first tasks more whole] at hfirst
    obtain ⟨other, hother, he⟩ := List.mem_map.mp (hall rfl _ hfirst)
    rw [← (hfits other hother).abstract_inj (hfits' whole hwhole).first he]
    exact hother

theorem explored_prefix_kTasks : ∃ out whole, explore [⟨1, 2⟩] kM false 10 = some out ∧
    explore kTasks kM false 10 = some whole ∧
    ∀ state, state ∈ out.states ↔ ∃ full ∈ whole.states, full.take 1 = state := by
  obtain ⟨out, h⟩ := Option.isSome_iff_exists.mp (show (explore [⟨1, 2⟩] kM false 10).isSome = true by decide)
  obtain ⟨whole, h', -⟩ := kTasks_explored false
  have h'' : explore ([⟨1, 2⟩] ++ [⟨1, 2⟩]) kM false 10 = some whole := h'
  exact ⟨out, whole, h, h', explored_prefix (by decide) kTasks_proper h h''⟩

/-- Without its last tasks, a schedulable task set stays so, with or without pruning. -/
theorem schedulable_prefix (hn : (tasks ++ more).length ≤ 30) (hproper : ∀ task ∈ tasks ++ more, task.Proper)
    {prune' : Bool} {out' : Exploration} {fuel' : ℕ} (h : explore tasks m prune fuel = some out)
    (h' : explore (tasks ++ more) m prune' fuel' = some out') (hsched : out'.schedulable = true) :
    out.schedulable = true := by
  have hn' : tasks.length ≤ 30 := by
    rw [List.length_append] at hn
    omega
  have hproper' : ∀ task ∈ tasks, task.Proper := fun task ht => hproper task (List.mem_append_left _ ht)
  rw [schedulable_iff_states h]
  intro state hs
  have hreach := (explored_states hn' hproper' h).2.1 _ (List.mem_map_of_mem hs)
  rw [abstract_tasks_first tasks more] at hreach
  obtain ⟨s, hs', he⟩ := (FixedPriority.reachable_restrict_iff _ (firstTasks_lower tasks more)).mp hreach
  obtain ⟨other, hother, hdom⟩ := exists_above hn hproper h' (fun _ => hsched) hs'
  rw [← Bool.not_eq_true, (explored_fits hproper' h state hs).deadlineMiss_iff, ← he]
  rintro ⟨k, hlate⟩
  have hmissed := (explored_fits hproper h' other hother).deadlineMiss_iff.mpr (hdom.missed ⟨_, hlate⟩)
  rw [(schedulable_iff_states h').mp hsched other hother] at hmissed
  exact Bool.false_ne_true hmissed

theorem schedulable_prefix_kTasks : ∃ out, explore [⟨1, 2⟩] kM true 10 = some out ∧ out.schedulable = true := by
  obtain ⟨out, h⟩ := Option.isSome_iff_exists.mp (show (explore [⟨1, 2⟩] kM true 10).isSome = true by decide)
  obtain ⟨whole, h', hsched⟩ := kTasks_explored false
  have h'' : explore ([⟨1, 2⟩] ++ [⟨1, 2⟩]) kM false 10 = some whole := h'
  exact ⟨out, h, schedulable_prefix (by decide) kTasks_proper h h'' hsched⟩

end Prefix

/-! ## Recurrence -/

theorem cores_ne_zero (hm : m ≠ 0) : cores m ≠ 0 := by
  have hne : m.toInt ≠ 0 := fun h => hm (Int32_eq_zero.mpr h)
  unfold cores
  split
  · exact ENat.top_ne_zero
  · rename_i hneg
    have hpos : m.toInt.toNat ≠ 0 := by omega
    exact Nat.cast_ne_zero.mpr hpos

/-- Only the initial node shows the idle state. -/
theorem nodeState_ne_zero (hn : tasks.length ≤ 30) (hproper : ∀ task ∈ tasks, task.Proper)
    (h : explore tasks m prune fuel = some out) {node : Node}
    (hnode : node ∈ (List.range out.states.length).map (gfpNode out)) (hinitial : node.initial = false) :
    nodeState tasks.length node ≠ 0 := by
  obtain ⟨hnodup, -, -⟩ := explored_states hn hproper h
  obtain ⟨r, hr, rfl⟩ := exists_explored h
  obtain ⟨i, hi, rfl⟩ := List.mem_map.mp hnode
  rw [List.mem_range] at hi
  have hget := List.getElem?_eq_getElem hi
  rw [nodeState_gfpNode _ hget]
  intro hzero
  have hfirst : ((Exploration.ofSearch r).states.map (abstract tasks.length))[0]? = some 0 := by
    rw [List.getElem?_map, show (Exploration.ofSearch r).states[0]? = _ from hr.starts, Option.map_some, abstract_idle]
  have hthis : ((Exploration.ofSearch r).states.map (abstract tasks.length))[i]? = some 0 := by
    rw [List.getElem?_map, hget, Option.map_some, hzero]
  have hsame : i = 0 := (List.getElem?_inj (by simpa using hi) hnodup).mp (hthis.trans hfirst.symm)
  exact absurd hinitial (by simp [gfpNode, hsame])

/-- In the graph of all reachable states a path of moves is a path of edges. -/
theorem path_of_moves (hn : tasks.length ≤ 30) (hproper : ∀ task ∈ tasks, task.Proper)
    (h : explore tasks m false fuel = some out) {g : Graph} (hg : buildGraph out tasks m = .ok g) {u : Node}
    (hu : u ∈ g.nodes) {t : FixedPriority.State (Fin tasks.length)}
    (ht : Relation.TransGen (Move (abstract tasks.length tasks) (cores m)) (nodeState tasks.length u) t) :
    ∀ w ∈ g.nodes, nodeState tasks.length w = t →
      Relation.TransGen (fun a b => ∃ kind, g.hasEdge a b kind = true) u.id w.id := by
  obtain ⟨-, hreach, hall⟩ := explored_states hn hproper h
  rw [← map_nodeState, ← built_nodes hg] at hreach hall
  induction ht with
  | single hmove =>
    intro w hw hstate
    exact .single ((hasEdge_iff_move hn hproper h hg hu hw).mpr (hstate ▸ hmove))
  | @tail t t' hprefix hmove ih =>
    intro w hw hstate
    have hmid : FixedPriority.Reachable (abstract tasks.length tasks) (cores m) t := by
      have hstart := hreach _ (List.mem_map_of_mem hu)
      rw [FixedPriority.reachable_iff_moves] at hstart ⊢
      exact hstart.trans hprefix.to_reflTransGen
    obtain ⟨mid, hmem, hshown⟩ := List.mem_map.mp (hall rfl t hmid)
    refine .tail (ih mid hmem hshown) ((hasEdge_iff_move hn hproper h hg hmem hw).mpr ?_)
    rw [hshown, hstate]
    exact hmove

/-- Without pruning, if any core works, paths lead from every node to every node but the initial one. -/
theorem gfp_recurrent (hn : tasks.length ≤ 30) (hproper : ∀ task ∈ tasks, task.Proper) (hm : m ≠ 0)
    (h : explore tasks m false fuel = some out) {g : Graph} (hg : buildGraph out tasks m = .ok g) {u v : Node}
    (hu : u ∈ g.nodes) (hv : v ∈ g.nodes) (hinitial : v.initial = false) :
    Relation.TransGen (fun a b => ∃ kind, g.hasEdge a b kind = true) u.id v.id := by
  have hreach := (explored_states hn hproper h).2.1
  rw [← map_nodeState, ← built_nodes hg] at hreach
  have hbusy := nodeState_ne_zero hn hproper h (built_nodes hg ▸ hv) hinitial
  have hmoves := FixedPriority.move_anywhere (cores_ne_zero hm) (hreach _ (List.mem_map_of_mem hv)) hbusy
    (nodeState tasks.length u)
  exact path_of_moves hn hproper h hg hu hmoves v hv rfl

theorem gfp_recurrent_kTasks : ∃ out g, explore kTasks kM kPrune 10 = some out ∧ buildGraph out kTasks kM = .ok g ∧
    Relation.TransGen (fun a b => ∃ kind, g.hasEdge a b kind = true) "n2" "n1" := by
  obtain ⟨out, h, hlength⟩ := Option.map_eq_some_iff.mp
    (show (explore kTasks kM kPrune 10).map (fun out => decide (2 < out.states.length)) = some true by decide)
  have hg := (buildGraph_eq out kTasks kM).trans (create_ok_iff.mpr ⟨(explored_whole h).wellFormed kM, rfl⟩)
  have hmem : ∀ i < 3, gfpNode out i ∈ (List.range out.states.length).map (gfpNode out) := fun i hi =>
    List.mem_map_of_mem (List.mem_range.mpr (Nat.lt_of_lt_of_le hi (of_decide_eq_true hlength)))
  exact ⟨out, _, h, hg, gfp_recurrent (by decide) kTasks_proper (by decide) h hg (u := gfpNode out 2)
    (v := gfpNode out 1) (hmem 2 (by decide)) (hmem 1 (by decide)) rfl⟩

end Stgx
