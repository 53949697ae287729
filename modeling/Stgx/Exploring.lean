/-
  Stgx.Exploring — `explore` is a breadth-first search of the scheduling states.

  The loop keeps the states in a vector, in an index by sums, in a map of numbers and in
  a queue. `Tracks` says these are one list of states, the queue being what is left of it
  to expand; then each turn of the loop is an expansion of `Lib.BreadthFirst`
  (`loop_search`, `explore_eq`), and no `at` throws.
-/

import Stgx.Lib.BreadthFirst
import Stgx.Pruning

namespace Stgx

open Stgx.Lib
open Stgx.Lib.BreadthFirst (Arc Expansion Search search start visit expand)
open Stgx.Lib.Ordered (OrderedMap OrderedSet)

/-! ## Successors -/

theorem gfpFrom_length (m : Int32) :
    ∀ (usedCores : ℤ) (state : State), (gfpFrom m usedCores state).length = state.length
  | _, [] => rfl
  | usedCores, job :: jobs => by
    simp only [gfpFrom]
    split <;> rw [List.length_cons, List.length_cons, gfpFrom_length m _ jobs]

theorem gfp_length (state : State) (m : Int32) : (gfp state m).length = state.length := gfpFrom_length m 0 state

theorem releaseTask_length (tasks : List Job) (state : State) (i : ℕ) :
    (releaseTask tasks state i).length = state.length := by
  unfold releaseTask
  split
  · exact List.length_set
  · rfl

theorem releaseAll_length (tasks : List Job) (combination : List ℕ) (state : State) :
    (combination.foldl (releaseTask tasks) state).length = state.length := by
  induction combination generalizing state with
  | nil => rfl
  | cons i combination ih => rw [List.foldl_cons, ih, releaseTask_length]

theorem mem_nextStates {state next : State} {tasks : List Job} {m : Int32} {combinations : List (List ℕ)} :
    next ∈ nextStates state tasks m combinations ↔
      ∃ combination ∈ combinations, next = combination.foldl (releaseTask tasks) (gfp state m) := by
  unfold nextStates
  rw [OrderedSet.mem_foldl_insert]
  exact or_iff_left List.not_mem_nil

theorem nextStates_length {state next : State} {tasks : List Job} {m : Int32} {combinations : List (List ℕ)}
    (h : next ∈ nextStates state tasks m combinations) : next.length = state.length := by
  obtain ⟨combination, -, rfl⟩ := mem_nextStates.mp h
  rw [releaseAll_length, gfp_length]

/-! ## The variables of the loop -/

/-- The arcs of the states expanded, and none yet of the others. -/
def padded (found : List State) (arcs : List (List Arc)) : List (List Arc) :=
  arcs ++ List.replicate (found.length - arcs.length) []

/-- The variables all tell of the states in `found`, `expanded` of them taken off the queue. -/
structure Tracks (n : ℕ) (e : Explorer) (found : List State) (labels : List (List Release)) (arcs : List (List Arc))
    (expanded : ℕ) : Prop where
  states : e.out.states = found
  releases : e.out.releases = labels
  arcs : e.out.arcs = padded found arcs
  visited : e.visited.Holds found
  indexOf : ∀ state, e.indexOf.find state = if state ∈ found then some (found.idxOf state) else none
  frontier : e.frontier = found.drop expanded
  schedulable : e.out.schedulable = !found.any State.deadlineMiss
  deadlineMisses : e.out.deadlineMisses = found.countP State.deadlineMiss
  lengths : ∀ state ∈ found, state.length = n

section Tracks

variable {n : ℕ} {e : Explorer} {found : List State} {labels : List (List Release)} {arcs : List (List Arc)}
  {expanded : ℕ} {state : State}

theorem padded_concat (hle : arcs.length ≤ found.length) (state : State) :
    padded found arcs ++ [[]] = padded (found ++ [state]) arcs := by
  rw [padded, padded, List.append_assoc, ← List.replicate_succ', List.length_append, List.length_singleton,
    show found.length + 1 - arcs.length = found.length - arcs.length + 1 by omega]

/-- The arcs of the state being expanded are the last ones that are not padding. -/
theorem padded_modify (found : List State) (arcs : List (List Arc)) (current : List Arc) (arc : Arc) :
    (padded found (arcs ++ [current])).modify arcs.length (· ++ [arc]) = padded found (arcs ++ [current ++ [arc]]) := by
  have hlt : arcs.length < (padded found (arcs ++ [current])).length := by simp [padded]
  rw [List.modify_eq_take_cons_drop hlt]
  simp [padded]

theorem countMiss_frame (e : Explorer) (state : State) :
    (e.countMiss state).out.states = e.out.states ∧ (e.countMiss state).out.releases = e.out.releases ∧
      (e.countMiss state).out.arcs = e.out.arcs ∧ (e.countMiss state).visited = e.visited ∧
      (e.countMiss state).indexOf = e.indexOf ∧ (e.countMiss state).frontier = e.frontier := by
  unfold Explorer.countMiss
  split <;> exact ⟨rfl, rfl, rfl, rfl, rfl, rfl⟩

/-- A state found gets the next number. -/
theorem find_emplace {index : OrderedMap State ℕ}
    (h : ∀ state, index.find state = if state ∈ found then some (found.idxOf state) else none) (hnew : state ∉ found)
    (other : State) : (index.emplace state found.length).find other =
      if other ∈ found ++ [state] then some ((found ++ [state]).idxOf other) else none := by
  show (index.upsert state _).find other = _
  rw [OrderedMap.find_upsert, h state, if_neg hnew]
  by_cases ho : other = state
  · subst ho
    rw [if_pos rfl, if_pos (by simp), List.idxOf_append_of_notMem hnew]
    simp
  · rw [if_neg ho, h other]
    by_cases hm : other ∈ found
    · rw [if_pos hm, if_pos (List.mem_append_left _ hm), List.idxOf_append_of_mem hm]
    · rw [if_neg hm, if_neg (by simp [hm, ho])]

theorem Tracks.discovered (h : Tracks n e found labels arcs expanded) (hle : arcs.length ≤ found.length)
    (hexpanded : expanded ≤ found.length) (hnew : state ∉ found) (hlength : state.length = n)
    (releases : List Release) :
    Tracks n ((e.countMiss state).discover state releases) (found ++ [state]) (labels ++ [releases]) arcs expanded := by
  obtain ⟨hstates, hreleases, harcs, hvisited, hindex, hfrontier⟩ := countMiss_frame e state
  constructor
  · rw [Explorer.discover, hstates, h.states]
  · rw [Explorer.discover, hreleases, h.releases]
  · rw [Explorer.discover, harcs, h.arcs]
    exact padded_concat hle state
  · rw [Explorer.discover, hvisited]
    exact h.visited.add state
  · intro other
    rw [Explorer.discover, hindex, hstates, h.states]
    exact find_emplace h.indexOf hnew other
  · rw [Explorer.discover, hfrontier, h.frontier]
    exact (List.drop_append_of_le_length hexpanded).symm
  · show (e.countMiss state).out.schedulable = _
    rw [List.any_append, Bool.not_or, ← h.schedulable]
    unfold Explorer.countMiss
    cases hmiss : state.deadlineMiss <;> simp [hmiss]
  · show (e.countMiss state).out.deadlineMisses = _
    rw [List.countP_append, ← h.deadlineMisses]
    unfold Explorer.countMiss
    cases hmiss : state.deadlineMiss <;> simp [hmiss]
  · intro other ho
    rcases List.mem_append.mp ho with ho | ho
    · exact h.lengths other ho
    · rw [List.mem_singleton.mp ho, hlength]

theorem Tracks.addArc {done : List (List Arc)} {current : List Arc}
    (h : Tracks n e found labels (done ++ [current]) expanded) (arc : Arc) :
    Tracks n (e.addArc done.length arc) found labels (done ++ [current ++ [arc]]) expanded := by
  refine ⟨h.states, h.releases, ?_, h.visited, h.indexOf, h.frontier, h.schedulable, h.deadlineMisses, h.lengths⟩
  show e.out.arcs.modify done.length (· ++ [arc]) = _
  rw [h.arcs]
  exact padded_modify found done current arc

/-! ## Turns of the loop -/

variable (tasks : List Job) (m : Int32) (prune : Bool)

/-- What `prune` leaves out. -/
def skips (seen : List State) (state : State) : Bool := prune && dominated seen state

def labelOf (source target : State) : List Release := releasesOf source target tasks m

/-- Looking at one successor. -/
theorem successor_tracks (current : State) {done : List (List Arc)} {x : Expansion State (List Release)}
    (h : Tracks n e x.found x.labels (done ++ [x.arcs]) expanded) (hlt : done.length < x.found.length)
    (hexpanded : expanded ≤ x.found.length) (hlength : state.length = n) :
    ∃ e', Explorer.successor tasks m prune current done.length e state = some e' ∧
      Tracks n e' (visit (labelOf tasks m) (skips prune) current x state).found
        (visit (labelOf tasks m) (skips prune) current x state).labels
        (done ++ [(visit (labelOf tasks m) (skips prune) current x state).arcs]) expanded := by
  have hcontains := Visited.contains_iff h.visited state
  have hdominated : e.visited.isDominated state = dominated x.found state :=
    Visited.isDominated_eq h.visited fun other ho => (h.lengths other ho).trans hlength.symm
  unfold Explorer.successor visit
  by_cases hmem : state ∈ x.found
  · rw [hcontains.mpr hmem, h.indexOf state, if_pos hmem, if_pos hmem]
    refine ⟨e.addArc done.length (x.found.idxOf state, true), ?_, ?_⟩
    · rw [Bool.not_true, Bool.and_false, Bool.false_and, if_neg Bool.false_ne_true, if_pos rfl]
      rfl
    · exact h.addArc _
  · have hnot : e.visited.contains state = false := by
      rw [Bool.eq_false_iff]
      exact fun hc => hmem (hcontains.mp hc)
    have hskips : (prune && !e.visited.contains state && e.visited.isDominated state) = skips prune x.found state := by
      rw [hnot, hdominated, Bool.not_false, Bool.and_true, skips]
    rw [hskips, hnot, if_neg hmem, if_neg Bool.false_ne_true]
    by_cases hskip : skips prune x.found state = true
    · rw [if_pos hskip, if_pos hskip]
      exact ⟨e, rfl, h⟩
    · rw [if_neg hskip, if_neg hskip]
      have hdisc := h.discovered (by rw [List.length_append, List.length_singleton]; omega) hexpanded hmem hlength
        (releasesOf current state tasks m)
      refine ⟨_, rfl, ?_⟩
      rw [hdisc.states, List.length_append, List.length_singleton, Nat.add_sub_cancel]
      exact hdisc.addArc _

theorem visit_found_le (current : State) (x : Expansion State (List Release)) (state : State) :
    x.found.length ≤ (visit (labelOf tasks m) (skips prune) current x state).found.length := by
  unfold visit
  split
  · exact Nat.le_refl _
  · split
    · exact Nat.le_refl _
    · rw [List.length_append]
      omega

/-- Looking at all of them. -/
theorem successors_track (current : State) {done : List (List Arc)} (states : List State)
    (hlengths : ∀ state ∈ states, state.length = n) :
    ∀ (e : Explorer) (x : Expansion State (List Release)), Tracks n e x.found x.labels (done ++ [x.arcs]) expanded →
      done.length < x.found.length → expanded ≤ x.found.length →
      ∃ e', states.foldlM (Explorer.successor tasks m prune current done.length) e = some e' ∧
        Tracks n e' (states.foldl (visit (labelOf tasks m) (skips prune) current) x).found
          (states.foldl (visit (labelOf tasks m) (skips prune) current) x).labels
          (done ++ [(states.foldl (visit (labelOf tasks m) (skips prune) current) x).arcs]) expanded := by
  induction states with
  | nil => exact fun e x h _ _ => ⟨e, rfl, h⟩
  | cons state states ih =>
    intro e x h hlt hexpanded
    obtain ⟨e', he', h'⟩ := successor_tracks tasks m prune current h hlt hexpanded (hlengths state List.mem_cons_self)
    have hle := visit_found_le tasks m prune current x state
    obtain ⟨e'', he'', h''⟩ :=
      ih (fun s hs => hlengths s (List.mem_cons_of_mem _ hs)) e' _ h' (by omega) (by omega)
    refine ⟨e'', ?_, h''⟩
    rw [List.foldlM_cons, he']
    exact he''

/-- What the loop returns when nothing is left to expand. -/
def Exploration.ofSearch (s : Search State (List Release)) : Exploration where
  states := s.found
  releases := s.labels
  arcs := s.arcs
  schedulable := !s.found.any State.deadlineMiss
  deadlineMisses := s.found.countP State.deadlineMiss

def successors (state : State) : List State := nextStates state tasks m (allCombinations tasks.length)

theorem Tracks.done (h : Tracks n e found labels arcs expanded) (hall : found.length ≤ arcs.length) :
    e.out = Exploration.ofSearch ⟨found, labels, arcs⟩ := by
  have harcs := h.arcs
  rw [padded, show found.length - arcs.length = 0 by omega, List.replicate_zero, List.append_nil] at harcs
  exact Exploration.ext h.states h.releases harcs h.schedulable h.deadlineMisses

/-- The first state on the queue is the first one not yet expanded. -/
theorem Tracks.next (h : Tracks n e found labels arcs arcs.length) (hnodup : found.Nodup)
    (hlt : arcs.length < found.length) :
    e.frontier = found[arcs.length] :: found.drop (arcs.length + 1) ∧
      e.indexOf.find found[arcs.length] = some arcs.length ∧
      Tracks n { e with frontier := found.drop (arcs.length + 1) } found labels (arcs ++ [[]]) (arcs.length + 1) := by
  have hpad : padded found arcs = padded found (arcs ++ [[]]) := by
    rw [padded, padded, List.append_assoc, List.length_append, List.length_singleton,
      show found.length - arcs.length = found.length - (arcs.length + 1) + 1 by omega, List.replicate_succ]
    rfl
  refine ⟨by rw [h.frontier, List.drop_eq_getElem_cons hlt], ?_, ?_⟩
  · rw [h.indexOf, if_pos (List.getElem_mem hlt), hnodup.idxOf_getElem]
  · exact ⟨h.states, h.releases, h.arcs.trans hpad, h.visited, h.indexOf, rfl, h.schedulable, h.deadlineMisses,
      h.lengths⟩

theorem skips_monotone : BreadthFirst.Monotone (skips prune) := by
  intro seen more state h
  unfold skips dominated at h ⊢
  rw [List.any_append]
  rw [Bool.and_eq_true] at h ⊢
  exact ⟨h.1, by rw [h.2, Bool.true_or]⟩

theorem loop_next {combinations : List (List ℕ)} {current : State} {frontier : List State} {source : ℕ} {e' : Explorer}
    (hfrontier : e.frontier = current :: frontier) (hindex : e.indexOf.find current = some source)
    (hsuccessors : (nextStates current tasks m combinations).foldlM (Explorer.successor tasks m prune current source)
      { e with frontier := frontier } = some e') (fuel : ℕ) :
    Explorer.loop tasks m prune combinations (fuel + 1) e = Explorer.loop tasks m prune combinations fuel e' := by
  rw [Explorer.loop, hfrontier]
  simp only [hindex, hsuccessors, Option.bind_eq_bind, Option.bind_some]

/-- The loop is a search, whatever sets of tasks may be released. -/
theorem loop_eq (combinations : List (List ℕ)) (fuel : ℕ) : ∀ (e : Explorer) (s : Search State (List Release)),
    Tracks n e s.found s.labels s.arcs s.arcs.length → s.found.Nodup →
    Explorer.loop tasks m prune combinations fuel e =
      (search (nextStates · tasks m combinations) (labelOf tasks m) (skips prune) fuel s).map Exploration.ofSearch := by
  induction fuel with
  | zero => exact fun e s _ _ => rfl
  | succ fuel ih =>
    intro e s h hnodup
    by_cases hlt : s.arcs.length < s.found.length
    · obtain ⟨hfrontier, hindex, htracks⟩ := h.next hnodup hlt
      have hmem := List.getElem_mem hlt
      obtain ⟨e', he', h'⟩ := successors_track tasks m prune s.found[s.arcs.length]
        (nextStates s.found[s.arcs.length] tasks m combinations)
        (fun t ht => (nextStates_length ht).trans (h.lengths _ hmem)) _ ⟨s.found, s.labels, []⟩ htracks hlt hlt
      rw [loop_next tasks m prune hfrontier hindex he', BreadthFirst.search_next _ _ _ (List.getElem?_eq_getElem hlt)]
      refine ih e' _ ?_ (BreadthFirst.expand_nodup (skips_monotone prune) hnodup _)
      rw [BreadthFirst.expand_arcs_length, BreadthFirst.expand_eq]
      exact h'
    · rw [Explorer.loop, BreadthFirst.search_done _ _ _ (List.getElem?_eq_none (by omega)), h.frontier,
        List.drop_of_length_le (by omega)]
      exact congrArg some (h.done (by omega))

end Tracks

/-! ## The program -/

/-- Every task is idle. -/
def idle (tasks : List Job) : State := tasks.map fun _ => {}

theorem idle_no_miss (tasks : List Job) : (idle tasks).deadlineMiss = false := by
  rw [State.deadlineMiss, List.any_eq_false]
  intro job hjob
  obtain ⟨task, -, rfl⟩ := List.mem_map.mp hjob
  decide

/-- The variables before the loop. -/
def explorer (tasks : List Job) : Explorer := Explorer.discover {} (idle tasks) (tasks.map fun _ => .none)

/-- The loop is a breadth-first search from the state where every task is idle. -/
theorem loop_search (tasks : List Job) (m : Int32) (prune : Bool) (combinations : List (List ℕ)) (fuel : ℕ) :
    Explorer.loop tasks m prune combinations fuel (explorer tasks) =
      (search (nextStates · tasks m combinations) (labelOf tasks m) (skips prune) fuel
        (start (idle tasks) (tasks.map fun _ => .none))).map Exploration.ofSearch := by
  refine loop_eq (n := tasks.length) tasks m prune combinations fuel _
    (start (idle tasks) (tasks.map fun _ => .none)) ?_ (List.nodup_singleton _)
  have hmiss := idle_no_miss tasks
  refine ⟨rfl, rfl, rfl, Visited.holds_empty.add (idle tasks), fun state => ?_, rfl, ?_, ?_, fun state hs => ?_⟩
  · show ((∅ : OrderedMap State ℕ).upsert (idle tasks) _).find state = _
    rw [OrderedMap.find_upsert]
    by_cases hs : state = idle tasks
    · subst hs
      simp [start, OrderedMap.find_empty]
    · rw [if_neg hs, if_neg (by simpa [start] using hs)]
      rfl
  · simp [start, hmiss, explorer, Explorer.discover]
  · simp [start, hmiss, explorer, Explorer.discover]
  · rw [List.mem_singleton.mp hs, idle, List.length_map]

theorem explore_eq (tasks : List Job) (m : Int32) (prune : Bool) (fuel : ℕ) :
    explore tasks m prune fuel =
      (search (successors tasks m) (labelOf tasks m) (skips prune) fuel
        (start (idle tasks) (tasks.map fun _ => .none))).map Exploration.ofSearch :=
  loop_search tasks m prune (allCombinations tasks.length) fuel

end Stgx
