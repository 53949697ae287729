/-
  Stgx.Gfp — the reachability graph of a task set under global fixed-priority scheduling
  (`examples/gfp/main.cpp`).

  `explore` searches the states breadth first, from the one where every task is idle. It
  keeps the states it has seen twice: by their sums (`Visited`), for the pruning by
  dominance, and by their numbers (`indexOf`). The loop runs on fuel; `none` is fuel that
  ran out or a state without a number (`std::map::at`), and `explore_terminates` shows neither
  happens. `1 << task_count` is a shift of an `int`: it is negative for 31 tasks
  (`explore_overflow`), and more are not shifted.
-/

import Stgx.Declared
import Stgx.Jobs
import Stgx.Lib.Ordered

namespace Stgx

open Stgx.Lib.Ordered (OrderedMap OrderedSet)

/-! ## States seen -/

/-- The states seen, by `sum_c` and `sum_d`. -/
structure Visited where
  index : OrderedMap ℤ (OrderedMap ℤ (OrderedSet State)) := ∅

namespace Visited

def contains (visited : Visited) (state : State) : Bool :=
  match visited.index.find state.sumC with
  | none => false
  | some byC =>
    match byC.find state.sumD with
    | none => false
    | some states => (states.find state).isSome

/-- `index_[sum_c][sum_d].insert(state)`. -/
def add (visited : Visited) (state : State) : Visited :=
  ⟨visited.index.upsert state.sumC fun byC =>
    (byC.getD ∅).upsert state.sumD fun states => OrderedSet.insert (states.getD ∅) state⟩

/-- Only states with sums at least as bad are compared. -/
def isDominated (visited : Visited) (state : State) : Bool :=
  (visited.index.lowerBound state.sumC).any fun byC =>
    (byC.2.upTo state.sumD).any fun bySums =>
      bySums.2.items.any fun seen => if seen = state then false else seen.dominates state

end Visited

/-! ## Scheduling -/

/-- The jobs from some task on, `usedCores` cores being used by those before. -/
def gfpFrom (m : Int32) : ℤ → State → State
  | _, [] => []
  | usedCores, job :: jobs =>
    let nextD := max 0 (job.d - 1)
    if job.c = 0 ∨ usedCores = m.toInt then ⟨job.c, nextD⟩ :: gfpFrom m usedCores jobs
    else ⟨job.c - 1, nextD⟩ :: gfpFrom m (usedCores + 1) jobs

/-- A step of global fixed-priority scheduling on `m` cores. -/
def gfp (state : State) (m : Int32) : State := gfpFrom m 0 state

/-- `1 << n`, an `int`. -/
def oneShl (n : ℕ) : ℤ := ((2 : ℤ) ^ n).bmod (2 ^ 32)

/-- The sets of tasks, by the bits of a mask. -/
def allCombinations (taskCount : ℕ) : List (List ℕ) :=
  (List.range' 1 ((oneShl taskCount).toNat - 1)).map fun mask =>
    (List.range taskCount).filter fun i => mask &&& (1 <<< i) ≠ 0

/-- Task `i` releases a job if it is idle. -/
def releaseTask (tasks : List Job) (released : State) (i : ℕ) : State :=
  if released[i]? = some {} then released.set i (tasks[i]?.getD {}) else released

/-- The states after a step, in order. -/
def nextStates (state : State) (tasks : List Job) (m : Int32) (combinations : List (List ℕ)) : List State :=
  let scheduled := gfp state m
  let result := combinations.foldl
    (fun result combination => OrderedSet.insert result (combination.foldl (releaseTask tasks) scheduled)) ∅
  OrderedSet.items result

/-- What happened to a task on the way from one state to another. -/
def releaseOf (job scheduled next task : Job) : Release :=
  if scheduled = {} ∧ next = task ∧ task ≠ {} then .up
  else if job.c > 0 ∧ scheduled.c = 0 then .down
  else .none

def releasesOf (source target : State) (tasks : List Job) (m : Int32) : List Release :=
  let scheduled := gfp source m
  (List.range target.length).map fun i =>
    releaseOf (source[i]?.getD {}) (scheduled[i]?.getD {}) (target[i]?.getD {}) (tasks[i]?.getD {})

/-! ## Exploration -/

/-- The states in the order they are discovered; an arc is the number of a state, and
    whether it had been discovered before. -/
@[ext]
structure Exploration where
  states : List State := []
  releases : List (List Release) := []
  arcs : List (List (ℕ × Bool)) := []
  schedulable : Bool := true
  deadlineMisses : ℕ := 0
  deriving DecidableEq, Repr

/-- The variables of `explore`. -/
structure Explorer where
  out : Exploration := {}
  visited : Visited := {}
  indexOf : OrderedMap State ℕ := ∅
  frontier : List State := []

namespace Explorer

def discover (e : Explorer) (state : State) (releases : List Release) : Explorer where
  out := { e.out with
    states := e.out.states ++ [state], releases := e.out.releases ++ [releases], arcs := e.out.arcs ++ [[]] }
  visited := e.visited.add state
  indexOf := e.indexOf.emplace state e.out.states.length
  frontier := e.frontier ++ [state]

def addArc (e : Explorer) (source : ℕ) (arc : ℕ × Bool) : Explorer :=
  { e with out.arcs := e.out.arcs.modify source (· ++ [arc]) }

/-- A state with a deadline miss is counted. -/
def countMiss (e : Explorer) (state : State) : Explorer :=
  if state.deadlineMiss then { e with out.schedulable := false, out.deadlineMisses := e.out.deadlineMisses + 1 } else e

/-- One successor of `current`, which is number `source`. -/
def successor (tasks : List Job) (m : Int32) (prune : Bool) (current : State) (source : ℕ) (e : Explorer)
    (state : State) :
    Option Explorer :=
  if prune && !e.visited.contains state && e.visited.isDominated state then some e
  else if e.visited.contains state then do
    let index ← e.indexOf.find state
    return e.addArc source (index, true)
  else
    let e := (e.countMiss state).discover state (releasesOf current state tasks m)
    some (e.addArc source (e.out.states.length - 1, false))

/-- Expand the states of the frontier until none is left. -/
def loop (tasks : List Job) (m : Int32) (prune : Bool) (combinations : List (List ℕ)) :
    ℕ → Explorer → Option Exploration
  | 0, _ => none
  | fuel + 1, e =>
    match e.frontier with
    | [] => some e.out
    | current :: frontier => do
      let source ← e.indexOf.find current
      let e ← (nextStates current tasks m combinations).foldlM (successor tasks m prune current source)
        { e with frontier := frontier }
      loop tasks m prune combinations fuel e

end Explorer

def explore (tasks : List Job) (m : Int32) (prune : Bool) (fuel : ℕ) : Option Exploration :=
  let initial : State := tasks.map fun _ => {}
  let combinations := allCombinations tasks.length
  Explorer.loop tasks m prune combinations fuel
    (Explorer.discover {} initial (tasks.map fun _ => .none))

/-! ## The graph -/

def gfpNodeId (index : ℕ) : String := "n" ++ toString index

/-- The calls on the `SystemBuilder`. -/
def systemCalls (tasks : List Job) (m : Int32) : List SystemCall :=
  [.description "GFP reachability graph", .m m] ++
    tasks.mapIdx fun i task => .task task.c task.d (some ("τ" ++ toString (i + 1)))

/-- The calls on the `NodeBuilder` of state `i`. -/
def nodeCalls (exploration : Exploration) (i : ℕ) : List NodeCall :=
  let state := exploration.states[i]?.getD []
  let releases := exploration.releases[i]?.getD []
  (if i = 0 then [.initial true] else []) ++
    (state.mapIdx fun t job => .task ⟨job.c, job.d, releases[t]?.getD .none⟩) ++
    (exploration.arcs[i]?.getD []).map fun arc =>
      if arc.2 then .loopTo (gfpNodeId arc.1) else .toNode (gfpNodeId arc.1)

def buildGraph (exploration : Exploration) (tasks : List Job) (m : Int32) : Result Graph :=
  builtBy (.systemWith (systemCalls tasks m) ::
    (List.range exploration.states.length).map fun i => .nodeWith (gfpNodeId i) (nodeCalls exploration i))

/-! ## The program's task set -/

def kM : Int32 := 1

def kPrune : Bool := false

def kTasks : List Job := [⟨1, 2⟩, ⟨1, 2⟩]

end Stgx
