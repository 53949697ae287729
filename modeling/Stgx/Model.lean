/-
  Stgx.Model — the values of a state-transition graph (`include/stgx/model.hpp`).

  `int` is 32 bits wide, so the task parameters are `Int32`; vectors are lists.
-/

namespace Stgx

/-- Job release event attached to a task inside a node. -/
inductive Release where
  | none
  | up
  | down
  deriving DecidableEq, Repr, Inhabited

inductive EdgeKind where
  | transition
  | loopback
  deriving DecidableEq, Repr, Inhabited

def Release.toString : Release → String
  | .none => "none"
  | .up => "up"
  | .down => "down"

structure TaskParam where
  c : Int32 := 0
  d : Int32 := 0
  name : Option String := none
  deriving DecidableEq, Repr

/-- What the graph is a graph of; `m` is the number of processors. -/
structure System where
  description : Option String := none
  m : Option Int32 := none
  tasks : List TaskParam := []
  deriving DecidableEq, Repr

def System.empty (system : System) : Bool :=
  !system.description.isSome && !system.m.isSome && system.tasks.isEmpty

/-- State of one task inside one node: remaining computation and deadline. -/
structure TaskState where
  c : Int32 := 0
  d : Int32 := 0
  release : Release := .none
  deriving DecidableEq, Repr

structure Node where
  id : String := ""
  initial : Bool := false
  tasks : List TaskState := []
  label : Option String := none
  borderColor : Option String := none
  fillColor : Option String := none
  deriving DecidableEq, Repr

structure Edge where
  source : String := ""
  target : String := ""
  kind : EdgeKind := .transition
  deriving DecidableEq, Repr, Inhabited

def ids (nodes : List Node) : List String := nodes.map Node.id

def kSchemaVersion : Int32 := 1

theorem System.empty_iff (system : System) : system.empty = true ↔ system = {} := by
  obtain ⟨description, m, tasks⟩ := system
  cases description <;> cases m <;> cases tasks <;> simp [System.empty]

end Stgx
