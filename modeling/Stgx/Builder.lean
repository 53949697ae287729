/-
  Stgx.Builder — declarative assembly of a graph (`include/stgx/builder.hpp`,
  `src/builder.cpp`), and the graphs the API can build.

  A configuring callback is the list of the builder calls it makes. Nothing is checked
  while building: `build` validates once.
-/

import Stgx.Graph

namespace Stgx

/-! ## Systems -/

inductive SystemCall where
  | description (text : String)
  | m (processors : Int32)
  | task (c d : Int32) (name : Option String)
  deriving DecidableEq, Repr

structure SystemBuilder where
  system : System := {}

def SystemBuilder.apply (builder : SystemBuilder) : SystemCall → SystemBuilder
  | .description text => { builder with system.description := some text }
  | .m processors => { builder with system.m := some processors }
  | .task c d name => { builder with system.tasks := builder.system.tasks ++ [⟨c, d, name⟩] }

/-! ## Nodes -/

inductive NodeCall where
  | initial (value : Bool)
  | label (text : String)
  | borderColor (color : String)
  | fillColor (color : String)
  | task (state : TaskState)
  /-- `to`: `children` in YAML. -/
  | toNode (target : String)
  /-- `loop_to`: `loopback` in YAML. -/
  | loopTo (target : String)
  deriving DecidableEq, Repr

structure NodeBuilder where
  node : Node
  edges : List Edge := []

def NodeBuilder.apply (builder : NodeBuilder) : NodeCall → NodeBuilder
  | .initial value => { builder with node.initial := value }
  | .label text => { builder with node.label := some text }
  | .borderColor color => { builder with node.borderColor := some color }
  | .fillColor color => { builder with node.fillColor := some color }
  | .task state => { builder with node.tasks := builder.node.tasks ++ [state] }
  | .toNode target => { builder with edges := builder.edges ++ [⟨builder.node.id, target, .transition⟩] }
  | .loopTo target => { builder with edges := builder.edges ++ [⟨builder.node.id, target, .loopback⟩] }

/-! ## Graphs -/

structure GraphBuilder where
  system : System := {}
  nodes : List Node := []
  edges : List Edge := []

inductive BuilderCall where
  | systemWith (configure : List SystemCall)
  | system (value : System)
  | nodeWith (id : String) (configure : List NodeCall)
  | node (value : Node)
  | edge (source target : String) (kind : EdgeKind)
  deriving DecidableEq, Repr

namespace GraphBuilder

def apply (builder : GraphBuilder) : BuilderCall → GraphBuilder
  | .systemWith configure => { builder with system := (configure.foldl SystemBuilder.apply {}).system }
  | .system value => { builder with system := value }
  | .nodeWith id configure =>
    let configured := configure.foldl NodeBuilder.apply { node := { id := id } }
    { builder with nodes := builder.nodes ++ [configured.node], edges := builder.edges ++ configured.edges }
  | .node value => { builder with nodes := builder.nodes ++ [value] }
  | .edge source target kind => { builder with edges := builder.edges ++ [⟨source, target, kind⟩] }

/-- Build and validate. -/
def build (builder : GraphBuilder) : Result Graph := Graph.create builder.system builder.nodes builder.edges

end GraphBuilder

/-- The graphs the API can build: `Graph()`, a successful `Graph::create` or
    `GraphBuilder::build`, then any mutations. -/
inductive Reachable : Graph → Prop
  | empty : Reachable {}
  | create {system : System} {nodes : List Node} {edges : List Edge} {g : Graph} :
      Graph.create system nodes edges = .ok g → Reachable g
  | build {calls : List BuilderCall} {g : Graph} : (calls.foldl GraphBuilder.apply {}).build = .ok g → Reachable g
  | apply {g : Graph} (mu : Mutation) : Reachable g → Reachable (g.apply mu).2

end Stgx
