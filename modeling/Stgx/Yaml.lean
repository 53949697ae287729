/-
  Stgx.Yaml — the parts of yaml-cpp that loading and saving use.

  A parsed document is a tree; what an expression of type `const YAML::Node` denotes is
  a node of it, or the invalid node that `operator[]` gives for an absent key. Only
  `IsDefined` may be asked of an invalid node: every type query throws `InvalidNode`.
  Parsing text and printing events are parameters (`YamlCpp`).
-/

import Stgx.Lib.Tree

namespace Stgx

open Stgx.Lib.Doc (Tree Event lookup build)

inductive YamlException where
  | invalidNode (key : String)
  | badSubscript (key : String)
  deriving DecidableEq, Repr

/-- A `const YAML::Node`. -/
inductive NodeRef where
  | invalid (key : String)
  | valid (t : Tree)

namespace NodeRef

def isDefined : NodeRef → Bool
  | .invalid _ => false
  | .valid _ => true

/-- The tree of a node; asking an invalid node throws. -/
def query : NodeRef → Except YamlException Tree
  | .invalid key => .error (.invalidNode key)
  | .valid t => .ok t

def isNull (node : NodeRef) : Except YamlException Bool := do return (← node.query).isNull

def isScalar (node : NodeRef) : Except YamlException Bool := do return (← node.query).text?.isSome

def isSequence (node : NodeRef) : Except YamlException Bool := do return (← node.query).items?.isSome

def isMap (node : NodeRef) : Except YamlException Bool := do return (← node.query).entries?.isSome

def scalar (node : NodeRef) : Except YamlException String := do return (← node.query).text?.getD ""

/-- The elements of a sequence. -/
def items (node : NodeRef) : Except YamlException (List Tree) := do return (← node.query).items?.getD []

/-- The entries of a map. -/
def entries (node : NodeRef) : Except YamlException (List (Tree × Tree)) := do return (← node.query).entries?.getD []

/-- `node[key]`. -/
def get (node : NodeRef) (key : String) : Except YamlException NodeRef := do
  match ← node.query with
  | .mapping entries =>
    match lookup key entries with
    | some t => return .valid t
    | none => return .invalid key
  | .scalar _ => throw (.badSubscript key)
  | .null | .sequence _ => return .invalid key

end NodeRef

/-- `YAML::Load` and `YAML::Emitter`: a document or what the parser says is wrong with the
    text; the text printed for the events or the emitter's last error. -/
structure YamlCpp where
  load : String → Except String Tree
  emit : List Event → Except String String

/-- What the emitter prints for these events is parsed as the tree they send. -/
def YamlCpp.ReadsBack (cpp : YamlCpp) (events : List Event) : Prop :=
  ∀ text t, cpp.emit events = .ok text → build events = some t → cpp.load (text ++ "\n") = .ok t

/-- The emitter prints these events. -/
def YamlCpp.Prints (cpp : YamlCpp) (events : List Event) : Prop := ∃ text, cpp.emit events = .ok text

end Stgx
