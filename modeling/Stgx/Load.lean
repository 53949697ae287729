/-
  Stgx.Load — reading a document (`src/yaml_load.cpp`).

  A reader adds its diagnostics to those collected so far and goes on with a default;
  what yaml-cpp throws ends the load. `loadYamlString` takes the parser as a parameter.
-/

import Stgx.Graph
import Stgx.Lib.Collect
import Stgx.Lib.Decimal
import Stgx.Yaml

namespace Stgx

open Stgx.Lib.Collect (Collecting loopM)
open Stgx.Lib.Decimal (fromChars)
open Stgx.Lib.Doc (Tree)

/-- Reads with `Diagnostics& diags`; yaml-cpp may throw. -/
abbrev Load := Collecting Diagnostic YamlException

namespace Load

def add (code : DiagCode) (path message : String) (severity : Severity := .error) : Load Unit :=
  Lib.Collect.add ⟨code, severity, path, message⟩

end Load

/-! ## Paths -/

def fieldPath (base field : String) : String := (if base.isEmpty then base else base ++ ".") ++ field

def indexPath (base : String) (index : Nat) : String := base ++ "[" ++ toString index ++ "]"

/-! ## Scalar readers -/

/-- A key that is present but null counts as absent. -/
def isAbsent (node : NodeRef) : Load Bool := if !node.isDefined then return true else node.isNull

def readString (node : NodeRef) (path : String) : Load (Option String) := do
  if !(← node.isScalar) then
    Load.add .wrongType path "expected a string"
    return none
  return some (← node.scalar)

def dropPlus : List Char → List Char
  | '+' :: digits => digits
  | digits => digits

/-- The strict decimal int of a text: `std::from_chars` over the whole of it, after one plus. -/
def parseInt (text : String) : Option Int32 :=
  let result := fromChars (-2147483648) 2147483647 (dropPlus text.toList)
  if result.ec ≠ .ok ∨ result.rest ≠ [] then none else some (Int32.ofInt result.value)

def readInt (node : NodeRef) (path : String) : Load (Option Int32) := do
  if !(← node.isScalar) then
    Load.add .wrongType path "expected an integer"
    return none
  let text ← node.scalar
  match parseInt text with
  | none =>
    Load.add .notAnInt path ("expected an integer, got \"" ++ text ++ "\"")
    return none
  | some value => return some value

def yesTexts : List String := ["true", "True", "TRUE", "yes", "Yes", "on", "On"]

def noTexts : List String := ["false", "False", "FALSE", "no", "No", "off", "Off"]

def parseBool (text : String) : Option Bool :=
  if yesTexts.contains text then some true else if noTexts.contains text then some false else none

def readBool (node : NodeRef) (path : String) : Load (Option Bool) := do
  let value ← (do if ← node.isScalar then return parseBool (← node.scalar) else return none : Load (Option Bool))
  match value with
  | some value => return some value
  | none =>
    Load.add .wrongType path "expected a boolean"
    return none

def parseRelease (text : String) : Option Release :=
  if text = "up" ∨ text = "↑" ∨ text = "1" then some .up
  else if text = "down" ∨ text = "↓" ∨ text = "-1" then some .down
  else if text = "none" then some .none
  else none

def readRelease (node : NodeRef) (path : String) : Load (Option Release) := do
  if ← node.isScalar then
    let text ← node.scalar
    match parseRelease text with
    | some release => return some release
    | none =>
      Load.add .badRelease path ("expected up/down/none (or ↑/↓/1/-1), got \"" ++ text ++ "\"")
      return none
  else
    Load.add .badRelease path "expected up/down/none (or ↑/↓/1/-1)"
    return none

/-! ## Key checking -/

def checkKey (path : String) (known unsupported : List String) (key : Tree) : Load Unit :=
  match key.text? with
  | none => Load.add .unknownField path "non-scalar key" .warning
  | some name =>
    if unsupported.contains name then
      Load.add .unsupportedField (fieldPath path name) "not modelled in this version; it will be dropped when saving"
        .warning
    else if !known.contains name then
      Load.add .unknownField (fieldPath path name) "not part of the wire format" .warning
    else return ()

/-- Report the fields that a later save will not carry over. -/
def checkKeys (map : NodeRef) (path : String) (known unsupported : List String) : Load Unit := do
  let entries ← map.entries
  loopM (fun _ _ entry => checkKey path known unsupported entry.1) 0 entries ()

/-! ## Section readers -/

/-- `if (!is_absent(node[key])) value = read(node[key], field_path(path, key), diags)`. -/
def readField {α : Type} (node : NodeRef) (path key : String) (value : α) (read : NodeRef → String → Load α) :
    Load α := do
  let field ← node.get key
  if ← isAbsent field then return value
  read field (fieldPath path key)

/-- `if (const auto value = read(node, path, diags)) out = *value`. -/
def readOr {α : Type} (out : α) (read : NodeRef → String → Load (Option α)) (node : NodeRef) (path : String) :
    Load α := do
  return (← read node path).getD out

/-- Push what `read` makes of each element of a sequence onto a fresh vector. -/
def readItems {α : Type} (read : NodeRef → String → Load α) (node : NodeRef) (path : String) : Load (List α) := do
  if !(← node.isSequence) then
    Load.add .wrongType path "expected a sequence"
    return []
  let items ← node.items
  loopM (fun values i item => return values ++ [← read (.valid item) (indexPath path i)]) 0 items []

def readTaskParam (node : NodeRef) (path : String) : Load TaskParam := do
  let task : TaskParam := {}
  if !(← node.isMap) then
    Load.add .wrongType path "expected a mapping with c, d and an optional name"
    return task
  checkKeys node path ["c", "d", "name"] []
  let c ← readOr task.c readInt (← node.get "c") (fieldPath path "c")
  let d ← readOr task.d readInt (← node.get "d") (fieldPath path "d")
  let name ← readField node path "name" task.name readString
  return { c := c, d := d, name := name }

def readSystem (node : NodeRef) (path : String) : Load System := do
  let system : System := {}
  if !(← node.isMap) then
    Load.add .wrongType path "expected a mapping"
    return system
  checkKeys node path ["description", "m", "tasks"] []
  let description ← readField node path "description" system.description readString
  let m ← readField node path "m" system.m readInt
  let tasks ← readField node path "tasks" system.tasks (readItems readTaskParam)
  return { description := description, m := m, tasks := tasks }

def readTaskState (node : NodeRef) (path : String) : Load TaskState := do
  let task : TaskState := {}
  if !(← node.isMap) then
    Load.add .wrongType path "expected a mapping with c, d and an optional release"
    return task
  checkKeys node path ["c", "d", "release"] []
  let c ← readField node path "c" task.c (readOr task.c readInt)
  let d ← readField node path "d" task.d (readOr task.d readInt)
  let release ← readField node path "release" task.release (readOr task.release readRelease)
  return { c := c, d := d, release := release }

/-- One step of `read_targets`' loop. -/
def readTarget (path : String) (kind : EdgeKind) (source : String) (edges : List Edge) (i : Nat) (item : Tree) :
    Load (List Edge) := do
  match ← readString (.valid item) (indexPath path i) with
  | some target => return edges ++ [⟨source, target, kind⟩]
  | none => return edges

/-- Turn a `children` / `loopback` list into edges leaving `source`. -/
def readTargets (node : NodeRef) (path : String) (kind : EdgeKind) (source : String) (edges : List Edge) :
    Load (List Edge) := do
  if ← isAbsent node then return edges
  if !(← node.isSequence) then
    Load.add .wrongType path "expected a sequence of node ids"
    return edges
  let items ← node.items
  loopM (readTarget path kind source) 0 items edges

/-- `out.initial |= *value`. -/
def readFlag (initial : Bool) (node : NodeRef) (path : String) : Load Bool := do
  return initial || (← readBool node path).getD false

def readNode (node : NodeRef) (path : String) (edges : List Edge) : Load (Node × List Edge) := do
  let out : Node := {}
  if !(← node.isMap) then
    Load.add .wrongType path "expected a mapping"
    return (out, edges)
  checkKeys node path
    ["id", "initial", "isInitial", "tasks", "children", "loopback", "label", "borderColor", "fillColor"]
    ["hatch", "metadata"]
  let id ← readOr out.id readString (← node.get "id") (fieldPath path "id")
  -- `isInitial` is a legacy spelling
  let initial ← readField node path "initial" out.initial (readFlag out.initial)
  let initial ← readField node path "isInitial" initial (readFlag initial)
  let label ← readField node path "label" out.label readString
  let borderColor ← readField node path "borderColor" out.borderColor readString
  let fillColor ← readField node path "fillColor" out.fillColor readString
  let tasks ← readField node path "tasks" out.tasks (readItems readTaskState)
  let edges ← readTargets (← node.get "children") (fieldPath path "children") .transition id edges
  let edges ← readTargets (← node.get "loopback") (fieldPath path "loopback") .loopback id edges
  return ({ id := id, initial := initial, tasks := tasks, label := label, borderColor := borderColor,
            fillColor := fillColor }, edges)

def readSchemaVersion (node : NodeRef) : Load Unit := do
  if ← isAbsent node then return ()  -- absent means version 1
  match ← readInt node "schemaVersion" with
  | none => return ()
  | some version =>
    if version < 1 then
      Load.add .schemaVersion "schemaVersion" ("must be a positive integer, got " ++ toString version.toInt)
    else if kSchemaVersion < version then
      Load.add .schemaVersion "schemaVersion"
        ("document is version " ++ toString version.toInt ++ ", this build reads up to " ++
          toString kSchemaVersion.toInt)
    else return ()

/-- One step of the loop over `nodes`. -/
def readNodeItem (s : List Node × List Edge) (i : Nat) (item : Tree) : Load (List Node × List Edge) := do
  let (node, edges) ← readNode (.valid item) (indexPath "nodes" i) s.2
  return (s.1 ++ [node], edges)

def readNodes (node : NodeRef) : Load (List Node × List Edge) := do
  if ← isAbsent node then return ([], [])  -- left to `validateGraph`
  if !(← node.isSequence) then
    Load.add .wrongType "nodes" "expected a sequence"
    return ([], [])
  let items ← node.items
  loopM readNodeItem 0 items ([], [])

/-! ## Loading -/

/-- Hand the collected diagnostics to the caller and build the graph if the document was
    sound. Field-level problems do not stop the structural checks. -/
def finish (system : System) (nodes : List Node) (edges : List Edge) (diags : Diagnostics)
    (warnings : Option Diagnostics) : Result Graph × Option Diagnostics :=
  let warnings := warnings.map (·.merge diags.warnings)
  let errors := diags.errors.merge (validateGraph system nodes edges)
  if !errors.isEmpty then (.error errors, warnings) else (Graph.create system nodes edges, warnings)

/-- The sections of a document, in reading order. -/
def readDocument (root : NodeRef) : Load (System × List Node × List Edge) := do
  checkKeys root "" ["schemaVersion", "system", "nodes"] ["areas", "layout"]
  readSchemaVersion (← root.get "schemaVersion")
  let system ← readField root "" "system" {} readSystem
  let (nodes, edges) ← readNodes (← root.get "nodes")
  return (system, nodes, edges)

/-- The result, and what is written to `warnings`. -/
def loadDocument (root : NodeRef) (warnings : Option Diagnostics) :
    Except YamlException (Result Graph × Option Diagnostics) := do
  if ← (do if !root.isDefined then return true else root.isNull : Except YamlException Bool) then
    return (fail .yamlParse "" "document is empty", warnings)
  if !(← root.isMap) then return (fail .wrongType "" "top level must be a mapping", warnings)
  let ((system, nodes, edges), diags) ← (readDocument root).run []
  return finish system nodes edges diags warnings

/-- Only parsing is guarded: what the readers throw escapes. -/
def loadYamlString (cpp : YamlCpp) (yaml : String) (warnings : Option Diagnostics) :
    Except YamlException (Result Graph × Option Diagnostics) :=
  match cpp.load yaml with
  | .error what => .ok (fail .yamlParse "" what, warnings)
  | .ok root => loadDocument (.valid root) warnings

end Stgx
