/-
  Stgx.Save — writing a graph (`src/yaml_save.cpp`).

  What is sent to the emitter is a list of events; `graphTree g` is the tree these events
  build (`emitGraph_build`). `saveYamlString` takes the emitter as a parameter.
-/

import Stgx.GraphProofs
import Stgx.Yaml

namespace Stgx

open Stgx.Lib.Doc

/-! ## Events -/

/-- `out << YAML::Key << name << YAML::Value << ...` -/
def emitKey (name : String) (value : List Event) : List Event := .key :: .scalar name :: .value :: value

def emitMap (entries : List Event) : List Event := .beginMap :: entries ++ [.endMap]

def emitSeq (items : List Event) : List Event := .beginSeq :: items ++ [.endSeq]

def emitString (text : String) : List Event := [.scalar text]

def emitInt (value : Int32) : List Event := [.scalar (toString value.toInt)]

def emitBool (value : Bool) : List Event := [.scalar (if value then "true" else "false")]

/-- A field that is left out when it has no value. -/
def emitOptional {α : Type} (name : String) (emit : α → List Event) : Option α → List Event
  | some value => emitKey name (emit value)
  | none => []

def emitTaskParam (task : TaskParam) : List Event :=
  .flow :: emitMap
    (emitKey "c" (emitInt task.c) ++ (emitKey "d" (emitInt task.d) ++ emitOptional "name" emitString task.name))

def emitSystem (system : System) : List Event :=
  emitKey "system" <| emitMap <|
    emitOptional "description" emitString system.description ++
      (emitOptional "m" emitInt system.m ++
        if !system.tasks.isEmpty then emitKey "tasks" (emitSeq (system.tasks.flatMap emitTaskParam)) else [])

/-- One step of `emit_targets`' loop, on whether the list is opened and what was sent. -/
def emitTarget (field : String) (kind : EdgeKind) (s : Bool × List Event) (edge : Edge) : Bool × List Event :=
  if edge.kind ≠ kind then s
  else
    let (opened, out) := if !s.1 then (true, s.2 ++ emitKey field [.flow, .beginSeq]) else s
    (opened, out ++ emitString edge.target)

/-- Write the `children` or `loopback` list of one node, skipping it entirely when the node
    has no edges of that kind. -/
def emitTargets (field : String) (edges : List Edge) (kind : EdgeKind) : List Event :=
  let (opened, out) := edges.foldl (emitTarget field kind) (false, [])
  if opened then out ++ [.endSeq] else out

def emitTaskState (task : TaskState) : List Event :=
  .flow :: emitMap
    (emitKey "c" (emitInt task.c) ++ (emitKey "d" (emitInt task.d) ++
      if task.release ≠ .none then emitKey "release" (emitString task.release.toString) else []))

def emitNode (node : Node) (outEdges : List Edge) : List Event :=
  emitMap <|
    emitKey "id" (emitString node.id) ++ ((if node.initial then emitKey "initial" (emitBool true) else []) ++
      (emitOptional "label" emitString node.label ++ (emitOptional "borderColor" emitString node.borderColor ++
        (emitOptional "fillColor" emitString node.fillColor ++
          ((if !node.tasks.isEmpty then emitKey "tasks" (emitSeq (node.tasks.flatMap emitTaskState)) else []) ++
            (emitTargets "children" outEdges .transition ++ emitTargets "loopback" outEdges .loopback))))))

def emitGraph (g : Graph) : List Event :=
  emitMap <|
    emitKey "schemaVersion" (emitInt kSchemaVersion) ++ ((if !g.system.empty then emitSystem g.system else []) ++
      emitKey "nodes" (emitSeq (g.nodes.flatMap fun node => emitNode node (g.outEdges node.id))))

/-- What is sent to the emitter; an invalid graph is never written. -/
def saveEvents (g : Graph) : Result (List Event) := do
  g.validate
  return emitGraph g

def saveYamlString (cpp : YamlCpp) (g : Graph) : Result String := do
  match cpp.emit (← saveEvents g) with
  | .error what => fail .yamlParse "" ("emitter failed: " ++ what)
  | .ok text => return text ++ "\n"

/-! ## Trees -/

def intTree (value : Int32) : Tree := .scalar (toString value.toInt)

/-- A list that is left out when it is empty. -/
def listTree (items : List Tree) : Option Tree := if items.isEmpty then none else some (.sequence items)

def taskParamTree (task : TaskParam) : Tree :=
  .mapping <| written
    [("c", some (intTree task.c)), ("d", some (intTree task.d)), ("name", task.name.map .scalar)]

def systemTree (system : System) : Tree :=
  .mapping <| written
    [("description", system.description.map .scalar), ("m", system.m.map intTree),
      ("tasks", listTree (system.tasks.map taskParamTree))]

def taskStateTree (task : TaskState) : Tree :=
  .mapping <| written
    [("c", some (intTree task.c)), ("d", some (intTree task.d)),
      ("release", if task.release = .none then none else some (.scalar task.release.toString))]

/-- The targets of the edges of one kind. -/
def targetsOf (kind : EdgeKind) (edges : List Edge) : List String :=
  (edges.filter fun edge => edge.kind = kind).map Edge.target

def nodeTree (node : Node) (outEdges : List Edge) : Tree :=
  .mapping <| written
    [("id", some (.scalar node.id)), ("initial", if node.initial then some (.scalar "true") else none),
      ("label", node.label.map .scalar), ("borderColor", node.borderColor.map .scalar),
      ("fillColor", node.fillColor.map .scalar), ("tasks", listTree (node.tasks.map taskStateTree)),
      ("children", listTree ((targetsOf .transition outEdges).map .scalar)),
      ("loopback", listTree ((targetsOf .loopback outEdges).map .scalar))]

/-- The document a graph is written as. -/
def graphTree (g : Graph) : Tree :=
  .mapping <| written
    [("schemaVersion", some (intTree kSchemaVersion)),
      ("system", if g.system.empty then none else some (systemTree g.system)),
      ("nodes", some (.sequence (g.nodes.map fun node => nodeTree node (g.outEdges node.id))))]

/-! ## The events build the trees -/

theorem sends_string (text : String) : Sends (emitString text) [.scalar text] := .scalar text

theorem sends_int (value : Int32) : Sends (emitInt value) [intTree value] := .scalar _

theorem sends_written_cons {name : String} {value : Option Tree} {events rest : List Event}
    {fields : List (String × Option Tree)} (h : Sends events (flat (optionalEntry name value)))
    (hrest : Sends rest (flat (written fields))) :
    Sends (events ++ rest) (flat (written ((name, value) :: fields))) := by
  rw [written_cons, flat_append]
  exact h.append hrest

/-- The last field of a mapping. -/
theorem sends_written_last {name : String} {value : Option Tree} {events : List Event}
    (h : Sends events (flat (optionalEntry name value))) : Sends events (flat (written [(name, value)])) := by
  have := sends_written_cons h (show Sends [] (flat (written [])) from .nil)
  rwa [List.append_nil] at this

theorem sends_optional {α : Type} {name : String} {emit : α → List Event} {tree : α → Tree}
    (h : ∀ x, Sends (emit x) [tree x]) (o : Option α) :
    Sends (emitOptional name emit o) (flat (optionalEntry name (o.map tree))) := by
  cases o with
  | none => exact .nil
  | some x => exact (h x).entry

/-- A list that is sent when it has items. -/
theorem sends_list {α : Type} {name : String} {emit : α → List Event} {tree : α → Tree}
    (h : ∀ x, Sends (emit x) [tree x]) (l : List α) :
    Sends (if !l.isEmpty then emitKey name (emitSeq (l.flatMap emit)) else [])
      (flat (optionalEntry name (listTree (l.map tree)))) := by
  cases l with
  | nil => exact .nil
  | cons x l =>
    have items := Sends.flatMap (x :: l) fun y _ => h y
    rw [← List.map_eq_flatMap] at items
    exact items.sequence.entry

theorem taskParam_sends (task : TaskParam) : Sends (emitTaskParam task) [taskParamTree task] :=
  Sends.flow <| Sends.mapping <|
    sends_written_cons (sends_int task.c).entry <| sends_written_cons (sends_int task.d).entry <|
      sends_written_last <| sends_optional sends_string task.name

theorem system_sends (system : System) :
    Sends (emitSystem system) (flat (optionalEntry "system" (some (systemTree system)))) :=
  Sends.entry <| Sends.mapping <|
    sends_written_cons (sends_optional sends_string system.description) <|
      sends_written_cons (sends_optional sends_int system.m) <|
        sends_written_last <| sends_list taskParam_sends system.tasks

theorem taskState_sends (task : TaskState) : Sends (emitTaskState task) [taskStateTree task] := by
  refine Sends.flow <| Sends.mapping <|
    sends_written_cons (sends_int task.c).entry <| sends_written_cons (sends_int task.d).entry <|
      sends_written_last ?_
  cases task.release with
  | none => exact .nil
  | up => exact (sends_string _).entry
  | down => exact (sends_string _).entry

/-- The loop over the edges, from an opened list on. -/
theorem foldl_emitTarget_opened (field : String) (kind : EdgeKind) (edges : List Edge) (out : List Event) :
    edges.foldl (emitTarget field kind) (true, out) = (true, out ++ (targetsOf kind edges).flatMap emitString) := by
  induction edges generalizing out with
  | nil => simp [targetsOf]
  | cons edge edges ih =>
    rw [List.foldl_cons, emitTarget]
    by_cases h : edge.kind = kind
    · rw [if_neg (not_not_intro h)]
      simp only [Bool.not_true, Bool.false_eq_true, if_false, ih]
      simp [targetsOf, h]
    · rw [if_pos h, ih]
      simp [targetsOf, h]

theorem emitTargets_eq (field : String) (kind : EdgeKind) (edges : List Edge) :
    emitTargets field edges kind =
      if !(targetsOf kind edges).isEmpty then
        emitKey field (.flow :: emitSeq ((targetsOf kind edges).flatMap emitString))
      else [] := by
  unfold emitTargets
  induction edges with
  | nil => rfl
  | cons edge edges ih =>
    rw [List.foldl_cons, emitTarget]
    by_cases h : edge.kind = kind
    · rw [if_neg (not_not_intro h)]
      simp only [Bool.not_false, if_true, foldl_emitTarget_opened]
      simp [targetsOf, h, emitKey, emitSeq]
    · rw [if_pos h, ih]
      simp [targetsOf, h]

theorem targets_sends (field : String) (kind : EdgeKind) (edges : List Edge) :
    Sends (emitTargets field edges kind)
      (flat (optionalEntry field (listTree ((targetsOf kind edges).map .scalar)))) := by
  rw [emitTargets_eq]
  cases targetsOf kind edges with
  | nil => exact .nil
  | cons target targets =>
    have items := Sends.flatMap (target :: targets) fun text _ => sends_string text
    rw [← List.map_eq_flatMap] at items
    exact items.sequence.flow.entry

theorem node_sends (node : Node) (outEdges : List Edge) : Sends (emitNode node outEdges) [nodeTree node outEdges] := by
  refine Sends.mapping <|
    sends_written_cons (sends_string node.id).entry <| sends_written_cons ?_ <|
      sends_written_cons (sends_optional sends_string node.label) <|
        sends_written_cons (sends_optional sends_string node.borderColor) <|
          sends_written_cons (sends_optional sends_string node.fillColor) <|
            sends_written_cons (sends_list taskState_sends node.tasks) <|
              sends_written_cons (targets_sends "children" .transition outEdges) <|
                sends_written_last (targets_sends "loopback" .loopback outEdges)
  cases node.initial with
  | false => exact .nil
  | true => exact (sends_string "true").entry

/-- What is sent for a graph builds its document. -/
theorem emitGraph_build (g : Graph) : build (emitGraph g) = some (graphTree g) := by
  refine Sends.build <| Sends.mapping <|
    sends_written_cons (sends_int kSchemaVersion).entry <| sends_written_cons ?_ <| sends_written_last <| Sends.entry ?_
  · cases g.system.empty with
    | false => exact system_sends g.system
    | true => exact .nil
  · have items := Sends.flatMap g.nodes fun node _ => node_sends node (g.outEdges node.id)
    rw [← List.map_eq_flatMap] at items
    exact items.sequence

/-! ## Saving -/

/-- A graph is written exactly when it is well formed. -/
theorem saveEvents_ok_iff {g : Graph} {events : List Event} :
    saveEvents g = .ok events ↔ WellFormed g.system g.nodes g.edges ∧ events = emitGraph g := by
  rw [← validate_ok_iff]
  unfold saveEvents
  cases g.validate with
  | error diags => simp [bind, Except.bind]
  | ok u => simp [bind, Except.bind, pure, Except.pure, eq_comm]

theorem saveYamlString_ok_iff {cpp : YamlCpp} {g : Graph} {saved : String} :
    saveYamlString cpp g = .ok saved ↔
      WellFormed g.system g.nodes g.edges ∧ ∃ text, cpp.emit (emitGraph g) = .ok text ∧ saved = text ++ "\n" := by
  unfold saveYamlString
  cases h : saveEvents g with
  | error diags =>
    have hw : ¬ WellFormed g.system g.nodes g.edges := fun hw => by
      rw [saveEvents_ok_iff.mpr ⟨hw, rfl⟩] at h
      cases h
    simp [bind, Except.bind, hw]
  | ok events =>
    obtain ⟨hw, rfl⟩ := saveEvents_ok_iff.mp h
    cases he : cpp.emit (emitGraph g) <;> simp [bind, Except.bind, he, hw, fail, pure, Except.pure, eq_comm]

theorem saved_text {cpp : YamlCpp} {g : Graph} {saved text : String} (h : saveYamlString cpp g = .ok saved)
    (hemit : cpp.emit (emitGraph g) = .ok text) : saved = text ++ "\n" := by
  obtain ⟨-, text', hemit', rfl⟩ := saveYamlString_ok_iff.mp h
  rw [Except.ok.inj (hemit.symm.trans hemit')]

end Stgx
