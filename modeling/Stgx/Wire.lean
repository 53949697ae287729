/-
  Stgx.Wire — the wire format of a document, what its values mean, and how what is wrong
  with it is reported.

  `documentFormat` lists every section's fields in reading order. The meaning of a
  section (`taskParamOf`, `systemOf`, `taskStateOf`, `nodeOf`, `edgesFrom`) is total: what
  cannot be read has the default, as in a partial load.
-/

import Stgx.Lib.Format
import Stgx.Load

namespace Stgx

open Stgx.Lib.Doc

/-! ## The format -/

inductive WireKind where
  | string
  | int
  | bool
  | release
  | version
  | document
  | mapping
  | taskParam
  | taskState
  | sequence
  | targets
  deriving DecidableEq, Repr

/-- The scalars of a kind. -/
def accepts : WireKind → String → Bool
  | .string, _ => true
  | .int, text => (parseInt text).isSome
  | .bool, text => (parseBool text).isSome
  | .release, text => (parseRelease text).isSome
  | .version, text => parseInt text == some kSchemaVersion
  | _, _ => false

def taskParamFormat : Format WireKind :=
  .record .taskParam
    (.cons "c" true (.leaf .int) <| .cons "d" true (.leaf .int) <| .cons "name" false (.leaf .string) .nil) []

def systemFormat : Format WireKind :=
  .record .mapping
    (.cons "description" false (.leaf .string) <| .cons "m" false (.leaf .int) <|
      .cons "tasks" false (.list .sequence taskParamFormat) .nil) []

def taskStateFormat : Format WireKind :=
  .record .taskState
    (.cons "c" false (.leaf .int) <| .cons "d" false (.leaf .int) <| .cons "release" false (.leaf .release) .nil) []

def targetsFormat : Format WireKind := .list .targets (.leaf .string)

def nodeFormat : Format WireKind :=
  .record .mapping
    (.cons "id" true (.leaf .string) <| .cons "initial" false (.leaf .bool) <|
      .cons "isInitial" false (.leaf .bool) <| .cons "label" false (.leaf .string) <|
      .cons "borderColor" false (.leaf .string) <| .cons "fillColor" false (.leaf .string) <|
      .cons "tasks" false (.list .sequence taskStateFormat) <| .cons "children" false targetsFormat <|
      .cons "loopback" false targetsFormat .nil) ["hatch", "metadata"]

def documentFormat : Format WireKind :=
  .record .document
    (.cons "schemaVersion" false (.leaf .version) <| .cons "system" false systemFormat <|
      .cons "nodes" false (.list .sequence nodeFormat) .nil) ["areas", "layout"]

/-- No two fields of a section share a name. -/
theorem documentFormat_proper : documentFormat.proper = true := by decide

/-! ## Reports -/

def notAnInt (path text : String) : Diagnostic :=
  ⟨.notAnInt, .error, path, "expected an integer, got \"" ++ text ++ "\""⟩

/-- The version a document must not have. -/
def versionDiag (path : String) (version : Int32) : Diagnostic :=
  if version < 1 then
    ⟨.schemaVersion, .error, path, "must be a positive integer, got " ++ toString version.toInt⟩
  else
    ⟨.schemaVersion, .error, path,
      "document is version " ++ toString version.toInt ++ ", this build reads up to " ++ toString kSchemaVersion.toInt⟩

/-- How a violated position is reported. -/
def siteDiag (site : Site WireKind) : Diagnostic :=
  let path := site.path.render
  match site.kind, site.value.text? with
  | .string, _ => ⟨.wrongType, .error, path, "expected a string"⟩
  | .int, none | .version, none => ⟨.wrongType, .error, path, "expected an integer"⟩
  | .int, some text => notAnInt path text
  | .version, some text =>
    match parseInt text with
    | none => notAnInt path text
    | some version => versionDiag path version
  | .bool, _ => ⟨.wrongType, .error, path, "expected a boolean"⟩
  | .release, none => ⟨.badRelease, .error, path, "expected up/down/none (or ↑/↓/1/-1)"⟩
  | .release, some text => ⟨.badRelease, .error, path, "expected up/down/none (or ↑/↓/1/-1), got \"" ++ text ++ "\""⟩
  | .document, _ => ⟨.wrongType, .error, path, "top level must be a mapping"⟩
  | .mapping, _ => ⟨.wrongType, .error, path, "expected a mapping"⟩
  | .taskParam, _ => ⟨.wrongType, .error, path, "expected a mapping with c, d and an optional name"⟩
  | .taskState, _ => ⟨.wrongType, .error, path, "expected a mapping with c, d and an optional release"⟩
  | .sequence, _ => ⟨.wrongType, .error, path, "expected a sequence"⟩
  | .targets, _ => ⟨.wrongType, .error, path, "expected a sequence of node ids"⟩

/-- How an entry that a save will not carry over is reported. -/
def strayDiag (stray : Stray) : Diagnostic :=
  match stray.key.text? with
  | none => ⟨.unknownField, .warning, stray.record.render, "non-scalar key"⟩
  | some name =>
    if stray.unsupported then
      ⟨.unsupportedField, .warning, fieldPath stray.record.render name,
        "not modelled in this version; it will be dropped when saving"⟩
    else ⟨.unknownField, .warning, fieldPath stray.record.render name, "not part of the wire format"⟩

def issueDiag : Issue WireKind → Diagnostic
  | .site site => siteDiag site
  | .stray stray => strayDiag stray

/-- A violation is reported as an error at its own position. -/
theorem siteDiag_path (site : Site WireKind) :
    (siteDiag site).path = site.path.render ∧ (siteDiag site).severity = .error := by
  unfold siteDiag
  split <;> first | exact ⟨rfl, rfl⟩ | skip
  split
  · exact ⟨rfl, rfl⟩
  · unfold versionDiag
    split <;> exact ⟨rfl, rfl⟩

theorem strayDiag_severity (stray : Stray) : (strayDiag stray).severity = .warning := by
  unfold strayDiag
  split
  · rfl
  · split <;> rfl

/-- Among the reports of issues, the errors are the violations, the warnings the strays. -/
theorem errors_issueDiag (issues : List (Issue WireKind)) :
    Diagnostics.errors (issues.map issueDiag) = (issues.filterMap Issue.site?).map siteDiag := by
  induction issues with
  | nil => rfl
  | cons issue issues ih =>
    rw [List.map_cons, Diagnostics.errors, List.filter_cons]
    cases issue with
    | site s =>
      rw [if_pos (by simp [issueDiag, Diagnostic.isError, siteDiag_path])]
      exact congrArg (siteDiag s :: ·) ih
    | stray s =>
      rw [if_neg (by simp [issueDiag, Diagnostic.isError, strayDiag_severity])]
      exact ih

theorem warnings_issueDiag (issues : List (Issue WireKind)) :
    Diagnostics.warnings (issues.map issueDiag) = (issues.filterMap Issue.stray?).map strayDiag := by
  induction issues with
  | nil => rfl
  | cons issue issues ih =>
    rw [List.map_cons, Diagnostics.warnings, List.filter_cons]
    cases issue with
    | site s =>
      rw [if_neg (by simp [issueDiag, Diagnostic.isError, siteDiag_path])]
      exact ih
    | stray s =>
      rw [if_pos (by simp [issueDiag, Diagnostic.isError, strayDiag_severity])]
      exact congrArg (strayDiag s :: ·) ih

/-! ## The meaning -/

/-- The text under a key. -/
def textField (name : String) (entries : List Entry) : Option String := (lookup name entries).bind Tree.text?

/-- What `parse` makes of the text under a key. -/
def parsedField {α : Type} (parse : String → Option α) (name : String) (entries : List Entry) : Option α :=
  (textField name entries).bind parse

/-- The items under a key. -/
def itemsField (name : String) (entries : List Entry) : List Tree := ((lookup name entries).bind Tree.items?).getD []

def entriesOf (t : Tree) : List Entry := t.entries?.getD []

def taskParamOf (t : Tree) : TaskParam :=
  let entries := entriesOf t
  { c := (parsedField parseInt "c" entries).getD 0
    d := (parsedField parseInt "d" entries).getD 0
    name := textField "name" entries }

def systemOf (t : Tree) : System :=
  let entries := entriesOf t
  { description := textField "description" entries
    m := parsedField parseInt "m" entries
    tasks := (itemsField "tasks" entries).map taskParamOf }

def taskStateOf (t : Tree) : TaskState :=
  let entries := entriesOf t
  { c := (parsedField parseInt "c" entries).getD 0
    d := (parsedField parseInt "d" entries).getD 0
    release := (parsedField parseRelease "release" entries).getD .none }

def flagOf (name : String) (entries : List Entry) : Bool := (parsedField parseBool name entries).getD false

def nodeOf (t : Tree) : Node :=
  let entries := entriesOf t
  { id := (textField "id" entries).getD ""
    initial := flagOf "initial" entries || flagOf "isInitial" entries
    tasks := (itemsField "tasks" entries).map taskStateOf
    label := textField "label" entries
    borderColor := textField "borderColor" entries
    fillColor := textField "fillColor" entries }

/-- The edges a node's `children` or `loopback` list gives. -/
def targetsFrom (t : Tree) (kind : EdgeKind) : List Edge :=
  ((itemsField (edgeField kind) (entriesOf t)).filterMap Tree.text?).map fun target => ⟨(nodeOf t).id, target, kind⟩

/-- The edges a node gives: children before loopback. -/
def edgesFrom (t : Tree) : List Edge := targetsFrom t .transition ++ targetsFrom t .loopback

/-- A document's parts. -/
def documentSystem (doc : Tree) : System := ((lookup "system" (entriesOf doc)).map systemOf).getD {}

def documentNodes (doc : Tree) : List Tree := itemsField "nodes" (entriesOf doc)

def nodesOf (doc : Tree) : List Node := (documentNodes doc).map nodeOf

def edgesOf (doc : Tree) : List Edge := (documentNodes doc).flatMap edgesFrom

end Stgx
