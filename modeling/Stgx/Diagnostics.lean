/-
  Stgx.Diagnostics — diagnostics, their collections and fallible results
  (`include/stgx/diagnostics.hpp`, `src/diagnostics.cpp`, `include/stgx/result.hpp`).
-/

namespace Stgx

inductive Severity where
  | error
  | warning
  deriving DecidableEq, Repr

inductive DiagCode where
  | yamlParse
  | schemaVersion
  | nodesMissing
  | nodeIdEmpty
  | nodeIdDuplicate
  | nodeNotFound
  | danglingEdge
  | initialCount
  | taskArityMismatch
  | notAnInt
  | wrongType
  | badRelease
  | unsupportedField
  | unknownField
  | ioError
  deriving DecidableEq, Repr

structure Diagnostic where
  code : DiagCode := .yamlParse
  severity : Severity := .error
  /-- Location in wire-format terms, e.g. `nodes[3].children[0]`. May be empty. -/
  path : String
  message : String
  deriving DecidableEq, Repr

def Diagnostic.isError (diag : Diagnostic) : Bool := diag.severity == .error

/-- Stable lower_case names. -/
def DiagCode.toString : DiagCode → String
  | .yamlParse => "yaml_parse"
  | .schemaVersion => "schema_version"
  | .nodesMissing => "nodes_missing"
  | .nodeIdEmpty => "node_id_empty"
  | .nodeIdDuplicate => "node_id_duplicate"
  | .nodeNotFound => "node_not_found"
  | .danglingEdge => "dangling_edge"
  | .initialCount => "initial_count"
  | .taskArityMismatch => "task_arity_mismatch"
  | .notAnInt => "not_an_int"
  | .wrongType => "wrong_type"
  | .badRelease => "bad_release"
  | .unsupportedField => "unsupported_field"
  | .unknownField => "unknown_field"
  | .ioError => "io_error"

def Severity.toString : Severity → String
  | .error => "error"
  | .warning => "warning"

/-- `error[dangling_edge] nodes[3].children[0]: unknown node "n99"` -/
def Diagnostic.toString (diag : Diagnostic) : String :=
  diag.severity.toString ++ "[" ++ diag.code.toString ++ "]" ++
    (if diag.path.isEmpty then "" else " " ++ diag.path) ++ (if diag.message.isEmpty then "" else ": " ++ diag.message)

abbrev Diagnostics := List Diagnostic

namespace Diagnostics

def add (diags : Diagnostics) (code : DiagCode) (path message : String) (severity : Severity := .error) :
    Diagnostics :=
  diags ++ [⟨code, severity, path, message⟩]

/-- Append everything from `other`, keeping order. -/
def merge (diags other : Diagnostics) : Diagnostics := diags ++ other

def hasErrors (diags : Diagnostics) : Bool := diags.any Diagnostic.isError

def errors (diags : Diagnostics) : Diagnostics := diags.filter Diagnostic.isError

def warnings (diags : Diagnostics) : Diagnostics := diags.filter fun diag => !diag.isError

/-- Append a diagnostic to a report, on a line of its own. -/
def addLine (out : String) (diag : Diagnostic) : String := (if out.isEmpty then out else out ++ "\n") ++ diag.toString

def toString (diags : Diagnostics) : String := diags.foldl addLine ""

/-- A collection of errors only has an error as soon as it has an element. -/
theorem hasErrors_eq_false {diags : Diagnostics} (h : ∀ diag ∈ diags, diag.isError = true) :
    diags.hasErrors = false ↔ diags = [] := by
  cases diags with
  | nil => simp [hasErrors]
  | cons diag diags => simp [hasErrors, h diag (List.mem_cons_self)]

end Diagnostics

/-- Fallible outcome; the error side carries every diagnostic that was found. -/
abbrev Result (α : Type) := Except Diagnostics α

def fail {α : Type} (code : DiagCode) (path message : String) : Result α := .error [⟨code, .error, path, message⟩]

namespace Diag

def nodeNotFound (id : String) : Diagnostic := ⟨.nodeNotFound, .error, "", "node \"" ++ id ++ "\" does not exist"⟩

def nodeIdEmpty : Diagnostic := ⟨.nodeIdEmpty, .error, "", "node id must not be empty"⟩

def nodeIdDuplicate (id : String) : Diagnostic := ⟨.nodeIdDuplicate, .error, "", "node \"" ++ id ++ "\" already exists"⟩

end Diag

end Stgx
