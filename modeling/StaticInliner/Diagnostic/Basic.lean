import StaticInliner.Json.Reader

/-!
Diagnostics: warnings and hints about a run, each with a stable code, the source
unit it concerns and notes.
-/
namespace StaticInliner

inductive Severity where
  | hint | warning | error
  deriving DecidableEq, Repr

namespace Severity

def all : List Severity := [.hint, .warning, .error]

def text : Severity → String
  | .hint => "hint"
  | .warning => "warning"
  | .error => "error"

def rank : Severity → Nat
  | .hint => 0
  | .warning => 1
  | .error => 2

/-- Hints before warnings before errors. -/
def compare (a b : Severity) : Ordering := Ord.compare a.rank b.rank

end Severity

inductive DiagnosticCode where
  | duplicateDefinition
  | hostUnitNotFound
  | candidateNotFound
  | internalError
  deriving DecidableEq, Repr

namespace DiagnosticCode

def all : List DiagnosticCode :=
  [.duplicateDefinition, .hostUnitNotFound, .candidateNotFound, .internalError]

def text : DiagnosticCode → String
  | .duplicateDefinition => "I001"
  | .hostUnitNotFound => "I002"
  | .candidateNotFound => "I003"
  | .internalError => "I900"

/-- The name of the code in serialized diagnostics. -/
def tag : DiagnosticCode → String
  | .duplicateDefinition => "DuplicateDefinition"
  | .hostUnitNotFound => "HostUnitNotFound"
  | .candidateNotFound => "CandidateNotFound"
  | .internalError => "InternalError"

/-- The severity a diagnostic has unless it is given another. -/
def severity : DiagnosticCode → Severity
  | .internalError => .error
  | .duplicateDefinition | .hostUnitNotFound => .warning
  | .candidateNotFound => .hint

/-- The code with a given text, small and capital ASCII letters being equal. -/
def ofText? (text : String) : Option DiagnosticCode :=
  all.find? fun code => code.text.toLower == text.toLower

end DiagnosticCode

/-- A note beside a diagnostic. -/
structure Note where
  unit : Option String
  message : String
  deriving DecidableEq, Repr

structure Diagnostic where
  code : DiagnosticCode
  severity : Severity
  message : String
  help : Option String
  unit : Option String
  notes : List Note
  deriving DecidableEq, Repr

namespace Diagnostic

/-- A diagnostic of the code's own severity. -/
def ofCode (code : DiagnosticCode) (message : String) : Diagnostic :=
  ⟨code, code.severity, message, none, none, []⟩

def toJson (d : Diagnostic) : Json :=
  .obj [("code", .str d.code.tag), ("severity", .str d.severity.text), ("message", .str d.message),
    ("explanation", .ofOption .str d.help), ("unit", .ofOption .str d.unit),
    ("related", .arr (d.notes.map fun note =>
      .obj [("unit", .ofOption .str note.unit), ("message", .str note.message)]))]

end Diagnostic

namespace Note

def ofJson? (json : Json) : Option Note := do
  match ← json.fields? ["unit", "message"] with
  | [unit, message] =>
    return ⟨← Json.optional Json.str? unit, ← Json.required Json.str? message⟩
  | _ => none

end Note

namespace Diagnostic

def ofJson? (json : Json) : Option Diagnostic := do
  match ← json.fields? ["code", "severity", "message", "explanation", "unit", "related"] with
  | [code, severity, message, help, unit, notes] =>
    return ⟨← Json.required (Json.choice? DiagnosticCode.all DiagnosticCode.tag) code,
      ← Json.required (Json.choice? Severity.all Severity.text) severity,
      ← Json.required Json.str? message, ← Json.optional Json.str? help,
      ← Json.optional Json.str? unit, ← Json.required (Json.list? Note.ofJson?) notes⟩
  | _ => none

end Diagnostic

/-- Diagnostics in the order in which they were reported. -/
structure Diagnostics where
  items : List Diagnostic
  deriving DecidableEq, Repr

namespace Diagnostics

def empty : Diagnostics := ⟨[]⟩

def append (diagnostics : Diagnostics) (more : List Diagnostic) : Diagnostics :=
  ⟨diagnostics.items ++ more⟩

def count (diagnostics : Diagnostics) (severity : Severity) : Nat :=
  diagnostics.items.countP (·.severity == severity)

def size (diagnostics : Diagnostics) : Nat := diagnostics.items.length

def hasErrors (diagnostics : Diagnostics) : Bool := 0 < diagnostics.count .error

def havingCode (diagnostics : Diagnostics) (code : DiagnosticCode) : List Diagnostic :=
  diagnostics.items.filter (·.code == code)

def toJson (diagnostics : Diagnostics) : Json :=
  .obj [("items", .arr (diagnostics.items.map (·.toJson)))]

def ofJson? (json : Json) : Option Diagnostics := do
  match ← json.fields? ["items"] with
  | [items] => return ⟨← Json.required (Json.list? Diagnostic.ofJson?) items⟩
  | _ => none

end Diagnostics

end StaticInliner
