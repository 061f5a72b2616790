import StaticInliner.Diagnostic.Basic
import StaticInliner.Json.Printer

/-!
Reports of diagnostics: plain text with notes on lines of their own, or one JSON
object a line with its keys sorted.
-/
namespace StaticInliner

namespace Diagnostic

/-- One line with the code, then help and notes indented below it. -/
def plainText (d : Diagnostic) : String :=
  let place := match d.unit with
    | some unit => unit ++ ": "
    | none => ""
  let help := match d.help with
    | some help => "  help: " ++ help ++ "\n"
    | none => ""
  let notes := d.notes.map fun note =>
    match note.unit with
    | some unit => "  note: " ++ unit ++ ": " ++ note.message ++ "\n"
    | none => "  note: " ++ note.message ++ "\n"
  place ++ d.severity.text ++ ": " ++ d.message ++ " [" ++ d.code.text ++ "]\n" ++ help ++
    String.join notes

def jsonLine (d : Diagnostic) : String :=
  (Json.obj [("code", .str d.code.text), ("help", .ofOption .str d.help),
    ("message", .str d.message),
    ("related", .arr (d.notes.map fun note =>
      .obj [("message", .str note.message), ("unit", .ofOption .str note.unit)])),
    ("severity", .str d.severity.text), ("unit", .ofOption .str d.unit)]).compact ++ "\n"

end Diagnostic

namespace Diagnostics

def plainText (diagnostics : Diagnostics) : String :=
  String.join (diagnostics.items.map (·.plainText))

def plainSummary (diagnostics : Diagnostics) : String :=
  toString (diagnostics.count .error) ++ " error(s), " ++ toString (diagnostics.count .warning) ++
    " warning(s), " ++ toString (diagnostics.count .hint) ++ " hint(s)\n"

def jsonLines (diagnostics : Diagnostics) : String :=
  String.join (diagnostics.items.map (·.jsonLine))

def jsonSummary (diagnostics : Diagnostics) : String :=
  (Json.obj [("errors", .ofNat (diagnostics.count .error)),
    ("hints", .ofNat (diagnostics.count .hint)), ("total", .ofNat diagnostics.size),
    ("type", .str "summary"),
    ("warnings", .ofNat (diagnostics.count .warning))]).compact ++ "\n"

end Diagnostics

end StaticInliner
