import StaticInliner.Diagnostic.Basic
import StaticInliner.Json.Printer

/-!
The explanation of each diagnostic code: what went wrong, an example, what to do
about it, and the codes to look at next.
-/
namespace StaticInliner

structure Explanation where
  title : String
  description : String
  sample : Option String
  suggestion : Option String
  related : List DiagnosticCode
  deriving DecidableEq, Repr

namespace DiagnosticCode

def explanation : DiagnosticCode → Explanation
  | .duplicateDefinition =>
    { title := "Duplicate Definition"
      description := "The definition host assigns the same qualified name more than once. " ++
        "Only one of the function literals can be inlined."
      sample := some <| "Arrays.$create = function(d) \x7b return d; \x7d;\n" ++
        "Arrays.$create = function(d, t) \x7b return new t(d); \x7d;"
      suggestion := some <| "By default the last assignment is used. Pass --first-wins or set\n" ++
        "duplicate_policy = \"first-wins\" in kiln.toml to keep the first one."
      related := [.candidateNotFound] }
  | .hostUnitNotFound =>
    { title := "Definition Host Not Found"
      description := "No source unit name ends with the configured host path, so no definitions " ++
        "were collected for that target and its calls are left alone."
      sample := some <| "[[target]]\n" ++
        "host = \"j2cl/transpiler/vmbootstrap/Casts.impl.js\"  # not part of the program"
      suggestion :=
        some "Check the host path in kiln.toml against the unit names in the program."
      related := [.candidateNotFound] }
  | .candidateNotFound =>
    { title := "Candidate Not Found"
      description := "A function listed for a target has no `Qualified.name = function ...` " ++
        "assignment in the definition host."
      sample := some "functions = [\"$create\", \"$createArray\"]  # host only defines $create"
      suggestion := some "Remove the name from the target or check its spelling."
      related := [.duplicateDefinition, .hostUnitNotFound] }
  | .internalError =>
    { title := "Internal Error"
      description := "The program is malformed (duplicate unit or function ids, calls without a " ++
        "target) or the pass hit an inconsistent scope table. The program is left unchanged."
      sample := none
      suggestion := some <| "Regenerate the program JSON; if it validates and the error " ++
        "persists, report it with the input attached."
      related := [] }

end DiagnosticCode

namespace Explanation

/-- A heading and its text, indented; nothing if there is no text. -/
def part (heading : String) (text : Option String) : String :=
  match text with
  | none => ""
  | some text =>
    let lines := (text.splitOn "\n").map fun line => "  " ++ line ++ "\n"
    heading ++ ":\n" ++ String.join lines ++ "\n"

end Explanation

namespace DiagnosticCode

def explainPlain (code : DiagnosticCode) : String :=
  let e := code.explanation
  let heading := code.text ++ ": " ++ e.title
  let related :=
    if e.related.isEmpty then ""
    else "Related: " ++ ", ".intercalate (e.related.map (·.text)) ++ "\n"
  "\n" ++ heading ++ "\n" ++ "".pushn '=' heading.length ++ "\n\n" ++ e.description ++ "\n\n" ++
    Explanation.part "Example" e.sample ++ Explanation.part "Suggestion" e.suggestion ++ related

def explainJson (code : DiagnosticCode) : String :=
  let e := code.explanation
  (Json.obj [("code", .str code.text), ("description", .str e.description),
    ("example", .ofOption .str e.sample), ("related", .strings (e.related.map (·.text))),
    ("suggestion", .ofOption .str e.suggestion), ("title", .str e.title)]).pretty 0 ++ "\n"

end DiagnosticCode

end StaticInliner
