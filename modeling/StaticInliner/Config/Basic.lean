import StaticInliner.Analysis.Declared
import StaticInliner.Definition.Table
import StaticInliner.Json.Reader

/-!
Configuration of a run: targets, processed in order, and the policy for names
with several definitions. A target is a suffix of unit names and the last
segments of the names wanted from those units.
-/
namespace StaticInliner

structure Target where
  host : String
  /-- Sorted, without repetition. -/
  functions : List String
  deriving DecidableEq, Repr

namespace Target

def ofFunctions (host : String) (functions : List String) : Target :=
  ⟨host, sortedNames functions⟩

def toJson (target : Target) : Json :=
  .obj [("host", .str target.host), ("functions", .strings target.functions)]

def ofJson? (json : Json) : Option Target := do
  match ← json.fields? ["host", "functions"] with
  | [host, functions] =>
    return ofFunctions (← Json.required Json.str? host)
      (← Json.required (Json.list? Json.str?) functions)
  | _ => none

end Target

structure Config where
  targets : List Target
  policy : DuplicatePolicy
  deriving DecidableEq, Repr

def DuplicatePolicy.ofJson? : Json → Option DuplicatePolicy := Json.choice? all text

namespace Config

/-- No targets; the last definition wins. -/
def empty : Config := ⟨[], .lastWins⟩

def addTarget (config : Config) (target : Target) : Config :=
  { config with targets := config.targets ++ [target] }

/-- Helpers of the J2CL runtime. -/
def j2cl : Config :=
  empty
    |>.addTarget (.ofFunctions "j2cl/transpiler/vmbootstrap/Arrays.impl.js"
      ["$create", "$init", "$instanceIsOfType", "$castTo"])
    |>.addTarget (.ofFunctions "j2cl/transpiler/vmbootstrap/Casts.impl.js" ["to"])

def toJson (config : Config) : Json :=
  .obj [("target", .arr (config.targets.map (·.toJson))),
    ("duplicate_policy", .str config.policy.text)]

/-- Values of the two fields; an array may end early. -/
def fields? : Json → Option (Option Json × Option Json)
  | .obj members =>
    match Json.fields? ["target", "duplicate_policy"] (.obj members) with
    | some [targets, policy] => some (targets, policy)
    | _ => none
  | .arr [] => some (none, none)
  | .arr [targets] => some (some targets, none)
  | .arr [targets, policy] => some (some targets, some policy)
  | _ => none

def ofJson? (json : Json) : Option Config := do
  let (targets, policy) ← fields? json
  return ⟨← Json.defaulting [] (Json.list? Target.ofJson?) targets,
    ← Json.defaulting .lastWins DuplicatePolicy.ofJson? policy⟩

end Config

end StaticInliner
