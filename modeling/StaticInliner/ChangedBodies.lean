import StaticInliner.Json.Value
import StaticInliner.Scope.Tree

/-!
Which bodies a run has changed: top levels of source units and bodies of
function literals, named by ids that the run does not alter. Scripts come
before functions, each in ascending order of ids.
-/
namespace StaticInliner

inductive ChangedBody where
  | script (unit : Nat)
  | function (node : Nat)
  deriving DecidableEq, Repr

namespace ChangedBody

/-- The body a scope belongs to; the global scope has none. -/
def ofScope? : ScopeKind → Option ChangedBody
  | .global => none
  | .script unit => some (.script unit)
  | .function node => some (.function node)

def lt : ChangedBody → ChangedBody → Bool
  | .script a, .script b | .function a, .function b => a < b
  | .script _, .function _ => true
  | .function _, .script _ => false

end ChangedBody

/-- Changed bodies in order, each once. -/
structure ChangedBodies where
  bodies : List ChangedBody
  deriving DecidableEq, Repr

namespace ChangedBodies

def empty : ChangedBodies := ⟨[]⟩

def contains (changes : ChangedBodies) (body : ChangedBody) : Bool := changes.bodies.contains body

def size (changes : ChangedBodies) : Nat := changes.bodies.length

def isEmpty (changes : ChangedBodies) : Bool := changes.bodies.isEmpty

def insertBody (body : ChangedBody) : List ChangedBody → List ChangedBody
  | [] => [body]
  | other :: rest =>
    if body = other then other :: rest
    else if body.lt other then body :: other :: rest
    else other :: insertBody body rest

/-- Record that the body a scope belongs to has changed. -/
def mark (changes : ChangedBodies) (kind : ScopeKind) : ChangedBodies :=
  match ChangedBody.ofScope? kind with
  | some body => ⟨insertBody body changes.bodies⟩
  | none => changes

def functions (changes : ChangedBodies) : List Nat :=
  changes.bodies.filterMap fun
    | .function node => some node
    | .script _ => none

def scripts (changes : ChangedBodies) : List Nat :=
  changes.bodies.filterMap fun
    | .script unit => some unit
    | .function _ => none

def toJson (changes : ChangedBodies) : Json :=
  .arr <| changes.bodies.map fun
    | .script unit => .obj [("id", .ofNat unit), ("kind", .str "script")]
    | .function node => .obj [("id", .ofNat node), ("kind", .str "function")]

end ChangedBodies

end StaticInliner
