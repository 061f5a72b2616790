import StaticInliner.Syntax.Walk

/-!
Structural checks before a program is changed: unit ids are used once, node ids
of function literals are used once across all units, and every call has a
callee that can name or compute a target. The first violation in unit order,
then pre-order, is reported.
-/
namespace StaticInliner

/-- Why a program is malformed. -/
inductive Malformation where
  | duplicateUnitId (id : Nat)
  | duplicateNodeId (node : Nat) (unit : String)
  | unresolvableCallee (unit : String)
  deriving DecidableEq, Repr

def Malformation.message : Malformation → String
  | .duplicateUnitId id => "source unit id " ++ toString id ++ " is used by more than one unit"
  | .duplicateNodeId node unit =>
    "function node " ++ toString node ++ " in '" ++ unit ++ "' has more than one owner"
  | .unresolvableCallee unit => "call in '" ++ unit ++ "' has no resolvable target"

/-- A callee that is no constant and has no empty name along its member chain. -/
def Expr.isResolvable : Expr → Bool
  | .ident name => name != ""
  | .member object property => property != "" && object.isResolvable
  | .undefined | .null | .bool _ | .number _ => false
  | _ => true

namespace Validation

/-- Node ids met so far and the first violation. -/
structure State where
  nodeIds : List Nat
  fault : Option Malformation

/-- The violation a node commits, given the ids met before it. -/
def nodeFault? (unit : String) (nodeIds : List Nat) : Node → Option Malformation
  | .stmt (.function fn) | .expr (.function fn) =>
    if nodeIds.contains fn.id then some (.duplicateNodeId fn.id unit) else none
  | .expr (.call callee _) | .expr (.new callee _) =>
    if callee.isResolvable then none else some (.unresolvableCallee unit)
  | _ => none

def visit (unit : String) (node : Node) (state : State) : Descent × State :=
  match state.fault with
  | some _ => (.prune, state)
  | none =>
    let nodeIds :=
      match node.function? with
      | some fn => fn.id :: state.nodeIds
      | none => state.nodeIds
    (.enter, ⟨nodeIds, nodeFault? unit state.nodeIds node⟩)

/-- Check units one after another, given the unit and node ids met before. -/
def units (unitIds nodeIds : List Nat) : List SourceUnit → Except Malformation Unit
  | [] => .ok ()
  | unit :: rest =>
    if unitIds.contains unit.id then .error (.duplicateUnitId unit.id)
    else
      let state := Stmt.walkAll (visit unit.name) unit.body ⟨nodeIds, none⟩
      match state.fault with
      | some fault => .error fault
      | none => units (unit.id :: unitIds) state.nodeIds rest

end Validation

def Program.validate (program : Program) : Except Malformation Unit :=
  Validation.units [] [] program.units

end StaticInliner
