import StaticInliner.ChangedBodies
import StaticInliner.NameSupply
import StaticInliner.Scope.Resolve
import StaticInliner.Validation

/-!
What a run carries from one call to the next: the scopes of the program so far,
the supply of fresh names and node ids, the changed bodies and the counts.
-/
namespace StaticInliner

/-- What a run counts. -/
structure Stats where
  targets : Nat := 0
  collected : Nat := 0
  inlinedDirect : Nat := 0
  inlinedBlock : Nat := 0
  skipped : Nat := 0
  deriving DecidableEq, Repr

def Stats.inlined (stats : Stats) : Nat := stats.inlinedDirect + stats.inlinedBlock

/-- Why a run stops. -/
inductive InlineFault where
  | malformed (fault : Malformation)
  | unknownFunctionScope (node : Nat)
  | unknownUnitScope (unit : String)
  deriving DecidableEq, Repr

def InlineFault.message : InlineFault → String
  | .malformed fault => "malformed program: " ++ fault.message
  | .unknownFunctionScope node => "no scope recorded for function literal " ++ toString node
  | .unknownUnitScope unit => "no scope recorded for source unit '" ++ unit ++ "'"

structure Context where
  scopes : ScopeTree
  names : NameSupply
  changes : ChangedBodies
  stats : Stats
  nextNodeId : IdCounter

namespace Context

/-- Every name spelled in the program is reserved, and node ids are counted from
the one behind the greatest in use. -/
def ofProgram (program : Program) (supply : IdSupply) : Context :=
  { scopes := program.scopes
    names := NameSupply.reserveAll ⟨supply, []⟩ program
    changes := .empty
    stats := {}
    nextNodeId := .ofNat program.firstFreeId }

def freshName (ctx : Context) (base : String) (scope : Nat) : String × Context :=
  let drawn := ctx.names.fresh base ctx.scopes scope
  (drawn.1, { ctx with names := drawn.2 })

def newNodeId (ctx : Context) : Nat × Context :=
  let drawn := ctx.nextNodeId.draw
  (drawn.1, { ctx with nextNodeId := drawn.2 })

/-- Names for several bases, paired with them. -/
def freshNames (ctx : Context) (bases : List String) (scope : Nat) :
    List (String × String) × Context :=
  match bases with
  | [] => ([], ctx)
  | base :: rest =>
    let first := ctx.freshName base scope
    let others := first.2.freshNames rest scope
    ((base, first.1) :: others.1, others.2)

end Context

end StaticInliner
