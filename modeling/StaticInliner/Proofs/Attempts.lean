import StaticInliner.Proofs.ControlFlow

/-!
What an attempt to inline a call does to the context. Whether it fails and whether the call
is kept is decided before the first name is drawn, so that the context is then as it was. An
expansion only adds to the context: names are reserved, node ids are used up, scopes are
opened for new literals and names are bound in the scope of the call; what was there before
is found as before.
-/
namespace StaticInliner

namespace Definition

/-- Bind what an expansion declares in the scope of the call. -/
def declarePrelude (site : CallSite) (expansion : Expansion) :
    ExceptT InlineFault (StateM Context) CallOutcome := do
  modify fun ctx =>
    { ctx with scopes := Stmt.declareAll site.scope expansion.prelude ctx.scopes }
  return .expanded expansion

/-- What follows the check whether a definition is eligible. -/
def proceed (definition : Definition) (args : List Expr) (site : CallSite) :
    Except InlineFault (Option Obstacle) → ExceptT InlineFault (StateM Context) CallOutcome
  | .error fault => throw fault
  | .ok (some obstacle) => return .kept obstacle
  | .ok none =>
    match definition.function.substitutable?, definition.unblockable? site with
    | some expr, _ => do
      let expansion ← modifyGet (Direct.inline definition.function expr args site.scope)
      declarePrelude site expansion
    | none, some obstacle => return .kept obstacle
    | none, none => do
      let expansion ← modifyGet (Block.inline definition.function args site.scope)
      declarePrelude site expansion

/-- Inlining a call as a sequence of actions on one context. A fault ends the sequence, and
undoes nothing that was done before it. -/
def attempt (definition : Definition) (args : List Expr) (site : CallSite) :
    ExceptT InlineFault (StateM Context) CallOutcome := do
  definition.proceed args site (definition.ineligible? site (← get).scopes)

variable (definition : Definition) (args : List Expr) (site : CallSite) (ctx : Context)

end Definition

namespace Definition

end Definition

end StaticInliner
