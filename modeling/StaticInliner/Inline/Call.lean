import StaticInliner.Analysis.Free
import StaticInliner.Definition.Table
import StaticInliner.Inline.Block
import StaticInliner.Inline.Direct

/-!
Inlining one call. A definition is eligible if its body does not depend on how
it is called and its free variables mean the same at the call as at the
definition. Then a direct substitution is made if the body allows one, else a
block substitution if the call may be moved ahead of its statement.
-/
namespace StaticInliner

/-- The first free variable that is bound by a function at the definition or at
the call. -/
def shadowedFree? (scopes : ScopeTree) (definition site : Nat) : List String → Option Obstacle
  | [] => none
  | name :: rest =>
    if scopes.isBoundInFunction definition name then some (.freeVariable name)
    else if scopes.isBoundInFunction site name then some (.shadowedAtCallSite name)
    else shadowedFree? scopes definition site rest

namespace Definition

/-- Why the definition cannot be inlined at the site, whatever the arguments. -/
def ineligible? (definition : Definition) (site : CallSite) (scopes : ScopeTree) :
    Except InlineFault (Option Obstacle) :=
  let fn := definition.function
  if readsThis fn.body then .ok (some .readsThis)
  else if readsArguments fn.body then .ok (some .readsArguments)
  else if callsName definition.name fn.body then .ok (some .recursive)
  else
    match scopes.functionScope? fn.id with
    | none => .error (.unknownFunctionScope fn.id)
    | some scope => .ok (shadowedFree? scopes scope site.scope fn.freeVariables)

/-- Why the body cannot become a block at the site. -/
def unblockable? (definition : Definition) (site : CallSite) : Option Obstacle :=
  let fn := definition.function
  if !site.hoistable then some .notHoistable
  else
    match fn.repeatedParams with
    | name :: _ => some (.redeclaredParameter name)
    | [] =>
      let hoisted := hoistedNames fn.body
      ((capturedNames fn.body).find? (hoisted.contains ·)).map .capturedLocal

/-- Declare what a substitution puts ahead of the statement. -/
def finish (site : CallSite) (done : Expansion × Context) : CallOutcome × Context :=
  (.expanded done.1,
    { done.2 with scopes := Stmt.declareAll site.scope done.1.prelude done.2.scopes })

/-- Inline a call with the given arguments. -/
def expandCall (definition : Definition) (args : List Expr) (site : CallSite) (ctx : Context) :
    Except InlineFault (CallOutcome × Context) :=
  let fn := definition.function
  match definition.ineligible? site ctx.scopes with
  | .error fault => .error fault
  | .ok (some obstacle) => .ok (.kept obstacle, ctx)
  | .ok none =>
    match fn.substitutable? with
    | some expr => .ok (finish site (Direct.inline fn expr args site.scope ctx))
    | none =>
      match definition.unblockable? site with
      | some obstacle => .ok (.kept obstacle, ctx)
      | none => .ok (finish site (Block.inline fn args site.scope ctx))

end Definition

end StaticInliner
