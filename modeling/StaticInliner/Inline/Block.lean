import StaticInliner.Inline.Context
import StaticInliner.Inline.Outcome
import StaticInliner.Inline.Rebind
import StaticInliner.Inline.Rename

/-!
Block substitution. The body, with all its names renamed, becomes a block ahead
of the statement: parameters are `let` variables initialised with the arguments,
excess arguments are evaluated for their side effects, and `return` assigns to a
result variable. A `return` other than the last statement also leaves the block,
by a `break` to a label that the block then carries.
-/
namespace StaticInliner

mutual

/-- `return e` becomes an assignment to `result` and a jump to `label`. -/
def Stmt.returnsToJumps (result label : String) : Stmt → List Stmt
  | .ret none => [.breakTo (some label)]
  | .ret (some value) => [.assign result value, .breakTo (some label)]
  | .ifElse condition thenBranch none =>
    [.ifElse condition (Stmt.returnsToJumpsAll result label thenBranch) none]
  | .ifElse condition thenBranch (some elseBranch) =>
    [.ifElse condition (Stmt.returnsToJumpsAll result label thenBranch)
      (some (Stmt.returnsToJumpsAll result label elseBranch))]
  | .whileDo condition body => [.whileDo condition (Stmt.returnsToJumpsAll result label body)]
  | .block body => [.block (Stmt.returnsToJumpsAll result label body)]
  | .labeled inner body => [.labeled inner (Stmt.returnsToJumpsAll result label body)]
  | s => [s]

def Stmt.returnsToJumpsAll (result label : String) : List Stmt → List Stmt
  | [] => []
  | s :: rest => s.returnsToJumps result label ++ Stmt.returnsToJumpsAll result label rest

end

namespace Block

def resultStem : String := "result"

def labelStem : String := "label"

/-- The body ends with a `return`. -/
def endsWithReturn (body : List Stmt) : Bool :=
  match body.getLast? with
  | some (.ret _) => true
  | _ => false

/-- Some `return` is not the last statement. -/
def needsLabel (body : List Stmt) : Bool :=
  (if endsWithReturn body then 1 else 0) < returnCount body

/-- Returns as assignments and, with a label, jumps. -/
def lowerAll (result : String) (label : Option String) (body : List Stmt) : List Stmt :=
  match label with
  | some label => Stmt.returnsToJumpsAll result label body
  | none => body

/-- Lower the returns of a body. The last statement, if it is a `trailing`
return, needs no jump. -/
def lower (result : String) (label : Option String) (trailing : Bool) (body : List Stmt) :
    List Stmt :=
  if trailing then
    lowerAll result label body.dropLast ++
      match body.getLast? with
      | some (.ret (some value)) => [.assign result value]
      | _ => []
  else lowerAll result label body

/-- Each parameter as a `let`, initialised if there is an argument. -/
def parameters (names : Renaming) : List String → List Expr → List Stmt
  | [], _ => []
  | param :: params, [] => .var .letVar (names.apply param) none :: parameters names params []
  | param :: params, arg :: args =>
    .var .letVar (names.apply param) (some arg) :: parameters names params args

/-- Excess arguments with side effects, as statements. -/
def excess (params : List String) (args : List Expr) : List Stmt :=
  ((args.drop params.length).filter (·.hasSideEffects)).map .expr

/-- A fresh name for the label, if one is needed. -/
def freshLabel (body : List Stmt) (scope : Nat) (ctx : Context) : Option String × Context :=
  if needsLabel body then
    let label := ctx.freshName labelStem scope
    (some label.1, label.2)
  else (none, ctx)

/-- Substitute a call of `fn`. -/
def inline (fn : FunctionLit) (args : List Expr) (scope : Nat) (ctx : Context) :
    Expansion × Context :=
  let result := ctx.freshName resultStem scope
  let label := freshLabel fn.body scope result.2
  let names := label.2.freshNames (declaredNames fn.params fn.body) scope
  let labels := names.2.freshNames (declaredLabels fn.body) scope
  let renamed := Stmt.renameAll names.1 labels.1 fn.body labels.2.nextNodeId
  let rebound := rebind renamed.1
  let block := parameters names.1 fn.params args ++ excess fn.params args ++
    rebound.declarations ++
      lower result.1 label.1 (endsWithReturn fn.body) rebound.body
  let wrapped : Stmt :=
    match label.1 with
    | some label => .labeled label block
    | none => .block block
  (⟨.block, [.var .letVar result.1 none, wrapped], .ident result.1, some result.1⟩,
    { labels.2 with nextNodeId := renamed.2 })

end Block

end StaticInliner
