import StaticInliner.Syntax.Tree

/-!
What comes of one call: it is expanded, that is replaced by an expression,
perhaps after some statements, or an obstacle keeps it as it is.
-/
namespace StaticInliner

/-- Shape of an expansion: the returned expression itself, or the body as a
block ahead of the statement. -/
inductive ExpansionShape where
  | direct | block
  deriving DecidableEq, Repr

def ExpansionShape.text : ExpansionShape → String
  | .direct => "direct"
  | .block => "block"

/-- Why a call is kept. -/
inductive Obstacle where
  | readsThis
  | readsArguments
  | recursive
  | freeVariable (name : String)
  | shadowedAtCallSite (name : String)
  | rootShadowed (name : String)
  | redeclaredParameter (name : String)
  | capturedLocal (name : String)
  | notHoistable
  deriving DecidableEq, Repr

def Obstacle.message : Obstacle → String
  | .readsThis => "body uses 'this'"
  | .readsArguments => "body uses 'arguments'"
  | .recursive => "function calls itself"
  | .freeVariable name => "'" ++ name ++ "' is bound outside the global scope at the definition"
  | .shadowedAtCallSite name => "'" ++ name ++ "' is shadowed at the call site"
  | .rootShadowed name => "callee root '" ++ name ++ "' is a local binding at the call site"
  | .redeclaredParameter name => "parameter '" ++ name ++ "' is declared more than once"
  | .capturedLocal name => "local '" ++ name ++ "' is captured by a nested function"
  | .notHoistable => "call position is not hoistable"

structure CallSite where
  /-- Innermost scope around the call. -/
  scope : Nat
  /-- Statements put before the one with the call run in the same order as
  before with respect to everything that can tell the difference. -/
  hoistable : Bool
  deriving DecidableEq, Repr

structure Expansion where
  shape : ExpansionShape
  /-- Statements to put before the one with the call. -/
  prelude : List Stmt
  /-- Takes the place of the call. -/
  value : Expr
  /-- The variable that holds the value of a block. -/
  result : Option String

inductive CallOutcome where
  | expanded (expansion : Expansion)
  | kept (obstacle : Obstacle)

end StaticInliner
