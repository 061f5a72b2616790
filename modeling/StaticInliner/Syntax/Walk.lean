import StaticInliner.Syntax.Tree

/-!
Pre-order traversal. A visitor sees every statement and expression before its
children, carries a state along, and decides whether the children are visited.
`search` looks for the first node that passes a test and remembers which nodes
it tested.
-/
namespace StaticInliner

inductive Node where
  | stmt (s : Stmt)
  | expr (e : Expr)

namespace Node

/-- The literal of a function expression or declaration. -/
def function? : Node → Option FunctionLit
  | .stmt (.function fn) | .expr (.function fn) => some fn
  | _ => none

end Node

/-- What a visitor decides about the children of a node. -/
inductive Descent where
  | enter | prune
  deriving DecidableEq, Repr

mutual

def Expr.walk (visit : Node → σ → Descent × σ) (e : Expr) (state : σ) : σ :=
  match visit (.expr e) state with
  | (.prune, state) => state
  | (.enter, state) =>
    match e with
    | .undefined | .null | .bool _ | .number _ | .string _ | .ident _ | .this => state
    | .member object _ => object.walk visit state
    | .index object key => key.walk visit (object.walk visit state)
    | .call callee args | .new callee args => Expr.walkAll visit args (callee.walk visit state)
    | .assign target _ value => value.walk visit (target.walk visit state)
    | .binary _ left right | .logical _ left right => right.walk visit (left.walk visit state)
    | .unary _ operand => operand.walk visit state
    | .conditional condition thenExpr elseExpr =>
      elseExpr.walk visit (thenExpr.walk visit (condition.walk visit state))
    | .sequence items | .array items => Expr.walkAll visit items state
    | .function ⟨_, _, _, body⟩ => Stmt.walkAll visit body state

def Expr.walkAll (visit : Node → σ → Descent × σ) (es : List Expr) (state : σ) : σ :=
  match es with
  | [] => state
  | e :: rest => Expr.walkAll visit rest (e.walk visit state)

def Stmt.walk (visit : Node → σ → Descent × σ) (s : Stmt) (state : σ) : σ :=
  match visit (.stmt s) state with
  | (.prune, state) => state
  | (.enter, state) =>
    match s with
    | .var _ _ none | .ret none | .breakTo _ | .continueTo _ => state
    | .var _ _ (some value) | .ret (some value) | .expr value | .throw value =>
      value.walk visit state
    | .function ⟨_, _, _, body⟩ => Stmt.walkAll visit body state
    | .ifElse condition thenBranch none =>
      Stmt.walkAll visit thenBranch (condition.walk visit state)
    | .ifElse condition thenBranch (some elseBranch) =>
      Stmt.walkAll visit elseBranch (Stmt.walkAll visit thenBranch (condition.walk visit state))
    | .whileDo condition body => Stmt.walkAll visit body (condition.walk visit state)
    | .block body | .labeled _ body => Stmt.walkAll visit body state

def Stmt.walkAll (visit : Node → σ → Descent × σ) (stmts : List Stmt) (state : σ) : σ :=
  match stmts with
  | [] => state
  | s :: rest => Stmt.walkAll visit rest (s.walk visit state)

end

/-- Whether a traversal looks inside nested function literals. -/
inductive Reach where
  | ownLayer | nested
  deriving DecidableEq, Repr

/-- A visitor enters every node but, staying in its own layer, no function. -/
def Reach.descent (reach : Reach) (node : Node) : Descent :=
  if reach = .ownLayer ∧ node.function?.isSome then .prune else .enter

/-- Result of a search: whether a node passed, and the nodes tested, the last
one first. -/
structure Search where
  found : Bool
  tested : List Node

namespace Search

def start : Search := ⟨false, []⟩

/-- Test a node unless one has passed before. -/
def visit (reach : Reach) (test : Node → Bool) (node : Node) (search : Search) :
    Descent × Search :=
  if search.found then (.prune, search)
  else if test node then (.prune, ⟨true, node :: search.tested⟩)
  else (reach.descent node, ⟨false, node :: search.tested⟩)

/-- Nodes in the order in which they were tested. -/
def order (search : Search) : List Node := search.tested.reverse

end Search

/-- Search statements for the first node that passes `test`. -/
def Stmt.search (reach : Reach) (test : Node → Bool) (stmts : List Stmt) : Search :=
  Stmt.walkAll (Search.visit reach test) stmts .start

def Stmt.existsNode (reach : Reach) (test : Node → Bool) (stmts : List Stmt) : Bool :=
  (Stmt.search reach test stmts).found

/-- Fold over all nodes within reach. -/
def Stmt.foldNodes (reach : Reach) (step : σ → Node → σ) (stmts : List Stmt) (state : σ) : σ :=
  Stmt.walkAll (fun node state => (reach.descent node, step state node)) stmts state

/-- Fold over all nodes of an expression, nested functions included. -/
def Expr.foldNodes (step : σ → Node → σ) (e : Expr) (state : σ) : σ :=
  e.walk (fun node state => (.enter, step state node)) state

/-- The greatest node id in use, nested functions included. -/
def Program.greatestNodeId? (program : Program) : Option Nat :=
  program.units.foldl (fun greatest unit =>
    Stmt.foldNodes .nested (fun greatest node =>
      match node.function?, greatest with
      | some fn, some id => some (max id fn.id)
      | some fn, none => some fn.id
      | none, greatest => greatest) unit.body greatest) none

/-- One more than the greatest node id in use. -/
def Program.firstFreeId (program : Program) : Nat :=
  match program.greatestNodeId? with
  | some id => id + 1
  | none => 0

end StaticInliner
