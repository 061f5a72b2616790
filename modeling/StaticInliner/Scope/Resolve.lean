import StaticInliner.Syntax.Tree
import StaticInliner.Scope.Tree

/-!
Declaring the names of statements in a scope tree, in pre-order. Each function
literal opens a scope under the one it stands in; a literal whose id already has
a scope keeps it and is not entered. A named function expression binds its own
name inside its scope, a declaration binds it outside.
-/
namespace StaticInliner

namespace ScopeTree

def declareParams (tree : ScopeTree) (scope : Nat) (params : List String) : ScopeTree :=
  params.foldl (fun tree param => tree.declare scope param .param) tree

def declareName (tree : ScopeTree) (scope : Nat) (name : Option String) : ScopeTree :=
  match name with
  | some name => tree.declare scope name .function
  | none => tree

end ScopeTree

mutual

def Expr.declare (scope : Nat) (e : Expr) (tree : ScopeTree) : ScopeTree :=
  match e with
  | .undefined | .null | .bool _ | .number _ | .string _ | .ident _ | .this => tree
  | .member object _ => object.declare scope tree
  | .index object key => key.declare scope (object.declare scope tree)
  | .call callee args | .new callee args => Expr.declareAll scope args (callee.declare scope tree)
  | .assign target _ value => value.declare scope (target.declare scope tree)
  | .binary _ left right | .logical _ left right => right.declare scope (left.declare scope tree)
  | .unary _ operand => operand.declare scope tree
  | .conditional condition thenExpr elseExpr =>
    elseExpr.declare scope (thenExpr.declare scope (condition.declare scope tree))
  | .sequence items | .array items => Expr.declareAll scope items tree
  | .function ⟨id, name, params, body⟩ =>
    match tree.functionScope? id with
    | some _ => tree
    | none =>
      let inner := tree.size
      let opened := (tree.push scope (.function id)).declareName inner name
      Stmt.declareAll inner body (opened.declareParams inner params)

def Expr.declareAll (scope : Nat) (es : List Expr) (tree : ScopeTree) : ScopeTree :=
  match es with
  | [] => tree
  | e :: rest => Expr.declareAll scope rest (e.declare scope tree)

def Stmt.declare (scope : Nat) (s : Stmt) (tree : ScopeTree) : ScopeTree :=
  match s with
  | .var kind name none => tree.declare scope name (.ofVar kind)
  | .var kind name (some init) => init.declare scope (tree.declare scope name (.ofVar kind))
  | .function ⟨id, name, params, body⟩ =>
    let tree := tree.declareName scope name
    match tree.functionScope? id with
    | some _ => tree
    | none =>
      let inner := tree.size
      let opened := tree.push scope (.function id)
      Stmt.declareAll inner body (opened.declareParams inner params)
  | .expr value | .throw value | .ret (some value) => value.declare scope tree
  | .ret none | .breakTo _ | .continueTo _ => tree
  | .ifElse condition thenBranch none =>
    Stmt.declareAll scope thenBranch (condition.declare scope tree)
  | .ifElse condition thenBranch (some elseBranch) =>
    Stmt.declareAll scope elseBranch
      (Stmt.declareAll scope thenBranch (condition.declare scope tree))
  | .whileDo condition body => Stmt.declareAll scope body (condition.declare scope tree)
  | .block body | .labeled _ body => Stmt.declareAll scope body tree

/-- Declare statements in a scope, be it while the program is resolved or when
they are spliced into it later. -/
def Stmt.declareAll (scope : Nat) (stmts : List Stmt) (tree : ScopeTree) : ScopeTree :=
  match stmts with
  | [] => tree
  | s :: rest => Stmt.declareAll scope rest (s.declare scope tree)

end

/-- A script scope for the unit, with everything the unit declares. -/
def ScopeTree.addUnit (tree : ScopeTree) (unit : SourceUnit) : ScopeTree :=
  Stmt.declareAll tree.size unit.body (tree.push globalId (.script unit.id))

/-- The scopes of a whole program. -/
def Program.scopes (program : Program) : ScopeTree :=
  program.units.foldl ScopeTree.addUnit .initial

end StaticInliner
