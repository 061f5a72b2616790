import StaticInliner.Syntax.Id
import StaticInliner.Syntax.Operator
import StaticInliner.QualifiedName

/-!
Syntax trees of a whole program: an ordered list of source units, each owning
its statements. Function literals carry a node id; a program that passes
validation uses each id once.
-/
namespace StaticInliner

mutual

inductive Expr where
  | undefined
  | null
  | bool (value : Bool)
  | number (value : Float)
  | string (value : String)
  | ident (name : String)
  | this
  | member (object : Expr) (property : String)
  | index (object key : Expr)
  | call (callee : Expr) (args : List Expr)
  | new (callee : Expr) (args : List Expr)
  /-- `target = value`, or `target op= value` when an operator is given. -/
  | assign (target : Expr) (op : Option BinaryOp) (value : Expr)
  | binary (op : BinaryOp) (left right : Expr)
  | logical (op : LogicalOp) (left right : Expr)
  | unary (op : UnaryOp) (operand : Expr)
  | conditional (condition thenExpr elseExpr : Expr)
  | sequence (items : List Expr)
  | array (items : List Expr)
  | function (fn : FunctionLit)

inductive Stmt where
  | var (kind : VarKind) (name : String) (init : Option Expr)
  /-- A function declaration; its name is bound in the enclosing scope. -/
  | function (fn : FunctionLit)
  | expr (value : Expr)
  | ret (value : Option Expr)
  | ifElse (condition : Expr) (thenBranch : List Stmt) (elseBranch : Option (List Stmt))
  | whileDo (condition : Expr) (body : List Stmt)
  | block (body : List Stmt)
  | labeled (label : String) (body : List Stmt)
  | breakTo (label : Option String)
  | continueTo (label : Option String)
  | throw (value : Expr)

structure FunctionLit where
  id : Nat
  name : Option String
  params : List String
  body : List Stmt

end

instance : Inhabited Expr := ⟨.undefined⟩
instance : Inhabited Stmt := ⟨.block []⟩

structure SourceUnit where
  id : Nat
  name : String
  body : List Stmt

structure Program where
  units : List SourceUnit

namespace Expr

/-- The dotted name an expression spells, if it is an identifier followed by
property accesses. -/
def qualifiedName? : Expr → Option QualifiedName
  | .ident name => QualifiedName.ofSegments? [name]
  | .member object property => object.qualifiedName?.bind (·.child? property)
  | _ => none

/-- A constant: evaluating it twice, or not at all, changes nothing. -/
def isLiteral : Expr → Bool
  | .undefined | .null | .bool _ | .number _ | .string _ => true
  | _ => false

/-- A constant or an identifier. -/
def isAtomic : Expr → Bool
  | .ident _ => true
  | e => e.isLiteral

/-- Direct subexpressions in evaluation order. A function literal has none. -/
def children : Expr → List Expr
  | .undefined | .null | .bool _ | .number _ | .string _ | .ident _ | .this | .function _ => []
  | .member object _ => [object]
  | .index object key => [object, key]
  | .call callee args | .new callee args => callee :: args
  | .assign target _ value => [target, value]
  | .binary _ left right | .logical _ left right => [left, right]
  | .unary _ operand => [operand]
  | .conditional condition thenExpr elseExpr => [condition, thenExpr, elseExpr]
  | .sequence items | .array items => items

mutual

/-- Evaluating the expression may change some variable or object. -/
def hasSideEffects : Expr → Bool
  | .undefined | .null | .bool _ | .number _ | .string _ | .ident _ | .this | .function _ => false
  | .call _ _ | .new _ _ | .assign _ _ _ | .unary .delete _ => true
  | .member object _ => object.hasSideEffects
  | .index object key => object.hasSideEffects || key.hasSideEffects
  | .binary _ left right | .logical _ left right => left.hasSideEffects || right.hasSideEffects
  | .unary _ operand => operand.hasSideEffects
  | .conditional condition thenExpr elseExpr =>
    condition.hasSideEffects || thenExpr.hasSideEffects || elseExpr.hasSideEffects
  | .sequence items | .array items => anySideEffects items

/-- Some expression of the list has side effects. -/
def anySideEffects : List Expr → Bool
  | [] => false
  | e :: rest => e.hasSideEffects || anySideEffects rest

end

/-- The member chain a dotted path spells. -/
def ofPath (path : String) : Expr :=
  match pathPieces path with
  | [] => .ident ""
  | root :: properties => properties.foldl .member (.ident root)

/-- A call through a dotted path. -/
def callPath (path : String) (args : List Expr) : Expr := .call (ofPath path) args

end Expr

/-- The statement `name = value;`. -/
def Stmt.assign (name : String) (value : Expr) : Stmt := .expr (.assign (.ident name) none value)

namespace FunctionLit

/-- An unnamed literal with the next id of a counter. -/
def build (next : Nat) (params : List String) (body : List Stmt) : FunctionLit × Nat :=
  (⟨next, none, params, body⟩, next + 1)

/-- The returned expression of a body that is a single `return` of a value. -/
def soleReturn? (fn : FunctionLit) : Option Expr :=
  match fn.body with
  | [.ret (some value)] => some value
  | _ => none

end FunctionLit

namespace Program

def empty : Program := ⟨[]⟩

/-- The greatest of the ids that follow those of the units. -/
def nextUnitId (program : Program) : Nat :=
  program.units.foldl (fun next unit => max next (IdCounter.ofNat (unit.id + 1)).draw.1) 0

def addUnit (program : Program) (name : String) (body : List Stmt) : Program :=
  ⟨program.units ++ [⟨program.nextUnitId, name, body⟩]⟩

def unit? (program : Program) (id : Nat) : Option SourceUnit :=
  program.units.find? (·.id == id)

def unitNamed? (program : Program) (name : String) : Option SourceUnit :=
  program.units.find? (·.name == name)

end Program

end StaticInliner
