import StaticInliner.Syntax.Walk

/-!
Tests on function bodies and returned expressions.
-/
namespace StaticInliner

/-- `this` of the function itself; nested functions have their own. -/
def readsThis (body : List Stmt) : Bool :=
  Stmt.existsNode .ownLayer (fun node => match node with
    | .expr .this => true
    | _ => false) body

/-- `arguments` of the function itself; nested functions have their own. -/
def readsArguments (body : List Stmt) : Bool :=
  Stmt.existsNode .ownLayer (fun node => match node with
    | .expr (.ident name) => name == "arguments"
    | _ => false) body

/-- A call of the dotted name, nested functions included. -/
def callsName (name : QualifiedName) (body : List Stmt) : Bool :=
  Stmt.existsNode .nested (fun node => match node with
    | .expr (.call callee _) => callee.qualifiedName? == some name
    | _ => false) body

/-- An identifier `name` read or written, nested functions included. -/
def mentions (name : String) (body : List Stmt) : Bool :=
  Stmt.existsNode .nested (fun node => match node with
    | .expr (.ident other) => other == name
    | _ => false) body

namespace Expr

def hasFunctionLit (e : Expr) : Bool :=
  e.foldNodes (fun found node => match node with
    | .expr (.function _) => true
    | _ => found) false

/-- An assignment, plain or compound, to one of the identifiers. -/
def assignsTo (names : List String) (e : Expr) : Bool :=
  e.foldNodes (fun found node => match node with
    | .expr (.assign (.ident name) _ _) => found || names.contains name
    | _ => found) false

/-- How often the identifier occurs. -/
def occurrences (name : String) (e : Expr) : Nat :=
  e.foldNodes (fun count node => match node with
    | .expr (.ident other) => if other == name then count + 1 else count
    | _ => count) 0

end Expr

end StaticInliner
