import StaticInliner.Analysis.Declared

/-!
Free variables of function literals: identifiers that neither the function nor
any function nested in it binds. `bound` collects the names of the functions
around an occurrence. A function expression binds its own name inside itself, a
declaration does not.
-/
namespace StaticInliner

mutual

/-- Identifiers that are not bound, in order of occurrence. -/
def Expr.freeNames (bound : List String) : Expr → List String
  | .ident name => if bound.contains name then [] else [name]
  | .undefined | .null | .bool _ | .number _ | .string _ | .this => []
  | .member object _ => object.freeNames bound
  | .index object key => object.freeNames bound ++ key.freeNames bound
  | .call callee args | .new callee args => callee.freeNames bound ++ Expr.freeNamesAll bound args
  | .assign target _ value => target.freeNames bound ++ value.freeNames bound
  | .binary _ left right | .logical _ left right => left.freeNames bound ++ right.freeNames bound
  | .unary _ operand => operand.freeNames bound
  | .conditional condition thenExpr elseExpr =>
    condition.freeNames bound ++ thenExpr.freeNames bound ++ elseExpr.freeNames bound
  | .sequence items | .array items => Expr.freeNamesAll bound items
  | .function ⟨_, name, params, body⟩ =>
    Stmt.freeNamesAll (name.toList ++ declaredNames params body ++ bound) body

def Expr.freeNamesAll (bound : List String) : List Expr → List String
  | [] => []
  | e :: rest => e.freeNames bound ++ Expr.freeNamesAll bound rest

def Stmt.freeNames (bound : List String) : Stmt → List String
  | .var _ _ none | .ret none | .breakTo _ | .continueTo _ => []
  | .var _ _ (some value) | .ret (some value) | .expr value | .throw value => value.freeNames bound
  | .function ⟨_, _, params, body⟩ =>
    Stmt.freeNamesAll (declaredNames params body ++ bound) body
  | .ifElse condition thenBranch none =>
    condition.freeNames bound ++ Stmt.freeNamesAll bound thenBranch
  | .ifElse condition thenBranch (some elseBranch) =>
    condition.freeNames bound ++ Stmt.freeNamesAll bound thenBranch ++
      Stmt.freeNamesAll bound elseBranch
  | .whileDo condition body => condition.freeNames bound ++ Stmt.freeNamesAll bound body
  | .block body | .labeled _ body => Stmt.freeNamesAll bound body

def Stmt.freeNamesAll (bound : List String) : List Stmt → List String
  | [] => []
  | s :: rest => s.freeNames bound ++ Stmt.freeNamesAll bound rest

end

/-- Free variables of a literal taken as a function expression, sorted. -/
def FunctionLit.freeVariables (fn : FunctionLit) : List String :=
  sortedNames (Expr.freeNames [] (.function fn))

/-- Free variables of the function literals nested in a body, sorted. -/
def capturedNames (body : List Stmt) : List String :=
  sortedNames <| Stmt.foldNodes .ownLayer (fun names node =>
    match node.function? with
    | some fn => names ++ fn.freeVariables
    | none => names) body []

end StaticInliner
