import StaticInliner.Syntax.Walk

/-!
Names a function body declares in its own layer. Nested function literals have
layers of their own and are not entered; blocks are, since they share the scope
of the function around them.
-/
namespace StaticInliner

/-- Names sorted by code points, without repetition. -/
def sortedNames (names : List String) : List String :=
  names.eraseDups.mergeSort (fun a b => decide (a ≤ b))

mutual

/-- Names declared by `var`, `let`, `const` or a function declaration, as often
as they are declared. -/
def Stmt.declarations : Stmt → List String
  | .var _ name _ => [name]
  | .function fn => fn.name.toList
  | .ifElse _ thenBranch none => Stmt.declarationsAll thenBranch
  | .ifElse _ thenBranch (some elseBranch) =>
    Stmt.declarationsAll thenBranch ++ Stmt.declarationsAll elseBranch
  | .whileDo _ body | .block body | .labeled _ body => Stmt.declarationsAll body
  | .expr _ | .ret _ | .breakTo _ | .continueTo _ | .throw _ => []

def Stmt.declarationsAll : List Stmt → List String
  | [] => []
  | s :: rest => s.declarations ++ Stmt.declarationsAll rest

end

/-- Parameters and declared names, in the order of first declaration. -/
def declaredNames (params : List String) (body : List Stmt) : List String :=
  (params ++ Stmt.declarationsAll body).eraseDups

/-- Entries of a list that occurred before, `seen` included. -/
def repeated (seen : List String) : List String → List String
  | [] => []
  | name :: rest =>
    if seen.contains name then name :: repeated seen rest else repeated (name :: seen) rest

/-- Parameters listed twice, then those the body declares again. -/
def FunctionLit.repeatedParams (fn : FunctionLit) : List String :=
  (repeated [] fn.params ++
    (Stmt.declarationsAll fn.body).filter (fn.params.contains ·)).eraseDups

/-- Names declared with `var` or as a function declaration. -/
def hoistedNames (body : List Stmt) : List String :=
  Stmt.foldNodes .ownLayer (fun names node =>
    match node with
    | .stmt (.var .var name _) => names ++ [name]
    | .stmt (.function fn) => names ++ fn.name.toList
    | _ => names) body []

/-- Labels a body declares, in the order of first occurrence. -/
def declaredLabels (body : List Stmt) : List String :=
  (Stmt.foldNodes .ownLayer (fun labels node =>
    match node with
    | .stmt (.labeled label _) => labels ++ [label]
    | _ => labels) body []).eraseDups

/-- How many `return` statements belong to the body itself. -/
def returnCount (body : List Stmt) : Nat :=
  Stmt.foldNodes .ownLayer (fun count node =>
    match node with
    | .stmt (.ret _) => count + 1
    | _ => count) body 0

/-- Every identifier, declared name, parameter and declared label, nested
functions included. -/
def writtenNames (body : List Stmt) : List String :=
  (Stmt.foldNodes .nested (fun names node =>
    match node with
    | .stmt (.var _ name _) | .stmt (.labeled name _) | .expr (.ident name) => name :: names
    | .stmt (.function fn) | .expr (.function fn) => fn.name.toList ++ fn.params ++ names
    | _ => names) body []).eraseDups

end StaticInliner
