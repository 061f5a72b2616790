import StaticInliner.Analysis.Body
import StaticInliner.Analysis.Declared

/-!
Turning the `var` declarations of a body into `let`, so that every run of a
block starts them at `undefined`. A name declared once, at the top level, and
not mentioned up to its own declaration becomes `let` in place. Every other name
is declared by a `let` ahead of the body, and its declarations become
assignments.
-/
namespace StaticInliner

/-- Names declared with `var`, as often as they are declared. -/
def varNames (body : List Stmt) : List String :=
  (Stmt.foldNodes .ownLayer (fun names node =>
    match node with
    | .stmt (.var .var name _) => name :: names
    | _ => names) body []).reverse

def Stmt.declaresVar (name : String) : Stmt → Bool
  | .var .var other _ => other == name
  | _ => false

/-- The statements up to and including the first that declares `name` with
`var`, if there is one. -/
def upToDeclaration? (name : String) : List Stmt → Option (List Stmt)
  | [] => none
  | s :: rest => if s.declaresVar name then some [s] else (upToDeclaration? name rest).map (s :: ·)

/-- The only declaration stands at the top level, and nothing before it or in
its own initialiser mentions the name. -/
def rebindsInPlace (body : List Stmt) (name : String) : Bool :=
  match upToDeclaration? name body with
  | some before => (varNames body).count name == 1 && !mentions name before
  | none => false

mutual

/-- `var x = e` becomes `x = e` and `var x` vanishes, for the given names. -/
def Stmt.demote (names : List String) : Stmt → List Stmt
  | .var .var name none => if names.contains name then [] else [.var .var name none]
  | .var .var name (some init) =>
    if names.contains name then [.assign name init] else [.var .var name (some init)]
  | .ifElse condition thenBranch none =>
    [.ifElse condition (Stmt.demoteAll names thenBranch) none]
  | .ifElse condition thenBranch (some elseBranch) =>
    [.ifElse condition (Stmt.demoteAll names thenBranch) (some (Stmt.demoteAll names elseBranch))]
  | .whileDo condition body => [.whileDo condition (Stmt.demoteAll names body)]
  | .block body => [.block (Stmt.demoteAll names body)]
  | .labeled label body => [.labeled label (Stmt.demoteAll names body)]
  | s => [s]

def Stmt.demoteAll (names : List String) : List Stmt → List Stmt
  | [] => []
  | s :: rest => s.demote names ++ Stmt.demoteAll names rest

end

/-- A top-level `var` of one of the names becomes `let`. -/
def Stmt.promote (names : List String) : Stmt → Stmt
  | .var .var name init => .var (if names.contains name then .letVar else .var) name init
  | s => s

/-- Declarations for the top of a block, and the body without `var`. -/
structure Rebound where
  declarations : List Stmt
  body : List Stmt

def rebind (body : List Stmt) : Rebound :=
  let names := (varNames body).eraseDups
  let hoisted := names.filter (!rebindsInPlace body ·)
  let inPlace := names.filter (rebindsInPlace body ·)
  { declarations := hoisted.map (.var .letVar · none)
    body := Stmt.demoteAll hoisted (body.map (·.promote inPlace)) }

end StaticInliner
