import StaticInliner.Syntax.Operator

/-!
Lexical scopes of a program: one global scope, one script scope for each source
unit and one scope for each function literal. Scopes are numbered in the order
in which they were opened, the global scope being number zero. Blocks open no
scope; what they declare belongs to the enclosing function, which can only make
more names count as bound.
-/
namespace StaticInliner

/-- What opened a scope. -/
inductive ScopeKind where
  | global
  | script (unit : Nat)
  | function (node : Nat)
  deriving DecidableEq, Repr

/-- How a name was introduced. -/
inductive BindingKind where
  | param | var | letVar | constVar | function
  deriving DecidableEq, Repr

namespace BindingKind

def ofVar : VarKind → BindingKind
  | .var => .var
  | .letVar => .letVar
  | .constVar => .constVar

def all : List BindingKind := [.param, .var, .letVar, .constVar, .function]

def text : BindingKind → String
  | .param => "param"
  | .var => "var"
  | .letVar => "let"
  | .constVar => "const"
  | .function => "function"

end BindingKind

structure Scope where
  id : Nat
  kind : ScopeKind
  /-- Absent for the global scope only. -/
  parent : Option Nat
  bindings : List (String × BindingKind)
  deriving DecidableEq, Repr

namespace Scope

def binds (scope : Scope) (name : String) : Bool := scope.bindings.any (·.1 == name)

/-- Bind a name; one that is bound keeps its kind. -/
def bind (scope : Scope) (name : String) (kind : BindingKind) : Scope :=
  if scope.binds name then scope
  else { scope with bindings := scope.bindings ++ [(name, kind)] }

def isFunction (scope : Scope) : Bool :=
  match scope.kind with
  | .function _ => true
  | .global | .script _ => false

end Scope

/-- All scopes by number, and which of them belongs to a function literal or to
a source unit. -/
structure ScopeTree where
  scopes : List Scope
  byFunction : List (Nat × Nat)
  byUnit : List (Nat × Nat)
  deriving DecidableEq, Repr

namespace ScopeTree

def globalId : Nat := 0

/-- Only the global scope. -/
def initial : ScopeTree := ⟨[⟨globalId, .global, none, []⟩], [], []⟩

def size (tree : ScopeTree) : Nat := tree.scopes.length

def get? (tree : ScopeTree) (id : Nat) : Option Scope := tree.scopes[id]?

def parent? (tree : ScopeTree) (id : Nat) : Option Nat := (tree.get? id).bind (·.parent)

/-- The scope of a function literal. -/
def functionScope? (tree : ScopeTree) (node : Nat) : Option Nat := tree.byFunction.lookup node

/-- The script scope of a source unit. -/
def unitScope? (tree : ScopeTree) (unit : Nat) : Option Nat := tree.byUnit.lookup unit

/-- Open a scope under `parent`. Its number is the previous size. -/
def push (tree : ScopeTree) (parent : Nat) (kind : ScopeKind) : ScopeTree :=
  let id := tree.size
  { scopes := tree.scopes ++ [⟨id, kind, some parent, []⟩]
    byFunction := match kind with
      | .function node => (node, id) :: tree.byFunction
      | .global | .script _ => tree.byFunction
    byUnit := match kind with
      | .script unit => (unit, id) :: tree.byUnit
      | .global | .function _ => tree.byUnit }

/-- Bind a name in a scope, if there is such a scope. -/
def declare (tree : ScopeTree) (id : Nat) (name : String) (kind : BindingKind) : ScopeTree :=
  { tree with scopes := tree.scopes.modify id (·.bind name kind) }

/-- Follow parents for at most `limit` scopes. -/
def chain (tree : ScopeTree) : Nat → Option Nat → List Scope
  | 0, _ | _, none => []
  | limit + 1, some id =>
    match tree.get? id with
    | none => []
    | some scope => scope :: tree.chain limit scope.parent

/-- A scope, its parent, and so on. Parents are opened before their children,
so no chain is longer than the tree. -/
def ancestors (tree : ScopeTree) (id : Nat) : List Scope := tree.chain tree.size (some id)

/-- The nearest scope that binds a name. -/
def lookup (tree : ScopeTree) (id : Nat) (name : String) : Option Scope :=
  (tree.ancestors id).find? (·.binds name)

def isBound (tree : ScopeTree) (id : Nat) (name : String) : Bool := (tree.lookup id name).isSome

/-- Bound by a function rather than at the top level of a unit. -/
def isBoundInFunction (tree : ScopeTree) (id : Nat) (name : String) : Bool :=
  (tree.lookup id name).any (·.isFunction)

/-- The nearest scope that is not the global one. -/
def bodyScope (tree : ScopeTree) (id : Nat) : Nat :=
  match (tree.ancestors id).find? (·.kind != .global) with
  | some scope => scope.id
  | none => id

end ScopeTree

end StaticInliner
