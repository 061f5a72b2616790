import StaticInliner.Inline.Rebind
import StaticInliner.Proofs.Meaning.Expression
import StaticInliner.Scope.Tree

/-!
What statements and calls mean. Running a statement completes normally or by a
jump, or it throws. Statements in braces open a block: its `let` and `const`
variables come into being without a value when the block is entered and give way
to the variables they hide when it is left. A call evaluates its arguments and
runs the body in a frame of its own. Loops are given a number of rounds, so that
running is total; a loop that needs more is cut off.
-/
namespace StaticInliner.Meaning

variable {L : Language}

/-- How a statement ends. -/
inductive Completion (Value : Type) where
  | normal
  | breaks (label : Option String)
  | continues (label : Option String)
  | returns (value : Value)

/-- A variable that belongs to the block in which the statement stands, and
whether it is constant. -/
def lexical? : Stmt → Option (String × Bool)
  | .var .letVar name _ => some (name, false)
  | .var .constVar name _ => some (name, true)
  | _ => none

/-- The `let` and `const` variables of a block. -/
def lexicals (body : List Stmt) : List (String × Bool) := body.filterMap lexical?

/-- The names of a block's `let` and `const` variables. -/
def lexicalNames (body : List Stmt) : List String := (lexicals body).map (·.1)

/-- The declarations of a name in a block: whether each makes it constant. -/
def declarationsOf (body : List Stmt) (name : String) : List Bool :=
  (lexicals body).filterMap fun declared => if declared.1 = name then some declared.2 else none

/-- The state of a block's variable on entry; `none` for any other name. A name
declared twice is constant if both declarations are. -/
def entryCell (body : List Stmt) (name : String) : Option (Cell L.Value) :=
  match declarationsOf body name with
  | [] => none
  | declarations => some ⟨none, declarations.all id⟩

namespace State

/-- The state in a block that has just been entered. -/
def enter (s : State L) (body : List Stmt) : State L :=
  { s with locals := fun name => (entryCell body name).or (s.locals name) }

/-- The state after a block, which was entered in the state `outer`. -/
def leave (s : State L) (body : List Stmt) (outer : State L) : State L :=
  { s with locals := fun name =>
      if declarationsOf body name = [] then s.locals name else outer.locals name }

end State

namespace Completion

/-- What a loop with the labels does after a round that ended so: it ends in its
turn, or goes on. -/
def endsLoop? (labels : List String) : Completion Value → Option (Completion Value)
  | .normal | .continues none => none
  | .continues (some label) => if label ∈ labels then none else some (.continues (some label))
  | .breaks none => some .normal
  | .breaks (some label) => some (.breaks (some label))
  | .returns value => some (.returns value)

/-- A labelled statement ends normally if it was left by a jump to its label. -/
def leave (label : String) : Completion Value → Completion Value
  | .breaks (some other) => if other = label then .normal else .breaks (some other)
  | .continues (some other) => if other = label then .normal else .continues (some other)
  | completion => completion

end Completion

namespace Exec

/-- Run a block with its own variables. -/
def inBlock (body : List Stmt) (run : Exec L α) : Exec L α := fun s =>
  match run (s.enter body) with
  | .ok a t => .ok a (t.leave body s)
  | .error e t => .error e t

/-- Give a block's variable its first value. -/
def initialise (name : String) (v : L.Value) : Exec L Unit := fun s =>
  .ok () { s with locals := s.locals.set name ⟨some v, (s.locals name).any (·.const)⟩ }

/-- Declare a block's variable without a value. It is `undefined`, unless the
block has declared it before. -/
def declare (name : String) : Exec L Unit := fun s =>
  if (s.locals name).any (·.value.isSome) then .ok () s else initialise name L.undefined s

/-- Run a loop that carries the labels, for at most so many rounds. -/
def loop (labels : List String) (condition : Exec L L.Value)
    (body : Exec L (Completion L.Value)) : Nat → Exec L (Completion L.Value)
  | 0 => EStateM.throw .exhausted
  | rounds + 1 => do
    let v ← condition
    if L.truthy v then do
      let completion ← body
      match completion.endsLoop? labels with
      | none => loop labels condition body rounds
      | some completion => pure completion
    else pure .normal

end Exec

mutual

/-- Run a statement that carries the labels. A function declaration takes effect
on entry to its function, not where it stands. -/
def exec (view : View L) (rounds : Nat) (labels : List String) :
    Stmt → Exec L (Completion L.Value)
  | .var .var _ none | .function _ => pure .normal
  | .var .var name (some init) => do
    let v ← eval view init
    let _ ← (Ref.variable name).put view v
    pure .normal
  | .var _ name none => do
    Exec.declare name
    pure .normal
  | .var _ name (some init) => do
    let v ← eval view init
    Exec.initialise name v
    pure .normal
  | .expr value => do
    let _ ← eval view value
    pure .normal
  | .ret none => pure (.returns L.undefined)
  | .ret (some value) => do
    let v ← eval view value
    pure (.returns v)
  | .ifElse condition thenBranch none => do
    let v ← eval view condition
    if L.truthy v then Exec.inBlock thenBranch (execAll view rounds [] thenBranch)
    else pure .normal
  | .ifElse condition thenBranch (some elseBranch) => do
    let v ← eval view condition
    if L.truthy v then Exec.inBlock thenBranch (execAll view rounds [] thenBranch)
    else Exec.inBlock elseBranch (execAll view rounds [] elseBranch)
  | .whileDo condition body =>
    Exec.loop labels (eval view condition) (Exec.inBlock body (execAll view rounds [] body)) rounds
  | .block body => Exec.inBlock body (execAll view rounds [] body)
  | .labeled label body => do
    let completion ← Exec.inBlock body (execAll view rounds (label :: labels) body)
    pure (completion.leave label)
  | .breakTo label => pure (.breaks label)
  | .continueTo label => pure (.continues label)
  | .throw value => do
    let v ← eval view value
    EStateM.throw (.thrown v)

/-- Run statements until one does not end normally. -/
def execAll (view : View L) (rounds : Nat) (labels : List String) :
    List Stmt → Exec L (Completion L.Value)
  | [] => pure .normal
  | s :: rest => do
    let completion ← exec view rounds labels s
    match completion with
    | .normal => execAll view rounds labels rest
    | completion => pure completion

end

/-- Parameters with their values, the last one first. Missing arguments are
`undefined`, excess ones are dropped. -/
def bindArgs : List String → List L.Value → List (String × L.Value) → List (String × L.Value)
  | [], _, bound => bound
  | param :: params, [], bound => bindArgs params [] ((param, L.undefined) :: bound)
  | param :: params, v :: vs, bound => bindArgs params vs ((param, v) :: bound)

/-- The private variables of a function that starts: parameters, then `var`
variables, which are `undefined`, then what the body as a block declares. -/
def frame (fn : FunctionLit) (args : List L.Value) : Locals L := fun name =>
  match (bindArgs fn.params args []).lookup name with
  | some v => some ⟨some v, false⟩
  | none =>
    if (varNames fn.body).contains name then some ⟨some L.undefined, false⟩
    else entryCell fn.body name

/-- The variable that a name stands for in a scope: that of the function which binds it,
or else a global one. -/
def resolve (scopes : ScopeTree) (scope : Nat) (name : String) : Variable :=
  match scopes.lookup scope name with
  | some found => if found.isFunction then .declared found.id name else .global name
  | none => .global name

theorem resolve_eq_global {scopes : ScopeTree} {scope : Nat} {name : String}
    (h : scopes.isBoundInFunction scope name = false) :
    resolve scopes scope name = .global name := by
  unfold resolve ScopeTree.isBoundInFunction at *
  cases hfound : scopes.lookup scope name with
  | none => rfl
  | some found =>
    rw [hfound] at h
    exact if_neg (Bool.eq_false_iff.mp h)

/-- How code in a scope sees names. -/
def scopeView (scopes : ScopeTree) (scope : Nat) (self : L.Value) : View L :=
  ⟨resolve scopes scope, self⟩

/-- How a called function sees names that are not private. The arguments object and the
function under its own name are its own; all others are resolved where the function is
defined, wherever it is called. -/
def calleeView (scopes : ScopeTree) (fn : FunctionLit) (self : L.Value) : View L :=
  ⟨fun name =>
    if name = "arguments" ∨ fn.name = some name then .callee name
    else
      match scopes.functionScope? fn.id with
      | some scope => resolve scopes scope name
      | none => .global name,
    self⟩

/-- The value of a body that ended. -/
def Completion.result : Completion L.Value → L.Value
  | .returns v => v
  | _ => L.undefined

/-- Run a function in a frame of its own and drop the frame. -/
def invoke (scopes : ScopeTree) (rounds : Nat) (fn : FunctionLit) (self : L.Value)
    (args : List L.Value) : Exec L L.Value := fun s =>
  match execAll (calleeView scopes fn self) rounds [] fn.body
      { s with locals := frame fn args } with
  | .ok completion t => .ok completion.result { t with locals := s.locals }
  | .error e t => .error e t

/-- Evaluate the arguments from left to right, then run the function. -/
def call (view : View L) (scopes : ScopeTree) (rounds : Nat) (fn : FunctionLit) (self : L.Value)
    (args : List Expr) : Exec L L.Value := do
  let vs ← evalAll view args
  invoke scopes rounds fn self vs

end StaticInliner.Meaning
