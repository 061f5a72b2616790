import StaticInliner.Syntax.Tree

/-!
What expressions mean. A `Language` gives the values and says what literals,
operators, property reads and closures yield; these read the store and neither
fail nor change it. Calls, `new`, assignments and `delete` are effects: each may
change the whole store, may throw, and is recorded in a trace. Beside the store
there are private variables, which no effect can see or change. A function frame
consists of them, and so do the names that an inlining generates.
-/
namespace StaticInliner.Meaning

/-- A variable of the store. One that a function declares belongs to the scope of the
function; only the called function has `callee` variables. -/
inductive Variable where
  | global (name : String)
  | declared (scope : Nat) (name : String)
  | callee (name : String)

structure Store (Value Heap : Type) where
  read : Variable → Value
  heap : Heap

/-- What an assignment or a `delete` is applied to. -/
inductive Location (Value : Type) where
  | variable (place : Variable)
  | member (object : Value) (property : String)
  | element (object key : Value)
  | value (value : Value)

inductive Effect (Value : Type) where
  | call (self : Option Value) (fn : Value) (args : List Value)
  | construct (fn : Value) (args : List Value)
  | write (location : Location Value) (value : Value)
  | delete (location : Location Value)

/-- Values of a script language and what its operations do. -/
structure Language where
  Value : Type
  Heap : Type
  undefined : Value
  null : Value
  bool : Bool → Value
  number : Float → Value
  string : String → Value
  truthy : Value → Bool
  nullish : Value → Bool
  /-- A closure made where names reach the given variables. -/
  closure : (String → Variable) → FunctionLit → Store Value Heap → Value
  member : Value → String → Store Value Heap → Value
  element : Value → Value → Store Value Heap → Value
  unary : UnaryOp → Value → Store Value Heap → Value
  binary : BinaryOp → Value → Value → Store Value Heap → Value
  array : List Value → Store Value Heap → Value
  /-- A value, or a thrown value, and the store afterwards. -/
  perform : Effect Value → Store Value Heap → Except Value Value × Store Value Heap
  /-- Thrown by the use of a variable before its declaration. -/
  uninitialised : Value
  /-- Thrown by an assignment to a constant. -/
  constant : Value

/-- A private variable; it has no value before its declaration is reached. -/
structure Cell (Value : Type) where
  value : Option Value
  const : Bool

abbrev Locals (L : Language) := String → Option (Cell L.Value)

/-- What an effect can change, and the effects so far. -/
structure World (L : Language) where
  store : Store L.Value L.Heap
  trace : List (Effect L.Value)

structure State (L : Language) where
  locals : Locals L
  world : World L

/-- Why an evaluation has no value. -/
inductive Abort (L : Language) where
  | thrown (value : L.Value)
  /-- A loop took more rounds than it was given. -/
  | exhausted

abbrev Exec (L : Language) := EStateM (Abort L) (State L)

/-- What names that are not private and `this` stand for. -/
structure View (L : Language) where
  reach : String → Variable
  self : L.Value

variable {L : Language}

/-- The private variables with one of them set. -/
def Locals.set (locals : Locals L) (name : String) (cell : Cell L.Value) : Locals L :=
  fun other => if other = name then some cell else locals other

@[simp] theorem Locals.set_same (locals : Locals L) (name : String) (cell : Cell L.Value) :
    locals.set name cell name = some cell := by simp [Locals.set]

@[simp] theorem Locals.set_other (locals : Locals L) {name other : String} (cell : Cell L.Value)
    (h : other ≠ name) : locals.set name cell other = locals other := by simp [Locals.set, h]

namespace Exec

/-- A value that depends on the store only. -/
def look (f : Store L.Value L.Heap → L.Value) : Exec L L.Value := fun s => .ok (f s.world.store) s

def perform (effect : Effect L.Value) : Exec L L.Value := fun s =>
  let done := L.perform effect s.world.store
  let after : State L := { s with world := ⟨done.2, s.world.trace ++ [effect]⟩ }
  match done.1 with
  | .ok v => .ok v after
  | .error v => .error (.thrown v) after

end Exec

/-- What an expression refers to before its value is taken. -/
inductive Ref (Value : Type) where
  | value (value : Value)
  | variable (name : String)
  | member (object : Value) (property : String)
  | element (object key : Value)

namespace Ref

/-- What `this` is in a call of the reference. -/
def self? : Ref L.Value → Option L.Value
  | .member object _ | .element object _ => some object
  | .value _ | .variable _ => none

def get (view : View L) : Ref L.Value → Exec L L.Value
  | .value v => pure v
  | .variable name => fun s =>
    match s.locals name with
    | none => .ok (s.world.store.read (view.reach name)) s
    | some ⟨some v, _⟩ => .ok v s
    | some ⟨none, _⟩ => .error (.thrown L.uninitialised) s
  | .member object property => Exec.look (L.member object property)
  | .element object key => Exec.look (L.element object key)

/-- Assign to the reference. -/
def put (view : View L) (v : L.Value) : Ref L.Value → Exec L L.Value
  | .value w => Exec.perform (.write (.value w) v)
  | .variable name => fun s =>
    match s.locals name with
    | none => Exec.perform (.write (.variable (view.reach name)) v) s
    | some ⟨none, _⟩ => .error (.thrown L.uninitialised) s
    | some ⟨some _, true⟩ => .error (.thrown L.constant) s
    | some ⟨some _, false⟩ => .ok v { s with locals := s.locals.set name ⟨some v, false⟩ }
  | .member object property => Exec.perform (.write (.member object property) v)
  | .element object key => Exec.perform (.write (.element object key) v)

/-- A private variable cannot be deleted, which is not an error. -/
def delete (view : View L) : Ref L.Value → Exec L L.Value
  | .value w => Exec.perform (.delete (.value w))
  | .variable name => fun s =>
    match s.locals name with
    | none => Exec.perform (.delete (.variable (view.reach name))) s
    | some _ => .ok (L.bool false) s
  | .member object property => Exec.perform (.delete (.member object property))
  | .element object key => Exec.perform (.delete (.element object key))

section
variable {view : View L} {s : State L} {name : String} {v w : L.Value} {const : Bool}

@[simp] theorem get_value (v : L.Value) : (Ref.value v).get view = pure v := rfl

theorem get_store (h : s.locals name = none) :
    (Ref.variable name).get view s = .ok (s.world.store.read (view.reach name)) s := by
  simp [get, h]

theorem get_private (h : s.locals name = some ⟨some v, const⟩) :
    (Ref.variable name).get view s = .ok v s := by
  simp [get, h]

theorem get_uninitialised (h : s.locals name = some ⟨none, const⟩) :
    (Ref.variable name).get view s = .error (.thrown L.uninitialised) s := by
  simp [get, h]

theorem put_store (h : s.locals name = none) : (Ref.variable name).put view v s =
    Exec.perform (.write (.variable (view.reach name)) v) s := by
  simp [put, h]

theorem put_private (h : s.locals name = some ⟨some w, false⟩) : (Ref.variable name).put view v s =
    .ok v { s with locals := s.locals.set name ⟨some v, false⟩ } := by
  simp [put, h]

theorem put_uninitialised (h : s.locals name = some ⟨none, const⟩) :
    (Ref.variable name).put view v s = .error (.thrown L.uninitialised) s := by
  simp [put, h]

theorem put_constant (h : s.locals name = some ⟨some w, true⟩) :
    (Ref.variable name).put view v s = .error (.thrown L.constant) s := by
  simp [put, h]

theorem delete_store (h : s.locals name = none) : (Ref.variable name).delete view s =
    Exec.perform (.delete (.variable (view.reach name))) s := by
  simp [delete, h]

theorem delete_private {cell : Cell L.Value} (h : s.locals name = some cell) :
    (Ref.variable name).delete view s = .ok (L.bool false) s := by
  simp [delete, h]

end

end Ref

/-- Whether the right operand is evaluated after the left one had this value. -/
def Language.goesOn (L : Language) : LogicalOp → L.Value → Bool
  | .and, v => L.truthy v
  | .or, v => !L.truthy v
  | .nullish, v => L.nullish v

mutual

/-- Evaluate an expression up to the reference it denotes. -/
def refer (view : View L) : Expr → Exec L (Ref L.Value)
  | .undefined => pure (.value L.undefined)
  | .null => pure (.value L.null)
  | .bool b => pure (.value (L.bool b))
  | .number x => pure (.value (L.number x))
  | .string x => pure (.value (L.string x))
  | .ident name => pure (.variable name)
  | .this => pure (.value view.self)
  | .member object property => do
    let o ← refer view object >>= Ref.get view
    pure (.member o property)
  | .index object key => do
    let o ← refer view object >>= Ref.get view
    let k ← refer view key >>= Ref.get view
    pure (.element o k)
  | .call callee args => do
    let r ← refer view callee
    let f ← r.get view
    let vs ← evalAll view args
    let v ← Exec.perform (.call r.self? f vs)
    pure (.value v)
  | .new callee args => do
    let f ← refer view callee >>= Ref.get view
    let vs ← evalAll view args
    let v ← Exec.perform (.construct f vs)
    pure (.value v)
  | .assign target none value => do
    let r ← refer view target
    let v ← refer view value >>= Ref.get view
    let _ ← r.put view v
    pure (.value v)
  | .assign target (some op) value => do
    let r ← refer view target
    let old ← r.get view
    let v ← refer view value >>= Ref.get view
    let new ← Exec.look (L.binary op old v)
    let _ ← r.put view new
    pure (.value new)
  | .binary op left right => do
    let v ← refer view left >>= Ref.get view
    let w ← refer view right >>= Ref.get view
    let u ← Exec.look (L.binary op v w)
    pure (.value u)
  | .logical op left right => do
    let v ← refer view left >>= Ref.get view
    if L.goesOn op v then do
      let w ← refer view right >>= Ref.get view
      pure (.value w)
    else pure (.value v)
  | .unary .delete operand => do
    let r ← refer view operand
    let v ← r.delete view
    pure (.value v)
  | .unary op operand => do
    let v ← refer view operand >>= Ref.get view
    let u ← Exec.look (L.unary op v)
    pure (.value u)
  | .conditional condition thenExpr elseExpr => do
    let v ← refer view condition >>= Ref.get view
    if L.truthy v then do
      let w ← refer view thenExpr >>= Ref.get view
      pure (.value w)
    else do
      let w ← refer view elseExpr >>= Ref.get view
      pure (.value w)
  | .sequence items => do
    let vs ← evalAll view items
    pure (.value (vs.getLastD L.undefined))
  | .array items => do
    let vs ← evalAll view items
    let v ← Exec.look (L.array vs)
    pure (.value v)
  | .function fn => do
    let v ← Exec.look (L.closure view.reach fn)
    pure (.value v)

/-- Evaluate expressions from left to right. -/
def evalAll (view : View L) : List Expr → Exec L (List L.Value)
  | [] => pure []
  | e :: rest => do
    let v ← refer view e >>= Ref.get view
    let vs ← evalAll view rest
    pure (v :: vs)

end

/-- The value of an expression. -/
abbrev eval (view : View L) (e : Expr) : Exec L L.Value := refer view e >>= Ref.get view

/-- What an evaluation shows outside: its value or why there is none, and what
became of the store. -/
def outcome (result : EStateM.Result (Abort L) (State L) α) : Except (Abort L) α × World L :=
  match result with
  | .ok a s => (.ok a, s.world)
  | .error e s => (.error e, s.world)

end StaticInliner.Meaning
