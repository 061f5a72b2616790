import StaticInliner.Analysis.Body
import StaticInliner.Inline.Context
import StaticInliner.Inline.Outcome

/-!
Direct substitution. A function whose body is at most one `return` becomes the
returned expression with its parameters replaced. An argument takes the place of
its parameter where it may be evaluated later and any number of times; otherwise
it is first assigned to a temporary, which a `var` ahead of the statement
declares. Arguments of unused parameters and excess arguments are kept for their
side effects only.
-/
namespace StaticInliner

namespace FunctionLit

/-- What a body of at most one `return` yields. -/
def returned? (fn : FunctionLit) : Option Expr :=
  match fn.body with
  | [] | [.ret none] => some .undefined
  | [.ret (some value)] => some value
  | _ => none

/-- The expression of a direct substitution: without function literals, in which
names would have to be renamed, and without assignments to parameters. -/
def substitutable? (fn : FunctionLit) : Option Expr :=
  fn.returned?.filter fun e => !e.hasFunctionLit && !e.assignsTo fn.params

end FunctionLit

/-- Scan of an expression in evaluation order: whether a side effect has been
passed, and the parameters read after one. -/
structure LateReads where
  effectSeen : Bool := false
  late : List String := []
  deriving DecidableEq, Repr

mutual

def Expr.lateReads (params : List String) (e : Expr) (scan : LateReads) : LateReads :=
  match e with
  | .ident name =>
    if scan.effectSeen && params.contains name then { scan with late := name :: scan.late }
    else scan
  | .undefined | .null | .bool _ | .number _ | .string _ | .this | .function _ => scan
  | .call callee args | .new callee args =>
    { Expr.lateReadsAll params args (callee.lateReads params scan) with effectSeen := true }
  | .assign (.ident _) _ value => { value.lateReads params scan with effectSeen := true }
  | .assign target _ value =>
    { value.lateReads params (target.lateReads params scan) with effectSeen := true }
  | .unary .delete operand => { operand.lateReads params scan with effectSeen := true }
  | .unary _ operand => operand.lateReads params scan
  | .member object _ => object.lateReads params scan
  | .index object key => key.lateReads params (object.lateReads params scan)
  | .binary _ left right | .logical _ left right =>
    right.lateReads params (left.lateReads params scan)
  | .conditional condition thenExpr elseExpr =>
    elseExpr.lateReads params (thenExpr.lateReads params (condition.lateReads params scan))
  | .sequence items | .array items => Expr.lateReadsAll params items scan

def Expr.lateReadsAll (params : List String) (es : List Expr) (scan : LateReads) : LateReads :=
  match es with
  | [] => scan
  | e :: rest => Expr.lateReadsAll params rest (e.lateReads params scan)

end

theorem Expr.lateReads_assign {params : List String} {target value : Expr} {op : Option BinaryOp}
    {scan : LateReads} (h : ∀ name, target ≠ .ident name) :
    (Expr.assign target op value).lateReads params scan =
      { value.lateReads params (target.lateReads params scan) with effectSeen := true } := by
  rw [Expr.lateReads]
  exact h

/-- What stands for each parameter; the first entry of a name counts. -/
abbrev Bindings := List (String × Expr)

mutual

/-- Replace bound identifiers. Function literals are not entered. -/
def Expr.substitute (bindings : Bindings) : Expr → Expr
  | .ident name => (bindings.lookup name).getD (.ident name)
  | .member object property => .member (object.substitute bindings) property
  | .index object key => .index (object.substitute bindings) (key.substitute bindings)
  | .call callee args => .call (callee.substitute bindings) (Expr.substituteAll bindings args)
  | .new callee args => .new (callee.substitute bindings) (Expr.substituteAll bindings args)
  | .assign target op value => .assign (target.substitute bindings) op (value.substitute bindings)
  | .binary op left right => .binary op (left.substitute bindings) (right.substitute bindings)
  | .logical op left right => .logical op (left.substitute bindings) (right.substitute bindings)
  | .unary op operand => .unary op (operand.substitute bindings)
  | .conditional condition thenExpr elseExpr =>
    .conditional (condition.substitute bindings) (thenExpr.substitute bindings)
      (elseExpr.substitute bindings)
  | .sequence items => .sequence (Expr.substituteAll bindings items)
  | .array items => .array (Expr.substituteAll bindings items)
  | .undefined => .undefined
  | .null => .null
  | .bool value => .bool value
  | .number value => .number value
  | .string value => .string value
  | .this => .this
  | .function fn => .function fn

def Expr.substituteAll (bindings : Bindings) : List Expr → List Expr
  | [] => []
  | e :: rest => e.substitute bindings :: Expr.substituteAll bindings rest

end

namespace Direct

/-- A substitution in the making: declarations of temporaries, expressions to
evaluate first, and what stands for the parameters so far. -/
structure Build where
  prelude : List Stmt
  sequence : List Expr
  bindings : Bindings
  ctx : Context

/-- The returned expression and what is known of it. -/
structure Target where
  expr : Expr
  /-- Parameters read after a side effect. -/
  late : List String
  scope : Nat

/-- The argument may stand wherever its parameter is read. -/
def Target.mayDuplicate (target : Target) (param : String) (arg : Expr) (later : List Expr) :
    Bool :=
  match arg with
  | .ident _ => !Expr.anySideEffects later && !target.late.contains param
  | _ => arg.isLiteral

/-- Bind one parameter to its argument; `later` are the arguments after it. -/
def bindParam (target : Target) (param : String) (arg : Expr) (later : List Expr)
    (build : Build) : Build :=
  if target.expr.occurrences param = 0 then
    if arg.hasSideEffects then { build with sequence := build.sequence ++ [arg] } else build
  else if target.mayDuplicate param arg later then
    { build with bindings := (param, arg) :: build.bindings }
  else
    let temp := build.ctx.freshName param target.scope
    { prelude := build.prelude ++ [.var .var temp.1 none]
      sequence := build.sequence ++ [.assign (.ident temp.1) none arg]
      bindings := (param, .ident temp.1) :: build.bindings
      ctx := temp.2 }

/-- Bind all parameters, missing arguments being `undefined`. -/
def bindParams (target : Target) : List String → List Expr → Build → Build
  | [], extras, build =>
    { build with sequence := build.sequence ++ extras.filter (·.hasSideEffects) }
  | param :: params, [], build =>
    bindParams target params [] (bindParam target param .undefined [] build)
  | param :: params, arg :: args, build =>
    bindParams target params args (bindParam target param arg args build)

/-- The build with what is left of the arguments, kept for their side effects. -/
def Build.withExcess (build : Build) (extras : List Expr) : Build :=
  { build with sequence := build.sequence ++ extras.filter (·.hasSideEffects) }

/-- Invariants of binding: what every step keeps up for the parameters and arguments that are
left holds when all parameters are bound, and the excess arguments follow. -/
theorem bindParams_run (target : Target) (P : List String → List Expr → Build → Prop)
    (step : ∀ param params args build, P (param :: params) args build →
      P params args.tail (bindParam target param (args.headD .undefined) args.tail build))
    (params : List String) (args : List Expr) (build : Build) (h : P params args build) :
    ∃ extras last, P [] extras last ∧
      bindParams target params args build = last.withExcess extras := by
  induction params generalizing args build with
  | nil => exact ⟨args, build, h, rfl⟩
  | cons param params ih =>
    cases args with
    | nil => exact ih [] _ (step param params [] build h)
    | cons arg args => exact ih args _ (step param params (arg :: args) build h)

/-- Invariants that ask something of the arguments, which `undefined` fulfils. -/
theorem bindParams_keeps (target : Target) {P : Build → Prop} {Q : Expr → Prop}
    (missing : Q .undefined)
    (step : ∀ param arg later build, Q arg → P build → P (bindParam target param arg later build))
    (excess : ∀ extras build, (∀ arg ∈ extras, Q arg) → P build → P (build.withExcess extras))
    (params : List String) {args : List Expr} (hargs : ∀ arg ∈ args, Q arg) {build : Build}
    (h : P build) : P (bindParams target params args build) := by
  obtain ⟨extras, last, ⟨hlast, hextras⟩, hdone⟩ := bindParams_run target
    (fun _ args build => P build ∧ ∀ arg ∈ args, Q arg) (fun param _ args build ⟨h, hargs⟩ => by
      cases args with
      | nil => exact ⟨step param .undefined [] build missing h, hargs⟩
      | cons arg args =>
        obtain ⟨hfirst, hrest⟩ := List.forall_mem_cons.mp hargs
        exact ⟨step param arg args build hfirst h, hrest⟩)
    params args build ⟨h, hargs⟩
  rw [hdone]
  exact excess extras last hextras hlast

/-- Substitute a call of `fn`, which yields `expr`. -/
def inline (fn : FunctionLit) (expr : Expr) (args : List Expr) (scope : Nat) (ctx : Context) :
    Expansion × Context :=
  let target : Target := ⟨expr, (expr.lateReads fn.params {}).late, scope⟩
  let build := bindParams target fn.params args ⟨[], [], [], ctx⟩
  let value := expr.substitute build.bindings
  let replacement := if build.sequence.isEmpty then value else .sequence (build.sequence ++ [value])
  (⟨.direct, build.prelude, replacement, none⟩, build.ctx)

end Direct

end StaticInliner
