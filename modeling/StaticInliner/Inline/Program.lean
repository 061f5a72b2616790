import StaticInliner.Inline.Call
import StaticInliner.Inline.Progress
import StaticInliner.Log

/-!
Expanding the calls of a program. Every unit is walked in evaluation order,
arguments before the call they belong to. Statements that an expansion needs are
put before the statement with the call, and are not visited themselves. A
statement that only reads a result variable declared just before it is dropped.

An error stops the walk: everything after it stays as it was, statements waiting
to be put before the statement at fault are lost, and what was expanded before it
is kept.
-/
namespace StaticInliner

namespace CallWalk

/-- What does not change within a unit. -/
structure Env where
  table : DefinitionTable
  unit : String

/-- What the walk carries along; `prelude` waits to be put before the current
statement. -/
structure State where
  ctx : Context
  progress : Progress
  prelude : List Stmt
  log : List LogEntry
  fault : Option InlineFault

namespace State

def setProgress (state : State) (progress : Progress) : State := { state with progress }

def impure (state : State) : State := { state with progress := state.progress.impure }

def reading (state : State) : State := { state with progress := state.progress.reading }

def stop (state : State) (fault : InlineFault) : State := { state with fault := some fault }

/-- Start a statement. -/
def begin (state : State) : State := { state with progress := .statement, prelude := [] }

/-- Account for a call that is kept. -/
def leave (state : State) (env : Env) (name : QualifiedName) (obstacle : Obstacle) : State :=
  let message := env.unit ++ ": left call to " ++ name.text ++ ": " ++ obstacle.message
  { state with
    ctx := { state.ctx with
      stats := { state.ctx.stats with skipped := state.ctx.stats.skipped + 1 } }
    log := state.log ++ [⟨.debug, .inlining, message⟩] }

end State

/-- Count an expansion. -/
def countExpansion (shape : ExpansionShape) (stats : Stats) : Stats :=
  match shape with
  | .direct => { stats with inlinedDirect := stats.inlinedDirect + 1 }
  | .block => { stats with inlinedBlock := stats.inlinedBlock + 1 }

/-- Mark the body that a scope belongs to. -/
def markChanged (ctx : Context) (scope : Nat) : ChangedBodies :=
  match ctx.scopes.get? (ctx.scopes.bodyScope scope) with
  | some changed => ctx.changes.mark changed.kind
  | none => ctx.changes

/-- Account for an expansion. -/
def State.expanded (state : State) (env : Env) (name : QualifiedName) (shape : ExpansionShape)
    (scope : Nat) (ctx : Context) : State :=
  let message := env.unit ++ ": inlined " ++ name.text ++ " (" ++ shape.text ++ ")"
  { state with
    ctx := { ctx with stats := countExpansion shape ctx.stats, changes := markChanged ctx scope }
    log := state.log ++ [⟨.debug, .inlining, message⟩] }

/-- The name of a callee with at least two segments. -/
def qualifiedCallee? (callee : Expr) : Option QualifiedName :=
  callee.qualifiedName?.filter (·.isQualified)

/-- A collected callee means the same during the whole run, so that reading it
cannot observe a side effect. -/
def isKnownCallee (env : Env) (scopes : ScopeTree) (scope : Nat) (callee : Expr) : Bool :=
  match qualifiedCallee? callee with
  | some name => env.table.contains name && !scopes.isBoundInFunction scope name.root
  | none => false

/-- Expand a call whose callee and arguments have been walked, if it can be. -/
def expandKnown (env : Env) (callee : Expr) (args : List Expr) (site : CallSite) (state : State) :
    Option Expansion × State :=
  match qualifiedCallee? callee with
  | none => (none, state)
  | some name =>
    match env.table.get? name with
    | none => (none, state)
    | some definition =>
      if state.ctx.scopes.isBoundInFunction site.scope name.root then
        (none, state.leave env name (.rootShadowed name.root))
      else
        match definition.expandCall args site state.ctx with
        | .error fault => (none, state.stop fault)
        | .ok (.kept obstacle, ctx) => (none, { state with ctx }.leave env name obstacle)
        | .ok (.expanded expansion, ctx) =>
          (some expansion, state.expanded env name expansion.shape site.scope ctx)

/-- What an expanded call has evaluated. A block runs ahead of the statement
and leaves only a read of its own result. -/
def progressAfter (scopes : ScopeTree) (scope : Nat) (before after : Progress)
    (expansion : Expansion) : Progress :=
  match expansion.shape with
  | .block => before
  | .direct =>
    match expansion.value with
    | .ident name => if scopes.isBoundInFunction scope name then after.reading else after.impure
    | e => if e.isLiteral then after else after.impure

/-- Finish a call; `before` is what had been evaluated before it. -/
def finishCall (env : Env) (scope : Nat) (before : Progress) (callee : Expr) (args : List Expr)
    (state : State) : Expr × State :=
  if state.fault.isSome then (.call callee args, state)
  else
    let tried := expandKnown env callee args ⟨scope, before.allowsBlock args⟩ state
    match tried.1 with
    | none =>
      (.call callee args, if tried.2.fault.isSome then tried.2 else tried.2.impure)
    | some expansion =>
      (expansion.value,
        { tried.2 with
          progress := progressAfter tried.2.ctx.scopes scope before tried.2.progress expansion
          prelude := tried.2.prelude ++ expansion.prelude })

/-- Restore the progress after an operand that may not be evaluated. Reads in it
count; it is impure only if it has side effects. -/
def closeBranch (before : Progress) (e : Expr) (state : State) : State :=
  state.setProgress
    ⟨before.pure && !e.hasSideEffects, before.readLocal || state.progress.readLocal⟩

/-- A statement reduced to reading a variable that the prelude declares. -/
def readsOwnResult (prelude : List Stmt) : Stmt → Bool
  | .expr (.ident read) => prelude.any fun
    | .var _ name none => name == read
    | _ => false
  | _ => false

/-- Put the prelude before a statement, unless the walk has stopped. -/
def splice (s : Stmt) (state : State) : List Stmt :=
  if state.fault.isSome then [s]
  else if readsOwnResult state.prelude s then state.prelude
  else state.prelude ++ [s]

mutual

def expr (env : Env) (scope : Nat) (e : Expr) (state : State) : Expr × State :=
  if state.fault.isSome then (e, state)
  else
    match e with
    | .undefined => (.undefined, state)
    | .null => (.null, state)
    | .bool value => (.bool value, state)
    | .number value => (.number value, state)
    | .string value => (.string value, state)
    | .this => (.this, state)
    | .ident name =>
      (.ident name,
        if state.ctx.scopes.isBoundInFunction scope name then state.reading else state.impure)
    | .member object property =>
      let o := expr env scope object state
      (.member o.1 property, o.2.impure)
    | .index object key =>
      let o := expr env scope object state
      let k := expr env scope key o.2
      (.index o.1 k.1, k.2.impure)
    | .call callee args =>
      let c :=
        if isKnownCallee env state.ctx.scopes scope callee then (callee, state)
        else expr env scope callee state
      let a := exprs env scope args c.2
      finishCall env scope state.progress c.1 a.1 a.2
    | .new callee args =>
      let c := expr env scope callee state
      let a := exprs env scope args c.2
      (.new c.1 a.1, a.2.impure)
    | .assign (.ident name) op value =>
      let v := expr env scope value state
      (.assign (.ident name) op v.1, v.2.impure)
    | .assign target op value =>
      let t := expr env scope target state
      let v := expr env scope value t.2
      (.assign t.1 op v.1, v.2.impure)
    | .binary op left right =>
      let l := expr env scope left state
      let r := expr env scope right l.2
      (.binary op l.1 r.1, r.2)
    | .logical op left right =>
      let l := expr env scope left state
      let r := expr env scope right (l.2.setProgress .conditional)
      (.logical op l.1 r.1, closeBranch l.2.progress r.1 r.2)
    | .unary op operand =>
      let o := expr env scope operand state
      (.unary op o.1, if op = .delete then o.2.impure else o.2)
    | .conditional condition thenExpr elseExpr =>
      let c := expr env scope condition state
      let t := expr env scope thenExpr (c.2.setProgress .conditional)
      let closed := closeBranch c.2.progress t.1 t.2
      let f := expr env scope elseExpr (closed.setProgress .conditional)
      (.conditional c.1 t.1 f.1, closeBranch closed.progress f.1 f.2)
    | .sequence items =>
      let i := exprs env scope items state
      (.sequence i.1, i.2)
    | .array items =>
      let i := exprs env scope items state
      (.array i.1, i.2)
    | .function ⟨id, name, params, body⟩ =>
      match state.ctx.scopes.functionScope? id with
      | none => (.function ⟨id, name, params, body⟩, state.stop (.unknownFunctionScope id))
      | some inner =>
        let b := stmts env inner body state
        (.function ⟨id, name, params, b.1⟩,
          { b.2 with progress := state.progress, prelude := state.prelude })

def exprs (env : Env) (scope : Nat) (es : List Expr) (state : State) : List Expr × State :=
  match es with
  | [] => ([], state)
  | e :: rest =>
    let first := expr env scope e state
    let others := exprs env scope rest first.2
    (first.1 :: others.1, others.2)

/-- A statement; what is to be put before it is left in the state. -/
def stmt (env : Env) (scope : Nat) (s : Stmt) (state : State) : Stmt × State :=
  match s with
  | .var kind name none => (.var kind name none, state)
  | .var kind name (some init) =>
    let i := expr env scope init state
    (.var kind name (some i.1), i.2)
  | .function ⟨id, name, params, body⟩ =>
    match state.ctx.scopes.functionScope? id with
    | none => (.function ⟨id, name, params, body⟩, state.stop (.unknownFunctionScope id))
    | some inner =>
      let b := stmts env inner body state
      (.function ⟨id, name, params, b.1⟩, { b.2 with prelude := state.prelude })
  | .expr value =>
    let v := expr env scope value state
    (.expr v.1, v.2)
  | .ret none => (.ret none, state)
  | .ret (some value) =>
    let v := expr env scope value state
    (.ret (some v.1), v.2)
  | .ifElse condition thenBranch none =>
    let c := expr env scope condition state
    let t := stmts env scope thenBranch c.2
    (.ifElse c.1 t.1 none, { t.2 with prelude := c.2.prelude })
  | .ifElse condition thenBranch (some elseBranch) =>
    let c := expr env scope condition state
    let t := stmts env scope thenBranch c.2
    let f := stmts env scope elseBranch t.2
    (.ifElse c.1 t.1 (some f.1), { f.2 with prelude := c.2.prelude })
  | .whileDo condition body =>
    let c := expr env scope condition (state.setProgress .conditional)
    let b := stmts env scope body c.2
    (.whileDo c.1 b.1, { b.2 with prelude := c.2.prelude })
  | .block body =>
    let b := stmts env scope body state
    (.block b.1, { b.2 with prelude := state.prelude })
  | .labeled label body =>
    let b := stmts env scope body state
    (.labeled label b.1, { b.2 with prelude := state.prelude })
  | .breakTo label => (.breakTo label, state)
  | .continueTo label => (.continueTo label, state)
  | .throw value =>
    let v := expr env scope value state
    (.throw v.1, v.2)

/-- A list of statements, each with its prelude before it. -/
def stmts (env : Env) (scope : Nat) (list : List Stmt) (state : State) : List Stmt × State :=
  match list with
  | [] => ([], state)
  | s :: rest =>
    if state.fault.isSome then (s :: rest, state)
    else
      let first := stmt env scope s state.begin
      let others := stmts env scope rest first.2
      (splice first.1 first.2 ++ others.1, others.2)

end

/-- Units one after another. -/
def units (table : DefinitionTable) (list : List SourceUnit) (state : State) :
    List SourceUnit × State :=
  match list with
  | [] => ([], state)
  | unit :: rest =>
    if state.fault.isSome then (unit :: rest, state)
    else
      match state.ctx.scopes.unitScope? unit.id with
      | none => (unit :: rest, state.stop (.unknownUnitScope unit.name))
      | some scope =>
        let body := stmts ⟨table, unit.name⟩ scope unit.body state
        let others := units table rest body.2
        (⟨unit.id, unit.name, body.1⟩ :: others.1, others.2)

end CallWalk

/-- A program with its calls expanded, as far as the walk came. -/
structure ExpandedProgram where
  program : Program
  ctx : Context
  log : List LogEntry
  fault : Option InlineFault

/-- Expand the calls of a program to functions in the table. -/
def Program.expandCalls (program : Program) (table : DefinitionTable) (ctx : Context) :
    ExpandedProgram :=
  let done := CallWalk.units table program.units ⟨ctx, .statement, [], [], none⟩
  ⟨⟨done.1⟩, done.2.ctx, done.2.log, done.2.fault⟩

end StaticInliner
