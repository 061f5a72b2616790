import StaticInliner.Proofs.Places
import StaticInliner.Run

/-!
The inlinings of a walk, in order. Each is recorded with the spot of the call, so that
the whole program just before and just after it can be read off, and with the contexts
before and after. The record follows the walk and does not influence it.
-/
namespace StaticInliner

/-- A call that was expanded. -/
structure Inlining where
  table : DefinitionTable
  spot : Spot
  /-- Statements waiting to be put before the one with the call. -/
  waiting : List Stmt
  callee : Expr
  args : List Expr
  site : CallSite
  definition : Definition
  before : Context
  expansion : Expansion
  after : Context

namespace Inlining

/-- The body that the call belongs to. -/
def owner (i : Inlining) : ChangedBody := i.spot.place.owner

def programBefore (i : Inlining) : Program := i.spot.plug i.waiting (.call i.callee i.args)

def programAfter (i : Inlining) : Program :=
  i.spot.plug (i.waiting ++ i.expansion.prelude) i.expansion.value

/-- The names and labels that the inlining declares in the layer of the call. -/
def declared (i : Inlining) : List String :=
  Stmt.declarationsAll i.expansion.prelude ++ declaredLabels i.expansion.prelude

end Inlining

/-- Around an expression that is a program by itself. What holds whatever the program is
around an expression is seen from there. -/
def Spot.alone (e : Expr) : Spot := ⟨.unit [] 0 "" [], [], .expr e, rfl, [], []⟩

namespace CallWalk

/-- The inlining of a call whose callee and arguments have been walked, if it takes place. -/
def callTrace (env : Env) (scope : Nat) (before : Progress) (spot : Spot) (callee : Expr)
    (args : List Expr) (state : State) : List Inlining :=
  if state.fault.isSome then []
  else
    let site : CallSite := ⟨scope, before.allowsBlock args⟩
    let tried := expandKnown env callee args site state
    match tried.1, (qualifiedCallee? callee).bind env.table.get? with
    | some expansion, some definition =>
      [⟨env.table, spot, state.prelude, callee, args, site, definition, state.ctx, expansion,
        tried.2.ctx⟩]
    | _, _ => []

mutual

def exprTrace (env : Env) (scope : Nat) (spot : Spot) (e : Expr) (state : State) : List Inlining :=
  if state.fault.isSome then []
  else
    match e with
    | .undefined | .null | .bool _ | .number _ | .string _ | .this | .ident _ => []
    | .member object property =>
      exprTrace env scope (spot.inside ⟨.member object property, [], [], rfl⟩) object state
    | .index object key =>
      let o := expr env scope object state
      exprTrace env scope (spot.inside ⟨.index object key, [], [key], rfl⟩) object state ++
        exprTrace env scope (spot.inside ⟨.index object key, [o.1], [], rfl⟩) key o.2
    | .call callee args =>
      let known := isKnownCallee env state.ctx.scopes scope callee
      let c := if known then (callee, state) else expr env scope callee state
      let a := exprs env scope args c.2
      (if known then []
        else exprTrace env scope
          (spot.inside ⟨.call callee args, [], args, Nat.add_comm _ _⟩) callee state) ++
        exprsTrace env scope spot (.call callee args) [c.1] args (Nat.add_comm _ _) c.2 ++
        callTrace env scope state.progress spot c.1 a.1 a.2
    | .new callee args =>
      let c := expr env scope callee state
      exprTrace env scope (spot.inside ⟨.new callee args, [], args, Nat.add_comm _ _⟩)
        callee state ++
        exprsTrace env scope spot (.new callee args) [c.1] args (Nat.add_comm _ _) c.2
    | .assign (.ident name) op value =>
      exprTrace env scope (spot.inside ⟨.assign (.ident name) op value, [.ident name], [], rfl⟩)
        value state
    | .assign target op value =>
      let t := expr env scope target state
      exprTrace env scope (spot.inside ⟨.assign target op value, [], [value], rfl⟩) target state ++
        exprTrace env scope (spot.inside ⟨.assign target op value, [t.1], [], rfl⟩) value t.2
    | .binary op left right =>
      let l := expr env scope left state
      exprTrace env scope (spot.inside ⟨.binary op left right, [], [right], rfl⟩) left state ++
        exprTrace env scope (spot.inside ⟨.binary op left right, [l.1], [], rfl⟩) right l.2
    | .logical op left right =>
      let l := expr env scope left state
      exprTrace env scope (spot.inside ⟨.logical op left right, [], [right], rfl⟩) left state ++
        exprTrace env scope (spot.inside ⟨.logical op left right, [l.1], [], rfl⟩) right
          (l.2.setProgress .conditional)
    | .unary op operand =>
      exprTrace env scope (spot.inside ⟨.unary op operand, [], [], rfl⟩) operand state
    | .conditional condition thenExpr elseExpr =>
      let c := expr env scope condition state
      let t := expr env scope thenExpr (c.2.setProgress .conditional)
      let closed := closeBranch c.2.progress t.1 t.2
      exprTrace env scope (spot.inside ⟨.conditional condition thenExpr elseExpr, [],
        [thenExpr, elseExpr], rfl⟩) condition state ++
        exprTrace env scope (spot.inside ⟨.conditional condition thenExpr elseExpr, [c.1],
          [elseExpr], rfl⟩) thenExpr (c.2.setProgress .conditional) ++
        exprTrace env scope (spot.inside ⟨.conditional condition thenExpr elseExpr, [c.1, t.1],
          [], rfl⟩) elseExpr (closed.setProgress .conditional)
    | .sequence items =>
      exprsTrace env scope spot (.sequence items) [] items (Nat.zero_add _) state
    | .array items => exprsTrace env scope spot (.array items) [] items (Nat.zero_add _) state
    | .function ⟨id, name, params, body⟩ =>
      match state.ctx.scopes.functionScope? id with
      | none => []
      | some inner =>
        stmtsTrace env inner (spot.literal state.prelude id name params) [] body state
termination_by structural e

/-- Operands of an operation, some of which have been walked. -/
def exprsTrace (env : Env) (scope : Nat) (spot : Spot) (node : Expr) (before es : List Expr)
    (fits : before.length + es.length = node.children.length) (state : State) : List Inlining :=
  match es with
  | [] => []
  | e :: rest =>
    let first := expr env scope e state
    exprTrace env scope (spot.inside ⟨node, before, rest, by grind⟩) e state ++
      exprsTrace env scope spot node (before ++ [first.1]) rest (by grind) first.2
termination_by structural es

/-- A statement with those before and after it. -/
def stmtTrace (env : Env) (scope : Nat) (place : Place) (done rest : List Stmt) (s : Stmt)
    (state : State) : List Inlining :=
  match s with
  | .var _ _ none | .ret none | .breakTo _ | .continueTo _ => []
  | .var kind name (some init) =>
    exprTrace env scope ⟨place, done, .var kind name (some init), rfl, [], rest⟩ init state
  | .function ⟨id, name, params, body⟩ =>
    match state.ctx.scopes.functionScope? id with
    | none => []
    | some inner =>
      stmtsTrace env inner (.body place (done ++ state.prelude) (.function id name params) rest) []
        body state
  | .expr value => exprTrace env scope ⟨place, done, .expr value, rfl, [], rest⟩ value state
  | .ret (some value) =>
    exprTrace env scope ⟨place, done, .ret (some value), rfl, [], rest⟩ value state
  | .ifElse condition thenBranch none =>
    let c := expr env scope condition state
    exprTrace env scope ⟨place, done, .ifElse condition thenBranch none, rfl, [], rest⟩
      condition state ++
      stmtsTrace env scope (.body place (done ++ c.2.prelude) (.thenOf c.1 none) rest) []
        thenBranch c.2
  | .ifElse condition thenBranch (some elseBranch) =>
    let c := expr env scope condition state
    let t := stmts env scope thenBranch c.2
    exprTrace env scope ⟨place, done, .ifElse condition thenBranch (some elseBranch), rfl, [], rest⟩
      condition state ++
      stmtsTrace env scope (.body place (done ++ c.2.prelude) (.thenOf c.1 (some elseBranch)) rest)
        [] thenBranch c.2 ++
      stmtsTrace env scope (.body place (done ++ c.2.prelude) (.elseOf c.1 t.1) rest) []
        elseBranch t.2
  | .whileDo condition body =>
    let c := expr env scope condition (state.setProgress .conditional)
    exprTrace env scope ⟨place, done, .whileDo condition body, rfl, [], rest⟩ condition
      (state.setProgress .conditional) ++
      stmtsTrace env scope (.body place (done ++ c.2.prelude) (.whileOf c.1) rest) [] body c.2
  | .block body =>
    stmtsTrace env scope (.body place (done ++ state.prelude) .block rest) [] body state
  | .labeled label body =>
    stmtsTrace env scope (.body place (done ++ state.prelude) (.labeled label) rest) [] body state
  | .throw value => exprTrace env scope ⟨place, done, .throw value, rfl, [], rest⟩ value state
termination_by structural s

/-- Statements after those that have been walked. -/
def stmtsTrace (env : Env) (scope : Nat) (place : Place) (done list : List Stmt) (state : State) :
    List Inlining :=
  match list with
  | [] => []
  | s :: rest =>
    if state.fault.isSome then []
    else
      let first := stmt env scope s state.begin
      stmtTrace env scope place done rest s state.begin ++
        stmtsTrace env scope place (done ++ splice first.1 first.2) rest first.2
termination_by structural list

end

/-- Units after those that have been walked. -/
def unitsTrace (table : DefinitionTable) (done list : List SourceUnit) (state : State) :
    List Inlining :=
  match list with
  | [] => []
  | unit :: rest =>
    if state.fault.isSome then []
    else
      match state.ctx.scopes.unitScope? unit.id with
      | none => []
      | some scope =>
        let body := stmts ⟨table, unit.name⟩ scope unit.body state
        stmtsTrace ⟨table, unit.name⟩ scope (.unit done unit.id unit.name rest)
          [] unit.body state ++
          unitsTrace table (done ++ [⟨unit.id, unit.name, body.1⟩]) rest body.2

end CallWalk

/-- The inlinings made while the calls of a program are expanded. -/
def Program.inlinings (program : Program) (table : DefinitionTable) (ctx : Context) :
    List Inlining :=
  CallWalk.unitsTrace table [] program.units ⟨ctx, .statement, [], [], none⟩

/-- Two functions on a host, of which one calls the other, and a unit that calls this one
between a read of its own variable and the end of the statement. -/
def Program.doubling : Program :=
  ⟨[⟨0, "host.js",
      [.expr (.assign (.member (.ident "A") "twice") none
        (.function ⟨0, none, ["a"],
          [.var .var "t" (some (.ident "a")),
            .ret (some (.array [.call (.member (.ident "A") "add") [.ident "t", .ident "t"],
              .function ⟨1, none, [], []⟩]))]⟩)),
        .expr (.assign (.member (.ident "A") "add") none
          (.function ⟨2, none, ["a", "b"],
            [.ret (some (.binary .add (.ident "a") (.ident "b")))]⟩))]⟩,
    ⟨1, "main.js",
      [.function ⟨3, some "f", ["x"],
        [.ret (some (.binary .add (.ident "x")
          (.call (.member (.ident "A") "twice") [.function ⟨4, none, [], []⟩])))]⟩]⟩]⟩

theorem Program.validate_doubling : doubling.validate = .ok () := by decide

/-- The two functions one after the other, so that the second target finds code that the
first has copied. -/
def Config.oneByOne : Config := ⟨[⟨"host.js", ["twice"]⟩, ⟨"host.js", ["add"]⟩], .lastWins⟩

end StaticInliner
