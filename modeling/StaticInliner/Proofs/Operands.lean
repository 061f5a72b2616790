import StaticInliner.Proofs.Quiet

/-!
The walk by parts. Most operations walk their operands one after another and are put
together again from what is left of these; only names, calls, assignments to variables,
branches and function literals do something else. A call whose parts have been walked is
kept, stops the walk, or is inlined. A statement walks its expression, then the lists of
statements below it. Proofs about the walk start from these equations, and so do not go
through all kinds of operations and statements.
-/
namespace StaticInliner

namespace Expr

/-- The operands are walked in order, and that is all. -/
def walksOperands : Expr → Bool
  | .ident _ | .call _ _ | .assign (.ident _) _ _ | .logical _ _ _ | .conditional _ _ _
  | .function _ => false
  | _ => true

theorem ownsLayer_of_walksOperands {e : Expr} (h : e.walksOperands = true) :
    e.ownsLayer = false := by
  cases e with
  | function _ => cases h
  | _ => rfl

theorem alwaysEvaluates_of_walksOperands {e : Expr} (h : e.walksOperands = true) :
    e.alwaysEvaluates = true := by
  cases e with
  | logical _ _ _ | conditional _ _ _ => cases h
  | _ => rfl

theorem isCall_of_walksOperands {e : Expr} (h : e.walksOperands = true) : e.isCall = false := by
  cases e with
  | call _ _ => cases h
  | _ => rfl

/-- What the operation does after its operands counts as impure. -/
def isImpure : Expr → Bool
  | .member _ _ | .index _ _ | .new _ _ | .assign _ _ _ | .unary .delete _ => true
  | _ => false

theorem anySideEffects_eq_any (es : List Expr) : anySideEffects es = es.any (·.hasSideEffects) := by
  induction es with
  | nil => rfl
  | cons e rest ih => rw [anySideEffects, ih, List.any_cons]

/-- The operation itself may change some variable or object. -/
def isEffect : Expr → Bool
  | .call _ _ | .new _ _ | .assign _ _ _ | .unary .delete _ => true
  | _ => false

/-- Effects come from the operation or from its operands. -/
theorem hasSideEffects_operation (e : Expr) :
    e.hasSideEffects = (e.isEffect || e.children.any (·.hasSideEffects)) := by
  cases e with
  | unary op _ => cases op <;> simp [hasSideEffects, isEffect, children]
  | sequence _ | array _ => simp [hasSideEffects, isEffect, children, anySideEffects_eq_any]
  | _ => simp [hasSideEffects, isEffect, children, Bool.or_assoc]

/-- What holds of operations if something holds of their operands, by the ways in which
operations are walked. -/
structure Operations (E G : Expr → Prop) : Prop where
  operands {e : Expr} : e.walksOperands = true → (∀ operand ∈ e.children, E operand) → G e
  ident (name : String) : G (.ident name)
  call {callee : Expr} {args : List Expr} : E callee → (∀ arg ∈ args, E arg) → G (.call callee args)
  assign {name : String} {op : Option BinaryOp} {value : Expr} : E value →
    G (.assign (.ident name) op value)
  logical {op : LogicalOp} {left right : Expr} : E left → E right → G (.logical op left right)
  conditional {condition thenExpr elseExpr : Expr} : E condition → E thenExpr → E elseExpr →
    G (.conditional condition thenExpr elseExpr)

/-- A statement about operations follows from the kinds of operation. -/
theorem Operations.operation {E G : Expr → Prop} (h : Operations E G) {e : Expr}
    (hlayer : e.ownsLayer = false) (ih : ∀ operand ∈ e.children, E operand) : G e := by
  cases hwalks : e.walksOperands with
  | true => exact h.operands hwalks ih
  | false =>
    cases e with
    | ident name => exact h.ident name
    | call callee args =>
      obtain ⟨hcallee, hargs⟩ := List.forall_mem_cons.mp ih
      exact h.call hcallee hargs
    | assign target op value =>
      cases target with
      | ident name => exact h.assign (ih value (List.mem_cons_of_mem _ List.mem_cons_self))
      | _ => cases hwalks
    | logical op left right =>
      obtain ⟨hleft, hright⟩ := List.forall_mem_cons.mp ih
      exact h.logical hleft (hright right List.mem_cons_self)
    | conditional condition thenExpr elseExpr =>
      obtain ⟨hcondition, hbranches⟩ := List.forall_mem_cons.mp ih
      obtain ⟨hthen, helse⟩ := List.forall_mem_cons.mp hbranches
      exact h.conditional hcondition hthen (helse elseExpr List.mem_cons_self)
    | function _ => cases hlayer
    | _ => cases hwalks

end Expr

namespace CallWalk

/-- Go on after the operands of an operation. -/
def State.passing (state : State) (e : Expr) : State := if e.isImpure then state.impure else state

/-- Start with the expression of a statement, which a loop may evaluate any number of times. -/
def State.entering (state : State) (s : Stmt) : State :=
  if s.isLoop then state.setProgress .conditional else state

/-- The expression of a statement. -/
def head (env : Env) (scope : Nat) (s : Stmt) (state : State) : Option Expr × State :=
  match s.head? with
  | none => (none, state)
  | some e =>
    let h := expr env scope e (state.entering s)
    (some h.1, h.2)

/-- The lists of statements below a statement. -/
def bodies (env : Env) (scope : Nat) : List (List Stmt) → State → List (List Stmt) × State
  | [], state => ([], state)
  | body :: rest, state =>
    let b := stmts env scope body state
    let others := bodies env scope rest b.2
    (b.1 :: others.1, others.2)

def headTrace (env : Env) (scope : Nat) (place : Place) (done rest : List Stmt) (s : Stmt)
    (state : State) : List Inlining :=
  match h : s.head? with
  | none => []
  | some e =>
    exprTrace env scope ⟨place, done, s, by rw [h]; rfl, [], rest⟩ e (state.entering s)

/-- The inlinings in lists of statements, each in a place of its own. -/
def bodiesTrace (env : Env) (scope : Nat) : List Place → List (List Stmt) → State → List Inlining
  | place :: places, body :: rest, state =>
    stmtsTrace env scope place [] body state ++
      bodiesTrace env scope places rest (stmts env scope body state).2
  | _, _, _ => []

/-- An attempt at a call is counted only, stops the walk, or expands the call. -/
theorem expandKnown_cases (env : Env) (callee : Expr) (args : List Expr) (site : CallSite)
    (state : State) :
    (∃ skipped log, expandKnown env callee args site state = (none, { state with
      ctx := { state.ctx with stats := { state.ctx.stats with skipped } }, log })) ∨
    (∃ definition ∈ env.table.definitions, ∃ fault,
      definition.expandCall args site state.ctx = .error fault ∧
      expandKnown env callee args site state = (none, state.stop fault)) ∨
    ∃ name definition expansion ctx log, qualifiedCallee? callee = some name ∧
      env.table.get? name = some definition ∧
      state.ctx.scopes.isBoundInFunction site.scope name.root = false ∧
      definition.expandCall args site state.ctx = .ok (.expanded expansion, ctx) ∧
      expandKnown env callee args site state = (some expansion, { state with
        ctx := { ctx with
          stats := countExpansion expansion.shape ctx.stats
          changes := markChanged ctx site.scope }
        log }) := by
  unfold expandKnown
  cases hname : qualifiedCallee? callee with
  | none => exact .inl ⟨state.ctx.stats.skipped, state.log, rfl⟩
  | some name =>
    simp only
    cases hget : env.table.get? name with
    | none => exact .inl ⟨state.ctx.stats.skipped, state.log, rfl⟩
    | some definition =>
      simp only
      cases hroot : state.ctx.scopes.isBoundInFunction site.scope name.root with
      | true => exact .inl ⟨_, _, rfl⟩
      | false =>
        rw [if_neg Bool.false_ne_true]
        split
        · next fault hfault =>
          exact .inr (.inl ⟨definition, List.mem_of_find?_eq_some hget, fault, hfault, rfl⟩)
        · next obstacle ctx hkept =>
          obtain rfl := Definition.ctx_eq_of_kept hkept
          exact .inl ⟨_, _, rfl⟩
        · next expansion ctx hexpanded =>
          exact .inr (.inr ⟨name, definition, expansion, ctx, _, rfl, hget, hroot, hexpanded, rfl⟩)

/-- What becomes of a call whose callee and arguments have been walked: it is kept and
counted, kept because the walk stops here or has stopped before, or inlined. -/
theorem finishCall_cases (env : Env) (scope : Nat) (before : Progress) (spot : Spot) (callee : Expr)
    (args : List Expr) (state : State) :
    (∃ skipped log, finishCall env scope before callee args state = (.call callee args,
        { state with
          ctx := { state.ctx with stats := { state.ctx.stats with skipped } }
          progress := state.progress.impure
          log }) ∧
      callTrace env scope before spot callee args state = []) ∨
    (∃ fault, finishCall env scope before callee args state =
      (.call callee args, state.stop fault) ∧
      callTrace env scope before spot callee args state = [] ∧
      (state.fault = some fault ∨ ∃ definition ∈ env.table.definitions,
        definition.expandCall args ⟨scope, before.allowsBlock args⟩ state.ctx = .error fault)) ∨
    ∃ definition expansion after log, Inlining.Performed
      ⟨env.table, spot, state.prelude, callee, args,
        ⟨scope, before.allowsBlock args⟩, definition, state.ctx, expansion, after⟩ ∧
      finishCall env scope before callee args state = (expansion.value,
        { state with
          ctx := after
          progress := progressAfter after.scopes scope before state.progress expansion
          prelude := state.prelude ++ expansion.prelude
          log }) ∧
      callTrace env scope before spot callee args state = [⟨env.table, spot, state.prelude, callee,
        args, ⟨scope, before.allowsBlock args⟩, definition, state.ctx, expansion, after⟩] := by
  by_cases hstopped : state.fault.isSome = true
  · obtain ⟨fault, hfault⟩ := Option.isSome_iff_exists.mp hstopped
    have hsame : state.stop fault = state := by rw [State.stop, ← hfault]
    refine .inr (.inl ⟨fault, ?_, ?_, .inl hfault⟩)
    · rw [finishCall, if_pos hstopped, hsame]
    · rw [callTrace, if_pos hstopped]
  have hfault := Bool.eq_false_iff.mpr hstopped
  simp only [finishCall, callTrace, hfault, Bool.false_eq_true, if_false]
  rcases expandKnown_cases env callee args ⟨scope, before.allowsBlock args⟩ state with
    ⟨skipped, log, htried⟩ | ⟨definition, hmem, fault, herror, htried⟩ |
    ⟨name, definition, expansion, ctx, log, hname, hget, hroot, hexpanded, htried⟩
  · refine .inl ⟨skipped, log, ?_, ?_⟩
    · simp only [htried, hfault]
      rfl
    · simp only [htried]
  · refine .inr (.inl ⟨fault, ?_, ?_, .inr ⟨definition, hmem, herror⟩⟩)
    · simp only [htried]
      rfl
    · simp only [htried]
  · let after : Context := { ctx with
      stats := countExpansion expansion.shape ctx.stats
      changes := markChanged ctx scope }
    refine .inr (.inr ⟨definition, expansion, after, log,
      ⟨⟨name, hname, hget, hroot⟩, ctx, hexpanded, rfl⟩, ?_, ?_⟩)
    · simp only [htried]
      rfl
    · simp only [htried, hname, Option.bind_some, hget]
      rfl

variable {env : Env} {scope : Nat} {state : State}

theorem finishCall_ctx (hgo : ¬state.fault.isSome = true) (before : Progress) (callee : Expr)
    (args : List Expr) :
    let tried := expandKnown env callee args ⟨scope, before.allowsBlock args⟩ state
    (finishCall env scope before callee args state).2.ctx = tried.2.ctx ∧
      (finishCall env scope before callee args state).2.fault = tried.2.fault := by
  simp only [finishCall, if_neg hgo]
  split
  · split <;> exact ⟨rfl, rfl⟩
  · exact ⟨rfl, rfl⟩

/-- A walk that has stopped changes nothing. -/
theorem expr_stopped (h : state.fault.isSome = true) (e : Expr) :
    expr env scope e state = (e, state) := by
  rw [expr.eq_def, if_pos h]

theorem exprTrace_stopped (h : state.fault.isSome = true) (spot : Spot) (e : Expr) :
    exprTrace env scope spot e state = [] := by
  rw [exprTrace.eq_def, if_pos h]

/-- A walk that has not stopped yet had not stopped before. -/
theorem going_of_expr {e : Expr} (h : (expr env scope e state).2.fault = none) :
    state.fault = none := by
  by_cases hgo : state.fault.isSome = true
  · rw [expr_stopped hgo] at h
    exact h
  · exact Option.not_isSome_iff_eq_none.mp hgo

theorem going_of_exprs {es : List Expr} (h : (exprs env scope es state).2.fault = none) :
    state.fault = none := by
  induction es generalizing state with
  | nil => exact h
  | cons e rest ih => exact going_of_expr (ih h)

theorem going_of_finishCall {before : Progress} {callee : Expr} {args : List Expr}
    (h : (finishCall env scope before callee args state).2.fault = none) : state.fault = none := by
  by_contra hfault
  rw [← ne_eq, Option.ne_none_iff_isSome] at hfault
  simp only [finishCall, if_pos hfault] at h
  rw [h] at hfault
  cases hfault

/-- The step of the walk at an operation whose operands are walked in order. -/
theorem expr_operands {e : Expr} (h : e.walksOperands = true) (hgo : state.fault = none) :
    expr env scope e state = (e.withOperands (exprs env scope e.children state).1,
      (exprs env scope e.children state).2.passing e) := by
  cases e with
  | ident _ | call _ _ | logical _ _ _ | conditional _ _ _ | function _ => cases h
  | assign target op value =>
    cases target with
    | ident _ => cases h
    | _ => simp [expr, exprs, hgo, Expr.children, Expr.withOperands, State.passing, Expr.isImpure]
  | unary op operand =>
    cases op <;>
      simp [expr, exprs, hgo, Expr.children, Expr.withOperands, State.passing, Expr.isImpure]
  | _ => simp [expr, exprs, hgo, Expr.children, Expr.withOperands, State.passing, Expr.isImpure]

theorem exprTrace_operands {e : Expr} (h : e.walksOperands = true) (hgo : state.fault = none)
    (spot : Spot) : exprTrace env scope spot e state =
      exprsTrace env scope spot e [] e.children (Nat.zero_add _) state := by
  cases e with
  | ident _ | call _ _ | logical _ _ _ | conditional _ _ _ | function _ => cases h
  | assign target op value =>
    cases target with
    | ident _ => cases h
    | _ => simp [exprTrace, exprsTrace, hgo, Expr.children]
  | _ => simp [exprTrace, exprsTrace, hgo, Expr.children]

/-- What is left of a function literal is one again, and evaluating it does nothing. -/
theorem expr_function (env : Env) (scope : Nat) (fn : FunctionLit) (state : State) :
    ∃ fn', (expr env scope (.function fn) state).1 = .function fn' ∧
      (expr env scope (.function fn) state).2.progress = state.progress := by
  obtain ⟨id, name, params, body⟩ := fn
  rw [expr]
  split
  · exact ⟨_, rfl, rfl⟩
  · split
    · exact ⟨_, rfl, rfl⟩
    · exact ⟨_, rfl, rfl⟩

theorem length_exprs (es : List Expr) : (exprs env scope es state).1.length = es.length := by
  induction es generalizing state with
  | nil => rfl
  | cons e rest ih => rw [exprs, List.length_cons, List.length_cons, ih]

/-- What may be left of an expression by a walk with some inlinings: it has not been walked,
or it was walked in some state and its inlinings are among them. -/
inductive Left (env : Env) (scope : Nat) (trace : List Inlining) (e : Expr) : Expr → Prop
  | same : Left env scope trace e e
  | walked (spot : Spot) (state : State) : exprTrace env scope spot e state ⊆ trace →
    Left env scope trace e (expr env scope e state).1

theorem left_same (trace : List Inlining) (es : List Expr) :
    List.Forall₂ (Left env scope trace) es es :=
  List.forall₂_same.mpr fun _ _ => .same

theorem left_exprs {trace : List Inlining} (spot : Spot) (node : Expr) (before es : List Expr)
    (fits : before.length + es.length = node.children.length)
    (htrace : exprsTrace env scope spot node before es fits state ⊆ trace) :
    List.Forall₂ (Left env scope trace) es (exprs env scope es state).1 := by
  induction es generalizing before state with
  | nil => exact .nil
  | cons e rest ih =>
    rw [exprsTrace, List.append_subset] at htrace
    exact .cons (.walked _ state htrace.1) (ih _ _ htrace.2)

/-- What a call leaves is the call or its expansion. -/
theorem left_finishCall (before : Progress) (spot : Spot) (callee : Expr) (args : List Expr) :
    let done := finishCall env scope before callee args state
    done.1 = .call callee args ∨ ∃ i ∈ callTrace env scope before spot callee args state,
      i.Performed ∧ i.callee = callee ∧ i.args = args ∧ done.1 = i.expansion.value := by
  rcases finishCall_cases env scope before spot callee args state with
    ⟨skipped, log, hdone, -⟩ | ⟨fault, hdone, -⟩ |
    ⟨definition, expansion, after, log, hperformed, hdone, htrace⟩
  · exact .inl (by rw [hdone])
  · exact .inl (by rw [hdone])
  · exact .inr ⟨_, by rw [htrace]; exact List.mem_singleton_self _, hperformed, rfl,
      rfl, by rw [hdone]⟩

/-- What is left of an operation: the same operation, or the value of a call that was
expanded. -/
theorem expr_left {e : Expr} (hlayer : e.ownsLayer = false) (spot : Spot) :
    let trace := exprTrace env scope spot e state
    ∃ operands, List.Forall₂ (Left env scope trace) e.children operands ∧
      ((expr env scope e state).1 = e.withOperands operands ∨
        ∃ i ∈ trace, i.Performed ∧ e.isCall = true ∧ i.callee :: i.args = operands ∧
          (expr env scope e state).1 = i.expansion.value) := by
  intro trace
  by_cases hgo : state.fault.isSome = true
  · rw [expr_stopped hgo]
    exact ⟨e.children, left_same _ _, .inl e.withOperands_children.symm⟩
  cases hwalks : e.walksOperands with
  | true =>
    have hnone := Option.not_isSome_iff_eq_none.mp hgo
    rw [expr_operands hwalks hnone]
    refine ⟨_, left_exprs spot e [] e.children (Nat.zero_add _) ?_, .inl rfl⟩
    rw [← exprTrace_operands hwalks hnone]
    exact List.Subset.refl trace
  | false =>
    cases e with
    | ident name =>
      simp only [expr, if_neg hgo]
      exact ⟨[], .nil, .inl rfl⟩
    | call callee args =>
      -- a known callee is not walked
      let c := if isKnownCallee env state.ctx.scopes scope callee then (callee, state)
        else expr env scope callee state
      let a := exprs env scope args c.2
      have htrace : trace = (if isKnownCallee env state.ctx.scopes scope callee then []
          else exprTrace env scope (spot.inside ⟨.call callee args, [], args, Nat.add_comm _ _⟩)
            callee state) ++
          exprsTrace env scope spot (.call callee args) [c.1] args (Nat.add_comm _ _) c.2 ++
          callTrace env scope state.progress spot c.1 a.1 a.2 := by
        simp only [trace, exprTrace, if_neg hgo, c, a]
      have hexpr : expr env scope (.call callee args) state =
          finishCall env scope state.progress c.1 a.1 a.2 := by
        simp only [expr, if_neg hgo, c, a]
      have hcallee : Left env scope trace callee c.1 := by
        cases hknown : isKnownCallee env state.ctx.scopes scope callee with
        | true =>
          simp only [c, hknown, if_true]
          exact .same
        | false =>
          simp only [hknown, Bool.false_eq_true, if_false, List.append_assoc] at htrace
          simp only [c, hknown, Bool.false_eq_true, if_false]
          exact .walked _ state (htrace ▸ List.subset_append_left _ _)
      have hargs : List.Forall₂ (Left env scope trace) args a.1 := by
        refine left_exprs spot (.call callee args) [c.1] args (Nat.add_comm _ _) ?_
        rw [htrace, List.append_assoc]
        exact List.subset_append_of_subset_right _ (List.subset_append_left _ _)
      refine ⟨c.1 :: a.1, .cons hcallee hargs, ?_⟩
      rw [hexpr]
      refine (left_finishCall state.progress spot c.1 a.1).imp_right ?_
      rintro ⟨i, hi, hperformed, hcallee, hargs, hvalue⟩
      exact ⟨i, htrace ▸ List.mem_append_right _ hi, hperformed,
        rfl, by rw [hcallee, hargs], hvalue⟩
    | assign target op value =>
      cases target with
      | ident name =>
        let frame : Frame := ⟨.assign (.ident name) op value, [.ident name], [], rfl⟩
        have htrace : trace = exprTrace env scope (spot.inside frame) value state := by
          simp only [trace, exprTrace, if_neg hgo, frame]
        simp only [expr, if_neg hgo]
        refine ⟨[.ident name, _], .cons .same (.cons (.walked (spot.inside frame) state ?_) .nil),
          .inl rfl⟩
        rw [htrace]
        exact List.Subset.refl _
      | _ => cases hwalks
    | logical op left right =>
      let l := expr env scope left state
      have htrace : trace =
          exprTrace env scope (spot.inside ⟨.logical op left right, [], [right], rfl⟩) left state ++
          exprTrace env scope (spot.inside ⟨.logical op left right, [l.1], [], rfl⟩) right
            (l.2.setProgress .conditional) := by
        simp only [trace, exprTrace, if_neg hgo, l]
      simp only [expr, if_neg hgo]
      exact ⟨[_, _], .cons (.walked _ _ (htrace ▸ List.subset_append_left _ _))
        (.cons (.walked _ _ (htrace ▸ List.subset_append_right _ _)) .nil), .inl rfl⟩
    | conditional condition thenExpr elseExpr =>
      let c := expr env scope condition state
      let t := expr env scope thenExpr (c.2.setProgress .conditional)
      let closed := closeBranch c.2.progress t.1 t.2
      have htrace : trace =
          exprTrace env scope (spot.inside ⟨.conditional condition thenExpr elseExpr, [],
            [thenExpr, elseExpr], rfl⟩) condition state ++
          exprTrace env scope (spot.inside ⟨.conditional condition thenExpr elseExpr, [c.1],
            [elseExpr], rfl⟩) thenExpr (c.2.setProgress .conditional) ++
          exprTrace env scope (spot.inside ⟨.conditional condition thenExpr elseExpr, [c.1, t.1],
            [], rfl⟩) elseExpr (closed.setProgress .conditional) := by
        simp only [trace, exprTrace, if_neg hgo, c, t, closed]
      simp only [expr, if_neg hgo]
      exact ⟨[_, _, _], .cons (.walked _ _ (htrace ▸ List.subset_append_of_subset_left _
          (List.subset_append_left _ _)))
        (.cons (.walked _ _ (htrace ▸ List.subset_append_of_subset_left _
          (List.subset_append_right _ _)))
        (.cons (.walked _ _ (htrace ▸ List.subset_append_right _ _)) .nil)), .inl rfl⟩
    | function _ => cases hlayer
    | _ => cases hwalks

theorem head_none {s : Stmt} (h : s.head? = none) : head env scope s state = (none, state) := by
  rw [head, h]

theorem head_some {s : Stmt} {e : Expr} (h : s.head? = some e) :
    head env scope s state = (some (expr env scope e (state.entering s)).1,
      (expr env scope e (state.entering s)).2) := by
  rw [head, h]

theorem headTrace_none {s : Stmt} (h : s.head? = none) (place : Place) (done rest : List Stmt) :
    headTrace env scope place done rest s state = [] := by
  unfold headTrace
  split
  · rfl
  · next hsome => cases h.symm.trans hsome

theorem headTrace_some (env : Env) (scope : Nat) (state : State) {s : Stmt} {e : Expr}
    (h : s.head? = some e) (place : Place) (done rest : List Stmt) :
    ∃ hasHead, headTrace env scope place done rest s state =
      exprTrace env scope ⟨place, done, s, hasHead, [], rest⟩ e (state.entering s) := by
  refine ⟨by rw [h]; rfl, ?_⟩
  unfold headTrace
  split
  · next hnone => cases h.symm.trans hnone
  · next e' hsome =>
    cases h.symm.trans hsome
    rfl

/-- The step of the walk at a statement: first its expression, then its bodies. -/
theorem stmt_parts {s : Stmt} (h : s.function? = none) :
    let first := head env scope s state
    let below := bodies env scope s.bodies first.2
    stmt env scope s state = (s.withParts first.1 below.1,
      { below.2 with prelude := first.2.prelude }) := by
  cases s with
  | function _ => cases h
  | var _ _ init => cases init <;> rfl
  | ret value => cases value <;> rfl
  | ifElse _ _ elseBranch => cases elseBranch <;> rfl
  | _ => rfl

theorem bodiesTrace_nil (places : List Place) : bodiesTrace env scope places [] state = [] := by
  cases places <;> rfl

/-- The places are those of lists of statements with the same owner that are walked one after
another, each with the lists before it as they have become. -/
def Successive (env : Env) (scope : Nat) (owner : ChangedBody) (fill : List (List Stmt) → Program) :
    List (List Stmt) → List Place → List (List Stmt) → State → Prop
  | done, place :: places, body :: rest, state =>
    let b := stmts env scope body state
    place.owner = owner ∧ (∀ piece, place.plug piece = fill (done ++ piece :: rest)) ∧
      Successive env scope owner fill (done ++ [b.1]) places rest b.2
  | _, _, _, _ => True

theorem stmtTrace_parts (env : Env) (scope : Nat) (state : State) {s : Stmt}
    (h : s.function? = none) (place : Place) (done rest : List Stmt) :
    let first := head env scope s state
    ∃ places : List Place, places.length = s.bodies.length ∧
      Successive env scope place.owner
        (fun bodies => place.plug (done ++ first.2.prelude ++ s.withParts first.1 bodies :: rest))
        [] places s.bodies first.2 ∧
      stmtTrace env scope place done rest s state = headTrace env scope place done rest s state ++
        bodiesTrace env scope places s.bodies first.2 := by
  cases s with
  | function _ => cases h
  | var _ _ init => cases init <;> exact ⟨[], rfl, trivial, (List.append_nil _).symm⟩
  | ret value => cases value <;> exact ⟨[], rfl, trivial, (List.append_nil _).symm⟩
  | expr _ | throw _ | breakTo _ | continueTo _ =>
    exact ⟨[], rfl, trivial, (List.append_nil _).symm⟩
  | ifElse condition thenBranch elseBranch =>
    let c := expr env scope condition state
    cases elseBranch with
    | none =>
      refine ⟨[.body place (done ++ c.2.prelude) (.thenOf c.1 none) rest], rfl,
        ⟨rfl, fun _ => rfl, trivial⟩, ?_⟩
      rw [Stmt.bodies, bodiesTrace, bodiesTrace_nil, List.append_nil]
      rfl
    | some elseBranch =>
      let t := stmts env scope thenBranch c.2
      refine ⟨[.body place (done ++ c.2.prelude) (.thenOf c.1 (some elseBranch)) rest,
        .body place (done ++ c.2.prelude) (.elseOf c.1 t.1) rest], rfl,
        ⟨rfl, fun _ => rfl, rfl, fun _ => rfl, trivial⟩, ?_⟩
      rw [Stmt.bodies, bodiesTrace, bodiesTrace, bodiesTrace_nil, List.append_nil,
        ← List.append_assoc]
      rfl
  | whileDo condition body =>
    let c := expr env scope condition (state.setProgress .conditional)
    refine ⟨[.body place (done ++ c.2.prelude) (.whileOf c.1) rest], rfl,
      ⟨rfl, fun _ => rfl, trivial⟩, ?_⟩
    rw [Stmt.bodies, bodiesTrace, bodiesTrace_nil, List.append_nil]
    rfl
  | block body =>
    refine ⟨[.body place (done ++ state.prelude) .block rest], rfl,
      ⟨rfl, fun _ => rfl, trivial⟩, ?_⟩
    rw [Stmt.bodies, bodiesTrace, bodiesTrace_nil, List.append_nil]
    rfl
  | labeled label body =>
    refine ⟨[.body place (done ++ state.prelude) (.labeled label) rest], rfl,
      ⟨rfl, fun _ => rfl, trivial⟩, ?_⟩
    rw [Stmt.bodies, bodiesTrace, bodiesTrace_nil, List.append_nil]
    rfl

end CallWalk

end StaticInliner
