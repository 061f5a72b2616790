import StaticInliner.Proofs.Expanded
import StaticInliner.Proofs.Operands

/-!
References. The function of a call, the target of an assignment and what is deleted are not
just evaluated: a property access in such a place names the object as well, which a call gets
as `this`. Expanding calls leaves operations what they are, so that an operand stays a
property access, or none, unless it is a call that is expanded itself. The value of a direct
expansion may well be a property access, whatever the operation around the call does with it.
-/
namespace StaticInliner

namespace Expr

/-- A property access. -/
def isReference : Expr → Bool
  | .member _ _ | .index _ _ => true
  | _ => false

/-- The operand that an operation takes as a reference. -/
def referred? : Expr → Option Expr
  | .call callee _ => some callee
  | .assign target _ _ => some target
  | .unary .delete operand => some operand
  | _ => none

end Expr

/-- The function returns a property access, and nothing has to be evaluated before it. -/
def Inlining.YieldsReference (i : Inlining) : Prop :=
  (∃ expr ∈ i.definition.function.substitutable?, expr.isReference = true) ∧
    i.expansion.prelude = [] ∧ Expr.anySideEffects i.args = false

/-- What an operation takes as a reference is a property access if it was one before, or if
it was a call whose expansion yields one. -/
def KeepsReference (history : List Inlining) (e e' : Expr) : Prop :=
  ∀ operand ∈ e.referred?, ∀ operand' ∈ e'.referred?,
    (operand'.isReference = true ↔ operand.isReference = true ∨
      operand.isCall = true ∧
        ∃ i ∈ history, i.Performed ∧ i.YieldsReference ∧ operand' = i.expansion.value)

mutual

/-- An expression after some of its calls have been expanded. A relation is claimed of every
operation that is kept. -/
inductive Expr.Becomes (history : List Inlining) (R : Expr → Expr → Prop) : Expr → Expr → Prop
  | operation {e : Expr} {operands : List Expr} : e.ownsLayer = false →
    List.Forall₂ (Expr.Becomes history R) e.children operands → R e (e.withOperands operands) →
    Expr.Becomes history R e (e.withOperands operands)
  | expanded {e : Expr} {i : Inlining} : i ∈ history → i.Performed → e.isCall = true →
    List.Forall₂ (Expr.Becomes history R) e.children (i.callee :: i.args) →
    Expr.Becomes history R e i.expansion.value
  | literal {fn : FunctionLit} {body : List Stmt} : Stmt.BecomesAll history R fn.body body →
    Expr.Becomes history R (.function fn) (.function ⟨fn.id, fn.name, fn.params, body⟩)

inductive Stmt.Becomes (history : List Inlining) (R : Expr → Expr → Prop) : Stmt → Stmt → Prop
  | parts {s : Stmt} {head : Option Expr} {bodies : List (List Stmt)} : s.function? = none →
    Option.Rel (Expr.Becomes history R) s.head? head →
    List.Forall₂ (Stmt.BecomesAll history R) s.bodies bodies →
    Stmt.Becomes history R s (s.withParts head bodies)
  | function {fn : FunctionLit} {body : List Stmt} : Stmt.BecomesAll history R fn.body body →
    Stmt.Becomes history R (.function fn) (.function ⟨fn.id, fn.name, fn.params, body⟩)

/-- Each statement may get statements of expansions before it, and one that only reads what
they declare is dropped. -/
inductive Stmt.BecomesAll (history : List Inlining) (R : Expr → Expr → Prop) :
    List Stmt → List Stmt → Prop
  | nil : Stmt.BecomesAll history R [] []
  | kept {s s' : Stmt} {rest rest' prelude : List Stmt} : Stmt.Becomes history R s s' →
    (∀ p ∈ prelude, ∃ i ∈ history, p ∈ i.expansion.prelude) → Stmt.BecomesAll history R rest rest' →
    Stmt.BecomesAll history R (s :: rest) (prelude ++ s' :: rest')
  | dropped {s s' : Stmt} {rest rest' prelude : List Stmt} : Stmt.Becomes history R s s' →
    (∀ p ∈ prelude, ∃ i ∈ history, p ∈ i.expansion.prelude) →
    CallWalk.readsOwnResult prelude s' = true → Stmt.BecomesAll history R rest rest' →
    Stmt.BecomesAll history R (s :: rest) (prelude ++ rest')

end

/-- A program after some of its calls have been expanded. -/
def Program.Becomes (history : List Inlining) (R : Expr → Expr → Prop)
    (program program' : Program) : Prop :=
  List.Forall₂ (fun unit unit' => unit'.id = unit.id ∧ unit'.name = unit.name ∧
    Stmt.BecomesAll history R unit.body unit'.body) program.units program'.units

section Values

namespace Direct

/-- A substitution in the making, after some arguments: something has to be evaluated first
if there is a temporary or an argument with side effects, and no property access stands for a
parameter. -/
structure Build.Settled (args : List Expr) (build : Build) : Prop where
  sequence : build.sequence = [] ↔ build.prelude = [] ∧ Expr.anySideEffects args = false
  bindings : ∀ binding ∈ build.bindings, binding.2.isReference = false

/-- One more argument leaves the substitution settled. -/
theorem Build.Settled.bindParam {args : List Expr} {build : Build} (h : build.Settled args)
    (target : Target) (param : String) (arg : Expr) (later : List Expr) :
    (bindParam target param arg later build).Settled (args ++ [arg]) := by
  have heffects :
      Expr.anySideEffects (args ++ [arg]) = (Expr.anySideEffects args || arg.hasSideEffects) := by
    simp only [Expr.anySideEffects_eq_any, List.any_append, List.any_cons, List.any_nil,
      Bool.or_false]
  unfold Direct.bindParam
  split
  · split
    · next harg => exact ⟨by simp [heffects, harg], h.bindings⟩
    · next harg =>
      rw [Bool.not_eq_true] at harg
      exact ⟨by rw [heffects, harg, Bool.or_false, h.sequence], h.bindings⟩
  · split
    · next hdup =>
      have harg : arg.hasSideEffects = false ∧ arg.isReference = false := by
        cases arg <;> first | exact ⟨rfl, rfl⟩ | cases hdup
      refine ⟨?_, List.forall_mem_cons.mpr ⟨harg.2, h.bindings⟩⟩
      rw [heffects, harg.1, Bool.or_false]
      exact h.sequence
    · exact ⟨by simp, List.forall_mem_cons.mpr ⟨rfl, h.bindings⟩⟩

/-- A substitution is settled after all its arguments. -/
theorem settled_bindParams (target : Target) (params : List String) (args : List Expr)
    (ctx : Context) : (bindParams target params args ⟨[], [], [], ctx⟩).Settled args := by
  have heffects (first second : List Expr) : Expr.anySideEffects (first ++ second) =
      (Expr.anySideEffects first || Expr.anySideEffects second) := by
    simp only [Expr.anySideEffects_eq_any, List.any_append]
  obtain ⟨extras, last, ⟨done, hlast, heq⟩, hdone⟩ := bindParams_run target
    (fun _ rest build => ∃ done, build.Settled done ∧
      Expr.anySideEffects (done ++ rest) = Expr.anySideEffects args)
    (fun param _ rest build h => by
      obtain ⟨done, hsettled, heq⟩ := h
      refine ⟨_, hsettled.bindParam target param (rest.headD .undefined) rest.tail, ?_⟩
      -- a missing argument is `undefined`, which has no side effects
      rw [← heq, List.append_assoc, heffects, heffects done]
      cases rest <;> rfl)
    params args ⟨[], [], [], ctx⟩ ⟨[], ⟨⟨fun _ => ⟨rfl, rfl⟩, fun _ => rfl⟩, List.forall_mem_nil _⟩,
      rfl⟩
  rw [hdone]
  refine ⟨?_, hlast.bindings⟩
  rw [Build.withExcess, List.append_eq_nil_iff, hlast.sequence, ← heq, heffects,
    Bool.or_eq_false_iff, and_assoc, Expr.anySideEffects_eq_any extras, List.filter_eq_nil_iff,
    List.any_eq_false]

/-- Substitution makes no property access and removes none. -/
theorem isReference_substitute {bindings : Bindings}
    (h : ∀ binding ∈ bindings, binding.2.isReference = false) (e : Expr) :
    (e.substitute bindings).isReference = e.isReference := by
  cases e with
  | ident name =>
    rw [Expr.substitute]
    cases hlookup : bindings.lookup name with
    | none => rfl
    | some value =>
      obtain ⟨first, second, rfl, -⟩ := List.lookup_eq_some_iff.mp hlookup
      exact h (name, value) (by simp)
  | _ => rfl

/-- An expansion is a property access if the function returns one and nothing precedes it. -/
theorem isReference_inline (fn : FunctionLit) (expr : Expr) (args : List Expr) (scope : Nat)
    (ctx : Context) : let done := inline fn expr args scope ctx
    done.1.value.isReference = true ↔
      expr.isReference = true ∧ done.1.prelude = [] ∧ Expr.anySideEffects args = false := by
  let target : Target := ⟨expr, (expr.lateReads fn.params {}).late, scope⟩
  let build := bindParams target fn.params args ⟨[], [], [], ctx⟩
  have hbuild : build.Settled args := settled_bindParams target fn.params args ctx
  change (if build.sequence.isEmpty then expr.substitute build.bindings
      else .sequence (build.sequence ++ [expr.substitute build.bindings])).isReference = true ↔
    expr.isReference = true ∧ build.prelude = [] ∧ Expr.anySideEffects args = false
  rw [← hbuild.sequence, ← List.isEmpty_iff]
  split
  · next hempty => rw [isReference_substitute hbuild.bindings, hempty, eq_self_iff_true, and_true]
  · next hempty => simp [Expr.isReference, hempty]

end Direct

/-- When the value that takes the place of a call is a property access. -/
theorem Inlining.Performed.isReference_value {i : Inlining} (h : i.Performed) :
    i.expansion.value.isReference = true ↔ i.YieldsReference := by
  obtain ⟨-, ⟨expr, hexpr, hdone⟩ | ⟨hnone, -, hdone⟩⟩ := h.expansion_cases
  · rw [YieldsReference, hexpr, hdone]
    simp only [Option.mem_some_iff, exists_eq_left']
    exact Direct.isReference_inline i.definition.function expr i.args i.site.scope i.before
  · -- the result variable of a block
    rw [YieldsReference, hnone, hdone]
    refine ⟨fun hvalue => ?_, fun hyields => ?_⟩
    · cases hvalue
    · obtain ⟨⟨expr, hexpr, -⟩, -⟩ := hyields
      cases hexpr

end Values

section Operations

variable {history : List Inlining} {R : Expr → Expr → Prop}

theorem Expr.isReference_withOperands (e : Expr) (operands : List Expr) :
    (e.withOperands operands).isReference = e.isReference := by
  unfold withOperands
  split <;> rfl

/-- The operand taken as a reference is the first one. -/
theorem Expr.referred?_withOperands {e r : Expr} (hr : e.referred? = some r)
    {P : Expr → Expr → Prop} {operands : List Expr} (h : List.Forall₂ P e.children operands) :
    ∃ r', (e.withOperands operands).referred? = some r' ∧ P r r' := by
  cases e with
  | call callee args =>
    cases hr
    cases h with
    | cons hfirst _ => exact ⟨_, rfl, hfirst⟩
  | assign target op value =>
    cases hr
    cases h with
    | cons hfirst hrest =>
      cases hrest with
      | cons _ hnil =>
        cases hnil
        exact ⟨_, rfl, hfirst⟩
  | unary op operand =>
    cases op with
    | delete =>
      cases hr
      cases h with
      | cons hfirst hnil =>
        cases hnil
        exact ⟨_, rfl, hfirst⟩
    | _ => cases hr
  | _ => cases hr

/-- What becomes of an expression is a property access if it is one itself, or if it is a
call whose expansion yields one. -/
theorem Expr.Becomes.isReference_iff {e e' : Expr} (h : e.Becomes history R e') :
    e'.isReference = true ↔ e.isReference = true ∨
      e.isCall = true ∧ ∃ i ∈ history, i.Performed ∧ i.YieldsReference ∧
        e' = i.expansion.value := by
  constructor
  · intro hreference
    cases h with
    | operation _ _ _ => exact .inl (isReference_withOperands e _ ▸ hreference)
    | expanded hi hperformed hcall _ =>
      exact .inr ⟨hcall, _, hi, hperformed, hperformed.isReference_value.mp hreference, rfl⟩
    | literal _ => cases hreference
  · rintro (hreference | ⟨-, i, -, hperformed, hyields, rfl⟩)
    · cases h with
      | operation _ _ _ => exact (isReference_withOperands e _).trans hreference
      | expanded _ _ hcall _ =>
        cases e with
        | member _ _ | index _ _ => cases hcall
        | _ => cases hreference
      | literal _ => cases hreference
    · exact hperformed.isReference_value.mpr hyields

theorem keepsReference {e : Expr} {operands : List Expr}
    (h : List.Forall₂ (Expr.Becomes history R) e.children operands) :
    KeepsReference history e (e.withOperands operands) := by
  intro operand hoperand operand' hoperand'
  obtain ⟨first, hfirst, hbecomes⟩ := Expr.referred?_withOperands hoperand h
  obtain rfl : first = operand' := Option.some.inj (hfirst.symm.trans hoperand')
  exact hbecomes.isReference_iff

/-- An operation that is kept keeps its reference if its operands become theirs. -/
theorem Expr.Becomes.keeping {e : Expr} (hlayer : e.ownsLayer = false) {operands : List Expr}
    (h : List.Forall₂ (Expr.Becomes history (KeepsReference history)) e.children operands) :
    e.Becomes history (KeepsReference history) (e.withOperands operands) :=
  .operation hlayer h (keepsReference h)

end Operations

section Walk

variable {history : List Inlining}

/-- Where nothing is expanded, everything becomes itself. -/
theorem byParts_becomes_refl (history : List Inlining) : ByParts
    (fun e => e.Becomes history (KeepsReference history) e)
    (fun s => s.Becomes history (KeepsReference history) s)
    (fun list => Stmt.BecomesAll history (KeepsReference history) list list) where
  operation e hlayer ih := by
    have h := Expr.Becomes.keeping hlayer (List.forall₂_same.mpr ih)
    rwa [Expr.withOperands_children] at h
  literal fn ih := by
    obtain ⟨id, name, params, body⟩ := fn
    exact .literal ih
  declaration fn ih := by
    obtain ⟨id, name, params, body⟩ := fn
    exact .function ih
  statement s hfn hhead hbodies := by
    have hhead' : Option.Rel (Expr.Becomes history (KeepsReference history)) s.head? s.head? := by
      cases hs : s.head? with
      | none => exact .none
      | some e => exact .some (hhead e hs)
    have h := Stmt.Becomes.parts hfn hhead' (List.forall₂_same.mpr hbodies)
    rwa [Stmt.withParts_parts hfn] at h
  list stmts h := by
    induction stmts with
    | nil => exact .nil
    | cons s rest ih =>
      obtain ⟨hfirst, hrest⟩ := List.forall_mem_cons.mp h
      exact .kept hfirst (fun _ hp => (List.not_mem_nil hp).elim) (ih hrest)

namespace CallWalk

variable {env : Env}

/-- What the walk makes of an expression. -/
def ExprBecomes (env : Env) (history : List Inlining) (e : Expr) : Prop :=
  ∀ scope spot state, exprTrace env scope spot e state ⊆ history →
    e.Becomes history (KeepsReference history) (expr env scope e state).1

/-- What the walk makes of a statement. -/
def StmtBecomes (env : Env) (history : List Inlining) (s : Stmt) : Prop :=
  ∀ scope place done rest state, stmtTrace env scope place done rest s state ⊆ history →
    s.Becomes history (KeepsReference history) (stmt env scope s state).1

/-- The operands that a walk leaves are what the operands become. -/
theorem becomes_left {scope : Nat} {trace : List Inlining} (hsub : trace ⊆ history)
    {es es' : List Expr} (ih : ∀ e ∈ es, ExprBecomes env history e)
    (h : List.Forall₂ (Left env scope trace) es es') :
    List.Forall₂ (Expr.Becomes history (KeepsReference history)) es es' := by
  refine ((List.forall₂_and_left _ _).mpr ⟨ih, h⟩).imp ?_
  rintro e e' ⟨he, hleft⟩
  cases hleft with
  | same => exact (byParts_becomes_refl history).expr e
  | walked spot state htrace => exact he scope spot state (List.Subset.trans htrace hsub)

/-- The step at an operation. -/
theorem becomes_operation {e : Expr} (hlayer : e.ownsLayer = false)
    (ih : ∀ operand ∈ e.children, ExprBecomes env history operand) : ExprBecomes env history e := by
  intro scope spot state hsub
  obtain ⟨operands, hleft, hdone⟩ := expr_left hlayer spot
  have hoperands := becomes_left hsub ih hleft
  rcases hdone with hdone | ⟨i, hi, hperformed, hcall, rfl, hdone⟩
  · rw [hdone]
    exact .keeping hlayer hoperands
  · rw [hdone]
    exact .expanded (hsub hi) hperformed hcall hoperands

/-- What waits to be put before the statement belongs to expansions. -/
def State.Waits (history : List Inlining) (state : State) : Prop :=
  ∀ p ∈ state.prelude, ∃ i ∈ history, p ∈ i.expansion.prelude

/-- The statements that a call leaves waiting belong to its expansion. -/
theorem waits_finishCall {scope : Nat} {state : State} (before : Progress) (spot : Spot)
    (callee : Expr) (args : List Expr)
    (hsub : callTrace env scope before spot callee args state ⊆ history)
    (h : state.Waits history) :
    (finishCall env scope before callee args state).2.Waits history := by
  rcases finishCall_cases env scope before spot callee args state with
    ⟨skipped, log, hdone, -⟩ | ⟨fault, hdone, -⟩ |
    ⟨definition, expansion, after, log, -, hdone, htrace⟩
  · rw [hdone]
    exact h
  · rw [hdone]
    exact h
  · rw [hdone]
    rw [htrace] at hsub
    intro p hp
    rcases List.mem_append.mp hp with hp | hp
    · exact h p hp
    · exact ⟨_, hsub List.mem_cons_self, hp⟩

/-- The run over a list of expressions. -/
theorem waits_exprs {scope : Nat} (spot : Spot) (node : Expr) (before : List Expr) {es : List Expr}
    (fits : before.length + es.length = node.children.length)
    (ih : ∀ e ∈ es, ∀ spot state, exprTrace env scope spot e state ⊆ history →
      state.Waits history → (expr env scope e state).2.Waits history) {state : State}
    (hsub : exprsTrace env scope spot node before es fits state ⊆ history)
    (h : state.Waits history) :
    (exprs env scope es state).2.Waits history := by
  induction es generalizing before state with
  | nil => exact h
  | cons e rest ih' =>
    obtain ⟨hfirst, hrest⟩ := List.forall_mem_cons.mp ih
    rw [exprsTrace, List.append_subset] at hsub
    exact ih' _ _ hrest hsub.2 (hfirst _ _ hsub.1 h)

/-- The walk of an expression leaves only statements of expansions waiting. -/
theorem waits_expr (e : Expr) {scope : Nat} (spot : Spot) (state : State)
    (hsub : exprTrace env scope spot e state ⊆ history) (h : state.Waits history) :
    (expr env scope e state).2.Waits history := by
  induction e using Expr.byOperands generalizing spot state with
  | operation e hlayer ih =>
    by_cases hgo : state.fault.isSome = true
    · rw [expr_stopped hgo]
      exact h
    have hnone := Option.not_isSome_iff_eq_none.mp hgo
    cases hwalks : e.walksOperands with
    | true =>
      rw [exprTrace_operands hwalks hnone] at hsub
      rw [expr_operands hwalks hnone]
      have hexprs := waits_exprs spot e [] (Nat.zero_add _) ih hsub h
      unfold State.passing
      split <;> exact hexprs
    | false =>
      cases e with
      | ident name =>
        simp only [expr, if_neg hgo]
        split <;> exact h
      | call callee args =>
        obtain ⟨hcallee, hargs⟩ := List.forall_mem_cons.mp ih
        simp only [exprTrace, if_neg hgo, List.append_subset] at hsub
        obtain ⟨⟨hfirst, hrest⟩, hcall⟩ := hsub
        simp only [expr, if_neg hgo]
        refine waits_finishCall _ spot _ _ hcall (waits_exprs spot _ _ _ hargs hrest ?_)
        cases hknown : isKnownCallee env state.ctx.scopes scope callee with
        | true => exact h
        | false =>
          rw [hknown] at hfirst
          exact hcallee _ state hfirst h
      | assign target op value =>
        cases target with
        | ident name =>
          simp only [exprTrace, if_neg hgo] at hsub
          simp only [expr, if_neg hgo]
          exact ih value (by simp [Expr.children]) _ state hsub h
        | _ => cases hwalks
      | logical op left right =>
        simp only [exprTrace, if_neg hgo, List.append_subset] at hsub
        simp only [expr, if_neg hgo]
        have hleft := ih left (by simp [Expr.children]) _ state hsub.1 h
        exact ih right (by simp [Expr.children]) _ _ hsub.2 hleft
      | conditional condition thenExpr elseExpr =>
        simp only [exprTrace, if_neg hgo, List.append_subset] at hsub
        simp only [expr, if_neg hgo]
        have hcondition := ih condition (by simp [Expr.children]) _ state hsub.1.1 h
        have hthen := ih thenExpr (by simp [Expr.children]) _ _ hsub.1.2 hcondition
        exact ih elseExpr (by simp [Expr.children]) _ _ hsub.2 hthen
      | function _ => cases hlayer
      | _ => cases hwalks
  | literal fn =>
    obtain ⟨id, name, params, body⟩ := fn
    rw [expr]
    split
    · exact h
    · split <;> exact h

/-- So does the walk of a statement. -/
theorem waits_stmt {scope : Nat} {s : Stmt} {place : Place} {done rest : List Stmt} {state : State}
    (hsub : stmtTrace env scope place done rest s state ⊆ history) (h : state.Waits history) :
    (stmt env scope s state).2.Waits history := by
  cases hfn : s.function? with
  | some fn =>
    obtain rfl := Stmt.eq_function hfn
    obtain ⟨id, name, params, body⟩ := fn
    rw [stmt]
    split <;> exact h
  | none =>
    obtain ⟨places, -, -, htrace⟩ := stmtTrace_parts env scope state hfn place done rest
    rw [htrace, List.append_subset] at hsub
    rw [stmt_parts hfn]
    change (head env scope s state).2.Waits history
    cases hs : s.head? with
    | none =>
      rw [head_none hs]
      exact h
    | some e =>
      obtain ⟨hasHead, hhead⟩ := headTrace_some env scope state hs place done rest
      rw [head_some hs]
      refine waits_expr e _ _ (hhead ▸ hsub.1) ?_
      unfold State.entering
      split <;> exact h

/-- The run over a list of statements. -/
theorem becomes_stmts {list : List Stmt} (ih : ∀ s ∈ list, StmtBecomes env history s) (scope : Nat)
    (place : Place) (done : List Stmt) (state : State)
    (hsub : stmtsTrace env scope place done list state ⊆ history) :
    Stmt.BecomesAll history (KeepsReference history) list (stmts env scope list state).1 := by
  induction list generalizing done state with
  | nil => exact .nil
  | cons s rest ih' =>
    obtain ⟨hfirst, hrest⟩ := List.forall_mem_cons.mp ih
    rw [stmtsTrace] at hsub
    rw [stmts]
    by_cases hgo : state.fault.isSome = true
    · rw [if_pos hgo]
      exact (byParts_becomes_refl history).stmts _
    · rw [if_neg hgo, List.append_subset] at hsub
      have hbecomes := hfirst scope place done rest state.begin hsub.1
      have hwaits := waits_stmt hsub.1 (fun _ hp => (List.not_mem_nil hp).elim)
      have hothers := ih' hrest _ _ hsub.2
      simp only [if_neg hgo, splice]
      split
      · -- what was waiting when the walk stopped is lost
        exact .kept hbecomes (fun _ hp => (List.not_mem_nil hp).elim) hothers
      · split
        · next hreads => exact .dropped hbecomes hwaits hreads hothers
        · rw [List.append_assoc]
          exact .kept hbecomes hwaits hothers

/-- The step at a function literal. -/
theorem becomes_literal {fn : FunctionLit} (ih : ∀ s ∈ fn.body, StmtBecomes env history s) :
    ExprBecomes env history (.function fn) := by
  obtain ⟨id, name, params, body⟩ := fn
  intro scope spot state hsub
  have hsame := (byParts_becomes_refl history).expr (.function ⟨id, name, params, body⟩)
  rw [exprTrace] at hsub
  rw [expr]
  by_cases hgo : state.fault.isSome = true
  · rw [if_pos hgo]
    exact hsame
  · rw [if_neg hgo] at hsub ⊢
    cases hscope : state.ctx.scopes.functionScope? id with
    | none => exact hsame
    | some inner =>
      simp only [hscope] at hsub
      exact .literal (becomes_stmts ih inner _ [] state hsub)

/-- The step at a function declaration. -/
theorem becomes_declaration {fn : FunctionLit} (ih : ∀ s ∈ fn.body, StmtBecomes env history s) :
    StmtBecomes env history (.function fn) := by
  obtain ⟨id, name, params, body⟩ := fn
  intro scope place done rest state hsub
  rw [stmtTrace] at hsub
  rw [stmt]
  cases hscope : state.ctx.scopes.functionScope? id with
  | none => exact (byParts_becomes_refl history).stmt (.function ⟨id, name, params, body⟩)
  | some inner =>
    simp only [hscope] at hsub
    exact .function (becomes_stmts ih inner _ [] state hsub)

/-- The run over the bodies of a statement. -/
theorem becomes_bodies {list : List (List Stmt)}
    (ih : ∀ body ∈ list, ∀ s ∈ body, StmtBecomes env history s) (scope : Nat) (places : List Place)
    (hplaces : places.length = list.length) (state : State)
    (hsub : bodiesTrace env scope places list state ⊆ history) :
    List.Forall₂ (Stmt.BecomesAll history (KeepsReference history)) list
      (bodies env scope list state).1 := by
  induction list generalizing places state with
  | nil => exact .nil
  | cons body rest ih' =>
    obtain ⟨place, places, rfl⟩ := List.exists_cons_of_length_eq_add_one hplaces
    obtain ⟨hfirst, hrest⟩ := List.forall_mem_cons.mp ih
    rw [bodiesTrace, List.append_subset] at hsub
    exact .cons (becomes_stmts hfirst scope place [] state hsub.1)
      (ih' hrest places (Nat.succ.inj hplaces) _ hsub.2)

/-- The step at the expression of a statement. -/
theorem becomes_head {s : Stmt} (ih : ∀ e ∈ s.head?, ExprBecomes env history e) (scope : Nat)
    (place : Place) (done rest : List Stmt) (state : State)
    (hsub : headTrace env scope place done rest s state ⊆ history) :
    Option.Rel (Expr.Becomes history (KeepsReference history)) s.head?
      (head env scope s state).1 := by
  cases hs : s.head? with
  | none =>
    rw [head_none hs]
    exact .none
  | some e =>
    obtain ⟨hasHead, htrace⟩ := headTrace_some env scope state hs place done rest
    rw [head_some hs]
    exact .some (ih e hs scope _ _ (htrace ▸ hsub))

/-- Every tree becomes what the walk makes of it. -/
theorem byParts_becomes (env : Env) (history : List Inlining) :
    ByParts (ExprBecomes env history) (StmtBecomes env history)
      fun list => ∀ s ∈ list, StmtBecomes env history s where
  operation _ := becomes_operation
  literal _ := becomes_literal
  declaration _ := becomes_declaration
  list _ ih := ih
  statement s hfn hhead hbodies := by
    intro scope place done rest state hsub
    obtain ⟨places, hplaces, -, htrace⟩ := stmtTrace_parts env scope state hfn place done rest
    rw [htrace, List.append_subset] at hsub
    rw [stmt_parts hfn]
    exact .parts hfn (becomes_head hhead scope place done rest state hsub.1)
      (becomes_bodies hbodies scope places hplaces _ hsub.2)

/-- The run over the source units of a program. -/
theorem becomes_units {table : DefinitionTable} (done list : List SourceUnit) (state : State)
    (hsub : unitsTrace table done list state ⊆ history) :
    Program.Becomes history (KeepsReference history) ⟨list⟩ ⟨(units table list state).1⟩ := by
  have hsame (list : List SourceUnit) :
      Program.Becomes history (KeepsReference history) ⟨list⟩ ⟨list⟩ :=
    List.forall₂_same.mpr fun unit _ => ⟨rfl, rfl, (byParts_becomes_refl history).stmts unit.body⟩
  induction list generalizing done state with
  | nil => exact .nil
  | cons unit rest ih =>
    rw [unitsTrace] at hsub
    rw [units]
    by_cases hgo : state.fault.isSome = true
    · rw [if_pos hgo]
      exact hsame _
    · rw [if_neg hgo] at hsub ⊢
      cases hscope : state.ctx.scopes.unitScope? unit.id with
      | none => exact hsame _
      | some scope =>
        simp only [hscope, List.append_subset] at hsub
        have hbody :=
          becomes_stmts ((byParts_becomes ⟨table, unit.name⟩ history).stmts unit.body) scope _ []
          state hsub.1
        exact .cons ⟨rfl, rfl, hbody⟩ (ih _ _ hsub.2)

end CallWalk

end Walk

/-- Expanding calls keeps all operations but the calls that are expanded. What an operation
takes as a reference is a property access if it was one before, or if it was a call to a
function that returns one and needs nothing evaluated before it. -/
theorem Program.references_expandCalls (program : Program) (table : DefinitionTable)
    (ctx : Context) :
    let history := program.inlinings table ctx
    program.Becomes history (KeepsReference history) (program.expandCalls table ctx).program :=
  CallWalk.becomes_units [] program.units _ (List.Subset.refl _)

section Detached

/-- `A.method = function(o) { return o.m; }`, and a function that calls what it returns. -/
def Program.detached : Program :=
  ⟨[⟨0, "host.js",
      [.expr (.assign (.member (.ident "A") "method") none
        (.function ⟨0, none, ["o"], [.ret (some (.member (.ident "o") "m"))]⟩))]⟩,
    ⟨1, "main.js",
      [.function ⟨1, some "main", ["o"],
        [.ret (some (.call (.call (.member (.ident "A") "method") [.ident "o"]) []))]⟩]⟩]⟩

/-- The function that was returned is called as a method of the object. -/
theorem Program.detached_method :
    let program := Program.detached
    let table := (program.collect "host.js" ["method"] .lastWins).table
    let ctx := Context.ofProgram program .counter
    program.validate = .ok () ∧ ∃ i ∈ program.inlinings table ctx, ∃ frame ∈ i.spot.path.head?,
      (frame.fill (.call i.callee i.args)).referred?.map Expr.isReference = some false ∧
        (frame.fill i.expansion.value).referred?.map Expr.isReference = some true := by
  decide +kernel

end Detached

end StaticInliner
