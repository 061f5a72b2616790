import StaticInliner.Proofs.Ahead
import StaticInliner.Proofs.Assigned

/-!
Variables read ahead of a block. The walk notes that some variable of a function has been read,
also in an operand that may not be evaluated, and puts a block ahead of such a read only if the
arguments, which run with the block, have no side effects. Then the block assigns to none of
these variables itself. But it may run other code that does: a function literal of the caller
that has got out to where the body can call it is not looked for.
-/
namespace StaticInliner

section Definitions

/-- What has been evaluated of the operation when it comes to the operand left out. Of an
assignment to a variable this is nothing. -/
def Frame.evaluated (frame : Frame) : List Expr :=
  match frame.node with
  | .assign (.ident _) _ _ => []
  | _ => frame.before

/-- The name occurs in the expression outside of function literals. -/
def Expr.Mentions (e : Expr) (name : String) : Prop :=
  ∃ node ∈ e.nodes .ownLayer, node.reads name = true

/-- The name has been read in the statement before the call, and still is. -/
def Inlining.ReadsBefore (i : Inlining) (name : String) : Prop :=
  ∃ frame ∈ i.spot.path, ∃ operand ∈ frame.evaluated, operand.Mentions name

/-- The name is a variable of a function around a scope, and no function in the table refers to
itself by it. -/
structure DefinitionTable.Watches (table : DefinitionTable) (origin : ScopeTree) (scope : Nat)
    (name : String) : Prop where
  bound : origin.isBoundInFunction scope name = true
  other : ∀ definition ∈ table.definitions,
    name ∈ definition.function.openNames → definition.function.name ≠ some name

end Definitions

section Mentions

variable {e : Expr} {name : String}

theorem Expr.mentions_iff : e.Mentions name ↔ Node.expr (.ident name) ∈ e.nodes .ownLayer := by
  constructor
  · rintro ⟨node, hnode, hreads⟩
    unfold Node.reads at hreads
    split at hreads
    · rwa [beq_iff_eq.mp hreads] at hnode
    · cases hreads
  · exact fun hnode => ⟨_, hnode, beq_self_eq_true name⟩

theorem Expr.mentions_operation (hlayer : e.ownsLayer = false) (hname : ∀ name, e ≠ .ident name) :
    e.Mentions name ↔ ∃ operand ∈ e.children, operand.Mentions name := by
  have hself : Node.expr (.ident name) ≠ .expr e := fun heq => hname name (Node.expr.inj heq).symm
  simp only [mentions_iff, nodes_operation _ hlayer, List.mem_cons, hself, false_or, mem_nodesAll]

theorem Expr.mentions_ident {other : String} : (Expr.ident other).Mentions name ↔ name = other := by
  simp [mentions_iff, nodes]

theorem Expr.not_mentions_function (fn : FunctionLit) : ¬ (Expr.function fn).Mentions name := by
  obtain ⟨id, own, params, body⟩ := fn
  simp [mentions_iff, nodes]

/-- A dotted name has no side effects and mentions its first segment only. -/
theorem Expr.of_qualifiedName? {path : QualifiedName} (h : e.qualifiedName? = some path) :
    e.hasSideEffects = false ∧ ∀ name, e.Mentions name → path.root = name := by
  induction e using Expr.qualifiedName?.induct generalizing path with
  | case1 other =>
    refine ⟨rfl, fun name hname => ?_⟩
    rw [mentions_ident.mp hname]
    unfold qualifiedName? QualifiedName.ofSegments? at h
    split at h
    · cases h
      rfl
    · cases h
  | case2 object property ih =>
    obtain ⟨inner, hinner, hchild⟩ := Option.bind_eq_some_iff.mp h
    obtain ⟨hcalm, hroot⟩ := ih hinner
    refine ⟨hcalm, fun name hname => ?_⟩
    obtain ⟨operand, hoperand, hname⟩ := (mentions_operation rfl fun _ heq => by cases heq).mp hname
    rw [List.mem_singleton.mp hoperand] at hname
    rw [← hroot name hname]
    unfold QualifiedName.child? QualifiedName.ofSegments? at hchild
    split at hchild
    · cases hchild
      exact List.head_append_left inner.ne_nil
    · cases hchild
  | case3 e hident hmember =>
    unfold qualifiedName? at h
    split at h
    · exact absurd rfl (hident _)
    · exact absurd rfl (hmember _ _)
    · cases h

end Mentions

namespace Direct

/-- What is known of a substitution in the making if nothing is to be evaluated first: only
names and constants have been passed. -/
structure Build.Plain (args : List Expr) (build : Build) : Prop where
  sequence : ∀ e ∈ build.sequence, e.hasSideEffects = true
  bindings : build.sequence = [] → ∀ binding ∈ build.bindings, ∀ name ∈ binding.2.freeNames [],
    .ident name ∈ args

variable {args : List Expr} {build : Build}

/-- One parameter keeps the bindings plain. -/
theorem Build.Plain.bindParam (h : build.Plain args) (target : Target) (param : String) {arg : Expr}
    (harg : ∀ name, arg = .ident name → .ident name ∈ args) (later : List Expr) :
    (bindParam target param arg later build).Plain args := by
  have hsnoc {e : Expr} (he : e.hasSideEffects = true) (bindings : Bindings) (prelude : List Stmt)
      (ctx : Context) : Build.Plain args ⟨prelude, build.sequence ++ [e], bindings, ctx⟩ :=
    ⟨List.forall_mem_append.mpr ⟨h.sequence, List.forall_mem_singleton.mpr he⟩,
      fun hnil => absurd hnil (by simp)⟩
  unfold Direct.bindParam
  split
  · split
    · next heffects => exact hsnoc heffects _ _ _
    · exact h
  · split
    · next hdup =>
      refine { h with bindings := fun hnil =>
        List.forall_mem_cons.mpr ⟨fun name hname => ?_, h.bindings hnil⟩ }
      cases arg with
      | ident other =>
        obtain rfl := List.mem_singleton.mp hname
        exact harg name rfl
      | undefined | null | bool _ | number _ | string _ => cases hname
      | _ => cases hdup
    · exact hsnoc rfl _ _ _

theorem Build.Plain.bindParams (h : build.Plain args) (target : Target) (params : List String) :
    (bindParams target params args build).Plain args := by
  refine bindParams_keeps target (fun _ heq => nomatch heq)
    (fun param _ later _ harg h => h.bindParam target param harg later)
    (fun extras build _ h => ?_) params (fun arg harg name heq => heq ▸ harg) h
  refine ⟨List.forall_mem_append.mpr ⟨h.sequence, fun e he => (List.mem_filter.mp he).2⟩,
    fun hnil => ?_⟩
  exact h.bindings (List.append_eq_nil_iff.mp hnil).1

/-- A direct substitution without side effects mentions names that were passed, and names of
the body. -/
theorem mem_args_or_openNames {fn : FunctionLit} {expr : Expr} (h : fn.substitutable? = some expr)
    (args : List Expr) (scope : Nat) (ctx : Context) {name : String} :
    let value := (inline fn expr args scope ctx).1.value
    value.hasSideEffects = false → name ∈ value.freeNames [] →
      .ident name ∈ args ∨ name ∈ fn.openNames := by
  intro value hpure hname
  obtain ⟨-, hlit, -⟩ := FunctionLit.substitutable?_eq_some_iff.mp h
  let target : Target := ⟨expr, (expr.lateReads fn.params {}).late, scope⟩
  let build := bindParams target fn.params args ⟨[], [], [], ctx⟩
  have hstart : Build.Plain args ⟨[], [], [], ctx⟩ :=
    ⟨List.forall_mem_nil _, fun _ => List.forall_mem_nil _⟩
  have hplain : build.Plain args := hstart.bindParams target fn.params
  have hvalue : value = if build.sequence.isEmpty then expr.substitute build.bindings
      else .sequence (build.sequence ++ [expr.substitute build.bindings]) := rfl
  cases hsequence : build.sequence with
  | cons e rest =>
    have heffects := hplain.sequence e (hsequence ▸ List.mem_cons_self)
    rw [hvalue, hsequence, List.isEmpty_cons, if_neg Bool.false_ne_true, List.cons_append,
      Expr.hasSideEffects, Expr.anySideEffects, heffects] at hpure
    cases hpure
  | nil =>
    rw [hvalue, hsequence, List.isEmpty_nil, if_pos rfl,
      Expr.mem_freeNames_substitute hlit] at hname
    obtain ⟨old, hold, hname⟩ := hname
    cases hlookup : build.bindings.lookup old with
    | some value =>
      obtain ⟨first, second, hbindings, -⟩ := List.lookup_eq_some_iff.mp hlookup
      rw [hlookup] at hname
      exact .inl (hplain.bindings hsequence (old, value) (by rw [hbindings]; simp) name hname)
    | none =>
      rw [hlookup] at hname
      obtain rfl := List.mem_singleton.mp hname
      exact .inr ((mem_openNames_iff_lookup h rfl args ctx).mpr ⟨hold, hlookup⟩)

end Direct

section Effects

theorem Expr.isEffect_withOperands (e : Expr) (operands : List Expr) :
    (e.withOperands operands).isEffect = e.isEffect := by
  unfold withOperands
  split
  case h_8 op _ _ => cases op <;> rfl
  all_goals rfl

theorem Expr.isEffect_eq_false {e : Expr} (hwalks : e.walksOperands = true)
    (h : e.isImpure = false) :
    e.isEffect = false := by
  cases e with
  | call _ _ => cases hwalks
  | new _ _ | assign _ _ _ => cases h
  | unary op _ =>
    cases op with
    | delete => cases h
    | _ => rfl
  | _ => rfl

theorem Expr.ne_ident_of_walksOperands {e : Expr} (h : e.walksOperands = true) (name : String) :
    e ≠ .ident name := by
  rintro rfl
  cases h

end Effects

namespace CallWalk

section Notes

variable {table : DefinitionTable} {origin : ScopeTree} {scope : Nat} {state state' : State}

/-- The progress accounts for an expression: as long as it is pure, the expression has no side
effects; and if it has none, all reads in it have been noted. -/
structure Notes (table : DefinitionTable) (origin : ScopeTree) (scope : Nat) (state : State)
    (e : Expr) : Prop where
  calm : state.progress.pure = true → e.hasSideEffects = false
  reads : e.hasSideEffects = false → ∀ name, e.Mentions name → table.Watches origin scope name →
    state.progress.readLocal = true

namespace Notes

variable {e : Expr}

theorem later (h : Notes table origin scope state e)
    (hfollows : state.progress.Follows state'.progress) : Notes table origin scope state' e where
  calm hpure := h.calm (hfollows.pure hpure)
  reads hcalm name hname hwatched := hfollows.read (h.reads hcalm name hname hwatched)

/-- An operation all of whose operands are accounted for. -/
theorem operation (hlayer : e.ownsLayer = false) (hname : ∀ name, e ≠ .ident name)
    (heffect : state.progress.pure = true → e.isEffect = false)
    (h : ∀ operand ∈ e.children, Notes table origin scope state operand) :
    Notes table origin scope state e := by
  refine ⟨fun hpure => ?_, fun hcalm name hmention hwatched => ?_⟩
  · rw [Expr.hasSideEffects_operation, heffect hpure, Bool.false_or, List.any_eq_false]
    exact fun operand hoperand => Bool.eq_false_iff.mp ((h operand hoperand).calm hpure)
  · rw [Expr.hasSideEffects_operation, Bool.or_eq_false_iff, List.any_eq_false] at hcalm
    obtain ⟨operand, hoperand, hmention⟩ := (Expr.mentions_operation hlayer hname).mp hmention
    exact (h operand hoperand).reads (Bool.eq_false_iff.mpr (hcalm.2 operand hoperand)) name
      hmention hwatched

/-- An expression that may have side effects, after which nothing is pure. -/
theorem effect (heffects : e.hasSideEffects = true) (himpure : state.progress.pure = false) :
    Notes table origin scope state e where
  calm hpure := absurd hpure (Bool.eq_false_iff.mp himpure)
  reads hcalm := absurd heffects (Bool.eq_false_iff.mp hcalm)

/-- An operand that may not be evaluated. -/
theorem branch (h : Notes table origin scope state e) (before : Progress) :
    Notes table origin scope (closeBranch before e state) e where
  calm hpure := by
    have hcalm := (Bool.and_eq_true_iff.mp hpure).2
    rwa [Bool.not_eq_true'] at hcalm
  reads hcalm name hname hwatched :=
    Bool.or_eq_true_iff.mpr (.inr (h.reads hcalm name hname hwatched))

theorem ident {name : String}
    (h : table.Watches origin scope name → state.progress.readLocal = true) :
    Notes table origin scope state (.ident name) where
  calm _ := rfl
  reads _ _ hother hwatched := h (Expr.mentions_ident.mp hother ▸ hwatched)

theorem function (fn : FunctionLit) : Notes table origin scope state (.function fn) where
  calm _ := rfl
  reads _ _ hname := absurd hname (Expr.not_mentions_function fn)

/-- The name of a known function. -/
theorem callee (h : table.Names origin scope e) : Notes table origin scope state e := by
  obtain ⟨path, hpath, -, hunbound⟩ := h
  obtain ⟨hcalm, hroot⟩ := Expr.of_qualifiedName? (Option.filter_eq_some_iff.mp hpath).1
  refine ⟨fun _ => hcalm, fun _ name hname hwatched => ?_⟩
  rw [hroot name hname, hwatched.bound] at hunbound
  cases hunbound

end Notes

variable {env : Env}

theorem fault_passing (e : Expr) : (state.passing e).fault = state.fault := by
  unfold State.passing
  split <;> rfl

theorem follows_passing (e : Expr) : state.progress.Follows (state.passing e).progress := by
  unfold State.passing
  split
  · exact (Progress.Follows.refl _).impure
  · exact .refl _

/-- The walk of an expression accounts for what is left of it, unless it stops. -/
def ExprNotes (env : Env) (origin : ScopeTree) (e : Expr) : Prop :=
  ∀ (scope : Nat) (state : State), state.Within origin scope →
    (expr env scope e state).2.fault = none →
    Notes env.table origin scope (expr env scope e state).2 (expr env scope e state).1

/-- The run over a list of expressions. -/
theorem notes_exprs {es : List Expr} (hes : ∀ e ∈ es, ExprNotes env origin e)
    (h : state.Within origin scope) (hgoing : (exprs env scope es state).2.fault = none) :
    ∀ e ∈ (exprs env scope es state).1, Notes env.table origin scope
      (exprs env scope es state).2 e := by
  induction es generalizing state with
  | nil => exact List.forall_mem_nil _
  | cons e rest ih =>
    obtain ⟨hfirst, hrest⟩ := List.forall_mem_cons.mp hes
    have hgoingFirst : (expr env scope e state).2.fault = none := going_of_exprs hgoing
    refine List.forall_mem_cons.mpr ⟨?_, ih hrest (h.expr env e) hgoing⟩
    exact (hfirst scope state h hgoingFirst).later (follows_exprs env scope rest _)

/-- What an inlining leaves of the call. -/
theorem notes_inlined (h : state.Within origin scope) {i : Inlining} (hperformed : i.Performed)
    (htable : i.table = table) (hscope : i.site.scope = scope) (hbefore : i.before = state.ctx)
    (hargs : ∀ e ∈ i.args, Notes table origin scope state e) (before : Progress)
    (hprogress : state'.progress = progressAfter i.after.scopes scope before state.progress
      i.expansion) :
    Notes table origin scope state' i.expansion.value := by
  have hbound {name : String} (hwatched : table.Watches origin scope name) :
      i.before.scopes.isBoundInFunction i.site.scope name = true := by
    rw [hbefore, hscope]
    exact h.kept.bound scope name hwatched.bound
  obtain ⟨-, ⟨expr, hexpr, hdirect⟩ | ⟨-, -, hblock⟩⟩ := hperformed.expansion_cases
  · have hshape : i.expansion.shape = .direct := by rw [hdirect]; rfl
    refine ⟨fun hpure => ?_, fun hcalm name hname hwatched => ?_⟩
    · rw [hprogress] at hpure
      rcases progressAfter_direct i.after.scopes scope before state.progress hshape with ⟨hliteral,
        -⟩ | ⟨name, hvalue, -⟩ | heq
      · revert hliteral
        cases i.expansion.value with
        | undefined | null | bool _ | number _ | string _ => exact fun _ => rfl
        | _ => exact fun hliteral => absurd hliteral Bool.false_ne_true
      · rw [hvalue]
        rfl
      · rw [heq] at hpure
        exact absurd hpure Bool.false_ne_true
    · -- a variable around the call can only have been passed to it
      have hfree :=
        Expr.mem_freeNames List.not_mem_nil i.expansion.value (Expr.mentions_iff.mp hname)
      rw [hdirect] at hcalm hfree
      have hself := hwatched.other i.definition (htable ▸ hperformed.definition_mem)
      have harg :=
        (Direct.mem_args_or_openNames hexpr i.args i.site.scope i.before hcalm hfree).resolve_right
        (hperformed.notMem_openNames (hbound hwatched) hself)
      have hread := (hargs _ harg).reads rfl name (Expr.mentions_ident.mpr rfl) hwatched
      rw [hprogress]
      exact (follows_progressAfter before hshape).read hread
  · rw [hblock]
    refine .ident fun hwatched => ?_
    have hunbound :=
      (Block.drewAt_draw i.definition.function i.site.scope i.before).unbound _ List.mem_cons_self
    have hseen := ScopeTree.isBound_of_isBoundInFunction (hbound hwatched)
    exact absurd hseen (Bool.eq_false_iff.mp hunbound)

/-- The step at the end of a call. -/
theorem notes_finishCall (h : state.Within origin scope) {before : Progress} {callee : Expr}
    {args : List Expr} (hargs : ∀ e ∈ args, Notes env.table origin scope state e)
    (hgoing : (finishCall env scope before callee args state).2.fault = none) :
    Notes env.table origin scope (finishCall env scope before callee args state).2
      (finishCall env scope before callee args state).1 := by
  rcases finishCall_cases env scope before (.alone callee) callee args state with
    ⟨skipped, log, hdone, -⟩ | ⟨fault, hdone, -⟩ |
    ⟨definition, expansion, after, log, hperformed, hdone, -⟩
  · rw [hdone]
    exact .effect rfl rfl
  · rw [hdone] at hgoing
    cases hgoing
  · rw [hdone]
    exact notes_inlined h hperformed rfl rfl rfl hargs before rfl

section Operations

variable (hgo : state.fault = none) (h : state.Within origin scope)

include hgo h

/-- The step at an operation whose operands are walked in order. -/
theorem notes_operands {e : Expr} (hwalks : e.walksOperands = true)
    (ih : ∀ operand ∈ e.children, ExprNotes env origin operand)
    (hgoing : (expr env scope e state).2.fault = none) :
    Notes env.table origin scope (expr env scope e state).2 (expr env scope e state).1 := by
  rw [expr_operands hwalks hgo] at hgoing ⊢
  have hoperands := notes_exprs ih h ((fault_passing e).symm.trans hgoing)
  refine .operation ?_ (Expr.withOperands_ne_ident (Expr.ne_ident_of_walksOperands hwalks) _)
    (fun hpure => ?_) (fun operand hoperand => ?_)
  · rw [Expr.ownsLayer_withOperands]
    exact Expr.ownsLayer_of_walksOperands hwalks
  · rw [Expr.isEffect_withOperands]
    refine Expr.isEffect_eq_false hwalks (Bool.eq_false_iff.mpr fun himpure => ?_)
    rw [State.passing, if_pos himpure] at hpure
    exact absurd hpure Bool.false_ne_true
  · rw [Expr.children_withOperands (length_exprs _)] at hoperand
    exact (hoperands operand hoperand).later (follows_passing e)

/-- The step at a call. -/
theorem notes_call {callee : Expr} {args : List Expr} (hargs : ∀ e ∈ args, ExprNotes env origin e)
    (hgoing : (expr env scope (.call callee args) state).2.fault = none) :
    Notes env.table origin scope (expr env scope (.call callee args) state).2
      (expr env scope (.call callee args) state).1 := by
  let c := if isKnownCallee env state.ctx.scopes scope callee then (callee, state)
    else expr env scope callee state
  have hc : c.2.Within origin scope := by
    unfold c
    split
    · exact h
    · exact h.expr env callee
  have hexpr : expr env scope (.call callee args) state = finishCall env scope state.progress c.1
      (exprs env scope args c.2).1 (exprs env scope args c.2).2 := by
    simp only [expr, hgo, Option.isSome_none, Bool.false_eq_true, if_false]
    rfl
  rw [hexpr] at hgoing ⊢
  exact notes_finishCall (hc.exprs env args)
    (notes_exprs hargs hc (going_of_finishCall hgoing)) hgoing

/-- The step at a logical operator. -/
theorem notes_logical {op : LogicalOp} {left right : Expr} (hleft : ExprNotes env origin left)
    (hright : ExprNotes env origin right)
    (hgoing : (expr env scope (.logical op left right) state).2.fault = none) :
    Notes env.table origin scope (expr env scope (.logical op left right) state).2
      (expr env scope (.logical op left right) state).1 := by
  simp only [expr, hgo, Option.isSome_none, Bool.false_eq_true, if_false] at hgoing ⊢
  let l := expr env scope left state
  have hl : l.2.Within origin scope := h.expr env left
  have hgoingLeft : (l.2.setProgress .conditional).fault = none := going_of_expr hgoing
  refine .operation rfl (fun _ heq => by cases heq) (fun _ => rfl) (List.forall_mem_cons.mpr
    ⟨?_, List.forall_mem_singleton.mpr ?_⟩)
  · exact (hleft scope state h hgoingLeft).later (follows_closeBranch _ _ _)
  · exact (hright scope _ (hl.setProgress .conditional) hgoing).branch l.2.progress

/-- The step at a conditional. -/
theorem notes_conditional {condition thenExpr elseExpr : Expr}
    (hcondition : ExprNotes env origin condition) (hthen : ExprNotes env origin thenExpr)
    (helse : ExprNotes env origin elseExpr)
    (hgoing : (expr env scope (.conditional condition thenExpr elseExpr) state).2.fault = none) :
    Notes env.table origin scope (expr env scope (.conditional condition thenExpr elseExpr) state).2
      (expr env scope (.conditional condition thenExpr elseExpr) state).1 := by
  simp only [expr, hgo, Option.isSome_none, Bool.false_eq_true, if_false] at hgoing ⊢
  let c := expr env scope condition state
  let t := expr env scope thenExpr (c.2.setProgress .conditional)
  let closed := closeBranch c.2.progress t.1 t.2
  have hc : c.2.Within origin scope := h.expr env condition
  have ht : t.2.Within origin scope := (hc.setProgress .conditional).expr env thenExpr
  have hgoingThen : (closed.setProgress .conditional).fault = none := going_of_expr hgoing
  have hgoingCondition : (c.2.setProgress .conditional).fault = none := going_of_expr hgoingThen
  refine .operation rfl (fun _ heq => by cases heq) (fun _ => rfl) (List.forall_mem_cons.mpr
    ⟨?_, List.forall_mem_cons.mpr ⟨?_, List.forall_mem_singleton.mpr ?_⟩⟩)
  · exact (hcondition scope state h hgoingCondition).later
      ((follows_closeBranch c.2.progress t.1 t.2).trans (follows_closeBranch _ _ _))
  · have hbranch := (hthen scope _ (hc.setProgress .conditional) hgoingThen).branch c.2.progress
    exact hbranch.later (follows_closeBranch _ _ _)
  · exact (helse scope (closed.setProgress .conditional) ⟨ht.scope, ht.kept⟩ hgoing).branch
      closed.progress

end Operations

/-- The walk notes every local read of an expression. -/
theorem notes_expr (env : Env) (origin : ScopeTree) (e : Expr) : ExprNotes env origin e := by
  induction e using Expr.byOperands with
  | operation e hlayer ih =>
    intro scope state h hgoing
    have hgo := going_of_expr hgoing
    have hcases : Expr.Operations (ExprNotes env origin) fun e =>
        (expr env scope e state).2.fault = none →
          Notes env.table origin scope (expr env scope e state).2 (expr env scope e state).1 :=
      { operands := notes_operands hgo h
        ident := fun name _ => by
          simp only [expr, hgo, Option.isSome_none, Bool.false_eq_true, if_false]
          refine .ident fun hwatched => ?_
          rw [if_pos (h.kept.bound scope name hwatched.bound)]
          rfl
        call := fun _ => notes_call hgo h
        assign := fun _ _ => by
          simp only [expr, hgo, Option.isSome_none, Bool.false_eq_true, if_false]
          exact .effect rfl rfl
        logical := notes_logical hgo h
        conditional := notes_conditional hgo h }
    exact hcases.operation hlayer ih hgoing
  | literal fn =>
    intro scope state h hgoing
    obtain ⟨fn', hfn', -⟩ := expr_function env scope fn state
    rw [hfn']
    exact .function fn'

/-- What stands before a call has been noted, but for the variable of an assignment. -/
theorem Operands.notes {history : List Inlining} {s : Stmt} {node : Expr} {operands : List Expr}
    (h : Operands table origin history s scope state node operands) (hopen : state.Open)
    (hnode : ∀ name op value, node ≠ .assign (.ident name) op value) :
    ∀ operand ∈ operands, Notes table origin scope state operand := by
  induction h with
  | nil => exact List.forall_mem_nil _
  | callee _ _ hnames => exact List.forall_mem_singleton.mpr (.callee hnames)
  | target heq => exact absurd heq (hnode _ _ _)
  | snoc _ hlast ih =>
    obtain ⟨unit, spot, -, hwithin, -, hprecedes⟩ := hlast
    have hnotes := notes_expr ⟨table, unit⟩ origin _ scope _ hwithin (hprecedes.isOpen hopen).1
    exact List.forall_mem_append.mpr ⟨ih,
      List.forall_mem_singleton.mpr (hnotes.later hprecedes.follows)⟩

/-- A block is put ahead of a noted read only if the arguments have no side effects. -/
theorem Proper.args {earlier : List Inlining} {i : Inlining} (h : Proper table origin earlier i)
    (hshape : i.expansion.shape = .block) {name : String} (hname : i.ReadsBefore name)
    (hwatched : table.Watches origin i.site.scope name) : Expr.anySideEffects i.args = false := by
  obtain ⟨begun, hbegun⟩ := h.cleared hshape
  obtain ⟨frame, hframe, operand, hoperand, hmention⟩ := hname
  have hnotes : Notes table origin i.site.scope begun operand := by
    have hoperands := hbegun.ahead.operands frame hframe
    unfold Frame.evaluated at hoperand
    split at hoperand
    · cases hoperand
    · next hnode => exact hoperands.notes hbegun.isOpen hnode operand hoperand
  obtain ⟨hpure, hread⟩ := Progress.of_allowsBlock
    (hbegun.hoistable.symm.trans (h.performed.block hshape).1)
  exact hread (hnotes.reads (hnotes.calm hpure) name hmention hwatched)

end Notes

end CallWalk

/-- Where a block is put ahead of a read of a variable of the caller, the arguments have no
side effects, and the block assigns to the variable just where a function literal among the
arguments does; unless a function in the table refers to itself by the same name. -/
theorem Program.reads_passed (program : Program) (table : DefinitionTable) {ctx : Context}
    (hscopes : ctx.scopes.WellFormed) {i : Inlining} (hi : i ∈ program.inlinings table ctx)
    (hshape : i.expansion.shape = .block) {name : String} (hread : i.ReadsBefore name)
    (hlocal : ctx.scopes.isBoundInFunction i.site.scope name = true) :
    (∃ definition ∈ table.definitions, definition.function.name = some name ∧
        name ∈ definition.function.openNames) ∨
      Expr.anySideEffects i.args = false ∧
        (name ∈ Stmt.assignedAll [] i.expansion.prelude ↔
          ∃ arg ∈ i.args.take i.definition.function.params.length, ∃ fn,
            Node.expr (.function fn) ∈ arg.nodes .ownLayer ∧
              name ∈ (Expr.function fn).assigned []) := by
  by_cases hown : ∃ definition ∈ table.definitions, definition.function.name = some name ∧
      name ∈ definition.function.openNames
  · exact .inl hown
  obtain ⟨earlier, later, hhistory⟩ := List.append_of_mem hi
  have hproper := program.proper_inlinings table hscopes hhistory
  have hother (definition : Definition) (hmem : definition ∈ table.definitions)
      (hopen : name ∈ definition.function.openNames) : definition.function.name ≠ some name :=
    fun heq => hown ⟨definition, hmem, heq, hopen⟩
  have hpure := hproper.args hshape hread ⟨hlocal, hother⟩
  have hself := hother i.definition (hproper.table_eq ▸ hproper.performed.definition_mem)
  exact .inr ⟨hpure, hproper.performed.mem_assigned_iff hshape hpure
    (hproper.kept.bound _ _ hlocal) hself⟩

section Escaping

instance (e : Expr) (name : String) : Decidable (e.Mentions name) :=
  inferInstanceAs (Decidable (∃ node ∈ e.nodes .ownLayer, node.reads name = true))

instance (i : Inlining) (name : String) : Decidable (i.ReadsBefore name) :=
  inferInstanceAs
    (Decidable (∃ frame ∈ i.spot.path, ∃ operand ∈ frame.evaluated, operand.Mentions name))

/-- `function() { x = 2; }`. -/
def FunctionLit.setter : FunctionLit :=
  ⟨2, none, [], [.expr (.assign (.ident "x") none (.number 2))]⟩

/-- `A.keep = function(a) { set(); return a; }`, and a function that calls it last. -/
def Program.keeping (caller : FunctionLit) : Program :=
  ⟨[⟨0, "host.js",
      [.expr (.assign (.member (.ident "A") "keep") none
        (.function
          ⟨0, none, ["a"], [.expr (.call (.ident "set") []), .ret (some (.ident "a"))]⟩))]⟩,
    ⟨1, "main.js", [.function caller]⟩]⟩

/-- `function main(x) { return x + A.keep(function() { x = 2; }); }`. -/
def FunctionLit.passing : FunctionLit :=
  ⟨1, some "main", ["x"],
    [.ret (some
      (.binary .add (.ident "x") (.call (.member (.ident "A") "keep") [.function .setter])))]⟩

/-- A variable is read, and then a function literal that assigns to it is passed. -/
theorem Program.reads_passed_passing :
    let program := Program.keeping .passing
    let table := (program.collect "host.js" ["keep"] .lastWins).table
    let ctx := Context.ofProgram program .counter
    ∃ i ∈ program.inlinings table ctx, i.expansion.shape = .block ∧ i.ReadsBefore "x" ∧
      ctx.scopes.isBoundInFunction i.site.scope "x" = true ∧
      "x" ∈ Stmt.assignedAll [] i.expansion.prelude ∧
      ((∃ definition ∈ table.definitions, definition.function.name = some "x" ∧
          "x" ∈ definition.function.openNames) ∨
        Expr.anySideEffects i.args = false ∧
          ("x" ∈ Stmt.assignedAll [] i.expansion.prelude ↔
            ∃ arg ∈ i.args.take i.definition.function.params.length, ∃ fn,
              Node.expr (.function fn) ∈ arg.nodes .ownLayer ∧
                "x" ∈ (Expr.function fn).assigned [])) := by
  intro program table ctx
  obtain ⟨i, hi, hshape, hread, hlocal, hassigned⟩ : ∃ i ∈ program.inlinings table ctx,
      i.expansion.shape = .block ∧ i.ReadsBefore "x" ∧
        ctx.scopes.isBoundInFunction i.site.scope "x" = true ∧
        "x" ∈ Stmt.assignedAll [] i.expansion.prelude := by
    decide +kernel
  exact ⟨i, hi, hshape, hread, hlocal, hassigned,
    program.reads_passed table program.wellFormed_scopes hi hshape hread hlocal⟩

/-- `function main() { let x = 1; set = function() { x = 2; }; return x + A.keep(1); }`. -/
def FunctionLit.escaping : FunctionLit :=
  ⟨1, some "main", [],
    [.var .letVar "x" (some (.number 1)), .expr (.assign (.ident "set") none (.function .setter)),
      .ret (some (.binary .add (.ident "x") (.call (.member (.ident "A") "keep") [.number 1])))]⟩

/-- The block is put ahead of the read although a function literal of the same function assigns
to the variable, and the body calls it by a global name. -/
theorem Program.escaping_passed :
    let program := Program.keeping .escaping
    let table := (program.collect "host.js" ["keep"] .lastWins).table
    let ctx := Context.ofProgram program .counter
    ∃ i ∈ program.inlinings table ctx, i.expansion.shape = .block ∧ i.ReadsBefore "x" ∧
      i.owner = .function FunctionLit.escaping.id ∧
      "x" ∈ declaredNames FunctionLit.escaping.params FunctionLit.escaping.body ∧
      ∃ node ∈ Stmt.nodesAll .ownLayer FunctionLit.escaping.body, ∃ fn ∈ node.function?,
        "x" ∈ (Expr.function fn).assigned [] := by
  decide +kernel

end Escaping

end StaticInliner
