import StaticInliner.Proofs.Ahead
import StaticInliner.Proofs.Tame

/-!
Branches ahead of a block. What is evaluated before a call that gets a block is tame. So an
operand that may not be evaluated may read names and properties that the block sets, unless
the branches of the statement are confined to variables of the function. The variable of a
compound assignment is not counted as read at all.
-/
namespace StaticInliner

namespace CallWalk

section Local

variable {origin : ScopeTree} {scope : Nat}

/-- Without calls there is nothing to expand outside of function literals. -/
theorem local_expr (env : Env) {e : Expr} (h : e.Local origin scope) (state : State) :
    (expr env scope e state).1.Local origin scope := by
  induction e using Expr.byOperands generalizing state with
  | operation e hlayer ih =>
    obtain ⟨hself, hlocal⟩ := (Expr.local_operation hlayer).mp h
    obtain ⟨operands, hleft, hdone⟩ := expr_left hlayer (.alone e)
    rcases hdone with hdone | ⟨i, -, -, hcall, -⟩
    · rw [hdone]
      refine h.withOperands hlayer operands hleft.length_eq.symm fun operand hmem => ?_
      obtain ⟨before, hbefore, hoperand⟩ := Traced.of_forall₂ hleft operand hmem
      cases hoperand with
      | same => exact hlocal operand hbefore
      | walked _ state => exact ih before hbefore (hlocal before hbefore) state
    · cases e with
      | call _ _ => cases hself
      | _ => cases hcall
  | literal fn =>
    obtain ⟨fn', hfn', -⟩ := expr_function env scope fn state
    rw [hfn']
    exact Expr.local_function fn'

/-- Branches in which something holds, whatever the walk makes of them. -/
structure Confines (scope : Nat) (R : Expr → Prop) : Prop where
  walk : ∀ (env : Env) (state : State) (e : Expr), R e → R (expr env scope e state).1
  inner : ∀ e, R e → e.BranchesIn R

theorem confines_local (origin : ScopeTree) (scope : Nat) :
    Confines scope (Expr.Local origin scope) :=
  ⟨fun env state _ h => local_expr env h state, fun _ h => h.localBranches⟩

end Local

section Values

variable {env : Env} {scope : Nat} {state state' : State}

/-- A block can pass what is left of an expression, and branches of it are left of branches. -/
structure Tamed (trace : List Inlining) (scope : Nat) (state : State) (source e : Expr) : Prop where
  tame : e.Tame (blockResults trace) (state.Readable scope)
  branches : ∀ R, Confines scope R → source.BranchesIn R → e.BranchesIn R

/-- The walk of an expression leaves something tame, if a block can still be put ahead of it. -/
def ExprTame (env : Env) (e : Expr) : Prop :=
  ∀ (scope : Nat) (spot : Spot) (state : State), Situated scope state.ctx →
    (expr env scope e state).2.Open →
    Tamed (exprTrace env scope spot e state) scope (expr env scope e state).2 e
      (expr env scope e state).1

theorem Tamed.later {trace trace' : List Inlining} {source e : Expr}
    (h : Tamed trace scope state source e) (htrace : trace ⊆ trace')
    (hread : ∀ name, state.Readable scope name → state'.Readable scope name) :
    Tamed trace' scope state' source e :=
  ⟨h.tame.mono (blockResults_mono htrace) hread, h.branches⟩

theorem tamed_exprs (node : Expr) {es : List Expr} (hes : ∀ e ∈ es, ExprTame env e) (spot : Spot)
    (before : List Expr) (fits : before.length + es.length = node.children.length)
    (hat : Situated scope state.ctx) (hopen : (exprs env scope es state).2.Open) :
    ∀ value ∈ (exprs env scope es state).1, ∃ e ∈ es,
      Tamed (exprsTrace env scope spot node before es fits state) scope
        (exprs env scope es state).2 e value := by
  induction es generalizing before state with
  | nil => exact List.forall_mem_nil _
  | cons e rest ih =>
    obtain ⟨hfirst, hrest⟩ := List.forall_mem_cons.mp hes
    have hatRest := hat.keeps (precedes_expr env hat e).kept
    have hprecedes := precedes_exprs env hatRest rest
    refine List.forall_mem_cons.mpr ⟨⟨e, List.mem_cons_self, ?_⟩, fun value hvalue => ?_⟩
    · exact (hfirst scope _ state hat (hprecedes.isOpen hopen)).later
        (List.subset_append_left _ _) fun _ => hprecedes.readable
    · obtain ⟨other, hother, htamed⟩ := ih hrest (before ++ [(expr env scope e state).1]) (by grind)
        hatRest hopen value hvalue
      exact ⟨other, List.mem_cons_of_mem _ hother,
        htamed.later (List.subset_append_right _ _) fun _ => id⟩

theorem tamed_operands {e : Expr} (hwalks : e.walksOperands = true)
    (ih : ∀ operand ∈ e.children, ExprTame env operand) (hgo : state.fault = none)
    (hat : Situated scope state.ctx) (spot : Spot) (hopen : (expr env scope e state).2.Open) :
    Tamed (exprTrace env scope spot e state) scope (expr env scope e state).2 e
      (expr env scope e state).1 := by
  rw [expr_operands hwalks hgo] at hopen ⊢
  rw [exprTrace_operands hwalks hgo]
  cases himpure : e.isImpure with
  | true =>
    simp only [State.passing, himpure, if_true] at hopen
    exact absurd hopen (State.not_open_of_impure rfl)
  | false =>
    simp only [State.passing, himpure, Bool.false_eq_true, if_false] at hopen ⊢
    have hvalues := tamed_exprs e ih spot [] (Nat.zero_add _) hat hopen
    refine ⟨Expr.tame_operands hwalks himpure (length_exprs _) fun value hvalue => ?_,
      fun R hR hsource =>
      Expr.branchesIn_withOperands hwalks (length_exprs _) fun value hvalue => ?_⟩
    · obtain ⟨_, _, htamed⟩ := hvalues value hvalue
      exact htamed.tame
    · obtain ⟨operand, hoperand, htamed⟩ := hvalues value hvalue
      exact htamed.branches R hR (hsource.operand hoperand)

/-- All that can be left of a call without side effects is a constant or a variable. -/
theorem tamed_finishCall {before : Progress} {callee : Expr} {args : List Expr} (spot : Spot)
    (source : Expr) (hopen : (finishCall env scope before callee args state).2.Open) :
    Tamed (callTrace env scope before spot callee args state) scope
      (finishCall env scope before callee args state).2 source
      (finishCall env scope before callee args state).1 := by
  rcases finishCall_cases env scope before spot callee args state with
    ⟨skipped, log, hdone, -⟩ | ⟨fault, hdone, -⟩ |
    ⟨definition, expansion, after, log, hperformed, hdone, htrace⟩
  · rw [hdone] at hopen
    exact absurd hopen (State.not_open_of_impure rfl)
  · rw [hdone] at hopen
    cases hopen.1
  rw [hdone] at hopen ⊢
  rw [htrace]
  cases hshape : expansion.shape with
  | block =>
    obtain ⟨-, result, hvalue, hresult⟩ := hperformed.block hshape
    simp only [show expansion.value = .ident result from hvalue]
    refine ⟨.quiet (.result ?_), fun _ _ _ => Expr.branchesIn_ident result⟩
    exact mem_blockResults List.mem_cons_self hshape hresult
  | direct =>
    rcases progressAfter_direct after.scopes scope before state.progress hshape with ⟨hliteral, heq⟩
      | ⟨name, hvalue, hbound, heq⟩ | heq
    · exact ⟨.quiet (.literal hliteral), fun _ _ _ => Expr.branchesIn_literal hliteral⟩
    · rw [show expansion.value = .ident name from hvalue]
      refine ⟨.quiet (.read ⟨?_, hbound⟩), fun _ _ _ => Expr.branchesIn_ident name⟩
      exact (congrArg Progress.readLocal heq :)
    · exact absurd hopen (State.not_open_of_impure (congrArg Progress.pure heq :))

/-- Back from an operand that may not be evaluated, a block can be put ahead only if it could
before, and if the operand has no side effects. -/
theorem open_closeBranch {before : Progress} {e : Expr}
    (hopen : (closeBranch before e state).Open) :
    e.hasSideEffects = false := by
  have hpure : (before.pure && !e.hasSideEffects) = true := hopen.2
  rw [Bool.and_eq_true, Bool.not_eq_true'] at hpure
  exact hpure.2

theorem tamed_logical {op : LogicalOp} {left right : Expr} (hleft : ExprTame env left)
    (hgo : state.fault = none) (hat : Situated scope state.ctx) (spot : Spot)
    (hopen : (expr env scope (.logical op left right) state).2.Open) :
    Tamed (exprTrace env scope spot (.logical op left right) state) scope
      (expr env scope (.logical op left right) state).2 (.logical op left right)
      (expr env scope (.logical op left right) state).1 := by
  simp only [expr, exprTrace, hgo, Option.isSome_none, Bool.false_eq_true, if_false] at hopen ⊢
  have hprecedes := precedes_branch env (hat.keeps (precedes_expr env hat left).kept) right
  have hl := hleft scope (spot.inside ⟨.logical op left right, [], [right], rfl⟩) state hat
    (hprecedes.isOpen hopen)
  refine ⟨.logical op (hl.later (List.subset_append_left _ _) fun _ => hprecedes.readable).tame
    (open_closeBranch hopen),
    fun R hR hsource => ?_⟩
  obtain ⟨hbranch, hoperands⟩ := (Expr.branchesIn_operation rfl).mp hsource
  have hright := hR.walk env ((expr env scope left state).2.setProgress .conditional) right
    (hbranch right List.mem_cons_self)
  exact (Expr.branchesIn_operation rfl).mpr ⟨List.forall_mem_singleton.mpr hright,
    List.forall_mem_cons.mpr ⟨hl.branches R hR (hoperands left List.mem_cons_self),
      List.forall_mem_singleton.mpr (hR.inner _ hright)⟩⟩

theorem tamed_conditional {condition thenExpr elseExpr : Expr} (hcondition : ExprTame env condition)
    (hgo : state.fault = none) (hat : Situated scope state.ctx) (spot : Spot)
    (hopen : (expr env scope (.conditional condition thenExpr elseExpr) state).2.Open) :
    Tamed (exprTrace env scope spot (.conditional condition thenExpr elseExpr) state) scope
      (expr env scope (.conditional condition thenExpr elseExpr) state).2
      (.conditional condition thenExpr elseExpr)
      (expr env scope (.conditional condition thenExpr elseExpr) state).1 := by
  simp only [expr, exprTrace, hgo, Option.isSome_none, Bool.false_eq_true, if_false] at hopen ⊢
  let c := expr env scope condition state
  have hatThen : Situated scope c.2.ctx := hat.keeps (precedes_expr env hat condition).kept
  have hthen := precedes_branch env hatThen thenExpr
  have helse := precedes_branch env (hatThen.keeps hthen.kept) elseExpr
  have hc := hcondition scope
    (spot.inside ⟨.conditional condition thenExpr elseExpr, [], [thenExpr, elseExpr], rfl⟩)
    state hat (hthen.isOpen (helse.isOpen hopen))
  refine ⟨.conditional (hc.later ?_ fun _ => (hthen.trans helse).readable).tame
    (open_closeBranch (helse.isOpen hopen))
    (open_closeBranch hopen), fun R hR hsource => ?_⟩
  · rw [List.append_assoc]
    exact List.subset_append_left _ _
  obtain ⟨hbranch, hoperands⟩ := (Expr.branchesIn_operation rfl).mp hsource
  have hwalked {branch : Expr} (hmem : branch ∈ [thenExpr, elseExpr]) (state : State) :=
    hR.walk env state branch (hbranch branch hmem)
  refine (Expr.branchesIn_operation rfl).mpr ⟨?_, ?_⟩
  · exact List.forall_mem_cons.mpr ⟨hwalked (by simp) _,
      List.forall_mem_singleton.mpr (hwalked (by simp) _)⟩
  · exact List.forall_mem_cons.mpr ⟨hc.branches R hR (hoperands condition List.mem_cons_self),
      List.forall_mem_cons.mpr ⟨hR.inner _ (hwalked (by simp) _),
        List.forall_mem_singleton.mpr (hR.inner _ (hwalked (by simp) _))⟩⟩

theorem tamed_expr (env : Env) (e : Expr) : ExprTame env e := by
  induction e using Expr.byOperands with
  | operation e hlayer ih =>
    intro scope spot state hat hopen
    have hgo := going_of_expr hopen.1
    have hcases : Expr.Operations (ExprTame env) fun e => (expr env scope e state).2.Open →
        Tamed (exprTrace env scope spot e state) scope (expr env scope e state).2 e
          (expr env scope e state).1 :=
      { operands := fun hwalks ih => tamed_operands hwalks ih hgo hat spot
        ident := fun name => by
          simp only [expr, hgo, Option.isSome_none, Bool.false_eq_true, if_false]
          split
          · next hbound =>
            exact fun _ => ⟨.quiet (.read ⟨rfl, hbound⟩), fun _ _ _ => Expr.branchesIn_ident name⟩
          · exact fun hopen => absurd hopen (State.not_open_of_impure rfl)
        call := fun _ _ hopen => by
          simp only [expr, exprTrace, hgo, Option.isSome_none, Bool.false_eq_true,
            if_false] at hopen ⊢
          exact (tamed_finishCall spot _ hopen).later (List.subset_append_right _ _) fun _ => id
        assign := fun _ => by
          simp only [expr, hgo, Option.isSome_none, Bool.false_eq_true, if_false]
          exact fun hopen => absurd hopen (State.not_open_of_impure rfl)
        logical := fun hleft _ => tamed_logical hleft hgo hat spot
        conditional := fun hcondition _ _ => tamed_conditional hcondition hgo hat spot }
    exact hcases.operation hlayer ih hopen
  | literal fn =>
    intro scope spot state hat hopen
    obtain ⟨fn', hfn', -⟩ := expr_function env scope fn state
    rw [hfn']
    exact ⟨.quiet (.function fn'), fun _ _ _ => Expr.branchesIn_function fn'⟩

end Values

section Operands

variable {table : DefinitionTable} {origin : ScopeTree} {history : List Inlining} {s : Stmt}
  {scope : Nat} {state : State} {operand : Expr}

theorem Evaluated.tame (h : Evaluated table origin history s scope state operand)
    (hopen : state.Open) :
    operand.Tame (blockResults history) (state.Readable scope) := by
  obtain ⟨unit, spot, -, hwithin, htrace, hprecedes⟩ := h
  have htamed := tamed_expr _ _ scope spot _ hwithin.situated (hprecedes.isOpen hopen)
  exact (htamed.later htrace fun _ => hprecedes.readable).tame

theorem Evaluated.branchesIn (h : Evaluated table origin history s scope state operand)
    (hopen : state.Open) {R : Expr → Prop} (hR : Confines scope R)
    (hs : ∀ node ∈ s.headNodes, ∀ branch ∈ node.optional, R branch) : operand.BranchesIn R := by
  obtain ⟨unit, spot, hnodes, hwithin, -, hprecedes⟩ := h
  have htamed := tamed_expr _ _ scope spot _ hwithin.situated (hprecedes.isOpen hopen)
  exact htamed.branches R hR fun node hnode => hs node (hnodes hnode)

variable {node : Expr} {operands : List Expr}

theorem Operands.tameAfter (h : Operands table origin history s scope state node operands)
    (hopen : state.Open) : node.TameAfter (table.Names origin scope) (blockResults history)
      (state.Readable scope) operands := by
  induction h with
  | nil => exact Expr.tameAfter_nil
  | callee heq _ hnames =>
    subst heq
    exact ⟨.inl hnames, List.forall_mem_nil _⟩
  | target heq =>
    subst heq
    exact ⟨.inl trivial, List.forall_mem_nil _⟩
  | snoc _ hlast ih => exact ih.snoc (hlast.tame hopen)

theorem Operands.branchesIn (h : Operands table origin history s scope state node operands)
    (hopen : state.Open) {R : Expr → Prop} (hR : Confines scope R)
    (hs : ∀ node ∈ s.headNodes, ∀ branch ∈ node.optional, R branch) :
    ∀ operand ∈ operands, operand.BranchesIn R := by
  induction h with
  | nil => exact List.forall_mem_nil _
  | callee _ hnodes _ =>
    exact List.forall_mem_singleton.mpr fun node hnode => hs node (hnodes hnode)
  | target _ => exact List.forall_mem_singleton.mpr (Expr.branchesIn_ident _)
  | snoc _ hlast ih =>
    exact List.forall_mem_append.mpr ⟨ih,
      List.forall_mem_singleton.mpr (hlast.branchesIn hopen hR hs)⟩

end Operands

end CallWalk

/-- A block passes what stands before the call. -/
theorem CallWalk.Proper.passes {table : DefinitionTable} {origin : ScopeTree}
    {earlier : List Inlining} {i : Inlining} (h : CallWalk.Proper table origin earlier i)
    (hshape : i.expansion.shape = .block) :
    i.Passes table origin earlier := by
  obtain ⟨begun, hbegun⟩ := h.cleared hshape
  refine ⟨fun frame hframe => ?_, fun hlocal frame hframe => ?_⟩
  · exact ((hbegun.ahead.operands frame hframe).tameAfter hbegun.isOpen).mono (List.Subset.refl _)
      fun _ hname => hbegun.readable h.performed hshape hname
  · refine (hbegun.ahead.operands frame hframe).branchesIn hbegun.isOpen
      (CallWalk.confines_local origin i.site.scope) fun node hnode => ?_
    obtain ⟨e, he, hnode⟩ := Expr.mem_nodesAll.mp hnode
    exact hlocal e (Option.mem_toList.mp he) node hnode

/-- What is evaluated before a call that gets a block, and stays in the statement, is quiet
but for operands that may not be evaluated, and these have no side effects. If those of the
statement are confined to variables of the function, so are these. -/
theorem Program.branches_passed (program : Program) (table : DefinitionTable) {ctx : Context}
    (hscopes : ctx.scopes.WellFormed) {earlier later : List Inlining} {i : Inlining}
    (hhistory : program.inlinings table ctx = earlier ++ i :: later)
    (hshape : i.expansion.shape = .block) : i.Passes table ctx.scopes earlier :=
  (program.proper_inlinings table hscopes hhistory).passes hshape

section Guarded

instance (scopes : ScopeTree) (scope : Nat) (e : Expr) : Decidable (e.Local scopes scope) :=
  inferInstanceAs (Decidable (∀ node ∈ e.nodes .ownLayer, node.isLocal scopes scope = true))

instance (scopes : ScopeTree) (scope : Nat) (e : Expr) : Decidable (e.LocalBranches scopes scope) :=
  inferInstanceAs (Decidable (∀ node ∈ e.nodes .ownLayer, ∀ branch ∈ node.optional,
    branch.Local scopes scope))

instance (scopes : ScopeTree) (scope : Nat) (s : Stmt) : Decidable (s.LocalBranches scopes scope) :=
  inferInstanceAs (Decidable (∀ e ∈ s.head?, e.LocalBranches scopes scope))

/-- A function that sets a global variable, called after a name that is read only if the
variable `c` is true. -/
def Program.guarded (name : String) : Program :=
  ⟨[⟨0, "host.js",
      [.expr (.assign (.member (.ident "A") "keep") none
        (.function ⟨0, none, ["a"],
          [.expr (.assign (.ident "G") none (.ident "a")), .ret (some (.ident "a"))]⟩))]⟩,
    ⟨1, "main.js",
      [.function ⟨1, some "main", ["c"],
        [.ret (some (.binary .add (.logical .and (.ident "c") (.ident name))
          (.call (.member (.ident "A") "keep") [.number 1])))]⟩]⟩]⟩

/-- With a variable of the function in the branch, the block runs ahead and nothing is lost. -/
theorem Program.branches_passed_guarded :
    let program := Program.guarded "c"
    let table := (program.collect "host.js" ["keep"] .lastWins).table
    let ctx := Context.ofProgram program .counter
    ∃ i, program.inlinings table ctx = [i] ∧ i.expansion.shape = .block ∧
      i.spot.stmt.LocalBranches ctx.scopes i.site.scope ∧ i.Passes table ctx.scopes [] := by
  intro program table ctx
  obtain ⟨i, hi⟩ : ∃ i, program.inlinings table ctx = [i] :=
    List.length_eq_one_iff.mp (by decide +kernel)
  have hblock : ∀ i ∈ program.inlinings table ctx, i.expansion.shape = .block ∧
      i.spot.stmt.LocalBranches ctx.scopes i.site.scope := by
    decide +kernel
  obtain ⟨hshape, hlocal⟩ := hblock i (hi ▸ List.mem_singleton_self i)
  exact ⟨i, hi, hshape, hlocal, program.branches_passed table program.wellFormed_scopes hi hshape⟩

/-- The variable that the block sets may stand in the branch as well: it is then read after
the block. -/
theorem Program.guarded_global :
    let program := Program.guarded "G"
    let table := (program.collect "host.js" ["keep"] .lastWins).table
    let ctx := Context.ofProgram program .counter
    ∃ i ∈ program.inlinings table ctx, i.expansion.shape = .block ∧
      ∃ frame ∈ i.spot.path, ∃ operand ∈ frame.before,
        ¬ operand.LocalBranches ctx.scopes i.site.scope := by
  decide +kernel

end Guarded

end StaticInliner
