import StaticInliner.Proofs.Operands

/-!
Courses of a walk. A relation between states, which may also speak about the inlinings made and
the nodes passed between them, holds along a whole walk if it composes and single calls keep to
it. Where more has to be known about the surroundings of an expression, it still follows for
statements from what is shown for expressions. Invariants of the inlinings so far and of the
context are a case of this.
-/
namespace StaticInliner

namespace CallWalk

/-- A relation that can be followed along a walk, from contexts that are in order and at scopes
that are. It does not depend on the progress, and only calls have to be accounted for. -/
structure Course (Ok : Context → Prop) (At : Nat → Context → Prop)
    (R : List Inlining → List Node → State → State → Prop) : Prop where
  ok {scope : Nat} {ctx : Context} : At scope ctx → Ok ctx
  enter (owner : ChangedBody) {scope : Nat} {ctx : Context} :
    Ok ctx → ctx.scopes.scopeOf? owner = some scope → At scope ctx
  stay {scope : Nat} {trace : List Inlining} {nodes : List Node} {a b : State} :
    At scope a.ctx → R trace nodes a b → At scope b.ctx
  keep {trace : List Inlining} {nodes : List Node} {a b : State} :
    Ok a.ctx → R trace nodes a b → Ok b.ctx
  refl {a : State} : Ok a.ctx → R [] [] a a
  trans {trace trace' : List Inlining} {nodes nodes' : List Node} {a b c : State} :
    R trace nodes a b → R trace' nodes' b c → R (trace ++ trace') (nodes ++ nodes') a c
  context {trace : List Inlining} {nodes : List Node} {a a' b b' : State} : R trace nodes a b →
    a'.ctx = a.ctx → a'.fault = a.fault → b'.ctx = b.ctx → b'.fault = b.fault → R trace nodes a' b'
  operation {trace : List Inlining} {nodes : List Node} {a b : State} {e : Expr} :
    e.isCall = false → R trace nodes a b → R trace (.expr e :: nodes) a b
  statement {trace : List Inlining} {nodes : List Node} {a b : State} {s : Stmt} :
    R trace nodes a b → R trace (.stmt s :: nodes) a b
  stopped {nodes : List Node} {a : State} : Ok a.ctx → a.fault.isSome = true → R [] nodes a a
  stop {nodes : List Node} {a : State} {fault : InlineFault} :
    Ok a.ctx → R [] nodes a (a.stop fault)

section Statements

variable (env : Env) (At : Nat → Context → Prop)
  (R : List Inlining → List Node → State → State → Prop)

/-- The walk of an expression follows the course, wherever the expression is. -/
def ExprFollows (e : Expr) : Prop :=
  ∀ {scope : Nat} (spot : Spot) (state : State), At scope state.ctx →
    R (exprTrace env scope spot e state) (e.nodes .nested) state (expr env scope e state).2

/-- The same at the head of a statement, which a loop may evaluate any number of times. -/
def HeadFollows (s : Stmt) (e : Expr) : Prop :=
  ∀ {scope : Nat} (place : Place) (done rest : List Stmt) (hasHead : s.head?.isSome = true)
    (state : State), (s.isLoop = true → state.progress.pure = false) → At scope state.ctx →
    R (exprTrace env scope ⟨place, done, s, hasHead, [], rest⟩ e state) (e.nodes .nested) state
      (expr env scope e state).2

def StmtFollows (s : Stmt) : Prop :=
  ∀ {scope : Nat} (place : Place) (done rest : List Stmt) (state : State), At scope state.ctx →
    R (stmtTrace env scope place done rest s state) (s.nodes .nested) state
      (stmt env scope s state).2

end Statements

namespace Course

variable {Ok : Context → Prop} {At : Nat → Context → Prop}
  {R : List Inlining → List Node → State → State → Prop}
    (h : Course Ok At R) {env : Env} {scope : Nat}
  {state : State}

include h

/-- A list of statements follows the course if each of them does. -/
theorem stmts {list : List Stmt} (hlist : ∀ s ∈ list, StmtFollows env At R s) (place : Place)
    (done : List Stmt) (hat : At scope state.ctx) :
    R (stmtsTrace env scope place done list state) (Stmt.nodesAll .nested list) state
      (stmts env scope list state).2 := by
  induction list generalizing done state with
  | nil =>
    rw [stmtsTrace, CallWalk.stmts]
    exact h.refl (h.ok hat)
  | cons s rest ih =>
    obtain ⟨hs, hrest⟩ := List.forall_mem_cons.mp hlist
    rw [stmtsTrace, CallWalk.stmts, Stmt.nodesAll]
    by_cases hgo : state.fault.isSome = true
    · rw [if_pos hgo, if_pos hgo]
      exact h.stopped (h.ok hat) hgo
    · have hfirst : R _ _ state (stmt env scope s state.begin).2 :=
        h.context (hs place done rest state.begin hat) rfl rfl rfl rfl
      rw [if_neg hgo, if_neg hgo]
      exact h.trans hfirst (ih hrest _ (h.stay hat hfirst))

/-- The same for the bodies of a compound statement. -/
theorem bodies {lists : List (List Stmt)}
    (hlists : ∀ body ∈ lists, ∀ s ∈ body, StmtFollows env At R s) (places : List Place)
    (hplaces : places.length = lists.length) (hat : At scope state.ctx) :
    R (bodiesTrace env scope places lists state) (lists.flatMap (Stmt.nodesAll .nested)) state
      (bodies env scope lists state).2 := by
  induction lists generalizing places state with
  | nil =>
    rw [bodiesTrace_nil]
    exact h.refl (h.ok hat)
  | cons body rest ih =>
    obtain ⟨hbody, hrest⟩ := List.forall_mem_cons.mp hlists
    obtain ⟨place, places, rfl⟩ := List.exists_cons_of_length_eq_add_one hplaces
    have hfirst : R _ _ state (CallWalk.stmts env scope body state).2 := h.stmts hbody place [] hat
    rw [bodiesTrace, CallWalk.bodies, List.flatMap_cons]
    exact h.trans hfirst (ih hrest places (Nat.succ.inj hplaces) (h.stay hat hfirst))

/-- A function literal is walked in its own scope. -/
theorem literal {fn : FunctionLit} (hbody : ∀ s ∈ fn.body, StmtFollows env At R s) :
    ExprFollows env At R (.function fn) := by
  intro scope spot state hat
  obtain ⟨id, name, params, body⟩ := fn
  rw [Expr.nodes_function]
  by_cases hgo : state.fault.isSome = true
  · rw [expr_stopped hgo, exprTrace_stopped hgo]
    exact h.stopped (h.ok hat) hgo
  simp only [expr, exprTrace, if_neg hgo]
  cases hinner : state.ctx.scopes.functionScope? id with
  | none => exact h.stop (h.ok hat)
  | some inner =>
    have hdone := h.stmts hbody (spot.literal state.prelude id name params) []
      (h.enter (.function id) (h.ok hat) hinner)
    exact h.context (h.operation rfl hdone) rfl rfl rfl rfl

/-- A function declaration follows the course if its body does. -/
theorem declaration {fn : FunctionLit} (hbody : ∀ s ∈ fn.body, StmtFollows env At R s) :
    StmtFollows env At R (.function fn) := by
  intro scope place done rest state hat
  obtain ⟨id, name, params, body⟩ := fn
  rw [Stmt.nodes_function]
  simp only [stmt, stmtTrace]
  cases hinner : state.ctx.scopes.functionScope? id with
  | none => exact h.stop (h.ok hat)
  | some inner =>
    have hdone :=
      h.stmts hbody (.body place (done ++ state.prelude) (.function id name params) rest) []
      (h.enter (.function id) (h.ok hat) hinner)
    exact h.context (h.statement hdone) rfl rfl rfl rfl

/-- The expression of a statement follows the course before its bodies do. -/
theorem head {s : Stmt} (hhead : ∀ e ∈ s.head?, HeadFollows env At R s e) (place : Place)
    (done rest : List Stmt) (hat : At scope state.ctx) :
    R (headTrace env scope place done rest s state) (Expr.nodesAll .nested s.head?.toList) state
      (head env scope s state).2 := by
  cases hs : s.head? with
  | none =>
    rw [head_none hs, headTrace_none hs]
    exact h.refl (h.ok hat)
  | some e =>
    have hctx : (state.entering s).ctx = state.ctx := by
      unfold State.entering
      split <;> rfl
    have hfault : (state.entering s).fault = state.fault := by
      unfold State.entering
      split <;> rfl
    have hloop (hloop : s.isLoop = true) : (state.entering s).progress.pure = false := by
      rw [State.entering, if_pos hloop]
      rfl
    obtain ⟨hasHead, htrace⟩ := headTrace_some env scope state hs place done rest
    rw [head_some hs, htrace, Option.toList_some, Expr.nodesAll, Expr.nodesAll, List.append_nil]
    exact h.context (hhead e hs place done rest hasHead (state.entering s) hloop (hctx ▸ hat))
      hctx.symm hfault.symm rfl rfl

/-- A statement follows a course if its parts do. -/
theorem parts {s : Stmt} (hfn : s.function? = none)
    (hhead : ∀ e ∈ s.head?, HeadFollows env At R s e)
    (hbodies : ∀ body ∈ s.bodies, ∀ inner ∈ body, StmtFollows env At R inner) :
    StmtFollows env At R s := by
  intro scope place done rest state hat
  obtain ⟨places, hplaces, -, htrace⟩ := stmtTrace_parts env scope state hfn place done rest
  have hfirst : R _ _ state (CallWalk.head env scope s state).2 := h.head hhead place done rest hat
  have hbelow := h.bodies hbodies places hplaces (h.stay hat hfirst)
  rw [stmt_parts hfn, htrace, Stmt.nodes_parts .nested hfn]
  exact h.context (h.statement (h.trans hfirst hbelow)) rfl rfl rfl rfl

/-- The source units follow the course one after another. -/
theorem units {table : DefinitionTable} (hstmts : ∀ name s, StmtFollows ⟨table, name⟩ At R s)
    (done list : List SourceUnit) (state : State) (hok : Ok state.ctx) :
    R (unitsTrace table done list state) (list.flatMap fun unit => Stmt.nodesAll .nested unit.body)
      state (units table list state).2 := by
  induction list generalizing done state with
  | nil => exact h.refl hok
  | cons unit rest ih =>
    by_cases hgo : state.fault.isSome = true
    · simp only [CallWalk.units, unitsTrace, if_pos hgo]
      exact h.stopped hok hgo
    simp only [CallWalk.units, unitsTrace, if_neg hgo, List.flatMap_cons]
    cases hscope : state.ctx.scopes.unitScope? unit.id with
    | none => exact h.stop hok
    | some scope =>
      have hbody := h.stmts (fun s (_ : s ∈ unit.body) => hstmts unit.name s)
        (.unit done unit.id unit.name rest) [] (h.enter (.script unit.id) hok hscope)
      exact h.trans hbody (ih _ _ (h.keep hok hbody))

end Course

/-- A course that single calls keep to, whose callee has been walked unless it is known. -/
structure CallCourse (env : Env) (Ok : Context → Prop) (At : Nat → Context → Prop)
    (R : List Inlining → List Node → State → State → Prop) : Prop extends Course Ok At R where
  known {scope : Nat} {a : State} {callee : Expr} : At scope a.ctx →
    isKnownCallee env a.ctx.scopes scope callee = true → R [] (callee.nodes .nested) a a
  call {scope : Nat} {before : Progress} {spot : Spot} {trace : List Inlining} {a b : State}
    {callee callee' : Expr} {args args' : List Expr} : At scope b.ctx →
    (callee' = callee ∨ ∃ state, callee' = (expr env scope callee state).1) →
    R trace (callee.nodes .nested ++ Expr.nodesAll .nested args) a b →
    R (trace ++ callTrace env scope before spot callee' args' b)
      (.expr (.call callee args) :: (callee.nodes .nested ++ Expr.nodesAll .nested args)) a
      (finishCall env scope before callee' args' b).2

namespace CallCourse

variable {Ok : Context → Prop} {At : Nat → Context → Prop}
  {R : List Inlining → List Node → State → State → Prop} {env : Env} (h : CallCourse env Ok At R)
  {scope : Nat} {state : State}

include h

/-- Expressions follow the course one after another. -/
theorem exprs_of {es : List Expr} (hes : ∀ e ∈ es, ExprFollows env At R e) (spot : Spot)
    (node : Expr) (before : List Expr) (fits : before.length + es.length = node.children.length)
    (hat : At scope state.ctx) :
    R (exprsTrace env scope spot node before es fits state) (Expr.nodesAll .nested es) state
      (exprs env scope es state).2 := by
  induction es generalizing before state with
  | nil =>
    rw [exprsTrace, exprs]
    exact h.refl (h.ok hat)
  | cons e rest ih =>
    obtain ⟨he, hrest⟩ := List.forall_mem_cons.mp hes
    have hfirst := he (spot.inside ⟨node, before, rest, by grind⟩) state hat
    rw [exprsTrace, exprs, Expr.nodesAll]
    exact h.trans hfirst (ih hrest _ _ (h.stay hat hfirst))

/-- An operation whose operands are walked in order follows the course. -/
theorem operands {e : Expr} (hwalks : e.walksOperands = true)
    (ih : ∀ operand ∈ e.children, ExprFollows env At R operand) (hgo : state.fault = none)
    (spot : Spot) (hat : At scope state.ctx) :
    R (exprTrace env scope spot e state) (e.nodes .nested) state (expr env scope e state).2 := by
  have hlayer := Expr.ownsLayer_of_walksOperands hwalks
  have hdone := h.exprs_of ih spot e [] (Nat.zero_add _) hat
  rw [expr_operands hwalks hgo, exprTrace_operands hwalks hgo, Expr.nodes_operation .nested hlayer]
  refine h.context (h.operation (Expr.isCall_of_walksOperands hwalks) hdone) rfl rfl ?_ ?_ <;>
  · unfold State.passing
    split <;> rfl

/-- A call follows the course if its callee and its arguments do. -/
theorem called {callee : Expr} {args : List Expr} (hcallee : ExprFollows env At R callee)
    (hargs : ∀ arg ∈ args, ExprFollows env At R arg) (hgo : ¬ state.fault.isSome = true)
    (spot : Spot) (hat : At scope state.ctx) :
    R (exprTrace env scope spot (.call callee args) state)
      ((Expr.call callee args).nodes .nested) state
      (expr env scope (.call callee args) state).2 := by
  rw [Expr.nodes_operation .nested rfl]
  simp only [expr, exprTrace, if_neg hgo]
  cases hknown : isKnownCallee env state.ctx.scopes scope callee with
  | true =>
    have hparts := h.trans (h.known hat hknown)
      (h.exprs_of hargs spot (.call callee args) [callee] (Nat.add_comm _ _) hat)
    simp only [if_true]
    exact h.call (h.stay hat hparts) (.inl rfl) hparts
  | false =>
    have hfirst := hcallee (spot.inside ⟨.call callee args, [], args, Nat.add_comm _ _⟩) state hat
    have hparts := h.trans hfirst (h.exprs_of hargs spot (.call callee args)
      [(expr env scope callee state).1] (Nat.add_comm _ _) (h.stay hat hfirst))
    simp only [Bool.false_eq_true, if_false]
    exact h.call (h.stay hat hparts) (.inr ⟨state, rfl⟩) hparts

/-- An operand that may not be evaluated. -/
theorem branch {branch : Expr} (hbranch : ExprFollows env At R branch) (spot : Spot)
    (hat : At scope state.ctx) (progress : Progress) :
    let b := expr env scope branch (state.setProgress .conditional)
    R (exprTrace env scope spot branch (state.setProgress .conditional))
      (branch.nodes .nested) state
      (b.2.setProgress progress) :=
  h.context (hbranch spot (state.setProgress .conditional) hat) rfl rfl rfl rfl

/-- Every operation follows the course if its operands do. -/
theorem operation_of {e : Expr} (hlayer : e.ownsLayer = false)
    (ih : ∀ operand ∈ e.children, ExprFollows env At R operand) : ExprFollows env At R e := by
  intro scope spot state hat
  by_cases hgo : state.fault.isSome = true
  · rw [expr_stopped hgo, exprTrace_stopped hgo]
    exact h.stopped (h.ok hat) hgo
  refine Expr.Operations.operation
    (G := fun e => R (exprTrace env scope spot e state) (e.nodes .nested)
    state (expr env scope e state).2) ?_ hlayer ih
  constructor
  case operands =>
    intro e hwalks ih
    exact h.operands hwalks ih (Option.not_isSome_iff_eq_none.mp hgo) spot hat
  case call =>
    intro callee args hcallee hargs
    exact h.called hcallee hargs hgo spot hat
  case ident =>
    intro name
    rw [Expr.nodes_operation .nested rfl]
    simp only [expr, exprTrace, if_neg hgo]
    refine h.context (h.operation rfl (h.refl (h.ok hat))) rfl rfl ?_ ?_ <;> split <;> rfl
  case assign =>
    intro name op value hvalue
    have hv :=
      hvalue (spot.inside ⟨.assign (.ident name) op value, [.ident name], [], rfl⟩) state hat
    rw [Expr.nodes_operation .nested rfl]
    simp only [expr, exprTrace, if_neg hgo, Expr.children, Expr.nodesAll, List.append_nil]
    exact h.context (h.operation rfl (h.operation rfl hv)) rfl rfl rfl rfl
  case logical =>
    intro op left right hleft hright
    have hl := hleft (spot.inside ⟨.logical op left right, [], [right], rfl⟩) state hat
    have hr := h.branch hright
      (spot.inside ⟨.logical op left right, [(expr env scope left state).1], [], rfl⟩)
        (h.stay hat hl)
    rw [Expr.nodes_operation .nested rfl]
    simp only [expr, exprTrace, if_neg hgo, Expr.children, Expr.nodesAll, List.append_nil]
    exact h.operation rfl (h.trans hl (hr _))
  case conditional =>
    intro condition thenExpr elseExpr hcondition hthen helse
    let c := expr env scope condition state
    let t := expr env scope thenExpr (c.2.setProgress .conditional)
    have hc := hcondition (spot.inside
      ⟨.conditional condition thenExpr elseExpr, [], [thenExpr, elseExpr], rfl⟩) state hat
    have ht := h.branch hthen (spot.inside ⟨.conditional condition thenExpr elseExpr, [c.1],
      [elseExpr], rfl⟩) (h.stay hat hc) (closeBranch c.2.progress t.1 t.2).progress
    have hf := h.branch helse (spot.inside
      ⟨.conditional condition thenExpr elseExpr, [c.1, t.1], [], rfl⟩) (h.stay (h.stay hat hc) ht)
    rw [Expr.nodes_operation .nested rfl]
    simp only [expr, exprTrace, if_neg hgo, Expr.children, Expr.nodesAll, List.append_nil]
    rw [List.append_assoc]
    exact h.operation rfl (h.trans hc (h.trans ht (hf _)))

/-- Every tree follows the course. -/
theorem byParts : ByParts (ExprFollows env At R) (StmtFollows env At R)
    fun list => ∀ s ∈ list, StmtFollows env At R s where
  operation _ := h.operation_of
  literal _ := h.literal
  declaration _ := h.declaration
  statement s hfn hhead hbodies := h.parts hfn (fun e he _ place done rest hasHead state _ hat =>
    hhead e he ⟨place, done, s, hasHead, [], rest⟩ state hat) hbodies
  list _ ih := ih

end CallCourse

section Scopes

/-- A scope of a well-formed tree. -/
structure Situated (scope : Nat) (ctx : Context) : Prop where
  wellFormed : ctx.scopes.WellFormed
  lt_size : scope < ctx.scopes.size

variable {env : Env} {scope : Nat} {state : State}

theorem Situated.keeps {ctx ctx' : Context} (h : Situated scope ctx)
    (hkept : ctx.scopes.Keeps ctx'.scopes) :
    Situated scope ctx' := ⟨hkept.wellFormed, Nat.lt_of_lt_of_le h.lt_size hkept.size⟩

/-- An inlining at this point of the walk. -/
theorem Situated.keeps_after {ctx : Context} (h : Situated scope ctx) {i : Inlining}
    (hperformed : i.Performed) (hscope : i.site.scope = scope) (hbefore : i.before = ctx) :
    ctx.scopes.Keeps i.after.scopes := by
  subst hscope hbefore
  exact hperformed.keeps h.wellFormed h.lt_size

/-- A call keeps the scopes that were there, whatever becomes of it. -/
theorem keeps_finishCall (hat : Situated scope state.ctx) (before : Progress) (callee : Expr)
    (args : List Expr) :
    state.ctx.scopes.Keeps (finishCall env scope before callee args state).2.ctx.scopes := by
  rcases finishCall_cases env scope before (.alone callee) callee args state with
    ⟨skipped, log, hdone, -⟩ | ⟨fault, hdone, -⟩ |
    ⟨definition, expansion, after, log, hperformed, hdone, -⟩
  · rw [hdone]
    exact .refl hat.wellFormed
  · rw [hdone]
    exact .refl hat.wellFormed
  · rw [hdone]
    exact hat.keeps_after hperformed rfl rfl

/-- What is said about the inlinings so far and the context stays true from one state to another,
and so do the scopes. -/
structure Carries (I : List Inlining → State → Prop) (trace : List Inlining) (_nodes : List Node)
    (a b : State) : Prop where
  kept : a.ctx.scopes.Keeps b.ctx.scopes
  holds : ∀ history, I history a → I (history ++ trace) b

/-- Invariants that depend on the context only. -/
theorem course_carries {I : List Inlining → State → Prop} (hcontext : ∀ {history state state'},
      state'.ctx = state.ctx → I history state → I history state') :
    Course (fun ctx => ctx.scopes.WellFormed) Situated (Carries I) where
  ok := Situated.wellFormed
  enter _ _ _ hwf hscope := ⟨hwf, hwf.lt_size hscope⟩
  stay hat h := hat.keeps h.kept
  keep _ h := h.kept.wellFormed
  refl hwf := ⟨.refl hwf, fun _ h => by rwa [List.append_nil]⟩
  trans h h' := ⟨h.kept.trans h'.kept, fun history hI => by
    rw [← List.append_assoc]
    exact h'.holds _ (h.holds history hI)⟩
  context h ha _ hb _ := ⟨by rw [ha, hb]; exact h.kept,
    fun history hI => hcontext hb (h.holds history (hcontext ha.symm hI))⟩
  operation _ h := ⟨h.kept, h.holds⟩
  statement h := ⟨h.kept, h.holds⟩
  stopped hwf _ := ⟨.refl hwf, fun _ h => by rwa [List.append_nil]⟩
  stop hwf := ⟨.refl hwf, fun _ h => by
    rw [List.append_nil]
    refine hcontext ?_ h
    rfl⟩

theorem callCourse_keeps (env : Env) : CallCourse env (fun ctx => ctx.scopes.WellFormed) Situated
    (Carries fun _ _ => True) where
  toCourse := course_carries fun _ _ => trivial
  known hat _ := ⟨.refl hat.wellFormed, fun _ _ => trivial⟩
  call hat _ h := ⟨h.kept.trans (keeps_finishCall hat _ _ _), fun _ _ => trivial⟩

/-- The walk of an expression keeps the scopes, whatever the program around it. -/
theorem keeps_expr (state : State) (hat : Situated scope state.ctx) (e : Expr) :
    state.ctx.scopes.Keeps (expr env scope e state).2.ctx.scopes :=
  ((callCourse_keeps env).byParts.expr e (.alone e) state hat).kept

/-- So does the walk of a statement. -/
theorem keeps_stmt (place : Place) (state : State) (hat : Situated scope state.ctx) (s : Stmt) :
    state.ctx.scopes.Keeps (stmt env scope s state).2.ctx.scopes :=
  ((callCourse_keeps env).byParts.stmt s place [] [] state hat).kept

theorem keeps_stmts (place : Place) (state : State) (hat : Situated scope state.ctx)
    (list : List Stmt) :
    state.ctx.scopes.Keeps (stmts env scope list state).2.ctx.scopes :=
  ((callCourse_keeps env).stmts ((callCourse_keeps env).byParts.stmts list) place [] hat).kept

theorem keeps_exprs (state : State) (hat : Situated scope state.ctx) (es : List Expr) :
    state.ctx.scopes.Keeps (exprs env scope es state).2.ctx.scopes := by
  induction es generalizing state with
  | nil => exact .refl hat.wellFormed
  | cons e rest ih =>
    have hfirst : state.ctx.scopes.Keeps (expr env scope e state).2.ctx.scopes :=
      keeps_expr state hat e
    exact hfirst.trans (ih _ (hat.keeps hfirst))

end Scopes

end CallWalk

end StaticInliner
