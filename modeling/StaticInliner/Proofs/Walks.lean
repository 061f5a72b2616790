import StaticInliner.Proofs.Courses

/-!
The walk makes a history. The program with what has been rewritten so far, and the context
of the walk, are a moment that its inlinings lead to. The walk stops only at a function
literal without a scope; so if every body has its scope then it goes through.
-/
namespace StaticInliner

open ScopeTree

/-- Every body of the program, and every function in the table, has a scope. -/
structure Moment.Known (m : Moment) (table : DefinitionTable) : Prop where
  bodies : ∀ owner ∈ m.program.layers.map (·.owner), m.ctx.scopes.Knows owner
  table : ∀ definition ∈ table.definitions, m.ctx.scopes.Knows (.function definition.function.id)

/-- If every body has a scope then the functions at some nodes have. -/
def Moment.Scoped (m : Moment) (table : DefinitionTable) (nodes : List Node) : Prop :=
  m.Known table → ∀ id ∈ functionIds nodes, m.ctx.scopes.Knows (.function id)

namespace Moment.Scoped

variable {m : Moment} {table : DefinitionTable}

theorem subset {nodes nodes' : List Node} (h : m.Scoped table nodes) (hsub : nodes' ⊆ nodes) :
    m.Scoped table nodes' := by
  intro hknown id hid
  obtain ⟨node, hnode, hid⟩ := List.mem_flatMap.mp hid
  exact h hknown id (List.mem_flatMap.mpr ⟨node, hsub hnode, hid⟩)

theorem operand {e operand : Expr} (h : m.Scoped table (e.nodes .nested))
    (hoperand : operand ∈ e.children) : m.Scoped table (operand.nodes .nested) := by
  refine h.subset fun node hnode => ?_
  rw [Expr.nodes_operation .nested (Expr.ownsLayer_of_mem_children hoperand)]
  exact List.mem_cons_of_mem _ (Expr.mem_nodesAll.mpr ⟨operand, hoperand, hnode⟩)

theorem head {s : Stmt} {e : Expr} (h : m.Scoped table (s.nodes .nested))
    (hhead : s.head? = some e) :
    m.Scoped table (e.nodes .nested) := by
  refine h.subset fun node hnode => ?_
  rw [Stmt.nodes_parts .nested (Stmt.function?_of_head? (Option.isSome_of_mem hhead)), hhead]
  exact List.mem_cons_of_mem _ (List.mem_append_left _ (List.mem_append_left _ hnode))

theorem body {s : Stmt} {body : List Stmt} (h : m.Scoped table (s.nodes .nested))
    (hbody : body ∈ s.bodies) : m.Scoped table (Stmt.nodesAll .nested body) := by
  refine h.subset fun node hnode => ?_
  cases hfn : s.function? with
  | some fn =>
    obtain rfl := Stmt.eq_function hfn
    obtain rfl := List.mem_singleton.mp hbody
    rw [Stmt.nodes_function]
    exact List.mem_cons_of_mem _ hnode
  | none =>
    rw [Stmt.nodes_parts .nested hfn]
    exact List.mem_cons_of_mem _ (List.mem_append_right _ (List.mem_flatMap.mpr
      ⟨body, hbody, hnode⟩))

end Moment.Scoped

namespace CallWalk

/-- The walk has come from a moment to a program and a state, by some inlinings of functions
in the table. If every body had its scope at the start then it goes on, and the inlinings
were made in such bodies. -/
structure Going (start : Moment) (table : DefinitionTable) (history : List Inlining)
    (program : Program) (state : State) : Prop where
  led : Led start history ⟨program, state.ctx⟩ state.fault
  covered : table.Covered state.ctx
  same : ∀ i ∈ history, i.table = table
  going : start.Known table → state.fault = none
  known : start.Known table → ∀ i ∈ history, start.ctx.scopes.Knows i.owner

/-- The same within a statement: if others are waiting to be put before it then the layer
of the body has been changed. -/
structure Ready (start : Moment) (table : DefinitionTable) (history : List Inlining)
    (owner : ChangedBody) (program : Program) (state : State) : Prop
    extends Going start table history program state where
  waiting : state.prelude ≠ [] → ∃ i ∈ history, i.owner = owner

/-- The walk is in a body with a scope. -/
structure Standing (start : Moment) (env : Env) (owner : ChangedBody) (scope : Nat)
    (ctx : Context) : Prop where
  wellFormed : ctx.scopes.WellFormed
  scope : ctx.scopes.scopeOf? owner = some scope
  known : start.Known env.table → start.ctx.scopes.Knows owner

section Steps

variable {start : Moment} {table : DefinitionTable} {history : List Inlining} {program : Program}
  {state : State} {owner : ChangedBody} {scope : Nat}

section Standing

variable {env : Env} {ctx ctx' : Context}

/-- A body keeps its scope while the tree grows. -/
theorem Standing.keeps (h : Standing start env owner scope ctx)
    (hkept : ctx.scopes.Keeps ctx'.scopes) :
    Standing start env owner scope ctx' :=
  ⟨hkept.wellFormed, hkept.owners owner scope h.scope, h.known⟩

theorem Standing.situated (h : Standing start env owner scope ctx) : Situated scope ctx :=
  ⟨h.wellFormed, h.wellFormed.lt_size h.scope⟩

variable (h : Standing start env owner scope state.ctx)

include h

theorem Standing.expr (e : Expr) : Standing start env owner scope (expr env scope e state).2.ctx :=
  h.keeps (keeps_expr state h.situated e)

theorem Standing.exprs (es : List Expr) :
    Standing start env owner scope (exprs env scope es state).2.ctx :=
  h.keeps (keeps_exprs state h.situated es)

theorem Standing.stmt (place : Place) (s : Stmt) :
    Standing start env owner scope (stmt env scope s state).2.ctx :=
  h.keeps (keeps_stmt place state h.situated s)

theorem Standing.stmts (place : Place) (list : List Stmt) :
    Standing start env owner scope (stmts env scope list state).2.ctx :=
  h.keeps (keeps_stmts place state h.situated list)

end Standing

/-- A body without a scope had none at the start. -/
theorem Going.unknown (h : Going start table history program state) (hstart : start.Grounded)
    (hknows : start.Known table → start.ctx.scopes.Knows owner)
    (hnone : state.ctx.scopes.scopeOf? owner = none) : ¬ start.Known table := by
  intro hknown
  obtain ⟨inner, hinner⟩ := Option.isSome_iff_exists.mp (hknows hknown)
  have hlater : state.ctx.scopes.scopeOf? owner = some inner :=
    (h.led.extended hstart).scopes.owners owner inner hinner
  cases hnone.symm.trans hlater

/-- A walk only stops if some body had no scope at the start. -/
theorem Going.stop (h : Going start table history program state) (fault : InlineFault)
    (hunknown : ¬ start.Known table) : Going start table history program (state.stop fault) := by
  obtain ⟨reached, hreaches, -, hspelled⟩ := h.led
  exact { h with
    led := ⟨reached, hreaches, nofun, hspelled⟩
    going := fun hknown => absurd hknown hunknown }

theorem Ready.stop (h : Ready start table history owner program state) (fault : InlineFault)
    (hunknown : ¬ start.Known table) : Ready start table history owner program (state.stop fault) :=
  { h with toGoing := h.toGoing.stop fault hunknown }

/-- Back to the statements that were waiting before a body was walked. -/
theorem Ready.restore (h : Ready start table history owner program state)
    {more : List Inlining} {program' : Program} {state' : State}
    (h' : Going start table (history ++ more) program' state') :
    Ready start table (history ++ more) owner program'
      { state' with prelude := state.prelude } where
  toGoing := { h' with }
  waiting hne := by
    obtain ⟨i, hi, howner⟩ := h.waiting hne
    exact ⟨i, List.mem_append_left _ hi, howner⟩

/-- A call is kept, stops the walk or is inlined. -/
theorem ready_finishCall (hstart : start.Grounded) {env : Env} {spot : Spot}
    (hsite : Standing start env spot.place.owner scope state.ctx) {callee : Expr}
    {args : List Expr} (before : Progress)
    (h : Ready start env.table history spot.place.owner
      (spot.plug state.prelude (.call callee args)) state) :
    let done := finishCall env scope before callee args state
    Ready start env.table (history ++ callTrace env scope before spot callee args state)
      spot.place.owner (spot.plug done.2.prelude done.1) done.2 := by
  rcases finishCall_cases env scope before spot callee args state with
    ⟨skipped, log, hdone, htrace⟩ | ⟨fault, hdone, htrace, hfault⟩ |
    ⟨definition, expansion, after, log, hperformed, hdone, htrace⟩
  · obtain ⟨reached, hreaches, hsame⟩ := h.led
    rw [hdone, htrace, List.append_nil]
    exact { h with led := ⟨reached, .count _ hreaches, hsame⟩ }
  · rw [hdone, htrace, List.append_nil]
    refine h.stop fault ?_
    rcases hfault with hstopped | ⟨definition, hmem, hfault⟩
    · intro hknown
      cases (h.going hknown).symm.trans hstopped
    · exact h.unknown hstart (fun hknown => hknown.table definition hmem)
        (Definition.functionScope?_of_error hfault)
  · have hgoing : state.fault = none := by
      rw [← Option.not_isSome_iff_eq_none]
      intro hstopped
      rw [callTrace, if_pos hstopped] at htrace
      cases htrace
    have hreaches := h.led.reaches hgoing
    rw [hdone, htrace]
    exact {
      led := .of_reaches (.inline _ hreaches h.covered hperformed hsite.scope) _
      covered := (hperformed.grounded hsite.scope (hreaches.grounded hstart) h.covered).2
      same := List.forall_mem_append.mpr ⟨h.same, List.forall_mem_singleton.mpr rfl⟩
      going := h.going
      known := fun hknown => List.forall_mem_append.mpr
        ⟨h.known hknown, List.forall_mem_singleton.mpr (hsite.known hknown)⟩
      waiting := fun _ => ⟨_, List.mem_append_right _ List.mem_cons_self, rfl⟩ }

end Steps

variable {start : Moment} {env : Env} {history : List Inlining} {state : State}

/-- Put the statements that wait before theirs, or lose them. -/
theorem Ready.splice {table : DefinitionTable} {place : Place} {done rest : List Stmt} {s : Stmt}
    (h : Ready start table history place.owner
      (place.plug (done ++ state.prelude ++ s :: rest)) state) :
    Going start table history (place.plug (done ++ splice s state ++ rest)) state := by
  rw [CallWalk.splice]
  split
  · next hstopped =>
    obtain ⟨reached, hreaches, -, hspelled⟩ := h.led
    obtain ⟨outside, hplug⟩ := place.spelled_plug
    refine { h.toGoing with led := ⟨reached, hreaches, fun hgoing => ?_,
      fun name hname => hspelled ?_⟩ }
    · rw [hgoing] at hstopped
      cases hstopped
    · refine (hplug _ _).mpr (((hplug _ _).mp hname).imp_right fun hname => ?_)
      rw [List.append_assoc] at hname ⊢
      rw [Stmt.spelledAll_append, List.mem_append] at hname ⊢
      refine hname.imp_right fun hname => ?_
      rw [Stmt.spelledAll_append]
      exact List.mem_append_right _ hname
  · next hgo =>
    have hreaches := h.led.reaches (Option.not_isSome_iff_eq_none.mp hgo)
    split
    · next hreads =>
      unfold readsOwnResult at hreads
      split at hreads
      · next name =>
        refine { h.toGoing with
          led := .of_reaches (.drop place (done ++ state.prelude) rest name hreaches ?_) _ }
        refine h.waiting fun hnil => ?_
        rw [hnil] at hreads
        cases hreads
      · cases hreads
    · rw [← List.append_assoc, List.append_assoc _ [s]]
      exact h.toGoing

variable (start env)

/-- The walk of an expression makes a history of the moment that it starts with. -/
def ExprReady (e : Expr) : Prop :=
  ∀ {scope : Nat} (spot : Spot) (state : State) {history : List Inlining},
    Standing start env spot.place.owner scope state.ctx →
    start.Scoped env.table (e.nodes .nested) →
    Ready start env.table history spot.place.owner (spot.plug state.prelude e) state →
    Ready start env.table (history ++ exprTrace env scope spot e state) spot.place.owner
      (spot.plug (expr env scope e state).2.prelude (expr env scope e state).1)
      (expr env scope e state).2

/-- The same for a statement. -/
def StmtReady (s : Stmt) : Prop :=
  ∀ {scope : Nat} (place : Place) (done rest : List Stmt) (state : State) {history : List Inlining},
    Standing start env place.owner scope state.ctx →
    start.Scoped env.table (s.nodes .nested) →
    Ready start env.table history place.owner
      (place.plug (done ++ state.prelude ++ s :: rest)) state →
    Ready start env.table (history ++ stmtTrace env scope place done rest s state) place.owner
      (place.plug (done ++ (stmt env scope s state).2.prelude ++
        (stmt env scope s state).1 :: rest))
      (stmt env scope s state).2

variable {start env} {scope : Nat}

/-- The run of the walk over the operands of an operation, one after another. -/
theorem ready_exprs (spot : Spot) (hsite : Standing start env spot.place.owner scope state.ctx)
    (node : Expr) (before : List Expr) {es : List Expr} (ih : ∀ e ∈ es, ExprReady start env e)
    (fits : before.length + es.length = node.children.length)
    (hids : ∀ e ∈ es, start.Scoped env.table (e.nodes .nested))
    (h : Ready start env.table history spot.place.owner
      (spot.plug state.prelude (node.withOperands (before ++ es))) state) :
    Ready start env.table (history ++ exprsTrace env scope spot node before es fits state)
      spot.place.owner (spot.plug (exprs env scope es state).2.prelude
        (node.withOperands (before ++ (exprs env scope es state).1)))
          (exprs env scope es state).2 := by
  induction es generalizing before state history with
  | nil =>
    simp only [exprs, exprsTrace, List.append_nil] at h ⊢
    exact h
  | cons e rest ih' =>
    obtain ⟨hfirst, hrest⟩ := List.forall_mem_cons.mp ih
    obtain ⟨hidsFirst, hidsRest⟩ := List.forall_mem_cons.mp hids
    have hf := hfirst (spot.inside ⟨node, before, rest, by grind⟩) state hsite hidsFirst h
    have hr := ih' (hsite.expr e) (before ++ [(expr env scope e state).1]) hrest (by grind)
      hidsRest (by rw [List.append_assoc]; exact hf)
    rw [List.append_assoc before] at hr
    rw [exprs, exprsTrace, ← List.append_assoc]
    exact hr

/-- The run over a list of statements: what waits is put before each of them. -/
theorem going_stmts (place : Place) (hsite : Standing start env place.owner scope state.ctx)
    (done : List Stmt) {list : List Stmt} (ih : ∀ s ∈ list, StmtReady start env s)
    (hids : start.Scoped env.table (Stmt.nodesAll .nested list))
    (h : Going start env.table history (place.plug (done ++ list)) state) :
    Going start env.table (history ++ stmtsTrace env scope place done list state)
      (place.plug (done ++ (stmts env scope list state).1)) (stmts env scope list state).2 := by
  induction list generalizing done state history with
  | nil =>
    simp only [stmts, stmtsTrace, List.append_nil] at h ⊢
    exact h
  | cons s rest ih' =>
    by_cases hgo : state.fault.isSome = true
    · rw [stmts, stmtsTrace, if_pos hgo, if_pos hgo, List.append_nil]
      exact h
    obtain ⟨hfirst, hrest⟩ := List.forall_mem_cons.mp ih
    let first := stmt env scope s state.begin
    have hbegun :
        Going start env.table history (place.plug (done ++ [] ++ s :: rest)) state.begin :=
      { h with led := by rw [List.append_nil]; exact h.led }
    have hs := hfirst place done rest state.begin hsite (hids.subset (List.subset_append_left _ _))
      ⟨hbegun, fun hne => absurd rfl hne⟩
    have hbegin : Standing start env place.owner scope state.begin.ctx := hsite
    have hr := ih' (hbegin.stmt place s) (done ++ splice first.1 first.2) hrest
      (hids.subset (List.subset_append_right _ _)) hs.splice
    rw [stmts, stmtsTrace, if_neg hgo, if_neg hgo, ← List.append_assoc, ← List.append_assoc]
    exact hr

/-- The run over the bodies of a compound statement. -/
theorem going_bodies {owner : ChangedBody} (hsite : Standing start env owner scope state.ctx)
    {fill : List (List Stmt) → Program} {places : List Place} {done lists : List (List Stmt)}
    (ih : ∀ body ∈ lists, ∀ s ∈ body, StmtReady start env s)
    (hids : ∀ body ∈ lists, start.Scoped env.table (Stmt.nodesAll .nested body))
    (hplaces : places.length = lists.length)
    (hsuccessive : Successive env scope owner fill done places lists state)
    (h : Going start env.table history (fill (done ++ lists)) state) :
    Going start env.table (history ++ bodiesTrace env scope places lists state)
      (fill (done ++ (bodies env scope lists state).1)) (bodies env scope lists state).2 := by
  induction lists generalizing places done state history with
  | nil =>
    rw [bodiesTrace_nil, List.append_nil]
    exact h
  | cons body rest ih' =>
    obtain ⟨place, places, rfl⟩ := List.exists_cons_of_length_eq_add_one hplaces
    obtain ⟨hbody, hrest⟩ := List.forall_mem_cons.mp ih
    obtain ⟨hidsBody, hidsRest⟩ := List.forall_mem_cons.mp hids
    obtain ⟨rfl, hplug, hsuccessive⟩ := hsuccessive
    have hb := going_stmts place hsite [] hbody hidsBody ((hplug body).symm ▸ h)
    rw [List.nil_append, hplug] at hb
    have hr := ih' (hsite.stmts place body) hrest hidsRest (Nat.succ.inj hplaces) hsuccessive
      (by rw [List.append_assoc]; exact hb)
    rw [List.append_assoc, List.append_assoc] at hr
    exact hr

section Operations

variable {spot : Spot} (hsite : Standing start env spot.place.owner scope state.ctx)

include hsite

/-- The step at an operation whose operands are all walked in order. -/
theorem ready_operands {e : Expr} (hwalks : e.walksOperands = true) (hgo : state.fault = none)
    (ih : ∀ operand ∈ e.children, ExprReady start env operand)
    (hids : start.Scoped env.table (e.nodes .nested))
    (h : Ready start env.table history spot.place.owner (spot.plug state.prelude e) state) :
    Ready start env.table (history ++ exprTrace env scope spot e state) spot.place.owner
      (spot.plug (expr env scope e state).2.prelude (expr env scope e state).1)
      (expr env scope e state).2 := by
  have hdone :=
    ready_exprs spot hsite e [] ih (Nat.zero_add _) (fun operand hmem => hids.operand hmem)
    (by rw [List.nil_append, e.withOperands_children]; exact h)
  rw [expr_operands hwalks hgo, exprTrace_operands hwalks hgo]
  unfold State.passing
  split <;> exact { hdone with }

/-- The step at a call, which is expanded after its callee and arguments are walked. -/
theorem ready_call (hstart : start.Grounded) {callee : Expr} {args : List Expr}
    (hgo : ¬ state.fault.isSome = true)
    (hcallee : ExprReady start env callee) (hargs : ∀ arg ∈ args, ExprReady start env arg)
    (hids : start.Scoped env.table ((Expr.call callee args).nodes .nested))
    (h : Ready start env.table history spot.place.owner
      (spot.plug state.prelude (.call callee args)) state) :
    Ready start env.table (history ++ exprTrace env scope spot (.call callee args) state)
      spot.place.owner (spot.plug (expr env scope (.call callee args) state).2.prelude
        (expr env scope (.call callee args) state).1)
          (expr env scope (.call callee args) state).2 := by
  have hidsArgs (arg : Expr) (hmem : arg ∈ args) := hids.operand (List.mem_cons_of_mem _ hmem)
  simp only [expr, exprTrace, if_neg hgo, ← List.append_assoc]
  cases isKnownCallee env state.ctx.scopes scope callee with
  | true =>
    have ha :=
      ready_exprs spot hsite (.call callee args) [callee] hargs (Nat.add_comm _ _) hidsArgs h
    simp only [if_true, List.append_nil]
    exact ready_finishCall hstart (hsite.exprs args) state.progress ha
  | false =>
    let c := expr env scope callee state
    have hc := hcallee (spot.inside ⟨.call callee args, [], args, Nat.add_comm _ _⟩) state hsite
      (hids.operand List.mem_cons_self) h
    have ha :=
      ready_exprs spot (hsite.expr callee) (.call callee args) [c.1] hargs (Nat.add_comm _ _)
      hidsArgs hc
    simp only [Bool.false_eq_true, if_false]
    exact ready_finishCall hstart ((hsite.expr callee).exprs args) state.progress ha

end Operations

/-- The step at any operation. -/
theorem ready_operation (hstart : start.Grounded) {e : Expr} (hlayer : e.ownsLayer = false)
    (ih : ∀ operand ∈ e.children, ExprReady start env operand) : ExprReady start env e := by
  intro scope spot state history hsite hids h
  by_cases hgo : state.fault.isSome = true
  · rw [expr_stopped hgo, exprTrace_stopped hgo, List.append_nil]
    exact h
  refine Expr.Operations.operation (G := fun e => start.Scoped env.table (e.nodes .nested) →
    Ready start env.table history spot.place.owner (spot.plug state.prelude e) state →
    Ready start env.table (history ++ exprTrace env scope spot e state) spot.place.owner
      (spot.plug (expr env scope e state).2.prelude (expr env scope e state).1)
      (expr env scope e state).2) ?_ hlayer ih hids h
  constructor
  case operands =>
    intro e hwalks
    exact ready_operands hsite hwalks (Option.not_isSome_iff_eq_none.mp hgo)
  case call => exact ready_call hsite hstart hgo
  case ident =>
    intro name _ h
    simp only [expr, exprTrace, if_neg hgo, List.append_nil]
    split <;> exact { h with }
  case assign =>
    intro name op value hvalue hids h
    have hv :=
      hvalue (spot.inside ⟨.assign (.ident name) op value, [.ident name], [], rfl⟩) state hsite
      (hids.operand (List.mem_cons_of_mem _ List.mem_cons_self)) h
    simp only [expr, exprTrace, if_neg hgo]
    exact { hv with }
  case logical =>
    intro op left right hleft hright hids h
    let l := expr env scope left state
    have hl := hleft (spot.inside ⟨.logical op left right, [], [right], rfl⟩) state hsite
      (hids.operand List.mem_cons_self) h
    have hr := hright (spot.inside ⟨.logical op left right, [l.1], [], rfl⟩)
      (l.2.setProgress .conditional) (hsite.expr left)
      (hids.operand (List.mem_cons_of_mem _ List.mem_cons_self)) { hl with }
    simp only [expr, exprTrace, if_neg hgo, ← List.append_assoc]
    exact { hr with }
  case conditional =>
    intro condition thenExpr elseExpr hcondition hthen helse hids h
    let c := expr env scope condition state
    let t := expr env scope thenExpr (c.2.setProgress .conditional)
    have hsiteThen : Standing start env spot.place.owner scope (c.2.setProgress .conditional).ctx :=
      hsite.expr condition
    have hc := hcondition (spot.inside ⟨.conditional condition thenExpr elseExpr, [],
      [thenExpr, elseExpr], rfl⟩) state hsite (hids.operand List.mem_cons_self) h
    have ht :=
      hthen (spot.inside ⟨.conditional condition thenExpr elseExpr, [c.1], [elseExpr], rfl⟩)
      (c.2.setProgress .conditional) hsiteThen
      (hids.operand (List.mem_cons_of_mem _ List.mem_cons_self)) { hc with }
    have hf := helse (spot.inside ⟨.conditional condition thenExpr elseExpr, [c.1, t.1], [], rfl⟩)
      ((closeBranch c.2.progress t.1 t.2).setProgress .conditional) (hsiteThen.expr thenExpr)
      (hids.operand (List.mem_cons_of_mem _ (List.mem_cons_of_mem _ List.mem_cons_self)))
      { ht with }
    simp only [expr, exprTrace, if_neg hgo, ← List.append_assoc]
    exact { hf with }

/-- The step at a function literal, whose body is walked in its own scope. -/
theorem ready_literal (hstart : start.Grounded) {fn : FunctionLit}
    (ih : ∀ s ∈ fn.body, StmtReady start env s) : ExprReady start env (.function fn) := by
  intro scope spot state history hsite hids h
  obtain ⟨id, name, params, body⟩ := fn
  by_cases hgo : state.fault.isSome = true
  · rw [expr_stopped hgo, exprTrace_stopped hgo, List.append_nil]
    exact h
  simp only [expr, exprTrace, if_neg hgo]
  cases hscope : state.ctx.scopes.functionScope? id with
  | none =>
    rw [List.append_nil]
    exact h.stop _ (h.unknown hstart (fun hknown => hids hknown id List.mem_cons_self) hscope)
  | some inner =>
    have hb := going_stmts (spot.literal state.prelude id name params)
      ⟨hsite.wellFormed, hscope, fun hknown => hids hknown id List.mem_cons_self⟩ [] ih
      (hids.subset (List.subset_cons_self _ _)) h.toGoing
    exact { h.restore hb with }

/-- The step at a function declaration. -/
theorem ready_declaration (hstart : start.Grounded) {fn : FunctionLit}
    (ih : ∀ s ∈ fn.body, StmtReady start env s) : StmtReady start env (.function fn) := by
  intro scope place done rest state history hsite hids h
  obtain ⟨id, name, params, body⟩ := fn
  simp only [stmt, stmtTrace]
  cases hscope : state.ctx.scopes.functionScope? id with
  | none =>
    rw [List.append_nil]
    exact h.stop _ (h.unknown hstart (fun hknown => hids hknown id List.mem_cons_self) hscope)
  | some inner =>
    have hb := going_stmts (.body place (done ++ state.prelude) (.function id name params) rest)
      ⟨hsite.wellFormed, hscope, fun hknown => hids hknown id List.mem_cons_self⟩ []
      ih (hids.body List.mem_cons_self) h.toGoing
    exact h.restore hb

/-- The expression of a statement is walked before its bodies. -/
theorem ready_head {s : Stmt} (hfn : s.function? = none) (ih : ∀ e ∈ s.head?, ExprReady start env e)
    {place : Place} (hsite : Standing start env place.owner scope state.ctx) {done rest : List Stmt}
    (hids : start.Scoped env.table (s.nodes .nested))
    (h : Ready start env.table history place.owner
      (place.plug (done ++ state.prelude ++ s :: rest)) state) :
    let first := head env scope s state
    Standing start env place.owner scope first.2.ctx ∧
    Ready start env.table (history ++ headTrace env scope place done rest s state) place.owner
      (place.plug (done ++ first.2.prelude ++ s.withParts first.1 s.bodies :: rest)) first.2 := by
  cases hs : s.head? with
  | none =>
    have hsame := Stmt.withParts_parts hfn
    rw [hs] at hsame
    simp only [head_none hs, headTrace_none hs, List.append_nil, hsame]
    exact ⟨hsite, h⟩
  | some e =>
    obtain ⟨hasHead, htrace⟩ := headTrace_some env scope state hs place done rest
    have hsame : s.withHead e = s := by rw [← s.withParts_bodies, ← hs, Stmt.withParts_parts hfn]
    have hentering : Standing start env place.owner scope (state.entering s).ctx ∧
        Ready start env.table history place.owner
          (place.plug (done ++ (state.entering s).prelude ++ s.withHead e :: rest))
          (state.entering s) := by
      rw [hsame]
      unfold State.entering
      split <;> exact ⟨hsite, { h with }⟩
    obtain ⟨hsite, hentering⟩ := hentering
    have hdone :=
      ih e hs ⟨place, done, s, hasHead, [], rest⟩ (state.entering s) hsite (hids.head hs)
      hentering
    simp only [head_some hs, htrace, Stmt.withParts_bodies]
    exact ⟨hsite.expr e, hdone⟩

/-- Every expression and every statement leads on from the moment that it starts with. -/
theorem byParts_ready (hstart : start.Grounded) :
    ByParts (ExprReady start env) (StmtReady start env)
    fun list => ∀ s ∈ list, StmtReady start env s where
  operation _ := ready_operation hstart
  literal _ := ready_literal hstart
  declaration _ := ready_declaration hstart
  list _ ih := ih
  statement s hfn hhead hbodies := by
    intro scope place done rest state history hsite hids h
    obtain ⟨places, hplaces, hsuccessive, htrace⟩ :=
      stmtTrace_parts env scope state hfn place done rest
    obtain ⟨hsite, hfirst⟩ := ready_head hfn hhead hsite hids h
    have hbelow := going_bodies hsite hbodies (fun body hmem => hids.body hmem) hplaces hsuccessive
      hfirst.toGoing
    rw [stmt_parts hfn, htrace, ← List.append_assoc]
    exact hfirst.restore hbelow

/-- The run over the source units of a program. -/
theorem going_units {table : DefinitionTable} (hstart : start.Grounded)
    (done list : List SourceUnit) (state : State) {history : List Inlining}
    (hunits : ∀ unit ∈ list,
      (start.Known table → start.ctx.scopes.Knows (.script unit.id)) ∧
        start.Scoped table (Stmt.nodesAll .nested unit.body))
    (hwf : state.ctx.scopes.WellFormed) (h : Going start table history ⟨done ++ list⟩ state) :
    Going start table (history ++ unitsTrace table done list state)
      ⟨done ++ (units table list state).1⟩ (units table list state).2 := by
  induction list generalizing done state history with
  | nil =>
    simp only [units, unitsTrace, List.append_nil] at h ⊢
    exact h
  | cons unit rest ih =>
    by_cases hgo : state.fault.isSome = true
    · rw [units, unitsTrace, if_pos hgo, if_pos hgo, List.append_nil]
      exact h
    obtain ⟨⟨hunit, hids⟩, hrest⟩ := List.forall_mem_cons.mp hunits
    simp only [units, unitsTrace, if_neg hgo]
    cases hscope : state.ctx.scopes.unitScope? unit.id with
    | none =>
      rw [List.append_nil]
      exact h.stop _ (h.unknown hstart hunit hscope)
    | some scope =>
      let env : Env := ⟨table, unit.name⟩
      let place : Place := .unit done unit.id unit.name rest
      let body := stmts env scope unit.body state
      have hsite : Standing start env place.owner scope state.ctx := ⟨hwf, hscope, hunit⟩
      have hb : Going start env.table (history ++ stmtsTrace env scope place [] unit.body state)
          (place.plug body.1) body.2 :=
        going_stmts place hsite [] ((byParts_ready hstart).stmts unit.body) hids h
      have hr := ih (done ++ [⟨unit.id, unit.name, body.1⟩]) body.2 hrest
        (hsite.stmts place unit.body).wellFormed
        (by rw [List.append_assoc]; exact hb)
      rw [List.append_assoc, List.append_assoc] at hr
      exact hr

end CallWalk

/-- Expanding the calls of a program makes a history, of inlinings of functions in the table.
If every body of the program has a scope then it goes through. -/
theorem Moment.Grounded.led_expandCalls {m : Moment} (h : m.Grounded) {table : DefinitionTable}
    (hcovered : table.Covered m.ctx) :
    let done := m.program.expandCalls table m.ctx
    let history := m.program.inlinings table m.ctx
    Led m history ⟨done.program, done.ctx⟩ done.fault ∧ (∀ i ∈ history, i.table = table) ∧
      (m.Known table → done.fault = none ∧ ∀ i ∈ history, m.ctx.scopes.Knows i.owner) := by
  have hdone := CallWalk.going_units h [] m.program.units ⟨m.ctx, .statement, [], [], none⟩
    (fun unit hunit => ⟨fun hknown => ?_, fun hknown id hid => ?_⟩) h.wellFormed
    ⟨.of_reaches .start _, hcovered, nofun, fun _ => rfl, fun _ => nofun⟩
  · exact ⟨hdone.led, hdone.same, fun hknown => ⟨hdone.going hknown, hdone.known hknown⟩⟩
  · refine hknown.bodies _ (m.program.perm_owners.mem_iff.mpr (List.mem_append_left _ ?_))
    exact List.mem_map.mpr ⟨unit, hunit, rfl⟩
  · refine hknown.bodies _ (m.program.perm_owners.mem_iff.mpr (List.mem_append_right _ ?_))
    refine List.mem_map_of_mem ?_
    rw [Program.nodes, functionIds_flatMap]
    exact List.mem_flatMap.mpr ⟨unit, hunit, hid⟩

end StaticInliner
