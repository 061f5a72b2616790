import StaticInliner.Proofs.Courses
import StaticInliner.Proofs.Relabeling.Tables

/-!
Two walks side by side. From paired states a program and its relabeled copy are walked in step:
the same calls are expanded, the same names are drawn, and what is left of the copy is what is
left of the program, relabeled. Each lemma supposes that the two runs come as far as the states
that the walk ends with, since the relabeling is made for names up to there.
-/
namespace StaticInliner

namespace CallWalk

variable {p : Pairing} {env : Env} {scope : Nat} {state state' : State}

section Generated

/-- A call only reserves names that it generates. -/
theorem generates_finishCall (before : Progress) (callee : Expr) (args : List Expr)
    (state : State) :
    state.ctx.Generates (finishCall env scope before callee args state).2.ctx := by
  have hknown (site : CallSite) :
      state.ctx.Generates (expandKnown env callee args site state).2.ctx := by
    unfold expandKnown
    split
    · exact .refl _
    · split
      · exact .refl _
      · split
        · exact .refl _
        · split
          · exact .refl _
          · next h => exact (Definition.generates_expandCall h :)
          · next h => exact (Definition.generates_expandCall h :)
  by_cases hgo : state.fault.isSome = true
  · rw [finishCall, if_pos hgo]
    exact .refl _
  · rw [(finishCall_ctx hgo before callee args).1]
    exact hknown _

theorem course_generates :
    Course (fun _ => True) (fun _ _ => True) (fun _ _ a b => a.ctx.Generates b.ctx) where
  ok _ := trivial
  enter _ _ _ _ _ := trivial
  stay _ _ := trivial
  keep _ _ := trivial
  refl _ := .refl _
  trans := .trans
  context h ha _ hb _ := by rwa [ha, hb]
  operation _ h := h
  statement h := h
  stopped _ _ := .refl _
  stop _ := .refl _

/-- A walk reserves generated names only. -/
theorem callCourse_generates (env : Env) : CallCourse env (fun _ => True) (fun _ _ => True)
    (fun _ _ a b => a.ctx.Generates b.ctx) where
  toCourse := course_generates
  known _ _ := .refl _
  call _ _ h := h.trans (generates_finishCall _ _ _ _)

/-- The walk of an expression only reserves generated names. -/
theorem generates_expr (e : Expr) (scope : Nat) (state : State) :
    state.ctx.Generates (expr env scope e state).2.ctx :=
  (callCourse_generates env).byParts.expr e (.alone e) state trivial

theorem generates_exprs (es : List Expr) (scope : Nat) (state : State) :
    state.ctx.Generates (exprs env scope es state).2.ctx := by
  induction es generalizing state with
  | nil => exact .refl _
  | cons e rest ih => exact (generates_expr e scope state).trans (ih _)

theorem generates_stmts (list : List Stmt) (scope : Nat) (state : State) :
    state.ctx.Generates (stmts env scope list state).2.ctx :=
  course_generates.stmts ((callCourse_generates env).byParts.stmts list) (.unit [] 0 "" [])
    [] trivial

theorem generates_bodies (list : List (List Stmt)) (scope : Nat) (state : State) :
    state.ctx.Generates (bodies env scope list state).2.ctx := by
  induction list generalizing state with
  | nil => exact .refl _
  | cons body rest ih => exact (generates_stmts body scope state).trans (ih _)

theorem generates_units {table : DefinitionTable} (list : List SourceUnit) (state : State) :
    state.ctx.Generates (units table list state).2.ctx :=
  course_generates.units (fun name => (callCourse_generates ⟨table, name⟩).byParts.stmt)
    [] list state trivial

end Generated

section Calls

def Env.relabel (σ : Relabeling) (env : Env) : Env := ⟨env.table.relabel σ, env.unit⟩

/-- States of two walks at the same point. -/
structure State.Paired (p : Pairing) (state state' : State) : Prop where
  ctx : state.ctx.Paired p state'.ctx
  progress : state'.progress = state.progress
  prelude : state'.prelude = Stmt.relabelAll p.label state.prelude
  fault : state'.fault = state.fault
  log : p.oneSupply → state'.log = state.log

/-- Two walks that end at the same point, with results that correspond, if the runs come as far. -/
def Lockstep {α : Type} (p : Pairing) (relabel : α → α) (done done' : α × State) : Prop :=
  p.Passes done.2.ctx done'.2.ctx → done'.1 = relabel done.1 ∧ done.2.Paired p done'.2

namespace State.Paired

theorem setProgress (h : state.Paired p state') (progress : Progress) :
    (state.setProgress progress).Paired p (state'.setProgress progress) :=
      { h with progress := rfl }

theorem impure (h : state.Paired p state') : state.impure.Paired p state'.impure :=
  { h with progress := congrArg Progress.impure h.progress }

theorem reading (h : state.Paired p state') : state.reading.Paired p state'.reading :=
  { h with progress := congrArg Progress.reading h.progress }

theorem stop (h : state.Paired p state') (fault : InlineFault) :
    (state.stop fault).Paired p (state'.stop fault) := { h with fault := rfl }

theorem begin (h : state.Paired p state') : state.begin.Paired p state'.begin :=
  { h with progress := rfl, prelude := rfl }

theorem leave (h : state.Paired p state') (name : QualifiedName) {obstacle obstacle' : Obstacle}
    (hobstacle : p.oneSupply → obstacle' = obstacle) :
    (state.leave env name obstacle).Paired p
      (state'.leave (env.relabel p.label) (name.relabel p.label) obstacle') where
  ctx := { h.ctx with stats := by simp only [State.leave, h.ctx.stats] }
  progress := h.progress
  prelude := h.prelude
  fault := h.fault
  log hone := by
    simp only [State.leave, h.log hone, name.relabel_eq_self (p.keeps hone), hobstacle hone]
    rfl

/-- Going back to what was waiting before. -/
theorem restore {done done' : State} (hdone : done.Paired p done') (h : state.Paired p state') :
    { done with prelude := state.prelude }.Paired p { done' with prelude := state'.prelude } :=
  { hdone with prelude := h.prelude }

end State.Paired

theorem qualifiedCallee?_relabel (σ : Relabeling) (callee : Expr) :
    qualifiedCallee? (callee.relabel σ) =
      (qualifiedCallee? callee).map (QualifiedName.relabel σ) := by
  have hqualified : (·.isQualified) ∘ QualifiedName.relabel σ = (·.isQualified) :=
    funext QualifiedName.isQualified_relabel
  rw [qualifiedCallee?, qualifiedCallee?, Expr.qualifiedName?_relabel, Option.filter_map,
    hqualified]

theorem isKnownCallee_relabel (σ : Relabeling) (env : Env) (scopes : ScopeTree) (scope : Nat)
    (callee : Expr) :
    isKnownCallee (env.relabel σ) (scopes.relabel σ) scope (callee.relabel σ) =
      isKnownCallee env scopes scope callee := by
  rw [isKnownCallee, isKnownCallee, qualifiedCallee?_relabel]
  cases qualifiedCallee? callee with
  | none => rfl
  | some name =>
    simp only [Option.map_some, name.root_relabel, ScopeTree.isBoundInFunction_relabel]
    exact congrArg (· && _) (env.table.contains_relabel σ name)

/-- The same bodies are marked as changed. -/
theorem markChanged_paired {ctx ctx' : Context} (h : ctx.Paired p ctx') (scope : Nat) :
    markChanged ctx' scope = markChanged ctx scope := by
  rw [markChanged, markChanged, h.scopes, ScopeTree.bodyScope_relabel, ScopeTree.get?_relabel,
    h.changes]
  cases ctx.scopes.get? (ctx.scopes.bodyScope scope) <;> rfl

/-- The states still correspond after an expansion. -/
theorem State.Paired.expanded (h : state.Paired p state') (name : QualifiedName)
    (shape : ExpansionShape) (scope : Nat) {ctx ctx' : Context} (hctx : ctx.Paired p ctx') :
    (state.expanded env name shape scope ctx).Paired p
      (state'.expanded (env.relabel p.label) (name.relabel p.label) shape scope ctx') where
  ctx := { hctx with
    stats := congrArg (countExpansion shape) hctx.stats
    changes := markChanged_paired hctx scope }
  progress := h.progress
  prelude := h.prelude
  fault := h.fault
  log hone := by
    simp only [State.expanded, h.log hone, name.relabel_eq_self (p.keeps hone)]
    rfl

/-- A call of a known function has the same outcome in both walks. -/
theorem expandKnown_paired (h : state.Paired p state') (callee : Expr) (args : List Expr)
    (site : CallSite) :
    Lockstep p (Option.map (Expansion.relabel p.label)) (expandKnown env callee args site state)
      (expandKnown (env.relabel p.label) (callee.relabel p.label)
        (Expr.relabelAll p.label args) site
        state') := by
  intro hpasses
  unfold expandKnown at hpasses ⊢
  rw [qualifiedCallee?_relabel] at hpasses ⊢
  cases hname : qualifiedCallee? callee with
  | none => exact ⟨rfl, h⟩
  | some name =>
    have hget : (env.relabel p.label).table.get? (name.relabel p.label) = _ :=
      env.table.get?_relabel p.label name
    simp only [hname, Option.map_some, hget] at hpasses ⊢
    cases hdefinition : env.table.get? name with
    | none => exact ⟨rfl, h⟩
    | some definition =>
      simp only [hdefinition, Option.map_some, name.root_relabel, h.ctx.scopes,
        ScopeTree.isBoundInFunction_relabel] at hpasses ⊢
      by_cases hbound : state.ctx.scopes.isBoundInFunction site.scope name.root = true
      · simp only [if_pos hbound]
        exact ⟨rfl, h.leave name fun hone => congrArg Obstacle.rootShadowed
          (p.keeps hone name.root)⟩
      · simp only [if_neg hbound] at hpasses ⊢
        have halike := definition.expandCall_paired h.ctx args site
        generalize definition.expandCall args site state.ctx = done at hpasses halike ⊢
        generalize (definition.relabel p.label).expandCall
          (Expr.relabelAll p.label args) site state'.ctx =
          done' at hpasses halike ⊢
        cases halike with
        | error fault => exact ⟨rfl, h.stop fault⟩
        | kept hobstacle hctx =>
          have hleft : State.Paired p { state with ctx := _ } { state' with ctx := _ } :=
            { h with ctx := hctx }
          exact ⟨rfl, hleft.leave name hobstacle⟩
        | expanded hnext =>
          obtain ⟨rfl, hctx⟩ := hnext hpasses
          exact ⟨rfl, h.expanded name _ site.scope hctx⟩

theorem progressAfter_relabel (σ : Relabeling) (scopes : ScopeTree) (before after : Progress)
    (expansion : Expansion) :
    progressAfter (scopes.relabel σ) scope before after (expansion.relabel σ) =
      progressAfter scopes scope before after expansion := by
  obtain ⟨shape, prelude, value, result⟩ := expansion
  cases shape with
  | block => rfl
  | direct =>
    cases value with
    | ident name =>
      simp only [progressAfter, Expansion.relabel, Expr.relabel,
        ScopeTree.isBoundInFunction_relabel]
    | function fn => cases fn; rfl
    | _ => rfl

/-- More is waiting to be put before the statement. -/
theorem State.Paired.waiting (h : state.Paired p state') (progress : Progress) (new : List Stmt) :
    State.Paired p { state with progress, prelude := state.prelude ++ new }
      { state' with progress, prelude := state'.prelude ++ Stmt.relabelAll p.label new } :=
  { h with progress := rfl, prelude := by simp only [h.prelude, Stmt.relabelAll_append] }

/-- The step at the end of a call, in both walks. -/
theorem finishCall_paired (h : state.Paired p state') (before : Progress) (callee : Expr)
    (args : List Expr) :
    Lockstep p (Expr.relabel p.label) (finishCall env scope before callee args state)
      (finishCall (env.relabel p.label) scope before (callee.relabel p.label)
        (Expr.relabelAll p.label args)
        state') := by
  intro hpasses
  have hsite : before.allowsBlock (Expr.relabelAll p.label args) = before.allowsBlock args := by
    rw [Progress.allowsBlock, Progress.allowsBlock, Expr.anySideEffects_relabelAll]
  by_cases hgo : state.fault.isSome = true
  · simp only [finishCall, h.fault, if_pos hgo]
    exact ⟨rfl, h⟩
  · have hgo' : ¬state'.fault.isSome = true := by rwa [h.fault]
    rw [(finishCall_ctx hgo before callee args).1, (finishCall_ctx hgo' before _ _).1,
      hsite] at hpasses
    obtain ⟨hexpansion, hstate⟩ :=
      expandKnown_paired h callee args ⟨scope, before.allowsBlock args⟩ hpasses
    simp only [finishCall, if_neg hgo, if_neg hgo', hsite, hexpansion]
    cases (expandKnown env callee args ⟨scope, before.allowsBlock args⟩ state).1 with
    | none =>
      refine ⟨rfl, ?_⟩
      simp only [Option.map_none, hstate.fault]
      split
      · exact hstate
      · exact hstate.impure
    | some expansion =>
      simp only [Option.map_some, hstate.ctx.scopes, hstate.progress, progressAfter_relabel]
      exact ⟨rfl, hstate.waiting _ expansion.prelude⟩

end Calls

section Walking

/-- An expression is walked in step with its relabeled copy. -/
def ExprPaired (p : Pairing) (env : Env) (e : Expr) : Prop :=
  ∀ scope state state', state.Paired p state' →
    Lockstep p (Expr.relabel p.label) (expr env scope e state)
    (expr (env.relabel p.label) scope (e.relabel p.label) state')

/-- The same for a statement. -/
def StmtPaired (p : Pairing) (env : Env) (s : Stmt) : Prop :=
  ∀ scope state state', state.Paired p state' →
    Lockstep p (Stmt.relabel p.label) (stmt env scope s state)
    (stmt (env.relabel p.label) scope (s.relabel p.label) state')

/-- The run over a list of expressions. -/
theorem exprs_paired (scope : Nat) {es : List Expr} (ih : ∀ e ∈ es, ExprPaired p env e)
    (h : state.Paired p state') :
    Lockstep p (Expr.relabelAll p.label) (exprs env scope es state)
      (exprs (env.relabel p.label) scope (Expr.relabelAll p.label es) state') := by
  induction es generalizing state state' with
  | nil => exact fun _ => ⟨rfl, h⟩
  | cons e rest ih' =>
    obtain ⟨hfirst, hrest⟩ := List.forall_mem_cons.mp ih
    intro hpasses
    obtain ⟨he, hstate⟩ := hfirst scope state state' h
      (hpasses.before (generates_exprs rest scope _) (generates_exprs _ scope _))
    obtain ⟨hes, hstates⟩ := ih' hrest hstate hpasses
    simp only [exprs, Expr.relabelAll, he, hes]
    exact ⟨trivial, hstates⟩

theorem readsOwnResult_relabel (σ : Relabeling) (prelude : List Stmt) (s : Stmt) :
    readsOwnResult (Stmt.relabelAll σ prelude) (s.relabel σ) = readsOwnResult prelude s := by
  cases s with
  | expr e =>
    cases e with
    | ident read =>
      rw [Stmt.relabel, Expr.relabel, readsOwnResult, readsOwnResult, Stmt.relabelAll_eq_map,
        List.any_map]
      congr 1
      funext s
      cases s with
      | var _ name init =>
        cases init with
        | none => exact beq_injective σ.injective name read
        | some _ => rfl
      | ret value => cases value <;> rfl
      | ifElse _ _ elseBranch => cases elseBranch <;> rfl
      | function fn => cases fn; rfl
      | _ => rfl
    | function fn => cases fn; rfl
    | _ => rfl
  | var _ _ init => cases init <;> rfl
  | ret value => cases value <;> rfl
  | ifElse _ _ elseBranch => cases elseBranch <;> rfl
  | function fn => cases fn; rfl
  | _ => rfl

/-- What waits is put before the statement in both walks, or it is dropped in both. -/
theorem splice_paired (h : state.Paired p state') (s : Stmt) :
    splice (s.relabel p.label) state' = Stmt.relabelAll p.label (splice s state) := by
  simp only [splice, h.fault, h.prelude, readsOwnResult_relabel]
  split
  · rfl
  · split
    · rfl
    · rw [Stmt.relabelAll_append]
      rfl

/-- The run over a list of statements. -/
theorem stmts_paired (scope : Nat) {list : List Stmt} (ih : ∀ s ∈ list, StmtPaired p env s)
    (h : state.Paired p state') :
    Lockstep p (Stmt.relabelAll p.label) (stmts env scope list state)
      (stmts (env.relabel p.label) scope (Stmt.relabelAll p.label list) state') := by
  induction list generalizing state state' with
  | nil => exact fun _ => ⟨rfl, h⟩
  | cons s rest ih' =>
    obtain ⟨hfirst, hrest⟩ := List.forall_mem_cons.mp ih
    intro hpasses
    simp only [stmts, Stmt.relabelAll, h.fault] at hpasses ⊢
    by_cases hgo : state.fault.isSome = true
    · simp only [if_pos hgo]
      exact ⟨rfl, h⟩
    · simp only [if_neg hgo] at hpasses ⊢
      obtain ⟨hs, hstate⟩ := hfirst scope _ _ h.begin
        (hpasses.before (generates_stmts rest scope _) (generates_stmts _ scope _))
      obtain ⟨hlist, hstates⟩ := ih' hrest hstate hpasses
      simp only [hs, hlist, splice_paired hstate, Stmt.relabelAll_append]
      exact ⟨trivial, hstates⟩

theorem closeBranch_paired (h : state.Paired p state') (before : Progress) (e : Expr) :
    (closeBranch before e state).Paired p (closeBranch before (e.relabel p.label) state') := by
  simp only [closeBranch, Expr.hasSideEffects_relabel, h.progress]
  exact h.setProgress _

/-- The step at a call. -/
theorem paired_call {callee : Expr} {args : List Expr} (hcallee : ExprPaired p env callee)
    (hargs : ∀ arg ∈ args, ExprPaired p env arg) (h : state.Paired p state')
    (hgo : ¬state.fault.isSome = true) :
    Lockstep p (Expr.relabel p.label) (expr env scope (.call callee args) state)
      (expr (env.relabel p.label) scope ((Expr.call callee args).relabel p.label) state') := by
  intro hpasses
  simp only [Expr.relabel, expr, h.fault, if_neg hgo, h.ctx.scopes, isKnownCallee_relabel,
    h.progress] at hpasses ⊢
  by_cases hknown : isKnownCallee env state.ctx.scopes scope callee = true
  · simp only [if_pos hknown] at hpasses ⊢
    obtain ⟨hes, hstate⟩ := exprs_paired scope hargs h
      (hpasses.before (generates_finishCall _ _ _ _) (generates_finishCall _ _ _ _))
    rw [hes] at hpasses ⊢
    exact finishCall_paired hstate _ callee _ hpasses
  · simp only [if_neg hknown] at hpasses ⊢
    have hpasses' := hpasses.before (generates_finishCall _ _ _ _) (generates_finishCall _ _ _ _)
    obtain ⟨hfirst, hstate⟩ := hcallee scope state state' h
      (hpasses'.before (generates_exprs args scope _) (generates_exprs _ scope _))
    obtain ⟨hes, hstates⟩ := exprs_paired scope hargs hstate hpasses'
    rw [hfirst, hes] at hpasses ⊢
    exact finishCall_paired hstates _ _ _ hpasses

theorem passing_paired (h : state.Paired p state') (e : Expr) :
    (state.passing e).Paired p (state'.passing (e.relabel p.label)) := by
  simp only [State.passing, (e.shape_relabel p.label).2.2.1]
  split
  · exact h.impure
  · exact h

/-- The step at an operation whose operands are walked in order. -/
theorem paired_operands {e : Expr} (hwalks : e.walksOperands = true)
    (ih : ∀ operand ∈ e.children, ExprPaired p env operand) (h : state.Paired p state')
    (hgo : state.fault = none) :
    Lockstep p (Expr.relabel p.label) (expr env scope e state)
      (expr (env.relabel p.label) scope (e.relabel p.label) state') := by
  obtain ⟨hlayer, hwalks', -, -⟩ := e.shape_relabel p.label
  have hown := Expr.ownsLayer_of_walksOperands hwalks
  have hpassing (e : Expr) (state : State) : (state.passing e).ctx = state.ctx := by
    unfold State.passing
    split <;> rfl
  rw [expr_operands hwalks hgo, expr_operands (hwalks'.trans hwalks) (h.fault.trans hgo),
    e.children_relabel, ← Expr.relabelAll_eq_map]
  intro hpasses
  simp only [hpassing] at hpasses
  obtain ⟨hes, hstate⟩ := exprs_paired scope ih h hpasses
  refine ⟨?_, passing_paired hstate e⟩
  rw [hes, Expr.relabel_withOperands p.label hown (length_exprs _), ← Expr.relabelAll_eq_map]

/-- The step at any operation. -/
theorem paired_operation {e : Expr} (hlayer : e.ownsLayer = false)
    (ih : ∀ operand ∈ e.children, ExprPaired p env operand) : ExprPaired p env e := by
  intro scope state state' h
  by_cases hgo : state.fault.isSome = true
  · rw [expr_stopped hgo, expr_stopped (by rw [h.fault, hgo])]
    exact fun _ => ⟨rfl, h⟩
  cases hwalks : e.walksOperands with
  | true => exact paired_operands hwalks ih h (Option.not_isSome_iff_eq_none.mp hgo)
  | false =>
    cases e with
    | ident name =>
      simp only [Expr.relabel, expr, h.fault, if_neg hgo, h.ctx.scopes,
        ScopeTree.isBoundInFunction_relabel]
      refine fun _ => ⟨rfl, ?_⟩
      split
      · exact h.reading
      · exact h.impure
    | call callee args =>
      obtain ⟨hcallee, hargs⟩ := List.forall_mem_cons.mp ih
      exact paired_call hcallee hargs h hgo
    | assign target op value =>
      cases target with
      | ident name =>
        simp only [Expr.relabel, expr, h.fault, if_neg hgo]
        intro hpasses
        obtain ⟨hvalue, hstate⟩ := ih value (by simp [Expr.children]) scope state state' h hpasses
        exact ⟨by simp only [Expr.relabel, hvalue], hstate.impure⟩
      | _ => cases hwalks
    | logical op left right =>
      simp only [Expr.relabel, expr, h.fault, if_neg hgo]
      intro hpasses
      obtain ⟨hleft, hstate⟩ := ih left (by simp [Expr.children]) scope state state' h
        (hpasses.before (generates_expr right scope _) (generates_expr _ scope _))
      obtain ⟨hright, hstate'⟩ := ih right (by simp [Expr.children]) scope _ _
        (hstate.setProgress .conditional) hpasses
      simp only [hleft, hright, hstate.progress]
      exact ⟨rfl, closeBranch_paired hstate' _ _⟩
    | conditional condition thenExpr elseExpr =>
      simp only [Expr.relabel, expr, h.fault, if_neg hgo]
      intro hpasses
      -- the runs pass the states in between, since later names are put before earlier ones
      have hpasses' := hpasses.before (generates_expr elseExpr scope _) (generates_expr _ scope _)
      obtain ⟨hcond, hstate⟩ := ih condition (by simp [Expr.children]) scope state state' h
        (hpasses'.before (generates_expr thenExpr scope _) (generates_expr _ scope _))
      obtain ⟨hthen, hstate'⟩ := ih thenExpr (by simp [Expr.children]) scope _ _
        (hstate.setProgress .conditional) hpasses'
      have hclosed := closeBranch_paired hstate' (expr env scope condition state).2.progress
        (expr env scope thenExpr ((expr env scope condition state).2.setProgress .conditional)).1
      simp only [hthen, hstate.progress] at hpasses
      obtain ⟨helse, hstate''⟩ := ih elseExpr (by simp [Expr.children]) scope _ _
        (hclosed.setProgress .conditional) hpasses
      simp only [hcond, hthen, hstate.progress, helse, hclosed.progress]
      exact ⟨rfl, closeBranch_paired hstate'' _ _⟩
    | function _ => cases hlayer
    | _ => cases hwalks

/-- The step at the expression of a statement. -/
theorem head_paired (scope : Nat) {s : Stmt} (ih : ∀ e ∈ s.head?, ExprPaired p env e)
    (h : state.Paired p state') :
    Lockstep p (Option.map (Expr.relabel p.label)) (head env scope s state)
      (head (env.relabel p.label) scope (s.relabel p.label) state') := by
  obtain ⟨hhead, -, -, hloop, -⟩ := s.parts_relabel p.label
  cases hs : s.head? with
  | none =>
    rw [hs] at hhead
    rw [head_none hs, head_none hhead]
    exact fun _ => ⟨rfl, h⟩
  | some e =>
    rw [hs] at hhead
    rw [head_some hs, head_some hhead]
    have hentering : (state.entering s).Paired p (state'.entering (s.relabel p.label)) := by
      simp only [State.entering, hloop]
      split
      · exact h.setProgress .conditional
      · exact h
    intro hpasses
    obtain ⟨he, hstate⟩ := ih e hs scope _ _ hentering hpasses
    exact ⟨congrArg some he, hstate⟩

/-- The run over the bodies of a statement. -/
theorem bodies_paired (scope : Nat) {list : List (List Stmt)}
    (ih : ∀ body ∈ list, ∀ s ∈ body, StmtPaired p env s) (h : state.Paired p state') :
    Lockstep p (List.map (Stmt.relabelAll p.label)) (bodies env scope list state)
      (bodies (env.relabel p.label) scope (list.map (Stmt.relabelAll p.label)) state') := by
  induction list generalizing state state' with
  | nil => exact fun _ => ⟨rfl, h⟩
  | cons body rest ih' =>
    obtain ⟨hfirst, hrest⟩ := List.forall_mem_cons.mp ih
    intro hpasses
    obtain ⟨hbody, hstate⟩ := stmts_paired scope hfirst h
      (hpasses.before (generates_bodies rest scope _) (generates_bodies _ scope _))
    obtain ⟨hbodies, hstates⟩ := ih' hrest hstate hpasses
    simp only [bodies, List.map_cons, hbody, hbodies]
    exact ⟨trivial, hstates⟩

/-- The step at a function literal. -/
theorem paired_literal {fn : FunctionLit} (ih : ∀ s ∈ fn.body, StmtPaired p env s) :
    ExprPaired p env (.function fn) := by
  obtain ⟨id, name, params, body⟩ := fn
  intro scope state state' h hpasses
  simp only [Expr.relabel, expr, h.fault, h.ctx.scopes,
    ScopeTree.functionScope?_relabel] at hpasses ⊢
  by_cases hgo : state.fault.isSome = true
  · simp only [if_pos hgo]
    exact ⟨rfl, h⟩
  · simp only [if_neg hgo] at hpasses ⊢
    cases hinner : state.ctx.scopes.functionScope? id with
    | none => exact ⟨rfl, h.stop _⟩
    | some inner =>
      simp only [hinner] at hpasses ⊢
      obtain ⟨hbody, hstate⟩ := stmts_paired inner ih h hpasses
      rw [hbody, h.progress]
      exact ⟨rfl, (hstate.restore h).setProgress state.progress⟩

/-- The step at a function declaration. -/
theorem paired_declaration {fn : FunctionLit} (ih : ∀ s ∈ fn.body, StmtPaired p env s) :
    StmtPaired p env (.function fn) := by
  obtain ⟨id, name, params, body⟩ := fn
  intro scope state state' h hpasses
  simp only [Stmt.relabel, stmt, h.ctx.scopes, ScopeTree.functionScope?_relabel] at hpasses ⊢
  cases hinner : state.ctx.scopes.functionScope? id with
  | none => exact ⟨rfl, h.stop _⟩
  | some inner =>
    simp only [hinner] at hpasses ⊢
    obtain ⟨hbody, hstate⟩ := stmts_paired inner ih h hpasses
    rw [hbody]
    exact ⟨rfl, hstate.restore h⟩

theorem length_bodies (list : List (List Stmt)) :
    (bodies env scope list state).1.length = list.length := by
  induction list generalizing state with
  | nil => rfl
  | cons body rest ih => rw [bodies, List.length_cons, List.length_cons, ih]

theorem isSome_head (s : Stmt) : (head env scope s state).1.isSome = s.head?.isSome := by
  cases hs : s.head? with
  | none => rw [head_none hs]
  | some e => rw [head_some hs]; rfl

/-- Every tree is walked in step with its relabeled copy. -/
theorem byParts_paired (p : Pairing) (env : Env) : ByParts (ExprPaired p env) (StmtPaired p env)
    fun list => ∀ s ∈ list, StmtPaired p env s where
  operation _ := paired_operation
  literal _ := paired_literal
  declaration _ := paired_declaration
  list _ ih := ih
  statement s hfn hhead hbodies := by
    intro scope state state' h
    obtain ⟨-, hbodies', hfn', -, -⟩ := s.parts_relabel p.label
    rw [stmt_parts hfn, stmt_parts (by rw [hfn', hfn]; rfl)]
    simp only [hbodies']
    intro hpasses
    obtain ⟨hfirst, hstate⟩ := head_paired scope hhead h
      (hpasses.before (generates_bodies s.bodies scope _) (generates_bodies _ scope _))
    obtain ⟨hbelow, hstates⟩ := bodies_paired scope hbodies hstate hpasses
    refine ⟨?_, hstates.restore hstate⟩
    rw [Stmt.relabel_withParts p.label (isSome_head s) (length_bodies _), hfirst, hbelow]

/-- The run over the source units. -/
theorem units_paired (table : DefinitionTable) (list : List SourceUnit)
    (h : state.Paired p state') :
    Lockstep p (List.map (SourceUnit.relabel p.label)) (units table list state)
      (units (table.relabel p.label) (list.map (SourceUnit.relabel p.label)) state') := by
  induction list generalizing state state' with
  | nil => exact fun _ => ⟨rfl, h⟩
  | cons unit rest ih =>
    intro hpasses
    have hscope : state'.ctx.scopes.unitScope? (unit.relabel p.label).id =
        state.ctx.scopes.unitScope? unit.id := by
      rw [h.ctx.scopes]
      rfl
    simp only [units, List.map_cons, h.fault, hscope] at hpasses ⊢
    by_cases hgo : state.fault.isSome = true
    · simp only [if_pos hgo]
      exact ⟨rfl, h⟩
    · simp only [if_neg hgo] at hpasses ⊢
      cases hunit : state.ctx.scopes.unitScope? unit.id with
      | none => exact ⟨rfl, h.stop _⟩
      | some scope =>
        simp only [hunit] at hpasses ⊢
        obtain ⟨hbody, hstate⟩ :=
          stmts_paired scope ((byParts_paired p ⟨table, unit.name⟩).stmts unit.body) h
          (hpasses.before (generates_units rest _) (generates_units _ _))
        obtain ⟨hrest, hstates⟩ := ih hstate hpasses
        exact ⟨congrArg₂ List.cons (congrArg (SourceUnit.mk unit.id unit.name) hbody) hrest,
          hstates⟩

end Walking

end CallWalk

theorem Program.generates_expandCalls (program : Program) (table : DefinitionTable)
    (ctx : Context) :
    ctx.Generates (program.expandCalls table ctx).ctx :=
  CallWalk.generates_units program.units ⟨ctx, .statement, [], [], none⟩

/-- A relabeled program is expanded to the relabeled expansion. -/
theorem Program.expandCalls_paired {p : Pairing} {ctx ctx' : Context} (h : ctx.Paired p ctx')
    (program : Program) (table : DefinitionTable) :
    let done := program.expandCalls table ctx
    let done' := (program.relabel p.label).expandCalls (table.relabel p.label) ctx'
    p.Passes done.ctx done'.ctx →
      done'.program = done.program.relabel p.label ∧ done.ctx.Paired p done'.ctx ∧
        done'.fault = done.fault ∧ (p.oneSupply → done'.log = done.log) := by
  intro done done' hpasses
  have hstart :
      CallWalk.State.Paired p ⟨ctx, .statement, [], [], none⟩ ⟨ctx', .statement, [], [], none⟩ :=
    ⟨h, rfl, rfl, rfl, fun _ => rfl⟩
  obtain ⟨hunits, hstate⟩ := CallWalk.units_paired table program.units hstart hpasses
  exact ⟨congrArg Program.mk hunits, hstate.ctx, hstate.fault, hstate.log⟩

end StaticInliner
