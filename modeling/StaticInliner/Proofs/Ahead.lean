import StaticInliner.Proofs.Courses

/-!
What stands ahead of a call. A block runs before the whole statement with the call, so what
comes before the call in the statement matters as long as a block can still be put ahead of it.
The walk is followed down to each call: every operand on the way has been left by the walk of
some part of the statement, from an earlier state of the statement, except for a callee that is
known and for a variable that is assigned to. What an operand is like is then a question about
the walk of one expression.
-/
namespace StaticInliner

theorem Spot.conditional_inside (spot : Spot) (frame : Frame) :
    (spot.inside frame).conditional = (frame.conditional || spot.conditional) := by
  rw [Spot.conditional, Spot.inside, List.any_cons, Bool.or_left_comm]
  rfl

/-- A block is allowed after pure operands, and after reads only if no argument has effects. -/
theorem Progress.of_allowsBlock {progress : Progress} {args : List Expr}
    (h : progress.allowsBlock args = true) : progress.pure = true ∧
      (progress.readLocal = true → Expr.anySideEffects args = false) := by
  rw [Progress.allowsBlock, Bool.and_eq_true, Bool.not_eq_true', Bool.and_eq_false_iff] at h
  refine ⟨h.1, fun hread => h.2.resolve_left ?_⟩
  rw [hread]
  exact Bool.noConfusion

/-- The nodes of the expression of a statement. -/
def Stmt.headNodes (s : Stmt) : List Node := Expr.nodesAll .ownLayer s.head?.toList

theorem Stmt.nodes_subset_headNodes {s : Stmt} {e : Expr} (h : e ∈ s.head?) :
    e.nodes .ownLayer ⊆ s.headNodes :=
  fun _ hnode => Expr.mem_nodesAll.mpr ⟨e, Option.mem_toList.mpr h, hnode⟩

theorem Expr.nodes_operand_subset {e operand : Expr} (h : operand ∈ e.children) :
    operand.nodes .ownLayer ⊆ e.nodes .ownLayer := by
  rw [Expr.nodes_operation .ownLayer (Expr.ownsLayer_of_mem_children h)]
  exact fun _ hnode => List.mem_cons_of_mem _ (Expr.mem_nodesAll.mpr ⟨operand, h, hnode⟩)

/-- In a statement reads are noted for good, and a progress that is pure always was. -/
structure Progress.Follows (before after : Progress) : Prop where
  pure : after.pure = true → before.pure = true
  read : before.readLocal = true → after.readLocal = true

namespace Progress.Follows

variable {before middle after : Progress}

theorem refl (progress : Progress) : progress.Follows progress := ⟨id, id⟩

theorem trans (h : before.Follows middle) (h' : middle.Follows after) : before.Follows after :=
  ⟨fun hpure => h.pure (h'.pure hpure), fun hread => h'.read (h.read hread)⟩

theorem impure (h : before.Follows after) : before.Follows after.impure :=
  ⟨fun hpure => absurd hpure Bool.false_ne_true, h.read⟩

theorem reading (h : before.Follows after) : before.Follows after.reading := ⟨h.pure, fun _ => rfl⟩

end Progress.Follows

namespace CallWalk

section Follows

variable {env : Env} {scope : Nat}

/-- What is left of a direct expansion is a constant, a read, or counts as impure. -/
theorem progressAfter_direct (scopes : ScopeTree) (scope : Nat) (before after : Progress)
    {expansion : Expansion} (h : expansion.shape = .direct) :
    (expansion.value.isLiteral = true ∧
      progressAfter scopes scope before after expansion = after) ∨
    (∃ name, expansion.value = .ident name ∧ scopes.isBoundInFunction scope name = true ∧
      progressAfter scopes scope before after expansion = after.reading) ∨
    progressAfter scopes scope before after expansion = after.impure := by
  unfold progressAfter
  rw [h]
  simp only
  split
  · next name hvalue =>
    split
    · next hbound => exact .inr (.inl ⟨name, hvalue, hbound, rfl⟩)
    · exact .inr (.inr rfl)
  · split
    · next hliteral => exact .inl ⟨hliteral, rfl⟩
    · exact .inr (.inr rfl)

/-- The end of a branch goes on from where the branch was entered. -/
theorem follows_closeBranch (before : Progress) (e : Expr) (state : State) :
    before.Follows (closeBranch before e state).progress := by
  refine ⟨fun hpure => ?_, fun hread => ?_⟩
  · exact (Bool.and_eq_true_iff.mp hpure).1
  · exact Bool.or_eq_true_iff.mpr (.inl hread)

/-- An expansion without a block only adds to what was noted. -/
theorem follows_progressAfter {scopes : ScopeTree} {expansion : Expansion} (before : Progress)
    {after : Progress} (h : expansion.shape = .direct) :
    after.Follows (progressAfter scopes scope before after expansion) := by
  rcases progressAfter_direct scopes scope before after h with ⟨-, heq⟩ | ⟨-, -, -, heq⟩ | heq
  · rw [heq]
    exact .refl after
  · rw [heq]
    exact (Progress.Follows.refl after).reading
  · rw [heq]
    exact (Progress.Follows.refl after).impure

/-- With a block all is as at the start of the call, since the arguments go ahead with it. -/
theorem follows_finishCall {before : Progress} {state : State} (h : before.Follows state.progress)
    (callee : Expr) (args : List Expr) :
    before.Follows (finishCall env scope before callee args state).2.progress := by
  rcases finishCall_cases env scope before (.alone callee) callee args state with
    ⟨skipped, log, hdone, -⟩ | ⟨fault, hdone, -⟩ |
    ⟨definition, expansion, after, log, -, hdone, -⟩
  · rw [hdone]
    exact h.impure
  · rw [hdone]
    exact h
  · rw [hdone]
    cases hshape : expansion.shape with
    | block =>
      simp only [progressAfter, hshape]
      exact .refl before
    | direct => exact h.trans (follows_progressAfter before hshape)

/-- The run over a list of expressions. -/
theorem follows_exprs_of {es : List Expr} (ih : ∀ e ∈ es, ∀ state : State,
    state.progress.Follows (expr env scope e state).2.progress) (state : State) :
    state.progress.Follows (exprs env scope es state).2.progress := by
  induction es generalizing state with
  | nil => exact .refl _
  | cons e rest ihrest =>
    obtain ⟨hfirst, hrest⟩ := List.forall_mem_cons.mp ih
    exact (hfirst state).trans (ihrest hrest _)

/-- The walk of an expression. -/
theorem follows_expr (env : Env) (scope : Nat) (e : Expr) (state : State) :
    state.progress.Follows (expr env scope e state).2.progress := by
  induction e using Expr.byOperands generalizing state with
  | operation e hlayer ih =>
    by_cases hgo : state.fault.isSome = true
    · rw [expr_stopped hgo]
      exact .refl _
    refine Expr.Operations.operation
      (G := fun e => state.progress.Follows (expr env scope e state).2.progress)
      ⟨fun hwalks ih => ?_, fun name => ?_, fun hcallee hargs => ?_, fun hvalue => ?_,
        fun hleft _ => ?_, fun hcondition _ _ => ?_⟩ hlayer ih
    · rw [expr_operands hwalks (Option.not_isSome_iff_eq_none.mp hgo)]
      have hoperands := follows_exprs_of ih state
      unfold State.passing
      split
      · exact hoperands.impure
      · exact hoperands
    all_goals simp only [expr, if_neg hgo]
    · split
      · exact (Progress.Follows.refl _).reading
      · exact (Progress.Follows.refl _).impure
    · refine follows_finishCall ?_ _ _
      split
      · exact follows_exprs_of hargs _
      · exact (hcallee state).trans (follows_exprs_of hargs _)
    · exact (hvalue state).impure
    · exact (hleft state).trans (follows_closeBranch _ _ _)
    · exact ((hcondition state).trans (follows_closeBranch _ _ _)).trans (follows_closeBranch _ _ _)
  | literal fn =>
    obtain ⟨-, -, hprogress⟩ := expr_function env scope fn state
    rw [hprogress]
    exact .refl _

theorem follows_exprs (env : Env) (scope : Nat) (es : List Expr) (state : State) :
    state.progress.Follows (exprs env scope es state).2.progress :=
  follows_exprs_of (fun e _ => follows_expr env scope e) state

end Follows

section States

/-- A block may still be put ahead of the statement. -/
def State.Open (state : State) : Prop := state.fault = none ∧ state.progress.pure = true

/-- The names that may have been read, as seen from a scope. -/
def State.Readable (state : State) (scope : Nat) (name : String) : Prop :=
  state.progress.readLocal = true ∧ state.ctx.scopes.isBoundInFunction scope name = true

/-- One state of a statement comes before another one. -/
structure State.Precedes (state state' : State) : Prop where
  kept : state.ctx.scopes.Keeps state'.ctx.scopes
  follows : state.progress.Follows state'.progress
  going : state'.fault = none → state.fault = none

/-- The walk is at a scope of the tree, which has kept what it had at the start. -/
structure State.Within (origin : ScopeTree) (scope : Nat) (state : State) : Prop where
  scope : scope < state.ctx.scopes.size
  kept : origin.Keeps state.ctx.scopes

variable {origin : ScopeTree} {scope : Nat} {state state' state'' : State}

theorem State.not_open_of_impure (h : state.progress.pure = false) : ¬ state.Open :=
  fun hopen => Bool.false_ne_true (h.symm.trans hopen.2)

namespace State.Precedes

theorem trans (h : state.Precedes state') (h' : state'.Precedes state'') : state.Precedes state'' :=
  ⟨h.kept.trans h'.kept, h.follows.trans h'.follows, fun hgoing => h.going (h'.going hgoing)⟩

theorem isOpen (h : state.Precedes state') (hopen : state'.Open) : state.Open :=
  ⟨h.going hopen.1, h.follows.pure hopen.2⟩

theorem readable (h : state.Precedes state') {name : String} (hname : state.Readable scope name) :
    state'.Readable scope name :=
  ⟨h.follows.read hname.1, h.kept.bound scope name hname.2⟩

end State.Precedes

namespace State.Within

theorem situated (h : state.Within origin scope) : Situated scope state.ctx :=
  ⟨h.kept.wellFormed, h.scope⟩

theorem after (h : state.Within origin scope) (hkept : state.ctx.scopes.Keeps state'.ctx.scopes) :
    state'.Within origin scope := ⟨Nat.lt_of_lt_of_le h.scope hkept.size, h.kept.trans hkept⟩

theorem setProgress (h : state.Within origin scope) (progress : Progress) :
    (state.setProgress progress).Within origin scope := ⟨h.scope, h.kept⟩

variable (h : state.Within origin scope) (env : Env)

include h

theorem expr (e : Expr) : (expr env scope e state).2.Within origin scope :=
  h.after (keeps_expr state h.situated e)

theorem exprs (es : List Expr) : (exprs env scope es state).2.Within origin scope :=
  h.after (keeps_exprs state h.situated es)

end State.Within

theorem precedes_refl (h : Situated scope state.ctx) : state.Precedes state :=
  ⟨.refl h.wellFormed, .refl _, id⟩

/-- The state before an expression precedes the one after it. -/
theorem precedes_expr (env : Env) (h : Situated scope state.ctx) (e : Expr) :
    state.Precedes (expr env scope e state).2 :=
  ⟨keeps_expr state h e, follows_expr env scope e state, going_of_expr⟩

theorem precedes_exprs (env : Env) (h : Situated scope state.ctx) (es : List Expr) :
    state.Precedes (exprs env scope es state).2 :=
  ⟨keeps_exprs state h es, follows_exprs env scope es state, going_of_exprs⟩

/-- Back from an operand that may not be evaluated. -/
theorem precedes_branch (env : Env) (h : Situated scope state.ctx) (branch : Expr) :
    let b := expr env scope branch (state.setProgress .conditional)
    state.Precedes (closeBranch state.progress b.1 b.2) :=
  ⟨keeps_expr (state.setProgress .conditional) h branch, follows_closeBranch _ _ _, going_of_expr⟩

end States

section Operands

variable (table : DefinitionTable) (origin : ScopeTree) (history : List Inlining) (s : Stmt)
  (scope : Nat) (state : State)

/-- The walk has left the operand of some part of the statement. -/
inductive Evaluated : Expr → Prop
  | walked (unit : String) (spot : Spot) {e : Expr} {before : State} :
    e.nodes .ownLayer ⊆ s.headNodes → before.Within origin scope →
    exprTrace ⟨table, unit⟩ scope spot e before ⊆ history →
    (expr ⟨table, unit⟩ scope e before).2.Precedes state →
    Evaluated (expr ⟨table, unit⟩ scope e before).1

/-- How the first operands of an operation have come about. -/
inductive Operands (node : Expr) : List Expr → Prop
  | nil : Operands node []
  | callee {callee : Expr} {args : List Expr} : node = .call callee args →
    callee.nodes .ownLayer ⊆ s.headNodes → table.Names origin scope callee → Operands node [callee]
  | target {name : String} {op : Option BinaryOp} {value : Expr} :
    node = .assign (.ident name) op value → Operands node [.ident name]
  | snoc {operands : List Expr} {operand : Expr} : Operands node operands →
    Evaluated table origin history s scope state operand → Operands node (operands ++ [operand])

/-- All that comes before some point of a statement is evaluated whenever the statement is,
exactly once, and is accounted for. -/
structure Ahead (spot : Spot) : Prop where
  unconditional : spot.conditional = false
  nodes : ∀ frame ∈ spot.path, Node.expr frame.node ∈ spot.stmt.headNodes
  operands : ∀ frame ∈ spot.path,
    Operands table origin history spot.stmt scope state frame.node frame.before

/-- The same if a block can still be put ahead of the statement. -/
def Entered (spot : Spot) : Prop := state.Open → Ahead table origin history scope state spot

variable {table origin history s scope state} {history' : List Inlining} {state' : State}

theorem Operands.single {node operand : Expr}
    (h : Evaluated table origin history s scope state operand) :
    Operands table origin history s scope state node [operand] := by
  rw [← List.nil_append [operand]]
  exact .snoc .nil h

/-- What has come about of the operands still holds at a later state. -/
theorem Operands.later {node : Expr} {operands : List Expr}
    (h : Operands table origin history s scope state node operands) (hhistory : history ⊆ history')
    (hstate : ∀ before : State, before.Precedes state → before.Precedes state') :
    Operands table origin history' s scope state' node operands := by
  induction h with
  | nil => exact .nil
  | callee heq hnodes hnames => exact .callee heq hnodes hnames
  | target heq => exact .target heq
  | snoc _ hlast operands =>
    obtain ⟨unit, spot, hnodes, hwithin, htrace, hprecedes⟩ := hlast
    exact .snoc operands
      (.walked unit spot hnodes hwithin (List.Subset.trans htrace hhistory) (hstate _ hprecedes))

theorem Ahead.later {spot : Spot} (h : Ahead table origin history scope state spot)
    (hhistory : history ⊆ history')
    (hstate : ∀ before : State, before.Precedes state → before.Precedes state') :
    Ahead table origin history' scope state' spot :=
  ⟨h.unconditional, h.nodes, fun frame hframe => (h.operands frame hframe).later hhistory hstate⟩

namespace Entered

variable {spot : Spot}

theorem later (h : Entered table origin history scope state spot) (hhistory : history ⊆ history')
    (hstate : state.Precedes state') : Entered table origin history' scope state' spot :=
  fun hopen => (h (hstate.isOpen hopen)).later hhistory fun _ hbefore => hbefore.trans hstate

/-- An operand that is always evaluated is entered after some others. -/
theorem inside (h : Entered table origin history scope state spot) (frame : Frame)
    (hconditional : frame.conditional = false) (hnode : .expr frame.node ∈ spot.stmt.headNodes)
    (hoperands : state.Open →
      Operands table origin history spot.stmt scope state frame.node frame.before) :
    Entered table origin history scope state (spot.inside frame) := by
  intro hopen
  obtain ⟨hunconditional, hnodes, hpath⟩ := h hopen
  refine ⟨?_, List.forall_mem_cons.mpr ⟨hnode, hnodes⟩,
    List.forall_mem_cons.mpr ⟨hoperands hopen, hpath⟩⟩
  rw [Spot.conditional_inside, hconditional, hunconditional, Bool.or_false]

/-- The first operand is entered. -/
theorem first (h : Entered table origin history scope state spot) (frame : Frame)
    (hbefore : frame.before = []) (hnode : .expr frame.node ∈ spot.stmt.headNodes) :
    Entered table origin history scope state (spot.inside frame) := by
  refine h.inside frame ?_ hnode fun _ => ?_
  · rw [Frame.conditional, hbefore, List.isEmpty_nil, Bool.not_true, Bool.and_false]
  · rw [hbefore]
    exact .nil

/-- An operand that may not be evaluated is entered, where there are no blocks. -/
theorem branch (spot : Spot) :
    Entered table origin history scope (state.setProgress .conditional) spot :=
  fun hopen => absurd hopen (State.not_open_of_impure rfl)

end Entered

end Operands

section Inlinings

/-- The block of an inlining goes ahead of what was accounted for at the start of the call. -/
structure Cleared (table : DefinitionTable) (origin : ScopeTree) (earlier : List Inlining)
    (i : Inlining) (begun : State) : Prop where
  isOpen : begun.Open
  kept : begun.ctx.scopes.Keeps i.before.scopes
  hoistable : i.site.hoistable = begun.progress.allowsBlock i.args
  ahead : Ahead table origin earlier i.site.scope begun i.spot

/-- What is known of an inlining that comes after some others. -/
structure Proper (table : DefinitionTable) (origin : ScopeTree) (earlier : List Inlining)
    (i : Inlining) : Prop where
  table_eq : i.table = table
  performed : i.Performed
  kept : origin.Keeps i.before.scopes
  cleared : i.expansion.shape = .block → ∃ begun, Cleared table origin earlier i begun

/-- Inlinings that follow some others one after another. -/
inductive Adds (table : DefinitionTable) (origin : ScopeTree) :
    List Inlining → List Inlining → Prop
  | nil {history : List Inlining} : Adds table origin history []
  | cons {history rest : List Inlining} {i : Inlining} : Proper table origin history i →
    Adds table origin (history ++ [i]) rest → Adds table origin history (i :: rest)

variable {table : DefinitionTable} {origin : ScopeTree} {history : List Inlining}

theorem Proper.mono {history' : List Inlining} {i : Inlining} (h : Proper table origin history i)
    (hhistory : history ⊆ history') : Proper table origin history' i where
  table_eq := h.table_eq
  performed := h.performed
  kept := h.kept
  cleared hshape := by
    obtain ⟨begun, hbegun⟩ := h.cleared hshape
    exact ⟨begun, { hbegun with ahead := hbegun.ahead.later hhistory fun _ => id }⟩

/-- More may have been inlined before. -/
theorem Adds.after {trace : List Inlining} (h : Adds table origin history trace)
    (earlier : List Inlining) : Adds table origin (earlier ++ history) trace := by
  induction h with
  | nil => exact .nil
  | cons hi _ ih =>
    refine .cons (hi.mono (List.subset_append_right _ _)) ?_
    rwa [List.append_assoc]

/-- Inlinings that follow some others can be followed by more. -/
theorem Adds.append {first second : List Inlining} (h : Adds table origin history first)
    (h' : Adds table origin (history ++ first) second) :
    Adds table origin history (first ++ second) := by
  induction h with
  | nil => rwa [List.append_nil] at h'
  | cons hi _ ih =>
    refine .cons hi (ih ?_)
    rwa [List.append_assoc]

/-- Each of them is proper after those before it. -/
theorem Adds.proper {earlier later : List Inlining} {i : Inlining}
    (h : Adds table origin history (earlier ++ i :: later)) :
    Proper table origin (history ++ earlier) i := by
  induction earlier generalizing history with
  | nil =>
    obtain _ | ⟨hi, -⟩ := h
    rwa [List.append_nil]
  | cons first rest ih =>
    obtain _ | ⟨-, hrest⟩ := h
    have hi := ih hrest
    rwa [List.append_assoc] at hi

/-- Names that may have been read at the start are variables of the function, and the arguments
of the call do not change them. -/
theorem Cleared.readable {earlier : List Inlining} {i : Inlining} {begun : State}
    (h : Cleared table origin earlier i begun) (hperformed : i.Performed)
    (hshape : i.expansion.shape = .block) {name : String}
    (hname : begun.Readable i.site.scope name) :
    i.before.scopes.isBoundInFunction i.site.scope name = true ∧
      Expr.anySideEffects i.args = false := by
  obtain ⟨-, hread⟩ := Progress.of_allowsBlock (h.hoistable.symm.trans (hperformed.block hshape).1)
  exact ⟨h.kept.bound _ name hname.2, hread hname.1⟩

end Inlinings

section Walk

/-- A known callee is the name of a function in the table. -/
theorem names_of_isKnownCallee {env : Env} {scopes : ScopeTree} {scope : Nat} {callee : Expr}
    (h : isKnownCallee env scopes scope callee = true) : env.table.Names scopes scope callee := by
  unfold isKnownCallee at h
  split at h
  · next name hname =>
    rw [Bool.and_eq_true, Bool.not_eq_true'] at h
    exact ⟨name, hname, h⟩
  · cases h

/-- A function that can be named now could be named from the start. -/
theorem names_of_keeps {table : DefinitionTable} {scopes scopes' : ScopeTree} {scope : Nat}
    {callee : Expr} (hkept : scopes.Keeps scopes') (h : table.Names scopes' scope callee) :
    table.Names scopes scope callee := by
  obtain ⟨name, hname, htable, hunbound⟩ := h
  refine ⟨name, hname, htable, Bool.eq_false_iff.mpr fun hbound => ?_⟩
  rw [hkept.bound scope name.root hbound] at hunbound
  cases hunbound

/-- The inlinings in an expression are proper wherever the walk comes to it. -/
def ExprAdds (env : Env) (origin : ScopeTree) (e : Expr) : Prop :=
  ∀ (scope : Nat) (spot : Spot) (state : State) (history : List Inlining),
    e.nodes .ownLayer ⊆ spot.stmt.headNodes → state.Within origin scope →
    Entered env.table origin history scope state spot →
    Adds env.table origin history (exprTrace env scope spot e state)

/-- All inlinings so far are proper. -/
structure Passed (table : DefinitionTable) (origin : ScopeTree) (history : List Inlining)
    (state : State) : Prop where
  kept : origin.Keeps state.ctx.scopes
  adds : Adds table origin [] history

theorem course_passed (table : DefinitionTable) (origin : ScopeTree) :
    Course (fun ctx => ctx.scopes.WellFormed) Situated (Carries (Passed table origin)) :=
  course_carries fun hctx h => ⟨hctx ▸ h.kept, h.adds⟩

variable {env : Env} {origin : ScopeTree} {scope : Nat} {spot : Spot} {state : State}
  {history : List Inlining}

/-- The run over the operands of an operation. -/
theorem adds_exprs {node : Expr} {es : List Expr} (before : List Expr)
    (hes : ∀ e ∈ es, ExprAdds env origin e) (hnode : node.alwaysEvaluates = true)
    (hnodes : node.nodes .ownLayer ⊆ spot.stmt.headNodes) (hoperands : es ⊆ node.children)
    (fits : before.length + es.length = node.children.length) (h : state.Within origin scope)
    (hbefore : state.Open → Operands env.table origin history spot.stmt scope state node before)
    (hentered : Entered env.table origin history scope state spot) :
    Adds env.table origin history (exprsTrace env scope spot node before es fits state) := by
  induction es generalizing before state history with
  | nil => exact .nil
  | cons e rest ih =>
    obtain ⟨hfirst, hrest⟩ := List.forall_mem_cons.mp hes
    obtain ⟨hmem, hrestMem⟩ := List.cons_subset.mp hoperands
    let frame : Frame := ⟨node, before, rest, by grind⟩
    have hframe : frame.conditional = false := by
      rw [Frame.conditional, hnode, Bool.not_true, Bool.false_and]
    have hin := List.Subset.trans (Expr.nodes_operand_subset hmem) hnodes
    have hprecedes := precedes_expr env h.situated e
    have hself := hnodes (Expr.self_mem_nodes .ownLayer node)
    rw [exprsTrace]
    refine .append (hfirst scope (spot.inside frame) state history hin h
      (hentered.inside frame hframe hself hbefore)) ?_
    refine ih _ hrest hrestMem _ (h.expr env e) (fun hopen => ?_)
      (hentered.later (List.subset_append_left _ _) hprecedes)
    refine .snoc ((hbefore (hprecedes.isOpen hopen)).later (List.subset_append_left _ _)
      fun _ h => h.trans hprecedes) ?_
    exact .walked env.unit (spot.inside frame) hin h (List.subset_append_right _ _)
      (precedes_refl (h.expr env e).situated)

/-- A call that gets a block: what stands before it in the statement has been accounted for at
its start. -/
theorem adds_callTrace {begun : State} (hgo : begun.fault = none)
    (hentered : Entered env.table origin history scope begun spot)
    (hkept : begun.ctx.scopes.Keeps state.ctx.scopes) (h : state.Within origin scope)
    (callee : Expr) (args : List Expr) (more : List Inlining) :
    Adds env.table origin (history ++ more)
      (callTrace env scope begun.progress spot callee args state) := by
  rcases finishCall_cases env scope begun.progress spot callee args state with
    ⟨skipped, log, -, htrace⟩ | ⟨fault, -, htrace, -⟩ |
    ⟨definition, expansion, after, log, hperformed, -, htrace⟩
  · rw [htrace]
    exact .nil
  · rw [htrace]
    exact .nil
  · rw [htrace]
    refine .cons ⟨rfl, hperformed, h.kept, fun hshape => ⟨begun, ?_⟩⟩ .nil
    obtain ⟨hpure, -⟩ := Progress.of_allowsBlock (hperformed.block hshape).1
    have hopen : begun.Open := ⟨hgo, hpure⟩
    exact ⟨hopen, hkept, rfl, (hentered hopen).later (List.subset_append_left _ _) fun _ => id⟩

section Operations

variable (hgo : state.fault = none) (h : state.Within origin scope)
  (hentered : Entered env.table origin history scope state spot)

include hgo h hentered

/-- The step at a call: its own inlining comes after those of its operands. -/
theorem adds_call {callee : Expr} {args : List Expr} (hcallee : ExprAdds env origin callee)
    (hargs : ∀ e ∈ args, ExprAdds env origin e)
    (hnodes : (Expr.call callee args).nodes .ownLayer ⊆ spot.stmt.headNodes) :
    Adds env.table origin history (exprTrace env scope spot (.call callee args) state) := by
  have hin : callee.nodes .ownLayer ⊆ spot.stmt.headNodes :=
    List.Subset.trans (Expr.nodes_operand_subset List.mem_cons_self) hnodes
  simp only [exprTrace, hgo, Option.isSome_none, Bool.false_eq_true, if_false]
  cases hknown : isKnownCallee env state.ctx.scopes scope callee with
  | true =>
    have hnames := names_of_keeps h.kept (names_of_isKnownCallee hknown)
    simp only [if_true, List.nil_append]
    refine .append ?_ (adds_callTrace hgo hentered (keeps_exprs state h.situated args)
      (h.exprs env args) _ _ _)
    exact adds_exprs [callee] hargs rfl hnodes (List.subset_cons_self _ _) _ h
      (fun _ => .callee rfl hin hnames) hentered
  | false =>
    have hprecedes := precedes_expr env h.situated callee
    have hc := h.expr env callee
    let frame : Frame := ⟨.call callee args, [], args, Nat.add_comm _ _⟩
    have hfirst := hcallee scope (spot.inside frame) state history hin h
      (hentered.first frame rfl (hnodes (Expr.self_mem_nodes .ownLayer _)))
    have hargs := adds_exprs [(expr env scope callee state).1] hargs rfl hnodes
      (List.subset_cons_self _ _) (Nat.add_comm _ _) hc
      (fun _ => .single (.walked env.unit (spot.inside frame) hin h
        (List.subset_append_right history _) (precedes_refl hc.situated)))
      (hentered.later (List.subset_append_left _ _) hprecedes)
    simp only [Bool.false_eq_true, if_false]
    refine .append (.append hfirst hargs) (adds_callTrace hgo hentered ?_ (hc.exprs env args) _ _ _)
    exact hprecedes.kept.trans (keeps_exprs _ hc.situated args)

/-- The step at a logical operator, whose right operand may not be evaluated. -/
theorem adds_logical {op : LogicalOp} {left right : Expr} (hleft : ExprAdds env origin left)
    (hright : ExprAdds env origin right)
    (hnodes : (Expr.logical op left right).nodes .ownLayer ⊆ spot.stmt.headNodes) :
    Adds env.table origin history (exprTrace env scope spot (.logical op left right) state) := by
  have hin {operand : Expr} (hmem : operand ∈ [left, right]) :=
    List.Subset.trans (Expr.nodes_operand_subset (e := .logical op left right) hmem) hnodes
  simp only [exprTrace, hgo, Option.isSome_none, Bool.false_eq_true, if_false]
  refine .append (hleft scope _ state history (hin (by simp)) h
    (hentered.first _ rfl (hnodes (Expr.self_mem_nodes .ownLayer _)))) ?_
  exact hright scope _ _ _ (hin (by simp)) ((h.expr env left).setProgress .conditional) (.branch _)

/-- The step at a conditional, one of whose branches is not evaluated. -/
theorem adds_conditional {condition thenExpr elseExpr : Expr}
    (hcondition : ExprAdds env origin condition) (hthen : ExprAdds env origin thenExpr)
    (helse : ExprAdds env origin elseExpr)
    (hnodes : (Expr.conditional condition thenExpr elseExpr).nodes .ownLayer ⊆
      spot.stmt.headNodes) :
    Adds env.table origin history
      (exprTrace env scope spot (.conditional condition thenExpr elseExpr) state) := by
  have hin {operand : Expr} (hmem : operand ∈ [condition, thenExpr, elseExpr]) :=
    List.Subset.trans
      (Expr.nodes_operand_subset (e := .conditional condition thenExpr elseExpr) hmem) hnodes
  simp only [exprTrace, hgo, Option.isSome_none, Bool.false_eq_true, if_false]
  have hc := (h.expr env condition).setProgress .conditional
  have ht := hc.expr env thenExpr
  refine .append (.append ?_ ?_) ?_
  · exact hcondition scope _ state history (hin (by simp)) h
      (hentered.first _ rfl (hnodes (Expr.self_mem_nodes .ownLayer _)))
  · exact hthen scope _ _ _ (hin (by simp)) hc (.branch _)
  · exact helse scope _ _ _ (hin (by simp)) ⟨ht.scope, ht.kept⟩ (.branch _)

end Operations

/-- The inlinings of every tree are proper. -/
theorem byParts_adds (env : Env) (origin : ScopeTree) : ByParts (ExprAdds env origin)
    (StmtFollows env Situated (Carries (Passed env.table origin)))
    fun list => ∀ s ∈ list, StmtFollows env Situated (Carries (Passed env.table origin)) s where
  operation e hlayer ih scope spot state history hnodes h hentered := by
    by_cases hgo : state.fault.isSome = true
    · rw [exprTrace_stopped hgo]
      exact .nil
    have hnone := Option.not_isSome_iff_eq_none.mp hgo
    have hcases : Expr.Operations (ExprAdds env origin) fun e =>
        e.nodes .ownLayer ⊆ spot.stmt.headNodes →
          Adds env.table origin history (exprTrace env scope spot e state) :=
      { operands := fun hwalks ih hnodes => by
          rw [exprTrace_operands hwalks hnone]
          exact adds_exprs [] ih (Expr.alwaysEvaluates_of_walksOperands hwalks) hnodes
            (List.Subset.refl _) _ h (fun _ => .nil) hentered
        ident := fun name _ => by
          simp only [exprTrace, if_neg hgo]
          exact .nil
        call := adds_call hnone h hentered
        assign := fun hvalue hnodes => by
          simp only [exprTrace, if_neg hgo]
          refine hvalue scope _ state history ?_ h
            (hentered.inside _ rfl (hnodes (Expr.self_mem_nodes .ownLayer _)) fun _ => .target rfl)
          exact List.Subset.trans (Expr.nodes_operand_subset (by simp [Expr.children])) hnodes
        logical := adds_logical hnone h hentered
        conditional := adds_conditional hnone h hentered }
    exact hcases.operation hlayer ih hnodes
  literal fn ih scope spot state history hnodes h hentered := by
    have hbody := (course_passed env.table origin).literal ih spot state h.situated
    have hadds := (hbody.holds [] ⟨h.kept, .nil⟩).adds.after history
    rwa [List.append_nil] at hadds
  declaration _ := (course_passed env.table origin).declaration
  list _ ih := ih
  statement s hfn hhead hbodies := by
    refine (course_passed env.table origin).parts hfn
      (fun e he scope place done rest hasHead state hloop hat => ?_) hbodies
    have hkept : state.ctx.scopes.Keeps (expr env scope e state).2.ctx.scopes :=
      keeps_expr state hat e
    refine ⟨hkept, fun history h => ⟨h.kept.trans hkept, h.adds.append ?_⟩⟩
    refine hhead e he scope _ state _ (Stmt.nodes_subset_headNodes he)
      ⟨hat.lt_size, h.kept⟩ fun hopen => ?_
    refine ⟨?_, List.forall_mem_nil _, List.forall_mem_nil _⟩
    rw [Spot.conditional, List.any_nil, Bool.or_false, Bool.eq_false_iff]
    exact fun hspot => State.not_open_of_impure (hloop hspot) hopen

end Walk

end CallWalk

/-- The inlinings of a whole walk are proper. -/
theorem Program.proper_inlinings (program : Program) (table : DefinitionTable) {ctx : Context}
    (hscopes : ctx.scopes.WellFormed) {earlier later : List Inlining} {i : Inlining}
    (h : program.inlinings table ctx = earlier ++ i :: later) :
    CallWalk.Proper table ctx.scopes earlier i := by
  have hcourse := (CallWalk.course_passed table ctx.scopes).units
    (fun name => (CallWalk.byParts_adds ⟨table, name⟩ ctx.scopes).stmt) [] program.units
    ⟨ctx, .statement, [], [], none⟩ hscopes
  have hadds : CallWalk.Adds table ctx.scopes [] (program.inlinings table ctx) :=
    (hcourse.holds [] ⟨.refl hscopes, .nil⟩).adds
  rw [h] at hadds
  exact hadds.proper

end StaticInliner
