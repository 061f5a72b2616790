import StaticInliner.Proofs.Operands

/-!
Tame and local expressions. An operand that may not be evaluated is held to less than the
others: it only has to be without side effects. An expression is tame if it is quiet but for
such operands, and local if it reads nothing but variables of the function.
-/
namespace StaticInliner

section Definitions

/-- The operands that may not be evaluated. -/
def Node.optional : Node → List Expr
  | .expr (.logical _ _ right) => [right]
  | .expr (.conditional _ thenExpr elseExpr) => [thenExpr, elseExpr]
  | _ => []

/-- The node is no call and reads no property and no name but a variable of a function. -/
def Node.isLocal (scopes : ScopeTree) (scope : Nat) : Node → Bool
  | .expr (.ident name) => scopes.isBoundInFunction scope name
  | .expr (.member _ _) | .expr (.index _ _) | .expr (.call _ _) => false
  | _ => true

/-- The same for an expression, but for its function literals. -/
def Expr.Local (scopes : ScopeTree) (scope : Nat) (e : Expr) : Prop :=
  ∀ node ∈ e.nodes .ownLayer, node.isLocal scopes scope = true

/-- Something holds of all operands that may not be evaluated. -/
def Expr.BranchesIn (R : Expr → Prop) (e : Expr) : Prop :=
  ∀ node ∈ e.nodes .ownLayer, ∀ branch ∈ node.optional, R branch

/-- All operands that may not be evaluated are local. -/
def Expr.LocalBranches (scopes : ScopeTree) (scope : Nat) (e : Expr) : Prop :=
  e.BranchesIn (Expr.Local scopes scope)

def Stmt.LocalBranches (scopes : ScopeTree) (scope : Nat) (s : Stmt) : Prop :=
  ∀ e ∈ s.head?, e.LocalBranches scopes scope

/-- An operator that does nothing but combine its operands. -/
def Expr.combines : Expr → Bool
  | .unary .delete _ => false
  | .unary _ _ | .binary _ _ _ | .sequence _ | .array _ => true
  | _ => false

/-- Quiet but for operands that may not be evaluated, which have no side effects. -/
inductive Expr.Tame (results : List String) (readable : String → Prop) : Expr → Prop
  | quiet {e : Expr} : e.Quiet results readable → Tame results readable e
  | operation {e : Expr} : e.combines = true →
    (∀ operand ∈ e.children, Tame results readable operand) → Tame results readable e
  | logical {left right : Expr} (op : LogicalOp) : Tame results readable left →
    right.hasSideEffects = false → Tame results readable (.logical op left right)
  | conditional {condition thenExpr elseExpr : Expr} : Tame results readable condition →
    thenExpr.hasSideEffects = false → elseExpr.hasSideEffects = false →
    Tame results readable (.conditional condition thenExpr elseExpr)

/-- The name is read whenever the expression is evaluated. -/
inductive Expr.Reads (name : String) : Expr → Prop
  | ident : Reads name (.ident name)
  | operation {e operand : Expr} : e.combines = true → operand ∈ e.children → Reads name operand →
    Reads name e
  | logical {op : LogicalOp} {left right : Expr} : Reads name left →
    Reads name (.logical op left right)
  | conditional {condition thenExpr elseExpr : Expr} : Reads name condition →
    Reads name (.conditional condition thenExpr elseExpr)

/-- The first operand does not count as read: it is a function that is known, or a
variable that is assigned to. -/
def Expr.sparesFirst (known : Expr → Prop) : Expr → Prop
  | .call callee _ => known callee
  | .assign (.ident _) _ _ => True
  | _ => False

/-- What has been evaluated of the first operands of an operation is tame. -/
structure Expr.TameAfter (known : Expr → Prop) (results : List String)
    (readable : String → Prop) (node : Expr) (operands : List Expr) : Prop where
  first : node.sparesFirst known ∨ ∀ operand ∈ operands.head?, operand.Tame results readable
  others : ∀ operand ∈ operands.tail, operand.Tame results readable

/-- What is evaluated before the call and stays in the statement does not keep the block
from running ahead. -/
structure Inlining.Passes (table : DefinitionTable) (origin : ScopeTree)
    (earlier : List Inlining) (i : Inlining) : Prop where
  tame : ∀ frame ∈ i.spot.path, frame.node.TameAfter (table.Names origin i.site.scope)
    (blockResults earlier) (fun name => i.before.scopes.isBoundInFunction i.site.scope name = true ∧
      Expr.anySideEffects i.args = false) frame.before
  branches : i.spot.stmt.LocalBranches origin i.site.scope →
    ∀ frame ∈ i.spot.path, ∀ operand ∈ frame.before, operand.LocalBranches origin i.site.scope

end Definitions

section Tame

variable {results results' : List String} {readable readable' : String → Prop}

/-- More results and more readable names leave an expression tame. -/
theorem Expr.Tame.mono {e : Expr} (h : e.Tame results readable) (hresults : results ⊆ results')
    (hreadable : ∀ name, readable name → readable' name) : e.Tame results' readable' := by
  induction h with
  | quiet h => exact .quiet (h.mono hresults hreadable)
  | operation h _ operands => exact .operation h operands
  | logical op _ hright left => exact .logical op left hright
  | conditional _ hthen helse condition => exact .conditional condition hthen helse

/-- What a quiet expression reads is a result or a variable that may be read. -/
theorem Expr.Quiet.of_reads {e : Expr} (h : e.Quiet results readable) {name : String}
    (hreads : e.Reads name) : name ∈ results ∨ readable name := by
  induction h with
  | literal hliteral =>
    cases hreads with
    | ident | logical _ | conditional _ => cases hliteral
    | operation hcombines _ _ =>
      revert hliteral hcombines
      unfold Expr.isLiteral Expr.combines
      split <;> simp
  | this =>
    cases hreads with
    | operation hcombines _ _ => cases hcombines
  | function fn =>
    cases hreads with
    | operation hcombines _ _ => cases hcombines
  | result h =>
    cases hreads with
    | ident => exact .inl h
    | operation hcombines _ _ => cases hcombines
  | read h =>
    cases hreads with
    | ident => exact .inr h
    | operation hcombines _ _ => cases hcombines
  | binary _ _ _ left right =>
    cases hreads with
    | operation _ hmem hoperand =>
      rcases List.mem_cons.mp hmem with rfl | hmem
      · exact left hoperand
      · exact right (List.mem_singleton.mp hmem ▸ hoperand)
  | unary _ _ operand =>
    cases hreads with
    | operation _ hmem hoperand => exact operand (List.mem_singleton.mp hmem ▸ hoperand)
  | sequence _ items | array _ items =>
    cases hreads with
    | operation _ hmem hoperand => exact items _ hmem hoperand

/-- The same for a tame expression, whose optional operands are not evaluated for sure. -/
theorem Expr.Tame.of_reads {e : Expr} (h : e.Tame results readable) {name : String}
    (hreads : e.Reads name) : name ∈ results ∨ readable name := by
  induction h with
  | quiet h => exact h.of_reads hreads
  | operation hcombines _ operands =>
    cases hreads with
    | ident | logical _ | conditional _ => cases hcombines
    | operation _ hmem hoperand => exact operands _ hmem hoperand
  | logical _ _ _ left =>
    cases hreads with
    | operation hcombines _ _ => cases hcombines
    | logical hleft => exact left hleft
  | conditional _ _ _ condition =>
    cases hreads with
    | operation hcombines _ _ => cases hcombines
    | conditional hcondition => exact condition hcondition

/-- The operations that walk their operands and stay pure are tame with these. -/
theorem Expr.tame_operands {e : Expr} (hwalks : e.walksOperands = true) (hpure : e.isImpure = false)
    {operands : List Expr} (hlength : operands.length = e.children.length)
    (h : ∀ operand ∈ operands, operand.Tame results readable) :
    (e.withOperands operands).Tame results readable := by
  have hchildren := children_withOperands hlength
  cases e with
  | undefined | null | bool _ | number _ | string _ => exact .quiet (.literal rfl)
  | this => exact .quiet .this
  | member _ _ | index _ _ | new _ _ | assign _ _ _ => cases hpure
  | ident _ | call _ _ | logical _ _ _ | conditional _ _ _ | function _ => cases hwalks
  | binary _ _ _ =>
    obtain ⟨a, b, rfl⟩ := List.length_eq_two.mp hlength
    exact .operation rfl h
  | unary op _ =>
    obtain ⟨a, rfl⟩ := List.length_eq_one_iff.mp hlength
    cases op with
    | delete => cases hpure
    | _ => exact .operation rfl h
  | sequence _ | array _ => exact .operation rfl h

variable {known : Expr → Prop} {node : Expr} {operands : List Expr}

theorem Expr.TameAfter.mono (h : node.TameAfter known results readable operands)
    (hresults : results ⊆ results') (hreadable : ∀ name, readable name → readable' name) :
    node.TameAfter known results' readable' operands where
  first := h.first.imp_right fun hfirst operand hoperand =>
    (hfirst operand hoperand).mono hresults hreadable
  others operand hoperand := (h.others operand hoperand).mono hresults hreadable

theorem Expr.tameAfter_nil : node.TameAfter known results readable [] := by
  refine ⟨.inr fun operand hoperand => ?_, List.forall_mem_nil _⟩
  cases hoperand

/-- The step to the next operand. -/
theorem Expr.TameAfter.snoc (h : node.TameAfter known results readable operands) {operand : Expr}
    (hoperand : operand.Tame results readable) :
    node.TameAfter known results readable (operands ++ [operand]) := by
  cases operands with
  | nil =>
    refine ⟨.inr fun first hfirst => ?_, List.forall_mem_nil _⟩
    cases hfirst
    exact hoperand
  | cons first rest =>
    refine ⟨h.first, fun other hother => ?_⟩
    rcases List.mem_append.mp hother with hother | hother
    · exact h.others other hother
    · exact List.mem_singleton.mp hother ▸ hoperand

/-- Operands of which the first counts like the others. -/
theorem Expr.TameAfter.all (h : node.TameAfter known results readable operands)
    (hnode : ¬ node.sparesFirst known) : ∀ operand ∈ operands, operand.Tame results readable := by
  cases operands with
  | nil => exact List.forall_mem_nil _
  | cons first rest =>
    exact List.forall_mem_cons.mpr ⟨h.first.resolve_left hnode first rfl, h.others⟩

end Tame

section Local

variable {R : Expr → Prop} {scopes : ScopeTree} {scope : Nat}

/-- An operation is local if its node and its operands are. -/
theorem Expr.local_operation {e : Expr} (h : e.ownsLayer = false) : e.Local scopes scope ↔
    (Node.expr e).isLocal scopes scope = true ∧ ∀ operand ∈ e.children,
      operand.Local scopes scope :=
  Expr.forall_nodes_iff h

/-- The branches of an operation are its own and those of its operands. -/
theorem Expr.branchesIn_operation {e : Expr} (h : e.ownsLayer = false) : e.BranchesIn R ↔
    (∀ branch ∈ (Node.expr e).optional, R branch) ∧ ∀ operand ∈ e.children, operand.BranchesIn R :=
  Expr.forall_nodes_iff h

theorem Expr.BranchesIn.operand {e operand : Expr} (h : e.BranchesIn R)
    (hoperand : operand ∈ e.children) :
    operand.BranchesIn R :=
  ((branchesIn_operation (ownsLayer_of_mem_children hoperand)).mp h).2 operand hoperand

theorem Expr.optional_subset (e : Expr) : (Node.expr e).optional ⊆ e.children := by
  cases e with
  | logical _ _ _ | conditional _ _ _ => exact List.subset_cons_self _ _
  | _ => exact List.nil_subset _

theorem Expr.optional_of_alwaysEvaluates {e : Expr} (h : e.alwaysEvaluates = true) :
    (Node.expr e).optional = [] := by
  cases e with
  | logical _ _ _ | conditional _ _ _ => cases h
  | _ => rfl

theorem Expr.branchesIn_function (fn : FunctionLit) : (Expr.function fn).BranchesIn R := by
  cases fn
  intro node hnode
  cases List.mem_singleton.mp hnode
  exact List.forall_mem_nil _

theorem Expr.branchesIn_ident (name : String) : (Expr.ident name).BranchesIn R :=
  (branchesIn_operation rfl).mpr ⟨List.forall_mem_nil _, List.forall_mem_nil _⟩

theorem Expr.branchesIn_literal {e : Expr} (h : e.isLiteral = true) : e.BranchesIn R := by
  cases e with
  | undefined | null | bool _ | number _ | string _ =>
    exact (branchesIn_operation rfl).mpr ⟨List.forall_mem_nil _, List.forall_mem_nil _⟩
  | _ => cases h

theorem Expr.local_function (fn : FunctionLit) : (Expr.function fn).Local scopes scope := by
  cases fn
  intro node hnode
  cases List.mem_singleton.mp hnode
  rfl

/-- What is local has local branches only. -/
theorem Expr.Local.localBranches {e : Expr} (h : e.Local scopes scope) :
    e.LocalBranches scopes scope := by
  induction e using Expr.byOperands with
  | operation e hlayer ih =>
    have hoperands := ((local_operation hlayer).mp h).2
    refine (branchesIn_operation hlayer).mpr ⟨fun branch hbranch => ?_, fun operand hmem => ?_⟩
    · exact hoperands branch (e.optional_subset hbranch)
    · exact ih operand hmem (hoperands operand hmem)
  | literal fn => exact branchesIn_function fn

theorem Expr.alwaysEvaluates_withOperands (e : Expr) (operands : List Expr) :
    (e.withOperands operands).alwaysEvaluates = e.alwaysEvaluates := by
  unfold withOperands
  split <;> rfl

/-- A local operation stays local with other local operands. -/
theorem Expr.Local.withOperands {e : Expr} (h : e.Local scopes scope) (hlayer : e.ownsLayer = false)
    (operands : List Expr) (hlength : operands.length = e.children.length)
    (hoperands : ∀ operand ∈ operands, operand.Local scopes scope) :
    (e.withOperands operands).Local scopes scope := by
  have hself := ((local_operation hlayer).mp h).1
  refine (local_operation ((ownsLayer_withOperands _ _).trans hlayer)).mpr ⟨?_, ?_⟩
  · unfold Expr.withOperands
    split
    · cases hself
    · cases hself
    · cases hself
    all_goals first | rfl | exact hself
  · rw [children_withOperands hlength]
    exact hoperands

theorem Expr.branchesIn_withOperands {e : Expr} (hwalks : e.walksOperands = true)
    {operands : List Expr} (hlength : operands.length = e.children.length)
    (h : ∀ operand ∈ operands, operand.BranchesIn R) : (e.withOperands operands).BranchesIn R := by
  have hlayer := (ownsLayer_withOperands e operands).trans (ownsLayer_of_walksOperands hwalks)
  refine (branchesIn_operation hlayer).mpr ⟨?_, ?_⟩
  · rw [optional_of_alwaysEvaluates
      ((alwaysEvaluates_withOperands _ _).trans (alwaysEvaluates_of_walksOperands hwalks))]
    exact List.forall_mem_nil _
  · rw [children_withOperands hlength]
    exact h

/-- Without branches what is tame is quiet. -/
theorem Expr.Tame.quiet_of_branchesIn {results : List String} {readable : String → Prop} {e : Expr}
    (h : e.Tame results readable) (hbranches : e.BranchesIn fun _ => False) :
    e.Quiet results readable := by
  induction h with
  | quiet h => exact h
  | @operation e hcombines _ ih =>
    have hoperands : ∀ operand ∈ e.children, operand.Quiet results readable :=
      fun operand hmem => ih operand hmem (hbranches.operand hmem)
    cases e with
    | binary op left right =>
      exact .binary op (hoperands left List.mem_cons_self)
        (hoperands right (List.mem_cons_of_mem _ List.mem_cons_self))
    | unary op operand =>
      refine .unary ?_ (hoperands operand List.mem_cons_self)
      rintro rfl
      cases hcombines
    | sequence items => exact .sequence hoperands
    | array items => exact .array hoperands
    | _ => cases hcombines
  | @logical _ right =>
    exact absurd (((branchesIn_operation rfl).mp hbranches).1 right List.mem_cons_self) id
  | @conditional _ thenExpr =>
    exact absurd (((branchesIn_operation rfl).mp hbranches).1 thenExpr List.mem_cons_self) id

end Local

end StaticInliner
