import StaticInliner.Proofs.Histories

/-!
What a block may be put ahead of. A block runs before the whole statement with the call,
so the call has to be evaluated exactly once with the statement, and what is evaluated
before it has to be quiet: it cannot tell whether the block has run, nor can the arguments
that run with the block change what it has read. This is claimed of statements without
branches and compound assignments.
-/
namespace StaticInliner

/-- Expressions made of constants, function literals, `this`, operators, result variables
and reads of some other variables. -/
inductive Expr.Quiet (results : List String) (readable : String → Prop) : Expr → Prop
  | literal {e : Expr} : e.isLiteral = true → Quiet results readable e
  | this : Quiet results readable .this
  | function (fn : FunctionLit) : Quiet results readable (.function fn)
  | result {name : String} : name ∈ results → Quiet results readable (.ident name)
  | read {name : String} : readable name → Quiet results readable (.ident name)
  | binary {left right : Expr} (op : BinaryOp) : Quiet results readable left →
    Quiet results readable right → Quiet results readable (.binary op left right)
  | unary {op : UnaryOp} {operand : Expr} : op ≠ .delete → Quiet results readable operand →
    Quiet results readable (.unary op operand)
  | sequence {items : List Expr} : (∀ item ∈ items, Quiet results readable item) →
    Quiet results readable (.sequence items)
  | array {items : List Expr} : (∀ item ∈ items, Quiet results readable item) →
    Quiet results readable (.array items)

/-- The expression names a function in the table, as seen from a scope. -/
def DefinitionTable.Names (table : DefinitionTable) (scopes : ScopeTree) (scope : Nat)
    (callee : Expr) : Prop :=
  ∃ name, CallWalk.qualifiedCallee? callee = some name ∧ table.contains name = true ∧
    scopes.isBoundInFunction scope name.root = false

def Expr.isCall : Expr → Bool
  | .call _ _ => true
  | _ => false

/-- A plain assignment to a variable, which does not evaluate the variable. -/
def Expr.setsVariable : Expr → Bool
  | .assign (.ident _) none _ => true
  | _ => false

/-- The callee among the first operands of an operation. -/
def Expr.calleeAmong? (node : Expr) (operands : List Expr) : Option Expr :=
  if node.isCall then operands.head? else none

/-- What else is evaluated with the first operands. -/
def Expr.evaluatedAmong (node : Expr) (operands : List Expr) : List Expr :=
  if node.isCall then operands.tail else if node.setsVariable then [] else operands

/-- The first operands of an operation are quiet, or one is a known function that is being
called. -/
structure Expr.CalmAfter (known : Expr → Prop) (results : List String)
    (readable : String → Prop) (node : Expr) (operands : List Expr) : Prop where
  callee : ∀ callee ∈ node.calleeAmong? operands, callee.Quiet results readable ∨ known callee
  others : ∀ operand ∈ node.evaluatedAmong operands, operand.Quiet results readable

/-- What is evaluated in the operation before the operand left out is quiet. -/
def Frame.Calm (known : Expr → Prop) (results : List String) (readable : String → Prop)
    (frame : Frame) : Prop := frame.node.CalmAfter known results readable frame.before

/-- All operands are evaluated whenever the operation is. -/
def Expr.alwaysEvaluates : Expr → Bool
  | .logical _ _ _ | .conditional _ _ _ => false
  | _ => true

/-- The operand left out need not be evaluated whenever the operation is. -/
def Frame.conditional (frame : Frame) : Bool :=
  !frame.node.alwaysEvaluates && !frame.before.isEmpty

def Stmt.isLoop : Stmt → Bool
  | .whileDo _ _ => true
  | _ => false

/-- The expression left out need not be evaluated just once when the statement is run. -/
def Spot.conditional (spot : Spot) : Bool := spot.stmt.isLoop || spot.path.any Frame.conditional

/-- A logical or conditional operation, or a compound assignment. -/
def Node.branches : Node → Bool
  | .expr (.logical _ _ _) | .expr (.conditional _ _ _) | .expr (.assign _ (some _) _) => true
  | _ => false

/-- No branches and no compound assignments outside of function literals. -/
def Expr.Straight (e : Expr) : Prop := ∀ node ∈ e.nodes .ownLayer, node.branches = false

/-- The same for the expression of a statement. -/
def Stmt.Straight (s : Stmt) : Prop := ∀ e ∈ s.head?, e.Straight

/-- The variables that hold the results of blocks. -/
def blockResults (history : List Inlining) : List String :=
  history.filterMap fun i =>
    match i.expansion.shape with
    | .block => i.expansion.result
    | .direct => none

/-- The block for the call can run ahead of the statement. -/
structure Inlining.Hoisted (table : DefinitionTable) (origin : ScopeTree) (earlier : List Inlining)
    (i : Inlining) : Prop where
  unconditional : i.spot.conditional = false
  calm : i.spot.stmt.Straight → ∀ frame ∈ i.spot.path,
    frame.Calm (table.Names origin i.site.scope) (blockResults earlier) fun name =>
      i.before.scopes.isBoundInFunction i.site.scope name = true ∧
        Expr.anySideEffects i.args = false

section Quiet

variable {results results' : List String} {readable readable' : String → Prop}

theorem Expr.Quiet.mono {e : Expr} (h : e.Quiet results readable) (hresults : results ⊆ results')
    (hreadable : ∀ name, readable name → readable' name) : e.Quiet results' readable' := by
  induction h with
  | literal h => exact .literal h
  | this => exact .this
  | function fn => exact .function fn
  | result h => exact .result (hresults h)
  | read h => exact .read (hreadable _ h)
  | binary op _ _ left right => exact .binary op left right
  | unary hop _ operand => exact .unary hop operand
  | sequence _ items => exact .sequence items
  | array _ items => exact .array items

variable {known : Expr → Prop} {node : Expr}

theorem Expr.CalmAfter.mono {operands : List Expr}
    (h : node.CalmAfter known results readable operands) (hresults : results ⊆ results')
    (hreadable : ∀ name, readable name → readable' name) :
    node.CalmAfter known results' readable' operands where
  callee callee hcallee := (h.callee callee hcallee).imp_left (·.mono hresults hreadable)
  others operand hoperand := (h.others operand hoperand).mono hresults hreadable

theorem Expr.calmAfter_nil (known : Expr → Prop) (results : List String)
    (readable : String → Prop) (node : Expr) : node.CalmAfter known results readable [] := by
  refine ⟨fun callee hcallee => ?_, fun operand hoperand => ?_⟩
  · rw [calleeAmong?, List.head?_nil, ite_self] at hcallee
    cases hcallee
  · rw [evaluatedAmong, List.tail_nil, ite_self, ite_self] at hoperand
    cases hoperand

theorem Expr.CalmAfter.snoc {operands : List Expr}
    (h : node.CalmAfter known results readable operands) {operand : Expr}
    (hoperand : operand.Quiet results readable) :
    node.CalmAfter known results readable (operands ++ [operand]) := by
  obtain ⟨hcallee, hothers⟩ := h
  unfold calleeAmong? at hcallee
  unfold evaluatedAmong at hothers
  refine ⟨fun callee hmem => ?_, fun other hmem => ?_⟩
  · unfold calleeAmong? at hmem
    split at hmem
    · next hcall =>
      rw [if_pos hcall] at hcallee
      cases operands with
      | nil =>
        cases hmem
        exact .inl hoperand
      | cons first rest => exact hcallee callee hmem
    · cases hmem
  · unfold evaluatedAmong at hmem
    have hsnoc {list : List Expr} (hlist : ∀ other ∈ list, other.Quiet results readable)
        (hmem : other ∈ list ++ [operand]) : other.Quiet results readable := by
      rcases List.mem_append.mp hmem with hmem | hmem
      · exact hlist other hmem
      · exact List.mem_singleton.mp hmem ▸ hoperand
    split at hmem
    · next hcall =>
      rw [if_pos hcall] at hothers
      cases operands with
      | nil => cases hmem
      | cons first rest => exact hsnoc hothers hmem
    · next hcall =>
      rw [if_neg hcall] at hothers
      split at hmem
      · cases hmem
      · next hsets =>
        rw [if_neg hsets] at hothers
        exact hsnoc hothers hmem

end Quiet

section Histories

theorem blockResults_mono {history history' : List Inlining} (h : history ⊆ history') :
    blockResults history ⊆ blockResults history' :=
  List.filterMap_subset _ h

theorem mem_blockResults {history : List Inlining} {i : Inlining} {result : String}
    (hmem : i ∈ history) (hshape : i.expansion.shape = .block)
    (hresult : i.expansion.result = some result) :
    result ∈ blockResults history :=
  List.mem_filterMap.mpr ⟨i, hmem, by rw [hshape, ← hresult]⟩

namespace Inlining.Performed

variable {i : Inlining}

/-- A block is made where it may be, and leaves its result variable. -/
theorem block (h : i.Performed) (hshape : i.expansion.shape = .block) : i.site.hoistable = true ∧
    ∃ result, i.expansion.value = .ident result ∧ i.expansion.result = some result := by
  obtain ⟨-, ⟨expr, -, hdone⟩ | ⟨-, hblock, hdone⟩⟩ := h.expansion_cases
  · rw [hdone] at hshape
    cases hshape
  · have hsite : i.site.hoistable = true := by
      cases hsite : i.site.hoistable with
      | false => simp [Definition.unblockable?, hsite] at hblock
      | true => rfl
    rw [hdone]
    exact ⟨hsite, _, rfl, rfl⟩

/-- An inlining is counted. -/
theorem inlinedBlock (h : i.Performed) : i.after.stats.inlinedBlock =
    i.before.stats.inlinedBlock + [i].countP (·.expansion.shape = .block) := by
  obtain ⟨ctx, hexpand, hafter⟩ := h.expanded
  obtain ⟨⟨-, hstats⟩, -⟩ := Definition.sound_expandCall hexpand
  rw [hafter]
  simp only [CallWalk.countExpansion, hstats]
  cases hshape : i.expansion.shape <;> simp [hshape]

end Inlining.Performed

end Histories

end StaticInliner
