import StaticInliner.Proofs.Branches

/-!
Every block of a walk is hoisted. It goes ahead of a statement only where the call is evaluated
exactly once with the statement, and where all that comes before the call is tame. In a
statement without branches and compound assignments this is quiet.
-/
namespace StaticInliner

section Straight

theorem Node.optional_of_branches {node : Node} (h : node.branches = false) :
    node.optional = [] := by
  unfold optional
  split
  · cases h
  · cases h
  · rfl

/-- No node at the head of a straight statement branches. -/
theorem Stmt.Straight.headNodes {s : Stmt} (h : s.Straight) :
    ∀ node ∈ s.headNodes, node.branches = false := by
  intro node hnode
  obtain ⟨e, he, hnode⟩ := Expr.mem_nodesAll.mp hnode
  exact h e (Option.mem_toList.mp he) node hnode

namespace CallWalk

/-- In a statement without branches and compound assignments the operands before a call are
quiet, but for a known callee and for the variable of an assignment. -/
theorem Operands.calmAfter {table : DefinitionTable} {origin : ScopeTree} {history : List Inlining}
    {s : Stmt} {scope : Nat} {state : State} {node : Expr} {operands : List Expr}
    (h : Operands table origin history s scope state node operands) (hopen : state.Open)
    (hstraight : s.Straight) (hnode : .expr node ∈ s.headNodes) :
    node.CalmAfter (table.Names origin scope) (blockResults history) (state.Readable scope)
      operands := by
  induction h with
  | nil => exact Expr.calmAfter_nil _ _ _ _
  | callee heq _ hnames =>
    subst heq
    refine ⟨fun callee hcallee => ?_, List.forall_mem_nil _⟩
    cases hcallee
    exact .inr hnames
  | @target _ op _ heq =>
    subst heq
    cases op with
    | none =>
      refine ⟨fun callee hcallee => ?_, List.forall_mem_nil _⟩
      cases hcallee
    | some op => exact absurd (hstraight.headNodes _ hnode) Bool.noConfusion
  | snoc _ hlast ih =>
    have hnone : ∀ node ∈ s.headNodes, ∀ branch ∈ node.optional, False := by
      intro node hnode branch hbranch
      rw [Node.optional_of_branches (hstraight.headNodes node hnode)] at hbranch
      cases hbranch
    exact ih.snoc ((hlast.tame hopen).quiet_of_branchesIn
      (hlast.branchesIn hopen ⟨fun _ _ _ => id, fun _ => False.elim⟩ hnone))

end CallWalk

/-- A proper inlining that takes a block is hoisted ahead of its statement. -/
theorem CallWalk.Proper.hoisted {table : DefinitionTable} {origin : ScopeTree}
    {earlier : List Inlining} {i : Inlining} (h : CallWalk.Proper table origin earlier i)
    (hshape : i.expansion.shape = .block) : i.Hoisted table origin earlier := by
  obtain ⟨begun, hbegun⟩ := h.cleared hshape
  obtain ⟨hunconditional, hnodes, hoperands⟩ := hbegun.ahead
  refine ⟨hunconditional, fun hstraight frame hframe => ?_⟩
  exact ((hoperands frame hframe).calmAfter hbegun.isOpen hstraight (hnodes frame hframe)).mono
    (List.Subset.refl _) fun _ hname => hbegun.readable h.performed hshape hname

end Straight

section Counting

namespace CallWalk

/-- The blocks of the trace have been counted between two states. -/
def Counted (trace : List Inlining) (_nodes : List Node) (a b : State) : Prop :=
  b.ctx.stats.inlinedBlock =
    a.ctx.stats.inlinedBlock + trace.countP (·.expansion.shape = .block)

/-- Counts add up along a walk. -/
theorem Counted.trans {trace trace' : List Inlining} {nodes nodes' all : List Node} {a b c : State}
    (h : Counted trace nodes a b) (h' : Counted trace' nodes' b c) :
    Counted (trace ++ trace') all a c := by
  rw [Counted] at h h' ⊢
  rw [h', h, List.countP_append, Nat.add_assoc]

/-- A call counts the block that it adds, if it adds one. -/
theorem counted_finishCall (env : Env) (scope : Nat) (before : Progress) (spot : Spot)
    (callee : Expr) (args : List Expr) (state : State) :
    Counted (callTrace env scope before spot callee args state) [] state
      (finishCall env scope before callee args state).2 := by
  rcases finishCall_cases env scope before spot callee args state with
    ⟨skipped, log, hdone, htrace⟩ | ⟨fault, hdone, htrace, -⟩ |
    ⟨definition, expansion, after, log, hperformed, hdone, htrace⟩
  · rw [Counted, hdone, htrace]
    rfl
  · rw [Counted, hdone, htrace]
    rfl
  · rw [Counted, hdone, htrace]
    exact hperformed.inlinedBlock

theorem callCourse_counted (env : Env) :
    CallCourse env (fun _ => True) (fun _ _ => True) Counted where
  ok _ := trivial
  enter _ _ _ _ _ := trivial
  stay _ _ := trivial
  keep _ _ := trivial
  refl _ := rfl
  trans := Counted.trans
  context h ha _ hb _ := by rwa [Counted, ha, hb]
  operation _ h := h
  statement h := h
  stopped _ _ := rfl
  stop _ := rfl
  known _ _ := rfl
  call _ _ h := h.trans (counted_finishCall env _ _ _ _ _ _)

end CallWalk

end Counting

/-- The calls that get a block are evaluated exactly once with their statement. In a statement
without branches and compound assignments, whatever is evaluated before such a call and stays
in the statement is quiet, and it reads no variables of the function if the arguments of the
call have side effects. -/
theorem Program.blocks_hoisted (program : Program) (table : DefinitionTable) {ctx : Context}
    (hscopes : ctx.scopes.WellFormed) :
    (program.expandCalls table ctx).ctx.stats.inlinedBlock = ctx.stats.inlinedBlock +
        (program.inlinings table ctx).countP (·.expansion.shape = .block) ∧
      ∀ earlier i later, program.inlinings table ctx = earlier ++ i :: later →
        i.Performed ∧ (i.expansion.shape = .block → i.Hoisted table ctx.scopes earlier) := by
  have hcounted := (CallWalk.callCourse_counted ⟨table, ""⟩).units
    (fun name => (CallWalk.callCourse_counted ⟨table, name⟩).byParts.stmt) [] program.units
    ⟨ctx, .statement, [], [], none⟩ trivial
  refine ⟨hcounted, fun earlier i later hhistory => ?_⟩
  have hi := program.proper_inlinings table hscopes hhistory
  exact ⟨hi.performed, hi.hoisted⟩

theorem Program.blocks_hoisted_doubling :
    let table := (Program.doubling.collect "host.js" ["twice"] .lastWins).table
    let ctx := Context.ofProgram .doubling .counter
    ∃ i, Program.doubling.inlinings table ctx = [i] ∧ i.expansion.shape = .block ∧
      i.spot.stmt.Straight ∧ i.spot.path ≠ [] ∧ i.Hoisted table ctx.scopes [] := by
  intro table ctx
  have hscopes : ctx.scopes.WellFormed := Program.doubling.wellFormed_scopes
  obtain ⟨-, hhoisted⟩ := Program.doubling.blocks_hoisted table hscopes
  obtain ⟨i, hi⟩ : ∃ i, Program.doubling.inlinings table ctx = [i] :=
    List.length_eq_one_iff.mp (by decide +kernel)
  have hblock : ∀ i ∈ Program.doubling.inlinings table ctx, i.expansion.shape = .block ∧
      (∀ e ∈ i.spot.stmt.head?, ∀ node ∈ e.nodes .ownLayer, node.branches = false) ∧
      i.spot.path ≠ [] := by
    decide +kernel
  obtain ⟨hshape, hstraight, hpath⟩ := hblock i (hi ▸ List.mem_singleton_self i)
  exact ⟨i, hi, hshape, hstraight, hpath, (hhoisted [] i [] hi).2 hshape⟩

end StaticInliner
