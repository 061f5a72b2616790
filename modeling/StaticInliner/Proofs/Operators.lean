import StaticInliner.Proofs.Branches
import StaticInliner.Proofs.Relabeling.Walks

/-!
Compound assignments. A compound assignment reads its target before it evaluates the value, a
plain one does not. The walk makes no difference between them: it takes the same decisions,
in the same order, as for the program in which every assignment is plain. For erasing the
operators is a relabeling that keeps every name, so the two programs are walked in step. A call
in the value of a compound assignment to a variable gets its block wherever it would get one in
a plain assignment, although the variable is then read after the block, unless the variable is
read once more before the call.
-/
namespace StaticInliner

section Plain

/-- All assignments become plain. -/
def Relabeling.plainly : Relabeling where
  name := id
  operator _ := none
  injective := Function.injective_id
  empty := rfl
  arguments := rfl
  plain := rfl

theorem Relabeling.keepsNames_plainly : plainly.KeepsNames := fun _ => rfl

/-- The program with all its assignments plain. -/
def Program.plain (program : Program) : Program := program.relabel Relabeling.plainly

/-- Making plain what is plain changes nothing. -/
theorem byParts_plainly_plainly : ByParts
    (fun e => (e.relabel Relabeling.plainly).relabel Relabeling.plainly =
      e.relabel Relabeling.plainly)
    (fun s => (s.relabel Relabeling.plainly).relabel Relabeling.plainly =
      s.relabel Relabeling.plainly)
    (fun list => Stmt.relabelAll Relabeling.plainly (Stmt.relabelAll Relabeling.plainly list) =
      Stmt.relabelAll Relabeling.plainly list) := by
  refine ⟨fun e hlayer ih => ?_, fun fn ih => ?_, fun fn ih => ?_, fun s hfn hhead hbodies => ?_,
    fun list ih => ?_⟩
  · cases e with
    | function _ => cases hlayer
    | _ => simp_all [Expr.relabelAll_eq_map, Expr.children, Relabeling.plainly]
  · simp only [Expr.relabel_function, FunctionLit.relabel, ih, Relabeling.keepsNames_plainly.map]
    cases fn.name <;> rfl
  · cases fn
    simp_all [Relabeling.plainly]
  · cases s with
    | var _ _ init => cases init <;> simp_all [Stmt.head?, Relabeling.plainly]
    | ret value => cases value <;> simp_all [Stmt.head?]
    | ifElse _ _ elseBranch => cases elseBranch <;> simp_all [Stmt.head?, Stmt.bodies]
    | function _ => cases hfn
    | _ => simp_all [Stmt.head?, Stmt.bodies, Relabeling.plainly]
  · simp only [Stmt.relabelAll_eq_map, List.map_map]
    exact List.map_congr_left ih

theorem Program.plain_plain (program : Program) : program.plain.plain = program.plain := by
  obtain ⟨units⟩ := program
  simp only [Program.plain, Program.relabel, List.map_map]
  refine congrArg Program.mk (List.map_congr_left fun unit _ =>
    congrArg (SourceUnit.mk unit.id unit.name) ?_)
  exact byParts_plainly_plainly.stmts unit.body

/-- A run and its plain copy draw from one supply. -/
def Pairing.plainly : Pairing where
  label := .plainly
  names := []
  names' := []
  corresponds i name _ h := by simp at h
  oneSupply := True
  keeps _ := Relabeling.keepsNames_plainly

theorem Context.paired_plainly (ctx : Context) : ctx.Paired .plainly ctx where
  scopes := (ctx.scopes.relabel_eq_self _ Relabeling.keepsNames_plainly).symm
  changes := rfl
  stats := rfl
  nextNodeId := rfl
  reserved := rfl
  names _ := rfl

theorem Context.Paired.eq {ctx ctx' : Context} (h : ctx.Paired .plainly ctx') : ctx' = ctx := by
  have hscopes := h.scopes.trans (ctx.scopes.relabel_eq_self _ (Pairing.plainly.keeps trivial))
  obtain ⟨_, _, _, _, _⟩ := ctx
  obtain ⟨_, _, _, _, _⟩ := ctx'
  rw [Context.mk.injEq]
  exact ⟨hscopes, h.names trivial, h.changes, h.stats, h.nextNodeId⟩

/-- The program and its definitions made plain. -/
theorem Program.expandCalls_plainly (program : Program) (table : DefinitionTable) (ctx : Context) :
    let done := program.expandCalls table ctx
    let done' := program.plain.expandCalls (table.relabel .plainly) ctx
    done'.ctx = done.ctx ∧ done'.log = done.log ∧ done'.fault = done.fault ∧
      done'.program = done.program.plain := by
  obtain ⟨hprogram, hctx, hfault, hlog⟩ :=
    program.expandCalls_paired ctx.paired_plainly table (.inl trivial)
  exact ⟨hctx.eq, hlog trivial, hfault, hprogram⟩

end Plain

section Accumulating

namespace Frame

/-- The variable that the operation reads before the operand left out, as a compound
assignment does. -/
def updates? (frame : Frame) : Option String :=
  match frame.node with
  | .assign (.ident name) (some _) _ => some name
  | _ => none

/-- The operands before the one left out, but for the callee of a call and the variable of an
assignment. -/
def counted (frame : Frame) : List Expr :=
  match frame.node with
  | .call _ _ | .assign (.ident _) _ _ => frame.before.tail
  | _ => frame.before

theorem tame_of_mem_counted {known : Expr → Prop} {results : List String}
    {readable : String → Prop} {frame : Frame}
    (h : frame.node.TameAfter known results readable frame.before) {operand : Expr}
    (hoperand : operand ∈ frame.counted) : operand.Tame results readable := by
  unfold counted at hoperand
  split at hoperand
  · exact h.others operand hoperand
  · exact h.others operand hoperand
  · next hcall hassign =>
    refine h.all (fun hspared => ?_) operand hoperand
    unfold Expr.sparesFirst at hspared
    split at hspared
    · next callee args heq => exact hcall callee args heq
    · next name op value heq => exact hassign name op value heq
    · exact hspared

end Frame

/-- A name that is read before a call with a block, apart from the variables of assignments,
is a variable of the function, and the arguments of the call do not change it. -/
theorem Inlining.Passes.guarded {i : Inlining} {table : DefinitionTable} {origin : ScopeTree}
    {earlier : List Inlining} (h : i.Passes table origin earlier) {frame : Frame}
    (hframe : frame ∈ i.spot.path) {operand : Expr} (hoperand : operand ∈ frame.counted)
    {name : String} (hreads : operand.Reads name) (hname : name ∉ blockResults earlier) :
    i.before.scopes.isBoundInFunction i.site.scope name = true ∧
      Expr.anySideEffects i.args = false :=
  ((Frame.tame_of_mem_counted (h.tame frame hframe) hoperand).of_reads hreads).resolve_left hname

def Expr.isVariable (name : String) : Expr → Bool
  | .ident other => other == name
  | _ => false

theorem Expr.reads_of_isVariable {e : Expr} {name : String} (h : e.isVariable name = true) :
    e.Reads name := by
  unfold isVariable at h
  split at h
  · next other =>
    obtain rfl := beq_iff_eq.mp h
    exact .ident
  · cases h

/-- Expanding calls does not look at the operators of assignments: the same calls are
expanded in the same way as if all assignments were plain, and the programs that come of it
differ at most in operators. So the variable of a compound assignment is guarded only if it
is read once more before the call: then a block is put ahead only if it is a variable of the
function and the arguments have no side effects. -/
theorem Program.expandCalls_plain (program : Program) (table : DefinitionTable) (ctx : Context) :
    let done := program.expandCalls table ctx
    let done' := program.plain.expandCalls table ctx
    (done'.ctx = done.ctx ∧ done'.log = done.log ∧ done'.fault = done.fault ∧
      done'.program.plain = done.program.plain) ∧
    (ctx.scopes.WellFormed → ∀ earlier i later,
      program.inlinings table ctx = earlier ++ i :: later → i.expansion.shape = .block →
      ∀ frame ∈ i.spot.path, ∀ name ∈ frame.updates?, name ∉ blockResults earlier →
      (∃ inner ∈ i.spot.path, ∃ operand ∈ inner.counted, operand.Reads name) →
        i.before.scopes.isBoundInFunction i.site.scope name = true ∧
          Expr.anySideEffects i.args = false) := by
  constructor
  · -- both are expanded like the plain program with the plain definitions
    obtain ⟨hctx, hlog, hfault, hprogram⟩ := program.expandCalls_plainly table ctx
    obtain ⟨hctx', hlog', hfault', hprogram'⟩ := program.plain.expandCalls_plainly table ctx
    rw [program.plain_plain] at hctx' hlog' hfault' hprogram'
    exact ⟨hctx'.symm.trans hctx, hlog'.symm.trans hlog, hfault'.symm.trans hfault,
      hprogram'.symm.trans hprogram⟩
  · rintro hscopes earlier i later hhistory hshape _ _ name _ hname
      ⟨inner, hinner, operand, hoperand, hreads⟩
    have hpasses := (program.proper_inlinings table hscopes hhistory).passes hshape
    exact hpasses.guarded hinner hoperand hreads hname

/-- A function that sets a global variable, called in `x += x + A.keep(x)`. -/
def Program.rereading : Program :=
  ⟨[⟨0, "host.js",
      [.expr (.assign (.member (.ident "A") "keep") none
        (.function ⟨0, none, ["a"],
          [.expr (.assign (.ident "G") none (.ident "a")), .ret (some (.ident "a"))]⟩))]⟩,
    ⟨1, "main.js",
      [.function ⟨1, some "main", ["x"],
        [.expr (.assign (.ident "x") (some .add) (.binary .add (.ident "x")
          (.call (.member (.ident "A") "keep") [.ident "x"]))),
          .ret (some (.ident "x"))]⟩]⟩]⟩

theorem Program.expandCalls_plain_rereading :
    let program := Program.rereading
    let table := (program.collect "host.js" ["keep"] .lastWins).table
    let ctx := Context.ofProgram program .counter
    (program.plain.expandCalls table ctx).ctx = (program.expandCalls table ctx).ctx ∧
    ∃ i, program.inlinings table ctx = [i] ∧ i.expansion.shape = .block ∧
      (∃ frame ∈ i.spot.path, "x" ∈ frame.updates?) ∧
      i.before.scopes.isBoundInFunction i.site.scope "x" = true ∧
        Expr.anySideEffects i.args = false := by
  intro program table ctx
  obtain ⟨hplain, hguarded⟩ := program.expandCalls_plain table ctx
  obtain ⟨i, hi⟩ : ∃ i, program.inlinings table ctx = [i] :=
    List.length_eq_one_iff.mp (by decide +kernel)
  have hblock : ∀ i ∈ program.inlinings table ctx, i.expansion.shape = .block ∧
      (∃ frame ∈ i.spot.path, "x" ∈ frame.updates?) ∧
      ∃ inner ∈ i.spot.path, ∃ operand ∈ inner.counted, operand.isVariable "x" = true := by
    decide +kernel
  obtain ⟨hshape, hupdates, inner, hinner, operand, hoperand, hx⟩ :=
    hblock i (hi ▸ List.mem_singleton_self i)
  obtain ⟨frame, hframe, hname⟩ := hupdates
  exact ⟨hplain.1, i, hi, hshape, ⟨frame, hframe, hname⟩,
    hguarded program.wellFormed_scopes [] i [] hi hshape frame hframe "x" hname List.not_mem_nil
      ⟨inner, hinner, operand, hoperand, Expr.reads_of_isVariable hx⟩⟩

/-- A function that sets a global variable, called in a compound assignment to a variable
that its argument sets. -/
def Program.accumulating : Program :=
  ⟨[⟨0, "host.js",
      [.expr (.assign (.member (.ident "A") "keep") none
        (.function ⟨0, none, ["a"],
          [.expr (.assign (.ident "G") none (.ident "a")), .ret (some (.ident "a"))]⟩))]⟩,
    ⟨1, "main.js",
      [.function ⟨1, some "main", ["x"],
        [.expr (.assign (.ident "x") (some .add)
          (.call (.member (.ident "A") "keep") [.assign (.ident "x") none (.number 5)])),
          .ret (some (.ident "x"))]⟩]⟩]⟩

/-- The argument sets the variable ahead of the statement, and the compound assignment then
reads what it was set to. -/
theorem Program.accumulating_set :
    let program := Program.accumulating
    let table := (program.collect "host.js" ["keep"] .lastWins).table
    let ctx := Context.ofProgram program .counter
    ∃ i ∈ program.inlinings table ctx, i.expansion.shape = .block ∧
      ∃ frame ∈ i.spot.path, ∃ name ∈ frame.updates?,
        ¬(ctx.scopes.isBoundInFunction i.site.scope name = true ∧
          Expr.anySideEffects i.args = false) := by
  decide +kernel

end Accumulating

end StaticInliner
