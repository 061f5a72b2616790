import StaticInliner.Inline.Block
import StaticInliner.Proofs.Meaning.Purity
import StaticInliner.Proofs.Meaning.Runs

/-!
Returning by a jump. With the returns lowered, a body runs as before up to the
point where it returns; there it leaves the value in the result variable and
jumps to the label. Nothing else in the body touches the variable or the label.
-/
namespace StaticInliner.Meaning

variable {L : Language}

/-- Where a body leaves its value and where it jumps to. Without `jumps` only its
last statement may return. -/
structure Lowering where
  result : String
  label : String
  jumps : Bool

namespace Lowering

variable {c : Lowering}

/-- What is required of a node of the body. -/
def Spares (c : Lowering) : Node → Prop
  | .expr (.ident x) | .stmt (.var _ x _) => x ≠ c.result
  | .stmt (.labeled label _) | .stmt (.continueTo (some label)) => label ≠ c.label
  | .stmt (.ret _) => c.jumps = true
  | _ => True

/-- States that differ in the result variable only, which holds the value. -/
structure Holding (c : Lowering) (v : L.Value) (s t : State L) : Prop where
  world : s.world = t.world
  others : ∀ x, x ≠ c.result → s.locals x = t.locals x
  result : t.locals c.result = some ⟨some v, false⟩

/-- How the body ends, and how it ends with its returns lowered. -/
inductive Ended (c : Lowering) :
    Completion L.Value → Completion L.Value → State L → State L → Prop
  | normal {s t : State L} (h : c.Holding L.undefined s t) : c.Ended .normal .normal s t
  | breaks {label : Option String} {s t : State L} (h : c.Holding L.undefined s t) :
    c.Ended (.breaks label) (.breaks label) s t
  | continues {label : Option String} {s t : State L} (hlabel : label ≠ some c.label)
    (h : c.Holding L.undefined s t) : c.Ended (.continues label) (.continues label) s t
  | returned {v : L.Value} {s t : State L} (hjumps : c.jumps = true) (h : c.Holding v s t) :
    c.Ended (.returns v) (.breaks (some c.label)) s t

theorem Holding.steady (c : Lowering) (v : L.Value) : Steady (c.Holding v) :=
  ⟨Holding.world, fun h _ => ⟨rfl, h.others, h.result⟩⟩

theorem Holding.set {v : L.Value} {s t : State L} (h : c.Holding v s t) {x : String}
    (hx : x ≠ c.result) (cell : Cell L.Value) :
    c.Holding v { s with locals := s.locals.set x cell }
      { t with locals := t.locals.set x cell } where
  world := h.world
  others y hy := by
    by_cases hyx : y = x
    · subst hyx
      simp
    · exact (Locals.set_other _ _ hyx).trans ((h.others y hy).trans (Locals.set_other _ _ hyx).symm)
  result := (Locals.set_other _ _ hx.symm).trans h.result

theorem refSim_of_ne {view : View L} {v : L.Value} {x : String} (hx : x ≠ c.result) :
    RefSim (c.Holding v) view view (.variable x) (.variable x) :=
  .of_cells (Holding.steady c v) (fun h => h.others x hx) (fun _ _ => rfl)
    fun h _ w => h.set hx ⟨some w, false⟩

theorem eval_spared {view : View L} {v : L.Value} {e : Expr}
    (h : ∀ node ∈ e.nodes .ownLayer, c.Spares node) :
    Sim (c.Holding v) (Same (c.Holding v)) (eval view e) (eval view e) :=
  eval_same (Holding.steady c v) fun x hx => refSim_of_ne (h (.expr (.ident x)) hx)

theorem initialise_spared {v : L.Value} {x : String} (hx : x ≠ c.result) (w : L.Value) :
    Sim (c.Holding v) (fun _ _ => c.Holding v) (Exec.initialise x w) (Exec.initialise x w) := by
  intro s t hst
  simp only [Exec.initialise, hst.others x hx]
  exact hst.set hx _

theorem declare_spared {v : L.Value} {x : String} (hx : x ≠ c.result) :
    Sim (c.Holding v) (fun _ _ => c.Holding v) (Exec.declare x) (Exec.declare x) := by
  intro s t hst
  simp only [Exec.declare, hst.others x hx]
  split
  · exact hst
  · exact initialise_spared hx L.undefined s t hst

section Blocks

theorem lexicals_returnsToJumps (s : Stmt) (result label : String) :
    lexicals (s.returnsToJumps result label) = (lexical? s).toList := by
  cases s with
  | var kind name init => cases kind <;> rfl
  | ret value => cases value <;> rfl
  | ifElse condition thenBranch elseBranch => cases elseBranch <;> rfl
  | _ => rfl

/-- Lowering the returns of a block leaves its variables as they are. -/
theorem lexicals_returnsToJumpsAll (body : List Stmt) (result label : String) :
    lexicals (Stmt.returnsToJumpsAll result label body) = lexicals body := by
  induction body with
  | nil => rfl
  | cons s rest ih =>
    rw [Stmt.returnsToJumpsAll, lexicals_append, lexicals_returnsToJumps, ih, lexicals_cons]

variable {body : List Stmt}

theorem declarationsOf_result (h : ∀ node ∈ Stmt.nodesAll .ownLayer body, c.Spares node) :
    declarationsOf body c.result = [] := by
  rw [declarationsOf_eq_nil]
  intro hmem
  obtain ⟨init, hnode | hnode⟩ := exists_var_of_lexicalNames hmem
  · exact h _ hnode rfl
  · exact h _ hnode rfl

theorem Holding.enter {v : L.Value} {s t : State L} (h : c.Holding v s t)
    (hresult : declarationsOf body c.result = []) : c.Holding v (s.enter body) (t.enter body) where
  world := h.world
  others x hx := by simp only [State.enter, h.others x hx]
  result := by rw [State.enter_other hresult, h.result]

theorem Holding.leave {v w : L.Value} {s t s' t' : State L} (h : c.Holding v s t)
    (h' : c.Holding w s' t') (hresult : declarationsOf body c.result = []) :
    c.Holding w (s'.leave body s) (t'.leave body t) where
  world := h'.world
  others x hx := by simp only [State.leave, h.others x hx, h'.others x hx]
  result := by rw [State.leave_other hresult, h'.result]

theorem Ended.leaveBlock {v : L.Value} {s t s' t' : State L} {k k' : Completion L.Value}
    (h : c.Ended k k' s' t') (hst : c.Holding v s t) (hresult : declarationsOf body c.result = []) :
    c.Ended k k' (s'.leave body s) (t'.leave body t) := by
  cases h with
  | normal h => exact .normal (hst.leave h hresult)
  | breaks h => exact .breaks (hst.leave h hresult)
  | continues hlabel h => exact .continues hlabel (hst.leave h hresult)
  | returned hjumps h => exact .returned hjumps (hst.leave h hresult)

/-- A block, given its statements. -/
theorem inBlock_lower {run run' : Exec L (Completion L.Value)}
    (hspares : ∀ node ∈ Stmt.nodesAll .ownLayer body, c.Spares node)
    (h : Sim (c.Holding L.undefined) c.Ended run run') :
    Sim (c.Holding L.undefined) c.Ended (Exec.inBlock body run)
      (Exec.inBlock (Stmt.returnsToJumpsAll c.result c.label body) run') := by
  have hresult := declarationsOf_result hspares
  rw [inBlock_congr (lexicals_returnsToJumpsAll body _ _)]
  exact .inBlock fun _ _ hst => (h _ _ (hst.enter hresult)).mono
    fun _ _ _ _ hend => hend.leaveBlock hst hresult

end Blocks

section Statements

variable {labels labels' : List String} {k k' : Completion L.Value} {s t : State L}

/-- A round of the loop ends it with the returns lowered if it did before. -/
theorem Ended.endsAlike (h : c.Ended k k' s t)
    (hlabels : ∀ l, l ≠ c.label → (l ∈ labels' ↔ l ∈ labels)) :
    EndsAlike (c.Holding L.undefined) labels labels' c.Ended k k' s t := by
  unfold EndsAlike
  cases h with
  | normal h => exact h
  | returned hjumps h => exact .returned hjumps h
  | @breaks label _ _ h =>
    cases label with
    | none => exact .normal h
    | some label => exact .breaks h
  | @continues label _ _ hlabel h =>
    cases label with
    | none => exact h
    | some label =>
      have hiff := hlabels label fun heq => hlabel (congrArg some heq)
      by_cases hmem : label ∈ labels
      · simpa [Completion.endsLoop?, hiff, hmem] using h
      · simpa [Completion.endsLoop?, hiff, hmem] using Ended.continues hlabel h

theorem Ended.leaveLabel {label : String} (h : c.Ended k k' s t) (hlabel : label ≠ c.label) :
    c.Ended (k.leave label) (k'.leave label) s t := by
  cases h with
  | normal h => exact .normal h
  | returned hjumps h =>
    simp only [Completion.leave, if_neg hlabel.symm]
    exact .returned hjumps h
  | @breaks other _ _ h =>
    cases other with
    | none => exact .breaks h
    | some other =>
      by_cases heq : other = label
      · simpa [Completion.leave, heq] using Ended.normal h
      · simpa [Completion.leave, heq] using Ended.breaks h
  | @continues other _ _ hother h =>
    cases other with
    | none => exact .continues hother h
    | some other =>
      by_cases heq : other = label
      · simpa [Completion.leave, heq] using Ended.normal h
      · simpa [Completion.leave, heq] using Ended.continues hother h

/-- Leaving the value where the return would have handed it over. -/
theorem assign_result (view : View L) (rounds : Nat) (labels : List String) {value : Expr}
    (h : ∀ node ∈ value.nodes .ownLayer, c.Spares node) :
    Sim (c.Holding L.undefined) (fun v k s t => k = .normal ∧ c.Holding v s t) (eval view value)
      (exec view rounds labels (.assign c.result value)) := by
  rw [exec_assign, exec]
  refine (eval_spared h).bind_right fun v w s t hst => ?_
  obtain ⟨rfl, hst⟩ := hst
  rw [bind_ok (Ref.put_private hst.result)]
  refine ⟨rfl, hst.world, fun x hx => ?_, Locals.set_same _ _ _⟩
  exact (hst.others x hx).trans (Locals.set_other _ _ hx).symm

mutual

/-- A statement, and what becomes of it when the returns are lowered. -/
theorem exec_lower (view : View L) (rounds : Nat) : ∀ (s : Stmt) {labels labels' : List String},
    (∀ node ∈ s.nodes .ownLayer, c.Spares node) →
    (∀ l, l ≠ c.label → (l ∈ labels' ↔ l ∈ labels)) →
    Sim (c.Holding L.undefined) c.Ended (exec view rounds labels s)
      (execAll view rounds labels' (s.returnsToJumps c.result c.label))
  | .var .var name none, _, _, _, _ | .function ⟨_, _, _, _⟩, _, _, _, _ => by
    rw [Stmt.returnsToJumps, execAll_singleton, exec, exec]
    · exact .pure fun _ _ => .normal
    all_goals nofun
  | .var .var name (some init), _, _, h, _ => by
    simp only [Stmt.nodes, List.forall_mem_cons] at h
    simp only [Stmt.returnsToJumps, execAll_singleton, exec]
    exact (eval_spared h.2).bind_same fun v => ((refSim_of_ne h.1).put v).bind_same fun _ =>
      .pure fun _ _ => .normal
  | .var .letVar name none, _, _, h, _ | .var .constVar name none, _, _, h, _ => by
    simp only [Stmt.nodes, List.forall_mem_cons] at h
    simp only [Stmt.returnsToJumps, execAll_singleton, exec]
    exact (declare_spared h.1).bind fun _ _ => .pure fun _ _ => .normal
  | .var .letVar name (some init), _, _, h, _ | .var .constVar name (some init), _, _, h, _ => by
    simp only [Stmt.nodes, List.forall_mem_cons] at h
    simp only [Stmt.returnsToJumps, execAll_singleton, exec]
    exact (eval_spared h.2).bind_same fun v => (initialise_spared h.1 v).bind fun _ _ =>
      .pure fun _ _ => .normal
  | .expr value, _, _, h, _ => by
    simp only [Stmt.nodes, List.forall_mem_cons] at h
    simp only [Stmt.returnsToJumps, execAll_singleton, exec]
    exact (eval_spared h.2).bind_same fun _ => .pure fun _ _ => .normal
  | .ret none, _, _, h, _ => by
    simp only [Stmt.nodes, List.forall_mem_cons] at h
    simp only [Stmt.returnsToJumps, execAll_singleton, exec]
    exact .pure fun _ _ => .returned h.1
  | .ret (some value), _, _, h, _ => by
    simp only [Stmt.nodes, List.forall_mem_cons] at h
    simp only [Stmt.returnsToJumps, execAll, exec]
    refine (assign_result view rounds _ h.2).bind fun v k s t hst => ?_
    obtain ⟨rfl, hst⟩ := hst
    exact .returned h.1 hst
  | .ifElse condition thenBranch none, _, _, h, _ => by
    simp only [Stmt.nodes, List.forall_mem_cons, List.forall_mem_append] at h
    simp only [Stmt.returnsToJumps, execAll_singleton, exec]
    refine (eval_spared h.2.1).bind_same fun _ => .ite _ ?_ (.pure fun _ _ => .normal)
    exact inBlock_lower h.2.2 (execAll_lower view rounds thenBranch h.2.2 fun _ _ => .rfl)
  | .ifElse condition thenBranch (some elseBranch), _, _, h, _ => by
    simp only [Stmt.nodes, List.forall_mem_cons, List.forall_mem_append] at h
    simp only [Stmt.returnsToJumps, execAll_singleton, exec]
    refine (eval_spared h.2.1.1).bind_same fun _ => .ite _ ?_ ?_
    · exact inBlock_lower h.2.1.2 (execAll_lower view rounds thenBranch h.2.1.2 fun _ _ => .rfl)
    · exact inBlock_lower h.2.2 (execAll_lower view rounds elseBranch h.2.2 fun _ _ => .rfl)
  | .whileDo condition body, labels, labels', h, hlabels => by
    simp only [Stmt.nodes, List.forall_mem_cons, List.forall_mem_append] at h
    simp only [Stmt.returnsToJumps, execAll_singleton, exec]
    refine .loop (fun _ _ => Holding.world) (eval_spared h.2.1) ?_ (fun _ _ => .normal) rounds
    exact (inBlock_lower h.2.2 (execAll_lower view rounds body h.2.2 fun _ _ => .rfl)).mono
      (fun _ _ h => h) fun _ _ _ _ hend => hend.endsAlike hlabels
  | .block body, _, _, h, _ => by
    simp only [Stmt.nodes, List.forall_mem_cons] at h
    simp only [Stmt.returnsToJumps, execAll_singleton, exec]
    exact inBlock_lower h.2 (execAll_lower view rounds body h.2 fun _ _ => .rfl)
  | .labeled label body, labels, labels', h, hlabels => by
    simp only [Stmt.nodes, List.forall_mem_cons] at h
    simp only [Stmt.returnsToJumps, execAll_singleton, exec]
    refine (inBlock_lower h.2 (execAll_lower view rounds body h.2 fun l hl => ?_)).bind
      fun _ _ => .pure fun _ _ hend => hend.leaveLabel h.1
    rw [List.mem_cons, List.mem_cons, hlabels l hl]
  | .breakTo label, _, _, _, _ => by
    simp only [Stmt.returnsToJumps, execAll_singleton, exec]
    exact .pure fun _ _ => .breaks
  | .continueTo none, _, _, _, _ => by
    simp only [Stmt.returnsToJumps, execAll_singleton, exec]
    exact .pure fun _ _ => .continues nofun
  | .continueTo (some label), _, _, h, _ => by
    simp only [Stmt.nodes, List.forall_mem_cons] at h
    simp only [Stmt.returnsToJumps, execAll_singleton, exec]
    exact .pure fun _ _ => .continues fun heq => h.1 (Option.some.inj heq)
  | .throw value, _, _, h, _ => by
    simp only [Stmt.nodes, List.forall_mem_cons] at h
    simp only [Stmt.returnsToJumps, execAll_singleton, exec]
    exact (eval_spared h.2).bind_same fun _ => .throw (fun _ _ => Holding.world) _

theorem execAll_lower (view : View L) (rounds : Nat) :
    ∀ (stmts : List Stmt) {labels labels' : List String},
    (∀ node ∈ Stmt.nodesAll .ownLayer stmts, c.Spares node) →
    (∀ l, l ≠ c.label → (l ∈ labels' ↔ l ∈ labels)) →
    Sim (c.Holding L.undefined) c.Ended (execAll view rounds labels stmts)
      (execAll view rounds labels' (Stmt.returnsToJumpsAll c.result c.label stmts))
  | [], _, _, _, _ => by
    rw [Stmt.returnsToJumpsAll, execAll, execAll]
    exact .pure fun _ _ => .normal
  | s :: rest, _, _, h, hlabels => by
    simp only [Stmt.nodesAll, List.forall_mem_append] at h
    rw [Stmt.returnsToJumpsAll, execAll_append, execAll]
    refine (exec_lower view rounds s h.1 hlabels).bind fun k k' s t hend => ?_
    cases hend with
    | normal hst => exact execAll_lower view rounds rest h.2 hlabels s t hst
    | breaks hst => exact .breaks hst
    | continues hlabel hst => exact .continues hlabel hst
    | returned hjumps hst => exact .returned hjumps hst

end

end Statements

section Bodies

mutual

theorem returnsToJumps_of_notMem {result label : String} : ∀ s : Stmt,
    (∀ value, Node.stmt (.ret value) ∉ s.nodes .ownLayer) → s.returnsToJumps result label = [s]
  | .ret value, h => absurd (Stmt.self_mem_nodes .ownLayer (.ret value)) (h value)
  | .var _ _ _, _ | .function _, _ | .expr _, _ | .breakTo _, _ | .continueTo _, _
  | .throw _, _ => by simp [Stmt.returnsToJumps]
  | .ifElse condition thenBranch none, h => by
    simp only [Stmt.nodes, List.mem_cons, List.mem_append, not_or, forall_and] at h
    rw [Stmt.returnsToJumps, returnsToJumpsAll_of_notMem thenBranch h.2.2]
  | .ifElse condition thenBranch (some elseBranch), h => by
    simp only [Stmt.nodes, List.mem_cons, List.mem_append, not_or, forall_and] at h
    rw [Stmt.returnsToJumps, returnsToJumpsAll_of_notMem thenBranch h.2.1.2,
      returnsToJumpsAll_of_notMem elseBranch h.2.2]
  | .whileDo condition body, h => by
    simp only [Stmt.nodes, List.mem_cons, List.mem_append, not_or, forall_and] at h
    rw [Stmt.returnsToJumps, returnsToJumpsAll_of_notMem body h.2.2]
  | .block body, h | .labeled _ body, h => by
    simp only [Stmt.nodes, List.mem_cons, not_or, forall_and] at h
    rw [Stmt.returnsToJumps, returnsToJumpsAll_of_notMem body h.2]

/-- Without a return there is nothing to lower. -/
theorem returnsToJumpsAll_of_notMem {result label : String} : ∀ stmts : List Stmt,
    (∀ value, Node.stmt (.ret value) ∉ Stmt.nodesAll .ownLayer stmts) →
    Stmt.returnsToJumpsAll result label stmts = stmts
  | [], _ => by rw [Stmt.returnsToJumpsAll]
  | s :: rest, h => by
    simp only [Stmt.nodesAll, List.mem_append, not_or, forall_and] at h
    rw [Stmt.returnsToJumpsAll, returnsToJumps_of_notMem s h.1,
      returnsToJumpsAll_of_notMem rest h.2, List.singleton_append]

end

/-- The label that a lowered body carries. -/
def label? (c : Lowering) : Option String := if c.jumps then some c.label else none

theorem lowerAll_eq {stmts : List Stmt}
    (h : ∀ node ∈ Stmt.nodesAll .ownLayer stmts, c.Spares node) :
    Block.lowerAll c.result c.label? stmts =
      Stmt.returnsToJumpsAll c.result c.label stmts := by
  unfold label?
  cases hjumps : c.jumps with
  | true => rfl
  | false =>
    have hnone (value : Option Expr) : Node.stmt (.ret value) ∉ Stmt.nodesAll .ownLayer stmts := by
      intro hmem
      have hspares : c.jumps = true := h _ hmem
      rw [hjumps] at hspares
      cases hspares
    exact (returnsToJumpsAll_of_notMem stmts hnone).symm

/-- The lowered body has ended, or has jumped to its label, and the result
variable holds the value of the body. -/
def Delivered (c : Lowering) (k k' : Completion L.Value) (s t : State L) : Prop :=
  k.StaysIn false [] →
    (k' = .normal ∨ (c.jumps = true ∧ k' = .breaks (some c.label))) ∧ c.Holding k.result s t

theorem Ended.delivered {k k' : Completion L.Value} {s t : State L} (h : c.Ended k k' s t) :
    c.Delivered k k' s t := by
  intro hstays
  cases h with
  | normal h => exact ⟨.inl rfl, h⟩
  | returned hjumps h => exact ⟨.inr ⟨hjumps, rfl⟩, h⟩
  | @breaks label _ _ _ | @continues label _ _ _ _ => cases label <;> cases hstays

/-- A return that ends the body needs no jump. -/
theorem exec_trailing (view : View L) (rounds : Nat) (labels labels' : List String)
    {value : Option Expr} (h : ∀ e, value = some e → ∀ node ∈ e.nodes .ownLayer, c.Spares node) :
    Sim (c.Holding L.undefined) c.Delivered (exec view rounds labels (.ret value))
      (execAll view rounds labels' (match value with
        | some e => [.assign c.result e]
        | none => [])) := by
  cases value with
  | none =>
    simp only [exec, execAll]
    exact .pure fun _ _ hst _ => ⟨.inl rfl, hst⟩
  | some e =>
    simp only [exec, execAll_singleton]
    exact (assign_result view rounds labels' (h e rfl)).bind_left fun v k =>
      .pure fun _ _ hst _ => ⟨.inl hst.1, hst.2⟩

/-- A body that does not return before its end, or has a label to jump to, run
with its returns lowered. -/
theorem execAll_lowered (view : View L) (rounds : Nat) {body : List Stmt} {labels : List String}
    (hlabels : ∀ l ∈ labels, l = c.label)
    (h : ∀ node ∈ Stmt.nodesAll .ownLayer body, c.Spares node) :
    Sim (c.Holding L.undefined) c.Delivered (execAll view rounds [] body)
      (execAll view rounds labels (Block.lower c.result c.label? false body)) := by
  rw [Block.lower, if_neg nofun, lowerAll_eq h]
  refine (execAll_lower view rounds body h fun l hl => ?_).mono (fun _ _ h => h)
    fun _ _ _ _ => Ended.delivered
  exact ⟨fun hmem => absurd (hlabels l hmem) hl, nofun⟩

theorem execAll_lowered_trailing (view : View L) (rounds : Nat) {init : List Stmt}
    {value : Option Expr} {labels : List String} (hlabels : ∀ l ∈ labels, l = c.label)
    (h : ∀ node ∈ Stmt.nodesAll .ownLayer init, c.Spares node)
    (hvalue : ∀ e, value = some e → ∀ node ∈ e.nodes .ownLayer, c.Spares node) :
    Sim (c.Holding L.undefined) c.Delivered (execAll view rounds [] (init ++ [Stmt.ret value]))
      (execAll view rounds labels
        (Block.lower c.result c.label? true (init ++ [Stmt.ret value]))) := by
  have hlower : Block.lower c.result c.label? true (init ++ [Stmt.ret value]) =
      Stmt.returnsToJumpsAll c.result c.label init ++
        (match value with
        | some e => [.assign c.result e]
        | none => []) := by
    rw [Block.lower, if_pos rfl, List.dropLast_concat, lowerAll_eq h, List.getLast?_concat]
    cases value <;> rfl
  rw [hlower, execAll_append, execAll_append]
  refine (execAll_lower view rounds init h fun l hl => ?_).bind fun k k' s t hend => ?_
  · exact ⟨fun hmem => absurd (hlabels l hmem) hl, nofun⟩
  · cases hend with
    | normal hst =>
      simp only [execAll_singleton]
      exact exec_trailing view rounds [] labels hvalue s t hst
    | breaks hst => exact Ended.delivered (.breaks hst)
    | continues hlabel hst => exact Ended.delivered (.continues hlabel hst)
    | returned hjumps hst => exact Ended.delivered (.returned hjumps hst)

end Bodies

end Lowering

end StaticInliner.Meaning
