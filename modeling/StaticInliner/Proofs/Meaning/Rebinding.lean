import StaticInliner.Proofs.Analysis
import StaticInliner.Proofs.Meaning.Purity
import StaticInliner.Proofs.Meaning.Runs

/-!
Rebinding the variables of a body. A body whose `var` declarations have become
`let` declarations and assignments runs as before. A variable that is rebound in
place has no value up to its declaration, where the `var` was `undefined` from
the start; in between nothing uses it.
-/
namespace StaticInliner.Meaning

variable {L : Language}

/-- States of a body and of the rebound body: a `late` variable may have no value
yet in the second, as long as it is `undefined` in the first. -/
structure Awaiting (late : String → Prop) (s t : State L) : Prop where
  world : s.world = t.world
  settled : ∀ x, ¬ late x → s.locals x = t.locals x
  awaited : ∀ x, late x → ∃ v, s.locals x = some ⟨some v, false⟩ ∧
    (t.locals x = some ⟨some v, false⟩ ∨ (v = L.undefined ∧ t.locals x = some ⟨none, false⟩))

/-- A node that neither mentions a late variable nor declares one by `var`. -/
def Untouched (late : String → Prop) : Node → Prop
  | .expr (.ident x) | .stmt (.var .var x _) => ¬ late x
  | _ => True

theorem Untouched.mono {late late' : String → Prop} (h : ∀ x, late' x → late x) {node : Node}
    (hnode : Untouched late node) : Untouched late' node := by
  unfold Untouched at hnode ⊢
  split
  · exact fun hx => hnode (h _ hx)
  · exact fun hx => hnode (h _ hx)
  · trivial

namespace Awaiting

variable {late : String → Prop} {s t : State L} {x : String}

theorem steady (late : String → Prop) : Steady (Awaiting (L := L) late) :=
  ⟨world, fun h _ => ⟨rfl, h.settled, h.awaited⟩⟩

/-- Setting a variable in both states. -/
theorem set (h : Awaiting late s t) (v : L.Value) {const : Bool} (hconst : late x → const = false) :
    Awaiting late { s with locals := s.locals.set x ⟨some v, const⟩ }
      { t with locals := t.locals.set x ⟨some v, const⟩ } where
  world := h.world
  settled y hy := by
    by_cases hyx : y = x
    · subst hyx
      simp
    · exact (Locals.set_other _ _ hyx).trans
        ((h.settled y hy).trans (Locals.set_other _ _ hyx).symm)
  awaited y hy := by
    by_cases hyx : y = x
    · subst hyx
      rw [hconst hy]
      exact ⟨v, Locals.set_same _ _ _, .inl (Locals.set_same _ _ _)⟩
    · simpa only [Locals.set_other _ _ hyx] using h.awaited y hy

/-- A late variable gets its value in the second state only. -/
theorem settle (h : Awaiting late s t) {v : L.Value} (hx : s.locals x = some ⟨some v, false⟩) :
    Awaiting (fun y => late y ∧ y ≠ x) s { t with locals := t.locals.set x ⟨some v, false⟩ } where
  world := h.world
  settled y hy := by
    by_cases hyx : y = x
    · subst hyx
      simp [hx]
    · exact (h.settled y fun hlate => hy ⟨hlate, hyx⟩).trans (Locals.set_other _ _ hyx).symm
  awaited y hy := by simpa only [Locals.set_other _ _ hy.2] using h.awaited y hy.1

/-- A variable in the same state on both sides is not late any more. -/
theorem arrive (h : Awaiting late s t) (hx : s.locals x = t.locals x) :
    Awaiting (fun y => late y ∧ y ≠ x) s t where
  world := h.world
  settled y hy := by
    by_cases hyx : y = x
    · rw [hyx, hx]
    · exact h.settled y fun hlate => hy ⟨hlate, hyx⟩
  awaited y hy := h.awaited y hy.1

/-- What has been settled may count as late. -/
theorem of_settled (h : Awaiting (fun y => late y ∧ y ≠ x) s t) {v : L.Value}
    (hx : s.locals x = some ⟨some v, false⟩) : Awaiting late s t where
  world := h.world
  settled y hy := h.settled y fun hlate => hy hlate.1
  awaited y hy := by
    by_cases hyx : y = x
    · subst hyx
      exact ⟨v, hx, .inl ((h.settled y fun hne => hne.2 rfl).symm.trans hx)⟩
    · exact h.awaited y ⟨hy, hyx⟩

theorem refSim {view : View L} (hx : ¬ late x) :
    RefSim (Awaiting late) view view (.variable x) (.variable x) :=
  .of_cells (steady late) (fun h => h.settled x hx) (fun _ _ => rfl)
    fun h _ v => h.set v fun hlate => absurd hlate hx

theorem eval {view : View L} {e : Expr} (h : ∀ node ∈ e.nodes .ownLayer, Untouched late node) :
    Sim (Awaiting late) (Same (Awaiting late)) (eval view e) (Meaning.eval view e) :=
  eval_same (steady late) fun x hx => refSim (h (.expr (.ident x)) hx)

theorem initialise (x : String) (v : L.Value) :
    Sim (Awaiting late) (fun _ _ => Awaiting late) (Exec.initialise x v) (Exec.initialise x v) := by
  intro s t hst
  have hconst : (s.locals x).any (·.const) = (t.locals x).any (·.const) ∧
      (late x → (t.locals x).any (·.const) = false) := by
    by_cases hx : late x
    · obtain ⟨w, hs, ht | ⟨-, ht⟩⟩ := hst.awaited x hx <;> simp [hs, ht]
    · simp [hst.settled x hx, hx]
  simp only [Exec.initialise, hconst.1]
  exact hst.set v hconst.2

theorem declare (x : String) :
    Sim (Awaiting late) (fun _ _ => Awaiting late) (Exec.declare (L := L) x) (Exec.declare x) := by
  intro s t hst
  by_cases hx : late x
  · obtain ⟨v, hs, ht | ⟨rfl, ht⟩⟩ := hst.awaited x hx
    · simp only [Exec.declare, hs, ht]
      exact hst
    · simp only [Exec.declare, Exec.initialise, hs, ht]
      exact (hst.settle hs).of_settled hs
  · simp only [Exec.declare, hst.settled x hx]
    split
    · exact hst
    · exact initialise x L.undefined s t hst

section Blocks

variable {body : List Stmt}

theorem enter (h : Awaiting late s t) :
    Awaiting (fun x => late x ∧ declarationsOf body x = []) (s.enter body) (t.enter body) where
  world := h.world
  settled x hx := by
    by_cases hnil : declarationsOf body x = []
    · rw [State.enter_other hnil, State.enter_other hnil]
      exact h.settled x fun hlate => hx ⟨hlate, hnil⟩
    · rw [State.enter_declared hnil, State.enter_declared hnil]
  awaited x hx := by
    rw [State.enter_other hx.2, State.enter_other hx.2]
    exact h.awaited x hx.1

theorem leave {s' t' : State L} (h : Awaiting late s t)
    (h' : Awaiting (fun x => late x ∧ declarationsOf body x = []) s' t') :
    Awaiting late (s'.leave body s) (t'.leave body t) where
  world := h'.world
  settled x hx := by
    by_cases hnil : declarationsOf body x = []
    · rw [State.leave_other hnil, State.leave_other hnil]
      exact h'.settled x fun hlate => hx hlate.1
    · rw [State.leave_declared hnil, State.leave_declared hnil]
      exact h.settled x hx
  awaited x hx := by
    by_cases hnil : declarationsOf body x = []
    · rw [State.leave_other hnil, State.leave_other hnil]
      exact h'.awaited x ⟨hx, hnil⟩
    · rw [State.leave_declared hnil, State.leave_declared hnil]
      exact h.awaited x hx

end Blocks

end Awaiting

section Demoting

variable {hoisted : List String}

theorem lexicals_demote (s : Stmt) : lexicals (s.demote hoisted) = (lexical? s).toList := by
  cases s with
  | var kind name init =>
    cases kind with
    | var =>
      cases init with
      | none => rw [Stmt.demote]; split <;> rfl
      | some value => rw [Stmt.demote]; split <;> rfl
    | letVar | constVar => rfl
  | ifElse condition thenBranch elseBranch => cases elseBranch <;> rfl
  | _ => rfl

/-- Demoting the declarations of a block leaves its own variables as they are. -/
theorem lexicals_demoteAll (body : List Stmt) :
    lexicals (Stmt.demoteAll hoisted body) = lexicals body := by
  induction body with
  | nil => rfl
  | cons s rest ih => rw [Stmt.demoteAll, lexicals_append, lexicals_demote, ih, lexicals_cons]

variable {late : String → Prop} {body : List Stmt}

theorem inBlock_demote {run run' : Exec L (Completion L.Value)}
    (h : Sim (Awaiting fun x => late x ∧ declarationsOf body x = [])
      (Same (Awaiting fun x => late x ∧ declarationsOf body x = [])) run run') :
    Sim (Awaiting late) (Same (Awaiting late)) (Exec.inBlock body run)
      (Exec.inBlock (Stmt.demoteAll hoisted body) run') := by
  rw [inBlock_congr (lexicals_demoteAll body)]
  exact .inBlock fun _ _ hst => (h _ _ hst.enter).mono fun _ _ _ _ hend =>
    ⟨hend.1, hst.leave hend.2⟩

theorem Untouched.inBlock
    (h : ∀ node ∈ Stmt.nodesAll .ownLayer body, Untouched late node) :
    ∀ node ∈ Stmt.nodesAll .ownLayer body,
      Untouched (fun x => late x ∧ declarationsOf body x = []) node :=
  fun node hnode => (h node hnode).mono fun _ hx => hx.1

theorem endsAlike_same {P : State L → State L → Prop} {labels : List String}
    {k k' : Completion L.Value} {s t : State L} (h : Same P k k' s t) :
    EndsAlike P labels labels (Same P) k k' s t := by
  obtain ⟨rfl, hst⟩ := h
  unfold EndsAlike
  cases k.endsLoop? labels with
  | none => exact hst
  | some c => exact ⟨rfl, hst⟩

theorem same_normal {P : State L → State L → Prop} (s t : State L) (h : P s t) :
    Same P (Completion.normal : Completion L.Value) .normal s t :=
  ⟨rfl, h⟩

mutual

/-- A statement that touches no late variable, and what becomes of it. -/
theorem exec_demote (view : View L) (rounds : Nat) : ∀ (s : Stmt) {late : String → Prop}
    {labels : List String}, (∀ node ∈ s.nodes .ownLayer, Untouched late node) →
    Sim (Awaiting late) (Same (Awaiting late)) (exec view rounds labels s)
      (execAll view rounds labels (s.demote hoisted))
  | .var .var name none, _, _, _ => by
    rw [Stmt.demote]
    split
    · rw [execAll, exec]
      exact .pure same_normal
    · rw [execAll_singleton, exec]
      exact .pure same_normal
  | .var .var name (some init), late, labels, h => by
    simp only [Stmt.nodes, List.forall_mem_cons] at h
    have hsame : Sim (Awaiting late) (Same (Awaiting late))
        (exec view rounds labels (.var .var name (some init)))
        (exec view rounds labels (.var .var name (some init))) := by
      rw [exec]
      exact (Awaiting.eval h.2).bind_same fun v => ((Awaiting.refSim h.1).put v).bind_same fun _ =>
        .pure same_normal
    rw [Stmt.demote]
    split
    · rw [execAll_singleton, exec_assign]
      exact hsame
    · rw [execAll_singleton]
      exact hsame
  | .var .letVar name none, _, _, _ | .var .constVar name none, _, _, _ => by
    simp only [Stmt.demote, execAll_singleton, exec]
    exact (Awaiting.declare name).bind fun _ _ => .pure same_normal
  | .var .letVar name (some init), _, _, h | .var .constVar name (some init), _, _, h => by
    simp only [Stmt.nodes, List.forall_mem_cons] at h
    simp only [Stmt.demote, execAll_singleton, exec]
    exact (Awaiting.eval h.2).bind_same fun v => (Awaiting.initialise name v).bind fun _ _ =>
      .pure same_normal
  | .function ⟨_, _, _, _⟩, _, _, _ | .ret none, _, _, _ | .breakTo _, _, _, _
  | .continueTo _, _, _, _ => by
    simp only [Stmt.demote, execAll_singleton, exec]
    exact .pure fun _ _ hst => ⟨rfl, hst⟩
  | .expr value, _, _, h | .ret (some value), _, _, h => by
    simp only [Stmt.nodes, List.forall_mem_cons] at h
    simp only [Stmt.demote, execAll_singleton, exec]
    exact (Awaiting.eval h.2).bind_same fun _ => .pure fun _ _ hst => ⟨rfl, hst⟩
  | .ifElse condition thenBranch none, _, _, h => by
    simp only [Stmt.nodes, List.forall_mem_cons, List.forall_mem_append] at h
    simp only [Stmt.demote, execAll_singleton, exec]
    refine (Awaiting.eval h.2.1).bind_same fun _ => .ite _ ?_ (.pure same_normal)
    exact inBlock_demote (execAll_demote view rounds thenBranch (Untouched.inBlock h.2.2))
  | .ifElse condition thenBranch (some elseBranch), _, _, h => by
    simp only [Stmt.nodes, List.forall_mem_cons, List.forall_mem_append] at h
    simp only [Stmt.demote, execAll_singleton, exec]
    refine (Awaiting.eval h.2.1.1).bind_same fun _ => .ite _ ?_ ?_
    · exact inBlock_demote (execAll_demote view rounds thenBranch (Untouched.inBlock h.2.1.2))
    · exact inBlock_demote (execAll_demote view rounds elseBranch (Untouched.inBlock h.2.2))
  | .whileDo condition body, _, _, h => by
    simp only [Stmt.nodes, List.forall_mem_cons, List.forall_mem_append] at h
    simp only [Stmt.demote, execAll_singleton, exec]
    refine .loop (fun _ _ => Awaiting.world) (Awaiting.eval h.2.1) ?_ same_normal rounds
    exact (inBlock_demote (execAll_demote view rounds body (Untouched.inBlock h.2.2))).mono
      (fun _ _ h => h) fun _ _ _ _ => endsAlike_same
  | .block body, _, _, h => by
    simp only [Stmt.nodes, List.forall_mem_cons] at h
    simp only [Stmt.demote, execAll_singleton, exec]
    exact inBlock_demote (execAll_demote view rounds body (Untouched.inBlock h.2))
  | .labeled label body, _, _, h => by
    simp only [Stmt.nodes, List.forall_mem_cons] at h
    simp only [Stmt.demote, execAll_singleton, exec]
    exact (inBlock_demote (execAll_demote view rounds body (Untouched.inBlock h.2))).bind_same
      fun _ => .pure fun _ _ hst => ⟨rfl, hst⟩
  | .throw value, _, _, h => by
    simp only [Stmt.nodes, List.forall_mem_cons] at h
    simp only [Stmt.demote, execAll_singleton, exec]
    exact (Awaiting.eval h.2).bind_same fun _ => .throw (fun _ _ => Awaiting.world) _

theorem execAll_demote (view : View L) (rounds : Nat) : ∀ (stmts : List Stmt)
    {late : String → Prop} {labels : List String},
    (∀ node ∈ Stmt.nodesAll .ownLayer stmts, Untouched late node) →
    Sim (Awaiting late) (Same (Awaiting late)) (execAll view rounds labels stmts)
      (execAll view rounds labels (Stmt.demoteAll hoisted stmts))
  | [], _, _, _ => by
    rw [Stmt.demoteAll, execAll]
    exact .pure same_normal
  | s :: rest, _, _, h => by
    simp only [Stmt.nodesAll, List.forall_mem_append] at h
    rw [Stmt.demoteAll, execAll_append, execAll]
    refine (exec_demote view rounds s h.1).bind_same fun k => ?_
    cases k with
    | normal => exact execAll_demote view rounds rest h.2
    | breaks _ | continues _ | returns _ => exact .pure fun _ _ hst => ⟨rfl, hst⟩

end

end Demoting

section Promoting

variable {inPlace hoisted : List String} {s : Stmt} {rest : List Stmt} {x : String}

/-- Names that are rebound in place and declared in the statements to come. -/
def Expected (inPlace : List String) (rest : List Stmt) (x : String) : Prop :=
  x ∈ inPlace ∧ x ∈ varNames rest

/-- The expected names can be rebound in place. -/
def Placed (inPlace : List String) (rest : List Stmt) : Prop :=
  ∀ x, Expected inPlace rest x → rebindsInPlace rest x = true

theorem Expected.cons (h : Expected inPlace rest x) : Expected inPlace (s :: rest) x :=
  ⟨h.1, mem_varNames_cons.mpr (.inr h.2)⟩

theorem Expected.var {init : Option Expr} (hx : x ∈ inPlace) :
    Expected inPlace (.var .var x init :: rest) x :=
  ⟨hx, mem_varNames_cons.mpr (.inl (mem_varNames_var.mpr rfl))⟩

namespace Placed

theorem unmentioned (h : Placed inPlace (s :: rest)) (hx : Expected inPlace (s :: rest) x) :
    Node.expr (.ident x) ∉ s.nodes .nested := by
  rw [← Stmt.nodesAll_singleton]
  exact mentions_eq_false.mp (rebindsInPlace_cons.mp (h x hx)).1

theorem tail (h : Placed inPlace (s :: rest)) : Placed inPlace rest := by
  intro x hx
  exact ((rebindsInPlace_cons.mp (h x hx.cons)).2.resolve_left fun hlast => hlast.2 hx.2).2

/-- What is declared in place is not declared again. -/
theorem notMem_rest {init : Option Expr} (h : Placed inPlace (.var .var x init :: rest))
    (hx : x ∈ inPlace) : x ∉ varNames rest :=
  ((rebindsInPlace_cons.mp (h x (.var hx))).2.resolve_right
    fun hlater => hlater.1 (mem_varNames_var.mpr rfl)).2

/-- A statement that declares nothing in place declares no name expected later. -/
theorem notMem_head (h : Placed inPlace (s :: rest))
    (hs : ∀ x init, s = .var .var x init → x ∉ inPlace) (hx : Expected inPlace (s :: rest) x) :
    x ∉ varNames [s] := by
  rcases (rebindsInPlace_cons.mp (h x hx)).2 with ⟨⟨init, heq⟩, -⟩ | ⟨hnot, -⟩
  · exact absurd hx.1 (hs x init heq)
  · exact hnot

theorem expected_iff (h : Placed inPlace (s :: rest))
    (hs : ∀ x init, s = .var .var x init → x ∉ inPlace) :
    Expected inPlace (s :: rest) x ↔ Expected inPlace rest x :=
  ⟨fun hx => ⟨hx.1, (mem_varNames_cons.mp hx.2).resolve_left (h.notMem_head hs hx)⟩, .cons⟩

theorem untouched (h : Placed inPlace (s :: rest))
    (hs : ∀ x init, s = .var .var x init → x ∉ inPlace) :
    ∀ node ∈ s.nodes .ownLayer, Untouched (Expected inPlace (s :: rest)) node := by
  intro node hnode
  unfold Untouched
  split
  · exact fun hx => h.unmentioned hx (s.nodes_subset hnode)
  · next x init =>
    intro hx
    refine h.notMem_head hs hx (mem_varNames.mpr ⟨init, ?_⟩)
    exact Stmt.nodes_subset_nodesAll (List.mem_singleton_self s) hnode
  · trivial

end Placed

/-- The declaration of a variable that is rebound in place. -/
theorem exec_promoted (view : View L) (rounds : Nat) (labels : List String) {late : String → Prop}
    {init : Option Expr} (hx : late x)
    (h : ∀ e, init = some e → ∀ y, Node.expr (.ident y) ∈ e.nodes .ownLayer → ¬ late y) :
    Sim (Awaiting late) (Same (Awaiting fun y => late y ∧ y ≠ x))
      (exec view rounds labels (.var .var x init))
      (exec view rounds labels (.var .letVar x init)) := by
  cases init with
  | none =>
    simp only [exec]
    intro s t hst
    obtain ⟨v, hs, ht | ⟨rfl, ht⟩⟩ := hst.awaited x hx
    · have hdeclare : Exec.declare x t = .ok () t := by simp [Exec.declare, ht]
      rw [bind_ok hdeclare]
      exact ⟨rfl, hst.arrive (hs.trans ht.symm)⟩
    · have hdeclare : Exec.declare x t =
          .ok () { t with locals := t.locals.set x ⟨some L.undefined, false⟩ } := by
        simp [Exec.declare, Exec.initialise, ht]
      rw [bind_ok hdeclare]
      exact ⟨rfl, hst.settle hs⟩
  | some e =>
    simp only [exec]
    have heval : Sim (Awaiting late) (Same (Awaiting late)) (eval view e) (eval view e) :=
      eval_same (Awaiting.steady late) fun y hy => Awaiting.refSim (h e rfl y hy)
    refine heval.bind_same fun v s t hst => ?_
    obtain ⟨w, hs, ht⟩ := hst.awaited x hx
    have hinitialise : Exec.initialise x v t =
        .ok () { t with locals := t.locals.set x ⟨some v, false⟩ } := by
      rcases ht with ht | ⟨-, ht⟩ <;> simp [Exec.initialise, ht]
    rw [bind_ok (Ref.put_private hs), bind_ok hinitialise]
    exact ⟨rfl, (hst.set v fun _ => rfl).arrive (by simp)⟩

theorem promote_of_ne (hs : ∀ x init, s = .var .var x init → x ∉ inPlace) :
    s.promote inPlace = s := by
  unfold Stmt.promote
  split
  · next x init =>
    rw [if_neg fun hmem => hs x init rfl (List.contains_iff_mem.mp hmem)]
  · rfl

theorem promote_of_mem {init : Option Expr} (hx : x ∈ inPlace) :
    (Stmt.var .var x init).promote inPlace = .var .letVar x init := by
  rw [Stmt.promote, if_pos (List.contains_iff_mem.mpr hx)]

/-- The first statement of a rebound body. Afterwards its own variable, if it is
rebound in place, is not awaited any more. -/
theorem exec_rebind (view : View L) (rounds : Nat) (labels : List String)
    (h : Placed inPlace (s :: rest)) :
    Sim (Awaiting (Expected inPlace (s :: rest))) (Same (Awaiting (Expected inPlace rest)))
      (exec view rounds labels s)
      (execAll view rounds labels ((s.promote inPlace).demote hoisted)) := by
  by_cases hs : ∃ x init, s = .var .var x init ∧ x ∈ inPlace
  · obtain ⟨x, init, rfl, hx⟩ := hs
    have hexpected : (fun y => Expected inPlace (.var .var x init :: rest) y ∧ y ≠ x) =
        Expected inPlace rest := by
      funext y
      rw [eq_iff_iff]
      constructor
      · rintro ⟨⟨hy, hmem⟩, hne⟩
        exact ⟨hy, (mem_varNames_cons.mp hmem).resolve_left fun hyx =>
          hne (mem_varNames_var.mp hyx)⟩
      · exact fun hy => ⟨hy.cons, fun heq => h.notMem_rest hx (heq ▸ hy.2)⟩
    rw [promote_of_mem hx, Stmt.demote, execAll_singleton, ← hexpected]
    · refine exec_promoted view rounds labels (.var hx) fun e he y hy hlate => ?_
      subst he
      refine h.unmentioned hlate (Stmt.nodes_subset _ ?_)
      rw [Stmt.nodes]
      exact List.mem_cons_of_mem _ hy
    all_goals
      intros
      rename_i heq
      cases heq
  · have hne : ∀ x init, s = .var .var x init → x ∉ inPlace :=
      fun x init heq hx => hs ⟨x, init, heq, hx⟩
    have hexpected : Expected inPlace (s :: rest) = Expected inPlace rest :=
      funext fun y => propext (h.expected_iff hne)
    rw [promote_of_ne hne, ← hexpected]
    exact exec_demote view rounds s (h.untouched hne)

/-- States of one world that agree on every variable but the given ones. -/
structure Apart (names : String → Prop) (s t : State L) : Prop where
  world : s.world = t.world
  others : ∀ x, ¬ names x → s.locals x = t.locals x

theorem Awaiting.apart {late names : String → Prop} {s t : State L} (h : Awaiting late s t)
    (hlate : ∀ x, late x → names x) : Apart names s t :=
  ⟨h.world, fun x hx => h.settled x fun hx' => hx (hlate x hx')⟩

/-- A body and the rebound body. The induction is on the statements still to run,
with the names rebound in place among them as the late ones. -/
theorem execAll_rebind (view : View L) (rounds : Nat) (labels : List String) (stmts : List Stmt)
    (h : Placed inPlace stmts) :
    Sim (Awaiting (Expected inPlace stmts)) (Same (Apart (· ∈ inPlace)))
      (execAll view rounds labels stmts)
      (execAll view rounds labels (Stmt.demoteAll hoisted (stmts.map (·.promote inPlace)))) := by
  induction stmts with
  | nil =>
    simp only [List.map_nil, Stmt.demoteAll, execAll]
    exact .pure fun _ _ hst => ⟨rfl, hst.apart fun _ hx => hx.1⟩
  | cons s rest ih =>
    rw [List.map_cons, Stmt.demoteAll, execAll_append, execAll]
    refine (exec_rebind view rounds labels h).bind_same fun k => ?_
    cases k with
    | normal => exact ih h.tail
    | breaks _ | continues _ | returns _ =>
      exact .pure fun _ _ hst => ⟨rfl, hst.apart fun _ hx => hx.1⟩

/-- The names of a body that are rebound in place. -/
def inPlaceNames (body : List Stmt) (x : String) : Prop :=
  x ∈ varNames body ∧ rebindsInPlace body x = true

theorem mem_inPlaceNames {body : List Stmt} :
    x ∈ (varNames body).eraseDups.filter (rebindsInPlace body ·) ↔ inPlaceNames body x := by
  simp only [inPlaceNames, List.mem_filter, List.mem_eraseDups]

theorem expected_iff {body : List Stmt} :
    Expected ((varNames body).eraseDups.filter (rebindsInPlace body ·)) body x ↔
      inPlaceNames body x := by
  rw [Expected, mem_inPlaceNames]
  exact and_iff_left_of_imp And.left

theorem inPlaceNames_iff {body : List Stmt} : inPlaceNames body x ↔ DeclaredFirst body x := by
  rw [inPlaceNames, rebindsInPlace_iff, mem_varNames]
  refine and_iff_right_of_imp ?_
  rintro ⟨before, init, after, rfl, -⟩
  exact ⟨init, Stmt.nodes_subset_nodesAll (List.mem_append_right _ List.mem_cons_self)
    (Stmt.self_mem_nodes _ _)⟩

theorem exists_var_of_inPlaceNames {body : List Stmt} (h : inPlaceNames body x) :
    ∃ init, .var .var x init ∈ body := by
  obtain ⟨before, init, after, rfl, -⟩ := inPlaceNames_iff.mp h
  exact ⟨init, List.mem_append_right _ List.mem_cons_self⟩

theorem mem_hoistedNames {body : List Stmt} :
    x ∈ (varNames body).eraseDups.filter (!rebindsInPlace body ·) ↔
      x ∈ varNames body ∧ ¬ inPlaceNames body x := by
  simp only [inPlaceNames, List.mem_filter, List.mem_eraseDups, Bool.not_eq_true', not_and,
    Bool.not_eq_true]
  exact ⟨fun h => ⟨h.1, fun _ => h.2⟩, fun h => ⟨h.1, h.2 h.1⟩⟩

theorem execAll_rebound (view : View L) (rounds : Nat) (labels : List String) (body : List Stmt) :
    Sim (Awaiting (inPlaceNames body)) (Same (Apart (inPlaceNames body)))
      (execAll view rounds labels body) (execAll view rounds labels (rebind body).body) := by
  have hexpected : inPlaceNames body = Expected _ body := funext fun _ => propext expected_iff.symm
  rw [hexpected]
  refine (execAll_rebind view rounds labels body fun x hx => (List.mem_filter.mp hx.1).2).mono
    (fun _ _ h => h) fun _ _ _ _ h => ⟨h.1, h.2.world, fun x hx => h.2.others x fun hmem => ?_⟩
  exact hx ⟨hmem, (mem_inPlaceNames.mp hmem).1⟩

end Promoting

end StaticInliner.Meaning
