import StaticInliner.Inline.Block
import StaticInliner.Proofs.Meaning.Call
import StaticInliner.Proofs.Meaning.Purity
import StaticInliner.Proofs.Meaning.Runs

/-!
What a block does before the body: the arguments are evaluated, each into the
`let` variable of its parameter, arguments in excess for their effects only, and
hoisted variables become `undefined`. Then the variables of the block are what
those of a frame are.
-/
namespace StaticInliner.Meaning

variable {L : Language}

/-- Private variables of which some have been given values. -/
def overlay (bound : List (String × L.Value)) (base : Locals L) : Locals L := fun name =>
  match bound.lookup name with
  | some v => some ⟨some v, false⟩
  | none => base name

section Overlay

variable {bound : List (String × L.Value)} {base : Locals L} {name : String} {v : L.Value}

theorem overlay_bound (h : bound.lookup name = some v) :
    overlay bound base name = some ⟨some v, false⟩ := by
  rw [overlay, h]

theorem overlay_base (h : bound.lookup name = none) : overlay bound base name = base name := by
  rw [overlay, h]

theorem overlay_cons : overlay ((name, v) :: bound) base =
    (overlay bound base).set name ⟨some v, false⟩ := by
  funext other
  by_cases h : other = name
  · subst h
    exact (overlay_bound (by simp)).trans (Locals.set_same _ _ _).symm
  · rw [Locals.set_other _ _ h, overlay, List.lookup_cons, beq_eq_false_iff_ne.mpr h]
    rfl

end Overlay

section Parameters

variable {view : View L} {rounds : Nat} {labels : List String} {base : Locals L}

/-- Nothing private on the one side, the given variables on the other. -/
abbrev Beside (locals : Locals L) : State L → State L → Prop := Fixed (fun _ => none) locals

/-- Arguments in excess are evaluated, those without effects in one run only. -/
theorem execAll_excess {locals : Locals L} : ∀ {args : List Expr},
    (∀ name, Node.expr (.ident name) ∈ Expr.nodesAll .ownLayer args → locals name = none) →
    Sim (Beside locals) (fun _ k s t => k = .normal ∧ Beside locals s t) (evalAll view args)
      (execAll view rounds labels ((args.filter (·.hasSideEffects)).map .expr))
  | [], _ => by
    simp only [evalAll, List.filter_nil, List.map_nil, execAll]
    exact .pure fun _ _ h => ⟨rfl, h⟩
  | arg :: rest, hargs => by
    simp only [Expr.nodesAll, List.mem_append, or_imp, forall_and] at hargs
    have ih := execAll_excess hargs.2
    rw [evalAll]
    cases heffects : arg.hasSideEffects with
    | true =>
      rw [List.filter_cons_of_pos heffects, List.map_cons]
      refine .execAll_cons (Q := fun _ => Beside locals) ?_ fun v =>
        ih.bind_left fun _ _ => .pure fun _ _ h => h
      rw [exec]
      exact (eval_fixed fun name hname => ⟨rfl, hargs.1 name hname⟩).bind_right fun _ _ =>
        .pure fun _ _ h => ⟨rfl, h.2⟩
    | false =>
      rw [List.filter_cons_of_neg (by simp [heffects])]
      intro s t hst
      obtain ⟨v, hv⟩ := exists_eval view (fun name => congrFun hst.left name) heffects
      rw [bind_ok hv]
      exact ih.bind_left (fun _ _ => .pure fun _ _ h => h) s t hst

/-- A parameter without an argument. -/
theorem exec_letVar_none {bound : List (String × L.Value)} {name : String}
    (hname : bound.lookup name = none) (hbase : base name = some ⟨none, false⟩) :
    Sim (Beside (overlay bound base))
      (fun _ k s t => k = .normal ∧ Beside (overlay ((name, L.undefined) :: bound) base) s t)
      (pure ([] : List L.Value)) (exec view rounds labels (.var .letVar name none)) := by
  intro s t hst
  have hcell : t.locals name = some ⟨none, false⟩ := by
    rw [hst.right, overlay_base hname, hbase]
  have hdeclare : Exec.declare name t =
      .ok () { t with locals := t.locals.set name ⟨some L.undefined, false⟩ } := by
    simp [Exec.declare, Exec.initialise, hcell]
  rw [exec, bind_ok hdeclare]
  · refine ⟨rfl, hst.world, hst.left, ?_⟩
    rw [hst.right, overlay_cons]
  · intro heq
    cases heq

/-- A parameter and its argument. -/
theorem exec_letVar_some {bound : List (String × L.Value)} {name : String} {arg : Expr}
    (hname : bound.lookup name = none) (hbase : base name = some ⟨none, false⟩)
    (harg : ∀ x, Node.expr (.ident x) ∈ arg.nodes .ownLayer → overlay bound base x = none) :
    Sim (Beside (overlay bound base))
      (fun v k s t => k = .normal ∧ Beside (overlay ((name, v) :: bound) base) s t)
      (eval view arg) (exec view rounds labels (.var .letVar name (some arg))) := by
  rw [exec]
  · refine (eval_fixed fun x hx => ⟨rfl, harg x hx⟩).bind_right fun v w s t hst => ?_
    obtain ⟨rfl, hst⟩ := hst
    have hcell : t.locals name = some ⟨none, false⟩ := by
      rw [hst.right, overlay_base hname, hbase]
    have hinitialise : Exec.initialise name v t =
        .ok () { t with locals := t.locals.set name ⟨some v, false⟩ } := by
      simp [Exec.initialise, hcell]
    rw [bind_ok hinitialise]
    refine ⟨rfl, hst.world, hst.left, ?_⟩
    rw [hst.right, overlay_cons]
  · intro heq
    cases heq

/-- Parameters still to be bound; what is bound already are other variables of the
block. -/
structure Unbound (base : Locals L) (bound : List (String × L.Value)) (params : List String) :
    Prop where
  own : ∀ x, base x = none → bound.lookup x = none
  cells : ∀ p ∈ params, base p = some ⟨none, false⟩ ∧ bound.lookup p = none
  nodup : params.Nodup

theorem Unbound.next {bound : List (String × L.Value)} {p : String} {params : List String}
    (h : Unbound base bound (p :: params)) (v : L.Value) :
    Unbound base ((p, v) :: bound) params := by
  have hcells := List.forall_mem_cons.mp h.cells
  obtain ⟨hp, hnodup⟩ := List.nodup_cons.mp h.nodup
  refine ⟨fun x hx => ?_, fun q hq => ⟨(hcells.2 q hq).1, ?_⟩, hnodup⟩
  · have hne : x ≠ p := by
      rintro rfl
      rw [hcells.1.1] at hx
      cases hx
    rw [List.lookup_cons, beq_eq_false_iff_ne.mpr hne]
    exact h.own x hx
  · have hne : q ≠ p := fun heq => hp (heq ▸ hq)
    rw [List.lookup_cons, beq_eq_false_iff_ne.mpr hne]
    exact (hcells.2 q hq).2

/-- The parameters are bound as in a call, each under its new name. -/
theorem execAll_parameters (names : Renaming) :
    ∀ (params : List String) (args : List Expr) {bound : List (String × L.Value)},
    Unbound base bound (params.map names.apply) →
    (∀ x, Node.expr (.ident x) ∈ Expr.nodesAll .ownLayer args → base x = none) →
    Sim (Beside (overlay bound base))
      (fun vs k s t =>
        k = .normal ∧ Beside (overlay (bindArgs (params.map names.apply) vs bound) base) s t)
      (evalAll view args) (execAll view rounds labels
        (Block.parameters names params args ++ Block.excess params args))
  | [], args, _, h, hargs => by
    refine execAll_excess fun x hx => ?_
    rw [overlay_base (h.own x (hargs x hx)), hargs x hx]
  | p :: params, [], _, h, hargs => by
    obtain ⟨hbase, hname⟩ := h.cells _ List.mem_cons_self
    have ih := execAll_parameters names params [] (h.next L.undefined) hargs
    have hfirst := Sim.execAll_cons (exec_letVar_none hname hbase) fun _ => ih
    have hexcess : Block.excess (p :: params) [] = Block.excess params [] := by simp [Block.excess]
    rw [pure_bind, evalAll] at hfirst
    rw [evalAll, hexcess]
    refine Sim.pure_left hfirst fun _ _ _ hst => ?_
    exact hst
  | p :: params, arg :: args, _, h, hargs => by
    simp only [Expr.nodesAll, List.mem_append, or_imp, forall_and] at hargs
    obtain ⟨hbase, hname⟩ := h.cells _ List.mem_cons_self
    rw [evalAll]
    refine .execAll_cons (exec_letVar_some hname hbase fun x hx => ?_) fun v => ?_
    · rw [overlay_base (h.own x (hargs.1 x hx)), hargs.1 x hx]
    · exact (execAll_parameters names params args (h.next v) hargs.2).bind_left fun _ _ =>
        .pure fun _ _ hst => hst

end Parameters

section Hoisted

variable {view : View L} {rounds : Nat} {labels : List String}

/-- Declarations of hoisted variables, as the block makes them. -/
abbrev hoistedLets (names : List String) : List Stmt := names.map (.var .letVar · none)

theorem Locals.set_eq_self {locals : Locals L} {name : String} {cell : Cell L.Value}
    (h : locals name = some cell) : locals.set name cell = locals := by
  funext other
  by_cases heq : other = name
  · subst heq
    rw [Locals.set_same, h]
  · exact Locals.set_other _ _ heq

/-- A declaration without a value, where the variable has had no other. -/
theorem exec_hoistedLet {name : String} {t : State L}
    (h : t.locals name = some ⟨none, false⟩ ∨ t.locals name = some ⟨some L.undefined, false⟩) :
    exec view rounds labels (.var .letVar name none) t =
      .ok .normal { t with locals := t.locals.set name ⟨some L.undefined, false⟩ } := by
  have hdeclare : Exec.declare name t =
      .ok () { t with locals := t.locals.set name ⟨some L.undefined, false⟩ } := by
    rcases h with hcell | hcell
    · simp [Exec.declare, Exec.initialise, hcell]
    · simp [Exec.declare, hcell, Locals.set_eq_self hcell]
  rw [exec, bind_ok hdeclare]
  · rfl
  · intro heq
    cases heq

/-- Hoisted variables become `undefined`, and nothing else changes. -/
theorem execAll_hoistedLets (names : List String) {t : State L}
    (h : ∀ x ∈ names, t.locals x = some ⟨none, false⟩ ∨
      t.locals x = some ⟨some L.undefined, false⟩) :
    execAll view rounds labels (hoistedLets names) t = .ok .normal { t with
      locals := fun x => if x ∈ names then some ⟨some L.undefined, false⟩ else t.locals x } := by
  induction names generalizing t with
  | nil => simp [execAll]; rfl
  | cons name rest ih =>
    rw [List.forall_mem_cons] at h
    have hrest : ∀ x ∈ rest, t.locals.set name ⟨some L.undefined, false⟩ x = some ⟨none, false⟩ ∨
        t.locals.set name ⟨some L.undefined, false⟩ x = some ⟨some L.undefined, false⟩ := by
      intro x hx
      by_cases heq : x = name
      · subst heq
        exact .inr (Locals.set_same _ _ _)
      · simpa only [Locals.set_other _ _ heq] using h.2 x hx
    rw [hoistedLets, List.map_cons, execAll, bind_ok (exec_hoistedLet h.1)]
    refine (ih hrest).trans ?_
    congr 2
    funext x
    by_cases hx : x ∈ rest
    · rw [if_pos hx, if_pos (List.mem_cons_of_mem _ hx)]
    · by_cases heq : x = name
      · subst heq
        rw [if_neg hx, if_pos List.mem_cons_self]
        exact Locals.set_same _ _ _
      · rw [if_neg hx, if_neg fun hmem => (List.mem_cons.mp hmem).elim heq hx]
        exact Locals.set_other _ _ heq

end Hoisted

end StaticInliner.Meaning
