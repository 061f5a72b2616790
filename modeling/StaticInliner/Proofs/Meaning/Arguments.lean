import StaticInliner.Proofs.FreshNames
import StaticInliner.Proofs.Meaning.Statement
import StaticInliner.Proofs.Meaning.Substitution

/-!
The arguments of a direct substitution. The expressions ahead of the returned
one evaluate the arguments as far as they have effects and fill the temporaries.
After them the effects are those of evaluating all arguments, and an atom stands
for each parameter that is used.
-/
namespace StaticInliner.Meaning

variable {L : Language}

/-- Parameters bound so far, with what stands for those that are used. -/
inductive Bound (view : View L) (target : Direct.Target) (reserved : List String) (calm : Prop)
    (t : State L) : Bindings → List (String × L.Value) → Prop
  | nil : Bound view target reserved calm t [] []
  | unused {param : String} {v : L.Value} {bindings : Bindings} {values : List (String × L.Value)}
    (h : target.expr.occurrences param = 0)
    (rest : Bound view target reserved calm t bindings values) :
    Bound view target reserved calm t bindings ((param, v) :: values)
  | used {param : String} {arg : Expr} {v : L.Value} {bindings : Bindings}
    {values : List (String × L.Value)}
    (h : Stands view target.late reserved calm t param arg v)
    (rest : Bound view target reserved calm t bindings values) :
    Bound view target reserved calm t ((param, arg) :: bindings) ((param, v) :: values)

section Bound

variable {view : View L} {target : Direct.Target} {reserved reserved' : List String}
  {calm calm' : Prop} {t t' : State L} {bindings : Bindings} {values : List (String × L.Value)}

/-- What stands for a parameter still does after a step that changes no variable
in use and, as long as it is calm, not the world. -/
theorem Stands.step {param : String} {arg : Expr} {v : L.Value}
    (h : Stands view target.late reserved calm t param arg v)
    (hcells : ∀ name ∈ reserved, t'.locals name = t.locals name)
    (hcalm : calm → calm' ∧ t'.world = t.world) (hreserved : reserved ⊆ reserved') :
    Stands view target.late reserved' calm' t' param arg v := by
  cases h with
  | literal hv => exact .literal hv
  | temporary hname hcell => exact .temporary (hreserved hname) (by rw [hcells _ hname, hcell])
  | «variable» hname hnone hc hlate hread =>
    obtain ⟨hc', hworld⟩ := hcalm hc
    exact .variable (hreserved hname) (by rw [hcells _ hname, hnone]) hc' hlate
      (by rw [hworld, hread])

theorem Bound.step (h : Bound view target reserved calm t bindings values)
    (hcells : ∀ name ∈ reserved, t'.locals name = t.locals name)
    (hcalm : calm → calm' ∧ t'.world = t.world) (hreserved : reserved ⊆ reserved') :
    Bound view target reserved' calm' t' bindings values := by
  induction h with
  | nil => exact .nil
  | unused hunused _ ih => exact .unused hunused ih
  | used hstands _ ih => exact .used (hstands.step hcells hcalm hreserved) ih

theorem Bound.lookup (h : Bound view target reserved calm t bindings values) {name : String}
    {v : L.Value} (hused : target.expr.occurrences name ≠ 0) (hv : values.lookup name = some v) :
    ∃ arg, bindings.lookup name = some arg ∧
      Stands view target.late reserved calm t name arg v := by
  induction h with
  | nil => simp at hv
  | @unused param _ _ _ hunused _ ih =>
    have hne : name ≠ param := fun h => hused (h ▸ hunused)
    rw [List.lookup_cons, beq_eq_false_iff_ne.mpr hne] at hv
    exact ih hv
  | @used param arg w _ _ hstands _ ih =>
    rw [List.lookup_cons] at hv ⊢
    by_cases hname : name = param
    · subst hname
      simp only [beq_self_eq_true, Option.some.injEq] at hv ⊢
      exact ⟨arg, rfl, hv ▸ hstands⟩
    · rw [beq_eq_false_iff_ne.mpr hname] at hv ⊢
      exact ih hv

theorem Bound.lookup_eq_none (h : Bound view target reserved calm t bindings values)
    {name : String} (hv : values.lookup name = none) : bindings.lookup name = none := by
  induction h with
  | nil => rfl
  | unused _ _ ih =>
    rw [List.lookup_cons] at hv
    split at hv
    · simp at hv
    · exact ih hv
  | used _ _ ih =>
    rw [List.lookup_cons] at hv ⊢
    split at hv
    · simp at hv
    · exact ih hv

end Bound

/-- The state between two arguments: on the one side no variable is private, on
the other only temporaries are. -/
structure Ready (view : View L) (target : Direct.Target) (outer temps reserved : List String)
    (later : List Expr) (bindings : Bindings) (values : List (String × L.Value))
    (s t : State L) : Prop where
  world : s.world = t.world
  plain : ∀ name, s.locals name = none
  outside : ∀ name ∈ outer, t.locals name = none
  temporary : ∀ name ∈ temps, ∃ old, t.locals name = some ⟨some old, false⟩
  bound : Bound view target reserved (Expr.anySideEffects later = false) t bindings values

section Arguments

variable {view : View L} {target : Direct.Target} {outer temps reserved : List String}
  {later : List Expr} {bindings : Bindings} {values : List (String × L.Value)} {arg : Expr}

/-- One argument later, if it left the private variables alone and, having no
side effects, also the world. -/
theorem Ready.next {s t s' t' : State L}
    (h : Ready view target outer temps reserved (arg :: later) bindings values s t)
    (hfixed : Fixed s.locals t.locals s' t')
    (hworld : arg.hasSideEffects = false → t'.world = t.world) :
    Ready view target outer temps reserved later bindings values s' t' where
  world := hfixed.world
  plain name := by rw [hfixed.left, h.plain]
  outside name hname := by rw [hfixed.right, h.outside name hname]
  temporary name hname := by rw [hfixed.right]; exact h.temporary name hname
  bound := by
    refine h.bound.step (fun name _ => by rw [hfixed.right]) (fun hcalm => ?_) (fun _ h => h)
    rw [Expr.anySideEffects, Bool.or_eq_false_iff] at hcalm
    exact ⟨hcalm.2, hworld hcalm.1⟩

/-- An argument without side effects changes nothing. -/
theorem Ready.skip {s t : State L}
    (h : Ready view target outer temps reserved (arg :: later) bindings values s t)
    (hpure : arg.hasSideEffects = false) : ∃ v, Meaning.eval view arg s = .ok v s ∧
      Ready view target outer temps reserved later bindings values s t := by
  obtain ⟨v, hv⟩ := exists_eval view h.plain hpure
  exact ⟨v, hv, h.next ⟨h.world, rfl, rfl⟩ fun _ => rfl⟩

/-- An argument is evaluated on both sides. -/
theorem Ready.eval (hnames : ∀ name, Node.expr (.ident name) ∈ arg.nodes .ownLayer → name ∈ outer) :
    Sim (Ready view target outer temps reserved (arg :: later) bindings values)
      (Same (Ready view target outer temps reserved later bindings values))
      (Meaning.eval view arg) (Meaning.eval view arg) := by
  intro s t h
  have hagree : Agree (Same (Fixed s.locals t.locals)) (Meaning.eval view arg s)
      (Meaning.eval view arg t) :=
    eval_fixed (fun name hname => ⟨h.plain name, h.outside name (hnames name hname)⟩) s t
      ⟨h.world, rfl, rfl⟩
  match hs : Meaning.eval view arg s, Meaning.eval view arg t, hagree with
  | .ok v s', .ok w t', hagree =>
    refine ⟨hagree.1, h.next hagree.2 fun hpure => ?_⟩
    obtain ⟨v', hv', -⟩ := h.skip hpure
    rw [hv'] at hs
    cases hs
    rw [← hagree.2.world, h.world]
  | .error _ _, .error _ _, hagree => exact hagree

/-- The arguments that no parameter takes. -/
theorem Ready.excess : ∀ (args : List Expr),
    (∀ name, Node.expr (.ident name) ∈ Expr.nodesAll .ownLayer args → name ∈ outer) →
    Sim (Ready view target outer temps reserved args bindings values)
      (fun _ _ => Ready view target outer temps reserved [] bindings values)
      (evalAll view args) (evalAll view (args.filter (·.hasSideEffects)))
  | [], _ => .pure fun _ _ h => h
  | arg :: later, hnames => by
    simp only [Expr.nodesAll, List.mem_append] at hnames
    have ih := Ready.excess later fun name h => hnames name (.inr h)
    rw [evalAll]
    cases heffect : arg.hasSideEffects with
    | true =>
      rw [List.filter_cons_of_pos heffect, evalAll]
      exact (Ready.eval fun name h => hnames name (.inl h)).bind_same fun _ =>
        ih.bind fun _ _ => .pure fun _ _ h => h
    | false =>
      rw [List.filter_cons_of_neg (by simp [heffect])]
      intro s t h
      obtain ⟨v, hv, hready⟩ := h.skip heffect
      rw [bind_ok hv, ← bind_pure (evalAll view (later.filter _))]
      exact ih.bind (R := fun _ _ => Ready view target outer temps reserved [] bindings values)
        (fun _ _ => .pure fun _ _ h => h) s t hready

/-- Filling a temporary is evaluating its argument and setting the variable. -/
theorem eval_assign_ident (view : View L) (name : String) (e : Expr) :
    Meaning.eval view (.assign (.ident name) none e) =
      (do
        let v ← Meaning.eval view e
        let _ ← (Ref.variable name).put view v
        pure v) := by
  simp [Meaning.eval, refer]

/-- An argument is assigned to a temporary, which then stands for its parameter. -/
theorem Ready.assign (param : String) {temp : String}
    (hnames : ∀ name, Node.expr (.ident name) ∈ arg.nodes .ownLayer → name ∈ outer)
    (houter : outer ⊆ reserved) (hfresh : temp ∉ reserved) (htemp : temp ∈ temps) :
    Sim (Ready view target outer temps reserved (arg :: later) bindings values)
      (fun v _ => Ready view target outer temps (temp :: reserved) later
        ((param, .ident temp) :: bindings) ((param, v) :: values))
      (Meaning.eval view arg) (Meaning.eval view (.assign (.ident temp) none arg)) := by
  rw [← bind_pure (Meaning.eval view arg), eval_assign_ident]
  refine (Ready.eval hnames).bind_same fun v s t h => ?_
  obtain ⟨old, hold⟩ := h.temporary temp htemp
  rw [bind_ok (Ref.put_private hold)]
  have hother : ∀ name ∈ reserved, (t.locals.set temp ⟨some v, false⟩) name = t.locals name :=
    fun name hname => Locals.set_other _ _ fun h => hfresh (h ▸ hname)
  exact {
    world := h.world
    plain := h.plain
    outside := fun name hname => (hother name (houter hname)).trans (h.outside name hname)
    temporary := fun name hname => by
      by_cases hname' : name = temp
      · exact ⟨v, hname' ▸ Locals.set_same _ _ _⟩
      · simpa [Locals.set_other _ _ hname'] using h.temporary name hname
    bound := .used (.temporary List.mem_cons_self (Locals.set_same _ _ _))
      (h.bound.step hother (fun hcalm => ⟨hcalm, rfl⟩) (List.subset_cons_self _ _)) }

theorem mem_prelude_bindParam {param : String} {build : Direct.Build} {s : Stmt}
    (h : s ∈ build.prelude) : s ∈ (Direct.bindParam target param arg later build).prelude := by
  unfold Direct.bindParam
  split
  · split <;> exact h
  · split
    · exact h
    · exact List.mem_append_left _ h

theorem reserved_bindParam {param : String} {build : Direct.Build} :
    build.ctx.names.reserved ⊆
      (Direct.bindParam target param arg later build).ctx.names.reserved := by
  unfold Direct.bindParam
  split
  · split <;> exact fun _ h => h
  · split
    · exact fun _ h => h
    · simp

theorem mem_prelude_bindParams {params : List String} {args : List Expr} {build : Direct.Build}
    {s : Stmt} (h : s ∈ build.prelude) : s ∈ (Direct.bindParams target params args build).prelude :=
  Direct.bindParams_keeps target (P := (s ∈ ·.prelude)) trivial
    (fun _ _ _ _ _ h => mem_prelude_bindParam h) (fun _ _ _ h => h) params (fun _ _ => trivial) h

/-- The statements ahead declare temporaries, whose names are new. -/
theorem prelude_bindParam {param : String} {build : Direct.Build}
    (houter : outer ⊆ build.ctx.names.reserved) {s : Stmt}
    (h : s ∈ (Direct.bindParam target param arg later build).prelude) :
    s ∈ build.prelude ∨ ∃ name, s = .var .var name none ∧ name ∉ outer := by
  unfold Direct.bindParam at h
  split at h
  · split at h <;> exact .inl h
  · split at h
    · exact .inl h
    · refine (List.mem_append.mp h).imp_right fun h => ?_
      exact ⟨_, List.mem_singleton.mp h,
        fun hmem => build.ctx.freshName_notMem_reserved param target.scope (houter hmem)⟩

theorem prelude_bindParams {params : List String} {args : List Expr} {build : Direct.Build}
    (houter : outer ⊆ build.ctx.names.reserved) {s : Stmt}
    (h : s ∈ (Direct.bindParams target params args build).prelude) :
    s ∈ build.prelude ∨ ∃ name, s = .var .var name none ∧ name ∉ outer := by
  have hkept := Direct.bindParams_keeps target
    (P := fun build' => outer ⊆ build'.ctx.names.reserved ∧
      (s ∈ build'.prelude → s ∈ build.prelude ∨ ∃ name, s = .var .var name none ∧ name ∉ outer))
    trivial
    (fun _ _ _ _ _ hkept => ⟨List.Subset.trans hkept.1 reserved_bindParam, fun h =>
      (prelude_bindParam hkept.1 h).elim hkept.2 .inr⟩)
    (fun _ _ _ hkept => hkept) params (fun arg (_ : arg ∈ args) => trivial) ⟨houter, .inl⟩
  exact hkept.2 h

theorem exists_literal (view : View L) {e : Expr} (h : e.isLiteral = true) :
    ∃ v, ∀ s, refer view e s = .ok (.value v) s := by
  cases e with
  | undefined | null | bool _ | number _ | string _ => exact ⟨_, fun s => by rw [refer]; rfl⟩
  | _ => simp [Expr.isLiteral] at h

/-- An argument that may be duplicated stands for its parameter as it is. -/
theorem Ready.duplicate {param : String} {s t : State L}
    (h : Ready view target outer temps reserved (arg :: later) bindings values s t)
    (hnames : ∀ name, Node.expr (.ident name) ∈ arg.nodes .ownLayer → name ∈ outer)
    (houter : outer ⊆ reserved) (hdup : target.mayDuplicate param arg later = true) :
    ∃ v, Meaning.eval view arg s = .ok v s ∧
      Ready view target outer temps reserved later ((param, arg) :: bindings)
        ((param, v) :: values) s t := by
  have hpure : arg.hasSideEffects = false := by
    cases arg <;> simp_all [Direct.Target.mayDuplicate, Expr.hasSideEffects, Expr.isLiteral]
  obtain ⟨v, hv, hready⟩ := h.skip hpure
  refine ⟨v, hv, { hready with bound := .used ?_ hready.bound }⟩
  by_cases hident : ∃ name, arg = .ident name
  · obtain ⟨name, rfl⟩ := hident
    have hname : name ∈ outer := hnames name (by simp [Expr.nodes])
    have hread : s.world.store.read (view.reach name) = v := by
      rw [Meaning.eval, bind_ok (by rw [refer]; rfl), Ref.get_store (h.plain name)] at hv
      injection hv
    simp only [Direct.Target.mayDuplicate, Bool.and_eq_true, Bool.not_eq_true',
      List.contains_eq_mem, decide_eq_false_iff_not] at hdup
    exact .variable (houter hname) (h.outside name hname) hdup.1 hdup.2 (h.world ▸ hread)
  · have hliteral : arg.isLiteral = true := by
      cases arg <;> simp_all [Direct.Target.mayDuplicate]
    obtain ⟨w, hw⟩ := exists_literal view hliteral
    rw [Meaning.eval, bind_ok (hw s)] at hv
    have hvw : w = v := by
      injection hv
    exact .literal (hvw ▸ hw)

/-- What the expressions ahead of the returned one do for the parameters and
arguments that are left. -/
structure Binds (view : View L) (target : Direct.Target) (outer temps params : List String)
    (args : List Expr) (build : Direct.Build) (sequence : List Expr) : Prop where
  sequence_eq : (Direct.bindParams target params args build).sequence =
    build.sequence ++ sequence
  sim : ∀ values,
    Sim (Ready view target outer temps build.ctx.names.reserved args build.bindings values)
      (fun vs _ => Ready view target outer temps
        (Direct.bindParams target params args build).ctx.names.reserved []
        (Direct.bindParams target params args build).bindings (bindArgs params vs values))
      (evalAll view args) (evalAll view sequence)

section Step

variable {param : String} {params : List String} {args sequence : List Expr}
  {build build' : Direct.Build}

/-- A parameter whose argument is not evaluated ahead. -/
theorem Binds.of_skipped (h : Binds view target outer temps params args build' sequence)
    (hbuild : Direct.bindParam target param arg args build = build')
    (hsequence : build'.sequence = build.sequence)
    (hstep : ∀ values s t,
      Ready view target outer temps build.ctx.names.reserved (arg :: args) build.bindings values
        s t → ∃ v, Meaning.eval view arg s = .ok v s ∧
      Ready view target outer temps build'.ctx.names.reserved args build'.bindings
        ((param, v) :: values) s t) :
    Binds view target outer temps (param :: params) (arg :: args) build sequence := by
  subst hbuild
  refine ⟨by rw [Direct.bindParams, h.sequence_eq, hsequence], fun values s t hready => ?_⟩
  obtain ⟨v, hv, hnext⟩ := hstep values s t hready
  rw [evalAll, bind_ok hv, ← bind_pure (evalAll view sequence)]
  exact (h.sim ((param, v) :: values)).bind
    (R := fun vs _ => Ready view target outer temps _ [] _ (bindArgs (param :: params) vs values))
    (fun _ _ => .pure fun _ _ h => h) s t hnext

/-- A parameter for which `first` is evaluated ahead. -/
theorem Binds.of_first {first : Expr}
    (h : Binds view target outer temps params args build' sequence)
    (hbuild : Direct.bindParam target param arg args build = build')
    (hsequence : build'.sequence = build.sequence ++ [first])
    (hstep : ∀ values,
      Sim (Ready view target outer temps build.ctx.names.reserved (arg :: args) build.bindings
        values) (fun v _ => Ready view target outer temps build'.ctx.names.reserved args
        build'.bindings ((param, v) :: values))
        (Meaning.eval view arg) (Meaning.eval view first)) :
    Binds view target outer temps (param :: params) (arg :: args) build (first :: sequence) := by
  subst hbuild
  refine ⟨by rw [Direct.bindParams, h.sequence_eq, hsequence]; simp, fun values => ?_⟩
  rw [evalAll, evalAll]
  exact (hstep values).bind fun v _ => (h.sim ((param, v) :: values)).bind fun _ _ =>
    .pure fun _ _ h => h

/-- One parameter with its argument, followed by the others. -/
theorem Binds.cons
    (hnames : ∀ name, Node.expr (.ident name) ∈ arg.nodes .ownLayer → name ∈ outer)
    (houter : outer ⊆ build.ctx.names.reserved)
    (htemps : ∀ name, Stmt.var .var name none ∈
      (Direct.bindParam target param arg args build).prelude → name ∈ temps)
    (h : Binds view target outer temps params args (Direct.bindParam target param arg args build)
      sequence) :
    ∃ sequence, Binds view target outer temps (param :: params) (arg :: args) build sequence := by
  by_cases hunused : target.expr.occurrences param = 0
  · by_cases heffect : arg.hasSideEffects = true
    · have hbuild : Direct.bindParam target param arg args build =
          { build with sequence := build.sequence ++ [arg] } := by
        rw [Direct.bindParam, if_pos hunused, if_pos heffect]
      refine ⟨_, (hbuild ▸ h).of_first hbuild rfl fun values => ?_⟩
      refine (Ready.eval hnames).mono (fun _ _ h => h) fun v _ s t hready => ?_
      exact { hready.2 with bound := .unused hunused hready.2.bound }
    · have hbuild : Direct.bindParam target param arg args build = build := by
        rw [Direct.bindParam, if_pos hunused, if_neg heffect]
      refine ⟨_, (hbuild ▸ h).of_skipped hbuild rfl fun values s t hready => ?_⟩
      obtain ⟨v, hv, hnext⟩ := hready.skip (Bool.eq_false_iff.mpr heffect)
      exact ⟨v, hv, { hnext with bound := .unused hunused hnext.bound }⟩
  · by_cases hdup : target.mayDuplicate param arg args = true
    · have hbuild : Direct.bindParam target param arg args build =
          { build with bindings := (param, arg) :: build.bindings } := by
        rw [Direct.bindParam, if_neg hunused, if_pos hdup]
      exact ⟨_, (hbuild ▸ h).of_skipped hbuild rfl fun values s t hready =>
        hready.duplicate hnames houter hdup⟩
    · let temp := build.ctx.freshName param target.scope
      have hbuild : Direct.bindParam target param arg args build =
          { prelude := build.prelude ++ [.var .var temp.1 none]
            sequence := build.sequence ++ [.assign (.ident temp.1) none arg]
            bindings := (param, .ident temp.1) :: build.bindings
            ctx := temp.2 } := by
        rw [Direct.bindParam, if_neg hunused, if_neg hdup]
      have htemp : temp.1 ∈ temps := htemps _ (by simp [hbuild])
      have hfresh : temp.1 ∉ build.ctx.names.reserved :=
        build.ctx.freshName_notMem_reserved param target.scope
      refine ⟨_, (hbuild ▸ h).of_first hbuild rfl fun values => ?_⟩
      refine (Ready.assign param hnames houter hfresh htemp).mono
        (fun _ _ h => h) fun v _ s t hready => ?_
      simpa only [temp, Context.reserved_freshName] using hready

/-- A parameter without an argument. -/
theorem Binds.missing
    (h : Binds view target outer temps params [] (Direct.bindParam target param .undefined [] build)
      sequence) :
    Binds view target outer temps (param :: params) [] build sequence := by
  have hstep : ∀ values s t,
      Ready view target outer temps build.ctx.names.reserved [] build.bindings values s t →
      Ready view target outer temps
        (Direct.bindParam target param .undefined [] build).ctx.names.reserved []
        (Direct.bindParam target param .undefined [] build).bindings
        ((param, L.undefined) :: values) s t := by
    intro values s t hready
    by_cases hunused : target.expr.occurrences param = 0
    · rw [Direct.bindParam, if_pos hunused, if_neg (by simp [Expr.hasSideEffects])]
      exact { hready with bound := .unused hunused hready.bound }
    · rw [Direct.bindParam, if_neg hunused, if_pos (by rfl)]
      exact { hready with bound := .used (.literal fun s => by rw [refer]; rfl) hready.bound }
  have hsequence : (Direct.bindParam target param .undefined [] build).sequence =
      build.sequence := by
    unfold Direct.bindParam
    simp only [Expr.hasSideEffects, Direct.Target.mayDuplicate, Expr.isLiteral]
    split <;> rfl
  refine ⟨h.sequence_eq.trans (by rw [hsequence]), fun values s t hready => ?_⟩
  have hagree := h.sim _ s t (hstep values s t hready)
  rw [evalAll] at hagree ⊢
  match evalAll view sequence t, hagree with
  | .ok _ _, hagree => exact hagree

end Step

/-- Evaluating the expressions ahead of the returned one binds all parameters. -/
theorem exists_binds (params : List String) (args : List Expr) (build : Direct.Build)
    (houter : outer ⊆ build.ctx.names.reserved)
    (hnames : ∀ name, Node.expr (.ident name) ∈ Expr.nodesAll .ownLayer args → name ∈ outer)
    (htemps : ∀ name, Stmt.var .var name none ∈
      (Direct.bindParams target params args build).prelude → name ∈ temps) :
    ∃ sequence, Binds view target outer temps params args build sequence := by
  induction params generalizing args build with
  | nil => exact ⟨args.filter (·.hasSideEffects), rfl, fun values => Ready.excess args hnames⟩
  | cons param params ih =>
    cases args with
    | nil =>
      rw [Direct.bindParams] at htemps
      obtain ⟨sequence, h⟩ := ih [] (Direct.bindParam target param .undefined [] build)
        (List.Subset.trans houter reserved_bindParam) hnames htemps
      exact ⟨sequence, h.missing⟩
    | cons arg args =>
      rw [Direct.bindParams] at htemps
      simp only [Expr.nodesAll, List.mem_append] at hnames
      obtain ⟨sequence, h⟩ := ih args (Direct.bindParam target param arg args build)
        (List.Subset.trans houter reserved_bindParam) (fun name h => hnames name (.inr h)) htemps
      exact h.cons (fun name h => hnames name (.inl h)) houter
        fun name hname => htemps name (mem_prelude_bindParams hname)

end Arguments

end StaticInliner.Meaning
