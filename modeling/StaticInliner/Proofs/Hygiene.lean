import StaticInliner.Proofs.FreeNames
import StaticInliner.Proofs.Inlinings
import StaticInliner.Proofs.Meaning.Drawn

/-!
Free names of expansions. What is free in an expansion is free in an argument, was drawn for
the expansion, or is free in the body apart from its parameters and locals. The names of the
last kind are looked up at the definition and at the call, all but one: a function literal
that has a name binds it in its own body, so it does not count as free there. A body that
refers to the function by this name keeps the name, which then means something else.
-/
namespace StaticInliner

/-- What is free in the body apart from parameters and locals. This includes the name of the
literal itself, if the body refers to it. -/
def FunctionLit.openNames (fn : FunctionLit) : List String :=
  Stmt.freeNamesAll (declaredNames fn.params fn.body) fn.body

def Expansion.freeNames (expansion : Expansion) : List String :=
  Stmt.freeNamesAll [] expansion.prelude ++ expansion.value.freeNames []

/-- The name was drawn between two contexts. -/
def Context.Draws (ctx ctx' : Context) (name : String) : Prop :=
  name ∈ ctx'.names.reserved ∧ name ∉ ctx.names.reserved

/-- Why a name may be free in an expansion. -/
inductive Definition.Supplies (definition : Definition) (args : List Expr) (site : CallSite)
    (ctx ctx' : Context) (name : String) : Prop
  | argument : name ∈ Expr.freeNamesAll [] args → Supplies definition args site ctx ctx' name
  | drawn : ctx.Draws ctx' name → Supplies definition args site ctx ctx' name
  | global {scope : Nat} : name ∈ definition.function.freeVariables →
    ctx.scopes.functionScope? definition.function.id = some scope →
    ctx.scopes.isBoundInFunction scope name = false →
    ctx.scopes.isBoundInFunction site.scope name = false →
      Supplies definition args site ctx ctx' name
  | self : definition.function.name = some name → name ∈ definition.function.openNames →
    Supplies definition args site ctx ctx' name

theorem FunctionLit.mem_openNames {fn : FunctionLit} {name : String} : name ∈ fn.openNames ↔
    name ∈ Stmt.freeNamesAll [] fn.body ∧ name ∉ declaredNames fn.params fn.body :=
  Stmt.mem_freeNamesAll_iff

/-- All but the name of the literal itself are its free variables. -/
theorem FunctionLit.mem_freeVariables_iff {fn : FunctionLit} {name : String} :
    name ∈ fn.freeVariables ↔ name ∈ fn.openNames ∧ fn.name ≠ some name := by
  rw [freeVariables, mem_sortedNames, Expr.freeNames_function, List.append_nil,
    Stmt.mem_freeNamesAll_iff, mem_openNames, List.mem_append, Option.mem_toList, not_or, and_assoc,
    and_comm (a := ¬_)]

namespace Direct

/-- The expression has names of arguments, and names drawn since. -/
def Takes (args : List Expr) (ctx ctx' : Context) (e : Expr) : Prop :=
  ∀ name ∈ e.freeNames [], name ∈ Expr.freeNamesAll [] args ∨ ctx.Draws ctx' name

/-- So have all expressions of a substitution in the making. -/
structure Build.Takes (args : List Expr) (ctx : Context) (build : Build) : Prop where
  reserved : ctx.names.reserved ⊆ build.ctx.names.reserved
  sequence : ∀ e ∈ build.sequence, Direct.Takes args ctx build.ctx e
  bindings : ∀ binding ∈ build.bindings, Direct.Takes args ctx build.ctx binding.2

variable {args : List Expr} {ctx ctx' ctx'' : Context} {build : Build}

theorem Takes.mono {e : Expr} (h : Takes args ctx ctx' e)
    (hsub : ctx'.names.reserved ⊆ ctx''.names.reserved) : Takes args ctx ctx'' e :=
  fun name hname => (h name hname).imp_right fun hdraws => ⟨hsub hdraws.1, hdraws.2⟩

theorem takes_arg {arg : Expr} (h : arg.freeNames [] ⊆ Expr.freeNamesAll [] args) :
    Takes args ctx ctx' arg := fun _ hname => .inl (h hname)

theorem Build.Takes.bindParam (h : build.Takes args ctx) (target : Target) (param : String)
    {arg : Expr} (harg : arg.freeNames [] ⊆ Expr.freeNamesAll [] args) (later : List Expr) :
    (bindParam target param arg later build).Takes args ctx := by
  unfold Direct.bindParam
  split
  · split
    · exact { h with
        sequence :=
          List.forall_mem_append.mpr ⟨h.sequence, List.forall_mem_singleton.mpr (takes_arg harg)⟩ }
    · exact h
  · split
    · exact { h with bindings := List.forall_mem_cons.mpr ⟨takes_arg harg, h.bindings⟩ }
    · -- a temporary is drawn, and set to the argument
      have hsub :
          build.ctx.names.reserved ⊆ (build.ctx.freshName param target.scope).2.names.reserved := by
        rw [Context.reserved_freshName]
        exact List.subset_cons_self _ _
      have htemp : ctx.Draws (build.ctx.freshName param target.scope).2
          (build.ctx.freshName param target.scope).1 := by
        refine ⟨?_, fun hmem => build.ctx.freshName_notMem_reserved param target.scope
          (h.reserved hmem)⟩
        rw [Context.reserved_freshName]
        exact List.mem_cons_self
      refine ⟨List.Subset.trans h.reserved hsub, List.forall_mem_append.mpr
        ⟨fun e he => (h.sequence e he).mono hsub, List.forall_mem_singleton.mpr ?_⟩,
        List.forall_mem_cons.mpr ⟨?_, fun binding hbinding =>
          (h.bindings binding hbinding).mono hsub⟩⟩
      · intro name hname
        rcases List.mem_cons.mp hname with rfl | hname
        · exact .inr htemp
        · exact .inl (harg hname)
      · intro name hname
        rw [List.mem_singleton.mp hname]
        exact .inr htemp

theorem Build.Takes.bindParams (h : build.Takes args ctx) (target : Target) (params : List String) :
    (bindParams target params args build).Takes args ctx := by
  refine bindParams_keeps target (List.nil_subset _)
    (fun param _ later _ harg h => h.bindParam target param harg later)
    (fun extras build hextras h => ?_) params (fun arg harg => ?_) h
  · refine { h with sequence := List.forall_mem_append.mpr ⟨h.sequence, fun e he => ?_⟩ }
    exact takes_arg (hextras e (List.mem_of_mem_filter he))
  · rw [Expr.freeNamesAll_eq_flatMap]
    exact fun name hname => List.mem_flatMap.mpr ⟨arg, harg, hname⟩

/-- Exactly the parameters that occur are bound. -/
theorem keys_bindParams (target : Target) (params : List String) (args : List Expr) (build : Build)
    (name : String) : name ∈ (bindParams target params args build).bindings.map (·.1) ↔
      name ∈ build.bindings.map (·.1) ∨ name ∈ params ∧ target.expr.occurrences name ≠ 0 := by
  have hstep (param : String) (arg : Expr) (later : List Expr) (build : Build) :
      name ∈ (bindParam target param arg later build).bindings.map (·.1) ↔
        name ∈ build.bindings.map (·.1) ∨ name = param ∧ target.expr.occurrences name ≠ 0 := by
    unfold bindParam
    split
    · split <;> grind
    · split <;> grind
  obtain ⟨extras, last, hlast, hdone⟩ := bindParams_run target
    (fun left _ build' => name ∈ build'.bindings.map (·.1) ∨
        name ∈ left ∧ target.expr.occurrences name ≠ 0 ↔
      name ∈ build.bindings.map (·.1) ∨ name ∈ params ∧ target.expr.occurrences name ≠ 0)
    (fun param left args build' h => by rw [← h, hstep, List.mem_cons]; grind)
    params args build Iff.rfl
  rw [hdone, ← hlast]
  simp [Build.withExcess]

/-- What is returned has the free names of the body. -/
theorem freeNames_of_returned? {fn : FunctionLit} {expr : Expr} (h : fn.returned? = some expr) :
    Stmt.freeNamesAll [] fn.body = expr.freeNames [] ∧ Stmt.declarationsAll fn.body = [] := by
  unfold FunctionLit.returned? at h
  split at h
  · next hbody =>
    cases h
    rw [hbody]
    exact ⟨rfl, rfl⟩
  · next hbody =>
    cases h
    rw [hbody]
    exact ⟨rfl, rfl⟩
  · next value hbody =>
    cases h
    rw [hbody, Stmt.freeNamesAll_singleton]
    exact ⟨rfl, rfl⟩
  · cases h

/-- A free name of what is returned for which nothing stands is no parameter. -/
theorem mem_openNames_iff_lookup {fn : FunctionLit} {expr : Expr}
    (h : fn.substitutable? = some expr) {target : Target} (htarget : target.expr = expr)
    (args : List Expr) (ctx : Context)
    {name : String} :
    let bindings := (bindParams target fn.params args ⟨[], [], [], ctx⟩).bindings
    name ∈ fn.openNames ↔ name ∈ expr.freeNames [] ∧ bindings.lookup name = none := by
  intro bindings
  obtain ⟨hreturned, hlit, -⟩ := FunctionLit.substitutable?_eq_some_iff.mp h
  obtain ⟨hbody, hdeclared⟩ := freeNames_of_returned? hreturned
  have hkeys : name ∈ bindings.map (·.1) ↔ name ∈ fn.params ∧ expr.occurrences name ≠ 0 := by
    rw [keys_bindParams, htarget]
    simp
  have hlookup : bindings.lookup name = none ↔ name ∉ bindings.map (·.1) := by
    simp only [List.lookup_eq_none_iff, bne_iff_ne, List.mem_map, not_exists, not_and, ne_eq,
      eq_comm (a := name)]
  rw [FunctionLit.mem_openNames, hbody, mem_declaredNames, hdeclared, hlookup, hkeys]
  refine and_congr_right fun hfree => ?_
  simp [Expr.occurrences_ne_zero hlit hfree]

theorem freeNames_inline {fn : FunctionLit} {expr : Expr} (h : fn.substitutable? = some expr)
    (args : List Expr) (scope : Nat) (ctx : Context) :
    let done := inline fn expr args scope ctx
    (∀ name ∈ done.1.freeNames, name ∈ Expr.freeNamesAll [] args ∨ ctx.Draws done.2 name ∨
      name ∈ fn.openNames) ∧ fn.openNames ⊆ done.1.freeNames := by
  intro done
  obtain ⟨-, hlit, -⟩ := FunctionLit.substitutable?_eq_some_iff.mp h
  let target : Target := ⟨expr, (expr.lateReads fn.params {}).late, scope⟩
  let build := bindParams target fn.params args ⟨[], [], [], ctx⟩
  have hopen (name : String) : name ∈ fn.openNames ↔
      name ∈ expr.freeNames [] ∧ build.bindings.lookup name = none :=
    mem_openNames_iff_lookup h rfl args ctx
  have hstart : Build.Takes args ctx ⟨[], [], [], ctx⟩ :=
    ⟨List.Subset.refl _, fun _ h => (List.not_mem_nil h).elim, fun _ h => (List.not_mem_nil h).elim⟩
  have htakes : build.Takes args ctx := hstart.bindParams target fn.params
  have hprelude : Stmt.freeNamesAll [] build.prelude = [] := by
    obtain ⟨drawn, hextends⟩ := extends_bindParams target fn.params args ⟨[], [], [], ctx⟩
    rw [hextends.prelude, List.nil_append, Stmt.freeNamesAll_eq_flatMap, List.flatMap_eq_nil_iff]
    intro s hs
    obtain ⟨name, -, rfl⟩ := List.mem_map.mp hs
    rfl
  have hdone : done.1.freeNames = build.sequence.flatMap (·.freeNames []) ++
      (expr.substitute build.bindings).freeNames [] := by
    have hvalue := Expr.found_sequence (·.freeNames []) (fun e he => Expr.freeNames_children he)
      build.sequence (expr.substitute build.bindings)
    rw [Expansion.freeNames, ← hvalue]
    exact congrArg (· ++ _) hprelude
  rw [hdone]
  constructor
  · intro name hname
    rw [List.mem_append, List.mem_flatMap, Expr.mem_freeNames_substitute hlit] at hname
    rcases hname with ⟨e, he, hname⟩ | ⟨old, hold, hname⟩
    · exact (htakes.sequence e he name hname).imp_right .inl
    · cases hold' : build.bindings.lookup old with
      | some value =>
        obtain ⟨first, second, hbindings, -⟩ := List.lookup_eq_some_iff.mp hold'
        rw [hold'] at hname
        exact (htakes.bindings (old, value) (by rw [hbindings]; simp) name hname).imp_right .inl
      | none =>
        rw [hold'] at hname
        obtain rfl := List.mem_singleton.mp hname
        exact .inr (.inr ((hopen name).mpr ⟨hold, hold'⟩))
  · intro name hname
    obtain ⟨hfree, hlookup⟩ := (hopen name).mp hname
    refine List.mem_append_right _ ((Expr.mem_freeNames_substitute hlit).mpr ⟨name, hfree, ?_⟩)
    rw [hlookup]
    exact List.mem_singleton_self name

end Direct

/-- The arguments that a block evaluates: one for each parameter, and of the others those with
side effects. -/
def FunctionLit.passed (fn : FunctionLit) (args : List Expr) : List Expr :=
  args.take fn.params.length ++ (args.drop fn.params.length).filter (·.hasSideEffects)

theorem FunctionLit.passed_subset (fn : FunctionLit) (args : List Expr) : fn.passed args ⊆ args :=
  List.append_subset.mpr ⟨List.take_subset _ _,
    (List.filter_sublist.trans (List.drop_sublist _ _)).subset⟩

namespace Block

namespace Drawn

variable (drawn : Drawn) (fn : FunctionLit)

section Gathered

variable {α : Type} {ofName : String → List α} {ofExpr : Expr → List α} {ofStmt : Stmt → List α}

/-- What is gathered from the copied body is gathered from the block, and besides it what
stands for the result variable and for variables that the copy declares. -/
theorem gathered_lowered (h : Gathers ofName ofExpr ofStmt) :
    Inserted
      (· ∈ (drawn.result :: (Stmt.declarationsAll fn.body).map drawn.names.apply).flatMap ofName)
      ((drawn.copy fn).1.flatMap ofStmt) ((drawn.lowered fn).flatMap ofStmt) := by
  obtain ⟨hoisted, heq, hsub⟩ := drawn.rebound_subset fn
  have hinjective : Function.Injective fun name => Stmt.var .letVar name none :=
    fun _ _ h => (Stmt.var.inj h).2.1
  have hhoisted := List.map_injective_iff.mpr hinjective heq
  have hpromote (inPlace : List String) :
    ((drawn.copy fn).1.map (·.promote inPlace)).flatMap ofStmt =
      (drawn.copy fn).1.flatMap ofStmt := by
    simp only [List.flatMap_map, h.promote]
  have hrebound : Inserted (· ∈ hoisted.flatMap ofName) ((drawn.copy fn).1.flatMap ofStmt)
      ((rebind (drawn.copy fn).1).body.flatMap ofStmt) := by
    rw [← hhoisted, ← hpromote]
    exact h.demoteAll _ _
  have hlowered : Inserted (· ∈ ofName drawn.result)
      ((rebind (drawn.copy fn).1).body.flatMap ofStmt) ((drawn.lowered fn).flatMap ofStmt) := by
    refine h.lower _ _ fun hends => ?_
    obtain ⟨init, value, hbody⟩ := Meaning.endsWithReturn_eq_true hends
    obtain ⟨_, _, _, hconcat⟩ := Meaning.rebound_concat hbody drawn
    exact ⟨_, _, hconcat⟩
  rw [List.flatMap_cons]
  refine (hrebound.mono fun a ha => List.mem_append_right _ ?_).trans
    (hlowered.mono fun a ha => List.mem_append_left _ ha)
  obtain ⟨name, hname, ha⟩ := List.mem_flatMap.mp ha
  exact List.mem_flatMap.mpr ⟨name, hsub hname, ha⟩

/-- The block evaluates the arguments, and then the copied body. -/
theorem gathered_prelude (h : Gathers ofName ofExpr ofStmt) (args : List Expr) :
    (drawn.prelude fn args).flatMap ofStmt =
      (fn.passed args).flatMap ofExpr ++ (drawn.lowered fn).flatMap ofStmt := by
  obtain ⟨hoisted, hdeclarations, -⟩ := drawn.rebound_subset fn
  have hwrapped : ofStmt (drawn.wrapped fn args) = (drawn.block fn args).flatMap ofStmt := by
    unfold wrapped
    split
    all_goals
      rw [h.parts _ rfl]
      exact List.flatMap_singleton _ _
  have hprologue : (drawn.prologue fn args).flatMap ofStmt = (fn.passed args).flatMap ofExpr := by
    rw [prologue, hdeclarations, List.flatMap_append, List.flatMap_append, h.parameters, h.excess,
      h.declarations, List.append_nil, FunctionLit.passed, List.flatMap_append]
  have hresult : ofStmt (.var .letVar drawn.result none) = [] := h.parts _ rfl
  rw [prelude, List.flatMap_cons, List.flatMap_singleton, hwrapped, block_eq, List.flatMap_append,
    hprologue, hresult, List.nil_append]

end Gathered

/-- Names gathered from the block, other than those of the copied body. -/
theorem inserted_lowered {ofExpr : Expr → List String} {ofStmt : Stmt → List String}
    (h : Gathers ([·]) ofExpr ofStmt) :
    Inserted (· ∈ drawn.result :: (Stmt.declarationsAll fn.body).map drawn.names.apply)
      ((drawn.copy fn).1.flatMap ofStmt) ((drawn.lowered fn).flatMap ofStmt) := by
  have hlowered := drawn.gathered_lowered fn h
  rwa [List.flatMap_singleton'] at hlowered

/-- What leaves out the names of variables is gathered from the arguments and the copied body. -/
theorem gathered_prelude_eq {α : Type} {ofExpr : Expr → List α} {ofStmt : Stmt → List α}
    (h : Gathers (fun _ => []) ofExpr ofStmt) (args : List Expr) :
    (drawn.prelude fn args).flatMap ofStmt =
      (fn.passed args).flatMap ofExpr ++ (drawn.copy fn).1.flatMap ofStmt := by
  rw [drawn.gathered_prelude fn h args, (drawn.gathered_lowered fn h).eq fun a ha => ?_]
  obtain ⟨_, _, ha⟩ := List.mem_flatMap.mp ha
  exact List.not_mem_nil ha

end Drawn

theorem draws_inline (fn : FunctionLit) (args : List Expr) (scope : Nat) (ctx : Context)
    {name : String} (hname : name ∈ (draw fn scope ctx).all) :
    ctx.Draws (inline fn args scope ctx).2 name := by
  have hdrew := drew_draw fn scope ctx
  refine ⟨?_, hdrew.fresh name hname⟩
  rw [show (inline fn args scope ctx).2.names = (draw fn scope ctx).ctx.names from rfl,
    hdrew.reserved]
  exact List.mem_append_left _ (List.mem_reverse.mpr hname)

theorem apply_mem_all (fn : FunctionLit) (scope : Nat) (ctx : Context) {name : String}
    (hname : name ∈ declaredNames fn.params fn.body) :
    (draw fn scope ctx).names.apply name ∈ (draw fn scope ctx).all := by
  rw [← map_fst_names_draw fn scope ctx] at hname
  simp only [Drawn.all, List.mem_append]
  exact .inl (.inr (Renaming.apply_mem hname))

theorem freeNames_inline (fn : FunctionLit) (args : List Expr) (scope : Nat) (ctx : Context) :
    let done := inline fn args scope ctx
    (∀ name ∈ done.1.freeNames, name ∈ Expr.freeNamesAll [] args ∨ ctx.Draws done.2 name ∨
      name ∈ fn.openNames) ∧ fn.openNames ⊆ done.1.freeNames := by
  intro done
  let drawn := draw fn scope ctx
  have hlowered := drawn.inserted_lowered fn gathers_freeNames
  rw [← Stmt.freeNamesAll_eq_flatMap, ← Stmt.freeNamesAll_eq_flatMap] at hlowered
  have hcopy := Stmt.renamesFree_renameAll drawn.names drawn.labels fn.body drawn.ctx.nextNodeId
  have hkeys : drawn.names.map (·.1) = declaredNames fn.params fn.body :=
    map_fst_names_draw fn scope ctx
  have hdraws {name : String} (hname : name ∈ drawn.all) : ctx.Draws done.2 name :=
    draws_inline fn args scope ctx hname
  have hrenamed {name : String} (hname : name ∈ declaredNames fn.params fn.body) :
      drawn.names.apply name ∈ drawn.all := apply_mem_all fn scope ctx hname
  have hdone : done.1.freeNames = (fn.passed args).flatMap (·.freeNames []) ++
      Stmt.freeNamesAll [] (drawn.lowered fn) ++ [drawn.result] := by
    rw [Stmt.freeNamesAll_eq_flatMap, ← drawn.gathered_prelude fn gathers_freeNames args,
      ← Stmt.freeNamesAll_eq_flatMap]
    rfl
  have hresult : drawn.result ∈ drawn.all := List.mem_cons_self
  rw [hdone]
  constructor
  · intro name hname
    simp only [List.mem_append, List.mem_singleton] at hname
    rcases hname with (hname | hname) | rfl
    · obtain ⟨arg, harg, hname⟩ := List.mem_flatMap.mp hname
      rw [Expr.freeNamesAll_eq_flatMap]
      exact .inl (List.mem_flatMap.mpr ⟨arg, fn.passed_subset args harg, hname⟩)
    · rcases hlowered.mem hname with hname | hname
      · obtain ⟨old, hold, rfl⟩ := hcopy.traced name hname
        by_cases hdeclared : old ∈ declaredNames fn.params fn.body
        · exact .inr (.inl (hdraws (hrenamed hdeclared)))
        · rw [Renaming.apply_of_notMem (hkeys ▸ hdeclared)]
          exact .inr (.inr (FunctionLit.mem_openNames.mpr ⟨hold, hdeclared⟩))
      · rcases List.mem_cons.mp hname with rfl | hname
        · exact .inr (.inl (hdraws hresult))
        · obtain ⟨old, hold, rfl⟩ := List.mem_map.mp hname
          exact .inr (.inl (hdraws (hrenamed (mem_declaredNames.mpr (.inr hold)))))
    · exact .inr (.inl (hdraws hresult))
  · intro name hname
    obtain ⟨hfree, hdeclared⟩ := FunctionLit.mem_openNames.mp hname
    refine List.mem_append_left _ (List.mem_append_right _ (hlowered.subset ?_))
    exact hcopy.kept name hfree (hkeys ▸ hdeclared)

end Block

namespace Definition

variable {definition : Definition} {args : List Expr} {site : CallSite} {ctx ctx' : Context}
  {expansion : Expansion}

/-- What an expansion has free is free in an argument, drawn for it, or free in the body
apart from parameters and locals, and of these it has all. They mean the same at the call as
at the definition, but for the name of the function itself. -/
theorem freeNames_expandCall
    (h : definition.expandCall args site ctx = .ok (.expanded expansion, ctx')) :
    let fn := definition.function
    (∀ name ∈ expansion.freeNames, definition.Supplies args site ctx ctx' name) ∧
      (∀ name ∈ declaredNames fn.params fn.body, name ∈ expansion.freeNames →
        name ∈ Expr.freeNamesAll [] args ∨ ctx.Draws ctx' name) ∧
      fn.openNames ⊆ expansion.freeNames := by
  intro fn
  obtain ⟨helig, hcases⟩ := expandCall_cases h
  have hnames : (∀ name ∈ expansion.freeNames, name ∈ Expr.freeNamesAll [] args ∨
      ctx.Draws ctx' name ∨ name ∈ fn.openNames) ∧ fn.openNames ⊆ expansion.freeNames := by
    rcases hcases with ⟨expr, hexpr, hdone⟩ | ⟨-, -, hdone⟩
    · obtain ⟨hexpansion, rfl⟩ := Prod.mk.inj hdone
      rw [CallOutcome.expanded.inj hexpansion]
      exact Direct.freeNames_inline hexpr args site.scope ctx
    · obtain ⟨hexpansion, rfl⟩ := Prod.mk.inj hdone
      rw [CallOutcome.expanded.inj hexpansion]
      exact Block.freeNames_inline fn args site.scope ctx
  obtain ⟨scope, hscope, hunbound⟩ := helig.free
  refine ⟨fun name hname => ?_, fun name hdeclared hname => ?_, hnames.2⟩
  · rcases hnames.1 name hname with harg | hdrawn | hopen
    · exact .argument harg
    · exact .drawn hdrawn
    · by_cases hself : fn.name = some name
      · exact .self hself hopen
      · have hfree : name ∈ fn.freeVariables := FunctionLit.mem_freeVariables_iff.mpr ⟨hopen, hself⟩
        exact .global hfree hscope (hunbound name hfree).1 (hunbound name hfree).2
  · rcases hnames.1 name hname with harg | hdrawn | hopen
    · exact .inl harg
    · exact .inr hdrawn
    · exact absurd hdeclared (FunctionLit.mem_openNames.mp hopen).2

end Definition

section Tallying

/-- `A.tally = function(a) { var b = a; total += b; return b; }`, with a parameter, a local
and a global. -/
def Definition.tallying : Definition :=
  ⟨⟨["A", "tally"], by decide, by decide⟩,
    ⟨0, none, ["a"],
      [.var .var "b" (some (.ident "a")), .expr (.assign (.ident "total") (some .add) (.ident "b")),
        .ret (some (.ident "b"))]⟩, 0, "host.js"⟩

/-- A function that calls it for its own parameter. -/
def Program.tallied : Program :=
  ⟨[⟨0, "host.js",
      [.expr
        (.assign (.member (.ident "A") "tally") none (.function Definition.tallying.function))]⟩,
    ⟨1, "main.js",
      [.function ⟨1, some "main", ["b"],
        [.ret (some (.call (.member (.ident "A") "tally") [.ident "b"]))]⟩]⟩]⟩

/-- The local and the parameter of the same name are told apart, and the global is kept. -/
theorem Definition.freeNames_expandCall_tallying :
    let fn := tallying.function
    let ctx := Context.ofProgram Program.tallied .counter
    let site : CallSite := ⟨4, true⟩
    declaredNames fn.params fn.body = ["a", "b"] ∧ fn.openNames = ["total"] ∧
    ∃ expansion ctx', tallying.expandCall [.ident "b"] site ctx = .ok (.expanded expansion, ctx') ∧
      expansion.shape = .block ∧
      (∀ name ∈ expansion.freeNames, tallying.Supplies [.ident "b"] site ctx ctx' name) ∧
      (∀ name ∈ declaredNames fn.params fn.body, name ∈ expansion.freeNames →
        name ∈ Expr.freeNamesAll [] [.ident "b"] ∨ ctx.Draws ctx' name) ∧
      fn.openNames ⊆ expansion.freeNames := by
  intro fn ctx site
  refine ⟨by decide +kernel, by decide +kernel, ?_⟩
  have hblock : (match tallying.expandCall [.ident "b"] site ctx with
      | .ok (.expanded expansion, _) => decide (expansion.shape = .block)
      | _ => false) = true := by
    decide +kernel
  match h : tallying.expandCall [.ident "b"] site ctx, hblock with
  | .ok (.expanded expansion, ctx'), hblock =>
    exact ⟨expansion, ctx', rfl, of_decide_eq_true hblock, freeNames_expandCall h⟩

end Tallying

section Selfish

/-- `A.self = function g() { return g; }`, and a function with a parameter `g` that calls it. -/
def Program.selfish : Program :=
  ⟨[⟨0, "host.js",
      [.expr (.assign (.member (.ident "A") "self") none
        (.function ⟨0, some "g", [], [.ret (some (.ident "g"))]⟩))]⟩,
    ⟨1, "main.js",
      [.function ⟨1, some "main", ["g"],
        [.ret (some (.call (.member (.ident "A") "self") []))]⟩]⟩]⟩

/-- The function is called for its name, and gives the parameter of the caller. -/
theorem Program.selfish_captured :
    let program := Program.selfish
    let table := (program.collect "host.js" ["self"] .lastWins).table
    let ctx := Context.ofProgram program .counter
    ∃ i ∈ program.inlinings table ctx, ∃ name ∈ i.expansion.freeNames,
      name ∉ Expr.freeNamesAll [] i.args ∧ name ∈ i.before.names.reserved ∧
        name ∉ i.definition.function.freeVariables ∧ i.definition.function.name = some name ∧
        i.before.scopes.isBoundInFunction i.site.scope name = true := by
  decide +kernel

end Selfish

end StaticInliner
