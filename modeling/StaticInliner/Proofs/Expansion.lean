import StaticInliner.Inline.Call
import StaticInliner.Proofs.FreshNames

/-!
What it takes for a call to be expanded, and what the expansion is then. Proofs
about expansions start from here and do not open the decision again. The names
that a block draws are gathered in one record, with what they have in common.
-/
namespace StaticInliner

theorem shadowedFree?_isSome (scopes : ScopeTree) (definition site : Nat) (names : List String) :
    (shadowedFree? scopes definition site names).isSome = names.any fun name =>
      scopes.isBoundInFunction definition name || scopes.isBoundInFunction site name := by
  induction names with
  | nil => rfl
  | cons name rest ih =>
    rw [shadowedFree?, List.any_cons, ← ih]
    cases scopes.isBoundInFunction definition name <;>
      cases scopes.isBoundInFunction site name <;> rfl

/-- No name is bound by a function, neither at the definition nor at the call. -/
theorem shadowedFree?_eq_none {scopes : ScopeTree} {definition site : Nat} {names : List String}
    (h : shadowedFree? scopes definition site names = none) : ∀ name ∈ names,
      scopes.isBoundInFunction definition name = false ∧
        scopes.isBoundInFunction site name = false := by
  have hnone := shadowedFree?_isSome scopes definition site names
  rw [h, Option.isSome_none, eq_comm, List.any_eq_false] at hnone
  intro name hname
  exact Bool.or_eq_false_iff.mp (Bool.eq_false_iff.mpr (hnone name hname))

theorem FunctionLit.substitutable?_eq_some_iff {fn : FunctionLit} {expr : Expr} :
    fn.substitutable? = some expr ↔ fn.returned? = some expr ∧ expr.hasFunctionLit = false ∧
      expr.assignsTo fn.params = false := by
  rw [substitutable?, Option.filter_eq_some_iff, Bool.and_eq_true, Bool.not_eq_true',
    Bool.not_eq_true']

namespace Definition

variable {definition : Definition} {site : CallSite} {scopes : ScopeTree}

/-- A body that does not depend on how and where it is called. -/
structure Eligible (definition : Definition) (site : CallSite) (scopes : ScopeTree) : Prop where
  this : readsThis definition.function.body = false
  arguments : readsArguments definition.function.body = false
  free : ∃ inner, scopes.functionScope? definition.function.id = some inner ∧
    ∀ name ∈ definition.function.freeVariables,
      scopes.isBoundInFunction inner name = false ∧
        scopes.isBoundInFunction site.scope name = false

theorem eligible_of_ineligible? (h : definition.ineligible? site scopes = .ok none) :
    definition.Eligible site scopes := by
  simp only [ineligible?] at h
  split at h
  · simp at h
  · next hthis =>
    split at h
    · simp at h
    · next harguments =>
      split at h
      · simp at h
      · split at h
        · simp at h
        · next inner hinner =>
          exact ⟨Bool.eq_false_iff.mpr hthis, Bool.eq_false_iff.mpr harguments, inner, hinner,
            shadowedFree?_eq_none (Except.ok.inj h)⟩

/-- The two ways in which a call is expanded. -/
theorem expandCall_cases {args : List Expr} {ctx ctx' : Context} {expansion : Expansion}
    (h : definition.expandCall args site ctx = .ok (.expanded expansion, ctx')) :
    definition.Eligible site ctx.scopes ∧
    ((∃ expr, definition.function.substitutable? = some expr ∧ (.expanded expansion, ctx') =
        finish site (Direct.inline definition.function expr args site.scope ctx)) ∨
      (definition.function.substitutable? = none ∧ definition.unblockable? site = none ∧
        (.expanded expansion, ctx') =
          finish site (Block.inline definition.function args site.scope ctx))) := by
  simp only [expandCall] at h
  split at h
  · simp at h
  · simp at h
  · next helig =>
    refine ⟨eligible_of_ineligible? helig, ?_⟩
    split at h
    · next expr hexpr => exact .inl ⟨expr, hexpr, (Except.ok.inj h).symm⟩
    · next hnone =>
      split at h
      · simp at h
      · next hblock => exact .inr ⟨hnone, hblock, (Except.ok.inj h).symm⟩

/-- A call that is kept leaves the context as it was. -/
theorem ctx_eq_of_kept {args : List Expr} {ctx ctx' : Context} {obstacle : Obstacle}
    (h : definition.expandCall args site ctx = .ok (.kept obstacle, ctx')) : ctx' = ctx := by
  simp only [expandCall] at h
  split at h
  · cases h
  · cases h
    rfl
  · split at h
    · cases h
    · split at h
      · cases h
        rfl
      · cases h

/-- An attempt fails only if the function has no scope. -/
theorem functionScope?_of_error {args : List Expr} {ctx : Context} {fault : InlineFault}
    (h : definition.expandCall args site ctx = .error fault) :
    ctx.scopes.functionScope? definition.function.id = none := by
  simp only [expandCall] at h
  split at h
  · next herror =>
    simp only [ineligible?] at herror
    split at herror
    · cases herror
    · split at herror
      · cases herror
      · split at herror
        · cases herror
        · split at herror
          · assumption
          · cases herror
  · cases h
  · split at h
    · cases h
    · split at h <;> cases h

/-- When a call is expanded to an expression. -/
theorem expandCall_direct {ctx : Context} {expr : Expr}
    (helig : definition.ineligible? site ctx.scopes = .ok none)
    (hdirect : definition.function.substitutable? = some expr) (args : List Expr) :
    definition.expandCall args site ctx =
      .ok (finish site (Direct.inline definition.function expr args site.scope ctx)) := by
  simp only [expandCall, helig, hdirect]

/-- When a call is expanded to a block. -/
theorem expandCall_block {ctx : Context} (helig : definition.ineligible? site ctx.scopes = .ok none)
    (hdirect : definition.function.substitutable? = none)
    (hblock : definition.unblockable? site = none) (args : List Expr) :
    definition.expandCall args site ctx =
      .ok (finish site (Block.inline definition.function args site.scope ctx)) := by
  simp only [expandCall, helig, hdirect, hblock]

end Definition

namespace Renaming

variable {names : Renaming} {name other : String}

theorem apply_of_notMem (h : name ∉ names.map (·.1)) : names.apply name = name := by
  have hnone : names.lookup name = none := by
    rw [List.lookup_eq_none_iff]
    intro entry hentry
    rw [bne_iff_ne]
    exact fun heq => h (List.mem_map.mpr ⟨entry, hentry, heq.symm⟩)
  rw [apply, hnone, Option.getD_none]

theorem mem_of_mem (h : name ∈ names.map (·.1)) : (name, names.apply name) ∈ names := by
  induction names with
  | nil => cases h
  | cons entry rest ih =>
    obtain ⟨old, new⟩ := entry
    rw [apply, List.lookup_cons]
    by_cases heq : name = old
    · subst heq
      simp
    · rw [beq_eq_false_iff_ne.mpr heq]
      exact List.mem_cons_of_mem _ (ih ((List.mem_cons.mp h).resolve_left heq))

theorem apply_mem (h : name ∈ names.map (·.1)) : names.apply name ∈ names.map (·.2) :=
  List.mem_map.mpr ⟨_, mem_of_mem h, rfl⟩

/-- New names that are all different tell the old ones apart. -/
theorem apply_injective (hnodup : (names.map (·.2)).Nodup) (h : name ∈ names.map (·.1))
    (hother : other ∈ names.map (·.1)) (heq : names.apply name = names.apply other) :
    name = other := by
  have hpair := List.inj_on_of_nodup_map hnodup (mem_of_mem h) (mem_of_mem hother) heq
  exact congrArg Prod.fst hpair

end Renaming

namespace Block

/-- The names that a block substitution draws, and the context after that. -/
structure Drawn where
  result : String
  label : Option String
  names : Renaming
  labels : Renaming
  ctx : Context

def draw (fn : FunctionLit) (scope : Nat) (ctx : Context) : Drawn :=
  let result := ctx.freshName resultStem scope
  let label := freshLabel fn.body scope result.2
  let names := label.2.freshNames (declaredNames fn.params fn.body) scope
  let labels := names.2.freshNames (declaredLabels fn.body) scope
  ⟨result.1, label.1, names.1, labels.1, labels.2⟩

namespace Drawn

def all (drawn : Drawn) : List String :=
  [drawn.result] ++ drawn.label.toList ++ drawn.names.map (·.2) ++ drawn.labels.map (·.2)

/-- The body under its new names. -/
def copy (drawn : Drawn) (fn : FunctionLit) : List Stmt × IdCounter :=
  Stmt.renameAll drawn.names drawn.labels fn.body drawn.ctx.nextNodeId

/-- The statements of the block. -/
def block (drawn : Drawn) (fn : FunctionLit) (args : List Expr) : List Stmt :=
  parameters drawn.names fn.params args ++ excess fn.params args ++
    (rebind (drawn.copy fn).1).declarations ++
      lower drawn.result drawn.label (endsWithReturn fn.body) (rebind (drawn.copy fn).1).body

def wrapped (drawn : Drawn) (fn : FunctionLit) (args : List Expr) : Stmt :=
  match drawn.label with
  | some label => .labeled label (drawn.block fn args)
  | none => .block (drawn.block fn args)

/-- The result variable, and the block that sets it. -/
def prelude (drawn : Drawn) (fn : FunctionLit) (args : List Expr) : List Stmt :=
  [.var .letVar drawn.result none, drawn.wrapped fn args]

def expansion (drawn : Drawn) (fn : FunctionLit) (args : List Expr) : Expansion :=
  ⟨.block, drawn.prelude fn args, .ident drawn.result, some drawn.result⟩

end Drawn

variable (fn : FunctionLit) (args : List Expr) (scope : Nat) (ctx : Context)

theorem inline_eq : inline fn args scope ctx =
    ((draw fn scope ctx).expansion fn args,
      { (draw fn scope ctx).ctx with nextNodeId := ((draw fn scope ctx).copy fn).2 }) := rfl

theorem drew_freshLabel (body : List Stmt) :
    ctx.Drew (freshLabel body scope ctx).1.toList (freshLabel body scope ctx).2 := by
  unfold freshLabel
  split
  · exact ctx.drew_freshName labelStem scope
  · exact .refl ctx

theorem drew_draw : ctx.Drew (draw fn scope ctx).all (draw fn scope ctx).ctx :=
  (((ctx.drew_freshName resultStem scope).trans (drew_freshLabel scope _ fn.body)).trans
    (Context.drew_freshNames _ _ scope)).trans (Context.drew_freshNames _ _ scope)

theorem isSome_label_draw : (draw fn scope ctx).label.isSome = needsLabel fn.body := by
  simp only [draw, freshLabel]
  split
  · next h => rw [h]; rfl
  · next h => rw [Bool.eq_false_iff.mpr h]; rfl

theorem map_fst_names_draw :
    (draw fn scope ctx).names.map (·.1) = declaredNames fn.params fn.body :=
  Context.map_fst_freshNames _ _ _

theorem map_fst_labels_draw : (draw fn scope ctx).labels.map (·.1) = declaredLabels fn.body :=
  Context.map_fst_freshNames _ _ _

end Block

end StaticInliner
