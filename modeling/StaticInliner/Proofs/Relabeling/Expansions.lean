import StaticInliner.Proofs.Relabeling.Copies
import StaticInliner.Proofs.Relabeling.Scopes

/-!
Two expansions side by side. Two supplies may hand out different ids, and refuse different
ones, but names are drawn at the same points. So the names drawn in two runs correspond by the
order in which they are drawn, and with a relabeling that takes each name to the one that
corresponds to it a relabeled call is expanded to the relabeled expansion.
-/
namespace StaticInliner

section Generated

namespace Context

/-- All that is reserved besides are generated names. -/
def Generates (ctx ctx' : Context) : Prop :=
  ∃ new, ctx'.names.reserved = new ++ ctx.names.reserved ∧
    ∀ name ∈ new, ∃ base id, name = StaticInliner.freshName base id

namespace Generates

theorem refl (ctx : Context) : ctx.Generates ctx := ⟨[], rfl, List.forall_mem_nil _⟩

theorem trans {ctx ctx' ctx'' : Context} (h : ctx.Generates ctx') (h' : ctx'.Generates ctx'') :
    ctx.Generates ctx'' := by
  obtain ⟨new, hreserved, hnew⟩ := h
  obtain ⟨new', hreserved', hnew'⟩ := h'
  refine ⟨new' ++ new, ?_, List.forall_mem_append.mpr ⟨hnew', hnew⟩⟩
  rw [hreserved', hreserved, List.append_assoc]

theorem suffix {ctx ctx' : Context} (h : ctx.Generates ctx') :
    ctx.names.reserved <:+ ctx'.names.reserved := by
  obtain ⟨new, hreserved, -⟩ := h
  exact ⟨new, hreserved.symm⟩

end Generates

/-- A fresh name is a generated one. -/
theorem generates_freshName (ctx : Context) (base : String) (scope : Nat) :
    ctx.Generates (ctx.freshName base scope).2 := by
  obtain ⟨id, hname⟩ := ctx.exists_freshName_eq base scope
  exact ⟨[_], ctx.reserved_freshName base scope, List.forall_mem_singleton.mpr ⟨base, id, hname⟩⟩

theorem generates_freshNames (ctx : Context) (bases : List String) (scope : Nat) :
    ctx.Generates (ctx.freshNames bases scope).2 := by
  induction bases generalizing ctx with
  | nil => exact .refl ctx
  | cons base rest ih => exact (ctx.generates_freshName base scope).trans (ih _)

end Context

theorem Direct.generates_bindParam (target : Target) (param : String) (arg : Expr)
    (later : List Expr)
    (build : Build) : build.ctx.Generates (bindParam target param arg later build).ctx := by
  unfold bindParam
  split
  · split <;> exact .refl _
  · split
    · exact .refl _
    · exact build.ctx.generates_freshName param target.scope

/-- The run over the parameters. -/
theorem Direct.generates_bindParams (target : Target) (params : List String) (args : List Expr)
    (build : Build) : build.ctx.Generates (bindParams target params args build).ctx :=
  bindParams_keeps target (P := fun build' => build.ctx.Generates build'.ctx) trivial
    (fun _ _ _ _ _ h => h.trans (generates_bindParam target _ _ _ _)) (fun _ _ _ h => h) params
    (fun _ _ => trivial) (.refl _)

theorem Block.generates_freshLabel (body : List Stmt) (scope : Nat) (ctx : Context) :
    ctx.Generates (freshLabel body scope ctx).2 := by
  unfold freshLabel
  split
  · exact ctx.generates_freshName labelStem scope
  · exact .refl ctx

theorem Block.generates_draw (fn : FunctionLit) (scope : Nat) (ctx : Context) :
    ctx.Generates (draw fn scope ctx).ctx :=
  (((ctx.generates_freshName resultStem scope).trans (generates_freshLabel fn.body scope _)).trans
    (Context.generates_freshNames _ _ scope)).trans (Context.generates_freshNames _ _ scope)

/-- An expansion only reserves generated names. -/
theorem Definition.generates_expandCall {definition : Definition} {args : List Expr}
    {site : CallSite} {ctx ctx' : Context} {outcome : CallOutcome}
    (h : definition.expandCall args site ctx = .ok (outcome, ctx')) : ctx.Generates ctx' := by
  cases outcome with
  | kept obstacle =>
    rw [ctx_eq_of_kept h]
    exact .refl ctx
  | expanded expansion =>
    obtain ⟨-, ⟨expr, -, hdone⟩ | ⟨-, -, hdone⟩⟩ := expandCall_cases h
    · cases hdone
      exact Direct.generates_bindParams _ _ args ⟨[], [], [], ctx⟩
    · cases hdone
      exact Block.generates_draw definition.function site.scope ctx

end Generated

section Pairing

/-- The names reserved at the end of two runs, and a relabeling that takes each name to the one
at the same place of the other run, counted from the beginning. If no name is replaced, then the
runs may draw from one supply, and whatever they reserve is the same. -/
structure Pairing where
  label : Relabeling
  names : List String
  names' : List String
  corresponds : ∀ (i : Nat) (name name' : String), names.reverse[i]? = some name →
    names'.reverse[i]? = some name' → label name = name'
  oneSupply : Prop
  keeps : oneSupply → label.KeepsNames

variable (p : Pairing)

/-- The two runs have come as far as these contexts. -/
def Pairing.Passes (ctx ctx' : Context) : Prop :=
  p.oneSupply ∨ ctx.names.reserved <:+ p.names ∧ ctx'.names.reserved <:+ p.names'

/-- Runs that come as far as two contexts have passed those before. -/
theorem Pairing.Passes.before {p : Pairing} {ctx ctx' after after' : Context}
    (h : p.Passes after after') (hleft : ctx.Generates after) (hright : ctx'.Generates after') :
    p.Passes ctx ctx' :=
  h.imp_right fun ends => ⟨hleft.suffix.trans ends.1, hright.suffix.trans ends.2⟩

/-- Contexts of two runs at the same point. -/
structure Context.Paired (ctx ctx' : Context) : Prop where
  scopes : ctx'.scopes = ctx.scopes.relabel p.label
  changes : ctx'.changes = ctx.changes
  stats : ctx'.stats = ctx.stats
  nextNodeId : ctx'.nextNodeId = ctx.nextNodeId
  reserved : ctx'.names.reserved.length = ctx.names.reserved.length
  names : p.oneSupply → ctx'.names = ctx.names

variable {p} {ctx ctx' : Context}

theorem getElem?_reverse_of_suffix {α : Type} {a : α} {rest list : List α}
    (h : a :: rest <:+ list) :
    list.reverse[rest.length]? = some a := by
  obtain ⟨new, rfl⟩ := h
  rw [List.reverse_append, List.reverse_cons, List.append_assoc,
    List.getElem?_append_right (by simp)]
  simp

/-- Names are drawn in step, whatever they are made of. -/
theorem Context.Paired.freshName (h : ctx.Paired p ctx') {base base' : String}
    (hbase : p.oneSupply → base' = base) (scope : Nat)
    (hpasses : p.Passes (ctx.freshName base scope).2 (ctx'.freshName base' scope).2) :
    (ctx'.freshName base' scope).1 = p.label (ctx.freshName base scope).1 ∧
      (ctx.freshName base scope).2.Paired p (ctx'.freshName base' scope).2 := by
  by_cases hone : p.oneSupply
  · have hdrawn : ctx'.names.fresh base' ctx'.scopes scope =
        ctx.names.fresh base ctx.scopes scope := by
      rw [h.names hone, hbase hone, h.scopes, ScopeTree.relabel_eq_self _ (p.keeps hone)]
    refine ⟨?_, h.scopes, h.changes, h.stats, h.nextNodeId, ?_, fun _ => congrArg Prod.snd hdrawn⟩
    · rw [p.keeps hone]
      exact (congrArg Prod.fst hdrawn :)
    · exact congrArg (·.2.reserved.length) hdrawn
  · obtain ⟨hleft, hright⟩ := hpasses.resolve_left hone
    rw [reserved_freshName] at hleft hright
    have hname := getElem?_reverse_of_suffix hleft
    have hname' := getElem?_reverse_of_suffix hright
    rw [h.reserved] at hname'
    refine ⟨(p.corresponds _ _ _ hname hname').symm, h.scopes, h.changes, h.stats, h.nextNodeId, ?_,
      (absurd · hone)⟩
    rw [reserved_freshName, reserved_freshName, List.length_cons, List.length_cons, h.reserved]

/-- The names that both runs draw correspond. -/
theorem Context.Paired.freshNames (h : ctx.Paired p ctx') (bases : List String) (scope : Nat)
    (hpasses : p.Passes (ctx.freshNames bases scope).2
      (ctx'.freshNames (bases.map p.label) scope).2) :
    (ctx'.freshNames (bases.map p.label) scope).1 =
        Renaming.relabel p.label (ctx.freshNames bases scope).1 ∧
      (ctx.freshNames bases scope).2.Paired p (ctx'.freshNames (bases.map p.label) scope).2 := by
  induction bases generalizing ctx ctx' with
  | nil => exact ⟨rfl, h⟩
  | cons base rest ih =>
    have hfirst : p.Passes (ctx.freshName base scope).2 (ctx'.freshName (p.label base) scope).2 :=
      hpasses.before (generates_freshNames _ _ scope) (generates_freshNames _ _ scope)
    obtain ⟨hname, hpaired⟩ := h.freshName (p.keeps · base) scope hfirst
    obtain ⟨hnames, hpaired'⟩ := ih hpaired hpasses
    refine ⟨?_, hpaired'⟩
    simp only [List.map_cons, Context.freshNames, hname, hnames]
    rfl

end Pairing

section Expansion

def Expansion.relabel (σ : Relabeling) (expansion : Expansion) : Expansion :=
  ⟨expansion.shape, Stmt.relabelAll σ expansion.prelude, expansion.value.relabel σ,
    expansion.result.map σ⟩

variable {p : Pairing} {ctx ctx' : Context}

namespace Direct

def Target.relabel (σ : Relabeling) (target : Target) : Target :=
  ⟨target.expr.relabel σ, target.late.map σ, target.scope⟩

theorem Target.mayDuplicate_relabel (σ : Relabeling) (target : Target) (param : String) (arg : Expr)
    (later : List Expr) :
    (target.relabel σ).mayDuplicate (σ param) (arg.relabel σ) (Expr.relabelAll σ later) =
      target.mayDuplicate param arg later := by
  cases arg with
  | ident name =>
    simp only [Expr.relabel, mayDuplicate, relabel, Expr.anySideEffects_relabelAll,
      contains_map_injective σ.injective]
  | function fn => cases fn; rfl
  | _ => rfl

/-- Substitutions in the making at the same point of two runs. -/
structure Build.Paired (p : Pairing) (build build' : Build) : Prop where
  prelude : build'.prelude = Stmt.relabelAll p.label build.prelude
  sequence : build'.sequence = Expr.relabelAll p.label build.sequence
  bindings : build'.bindings = Bindings.relabel p.label build.bindings
  ctx : build.ctx.Paired p build'.ctx

variable {build build' : Build}

/-- One parameter is bound in the same way. -/
theorem Build.Paired.bindParam (h : build.Paired p build') (target : Target) (param : String)
    (arg : Expr) (later : List Expr)
    (hpasses : p.Passes (bindParam target param arg later build).ctx
      (bindParam (target.relabel p.label) (p.label param) (arg.relabel p.label)
        (Expr.relabelAll p.label later) build').ctx) :
    (bindParam target param arg later build).Paired p
      (bindParam (target.relabel p.label) (p.label param) (arg.relabel p.label)
        (Expr.relabelAll p.label later) build') := by
  have hoccurrences : (target.relabel p.label).expr.occurrences (p.label param) =
      target.expr.occurrences param := target.expr.occurrences_relabel p.label param
  simp only [Direct.bindParam, hoccurrences, target.mayDuplicate_relabel p.label,
    Expr.hasSideEffects_relabel] at hpasses ⊢
  by_cases hzero : target.expr.occurrences param = 0
  · simp only [if_pos hzero]
    split
    · exact { h with sequence := by rw [h.sequence, Expr.relabelAll_append]; rfl }
    · exact h
  · by_cases hdup : target.mayDuplicate param arg later = true
    · simp only [if_neg hzero, if_pos hdup]
      exact { h with bindings := by rw [h.bindings]; rfl }
    · simp only [if_neg hzero, if_neg hdup] at hpasses ⊢
      obtain ⟨hname, hctx⟩ := h.ctx.freshName (p.keeps · param) target.scope hpasses
      have hscope : (target.relabel p.label).scope = target.scope := rfl
      simp only [hscope, hname]
      exact ⟨by rw [h.prelude, Stmt.relabelAll_append]; rfl,
        by simp only [h.sequence, Expr.relabelAll_append, Expr.relabelAll, Expr.relabel,
          p.label.plain],
        by rw [h.bindings]; rfl, hctx⟩

/-- The run over the parameters, in both substitutions. -/
theorem Build.Paired.bindParams (h : build.Paired p build') (target : Target) (params : List String)
    (args : List Expr)
    (hpasses : p.Passes (bindParams target params args build).ctx
      (bindParams (target.relabel p.label) (params.map p.label)
        (Expr.relabelAll p.label args) build').ctx) :
    (bindParams target params args build).Paired p
      (bindParams (target.relabel p.label) (params.map p.label)
        (Expr.relabelAll p.label args) build') := by
  induction params generalizing args build build' with
  | nil =>
    have heffects : (·.hasSideEffects) ∘ Expr.relabel p.label = (·.hasSideEffects) :=
      funext (Expr.hasSideEffects_relabel p.label)
    refine { h with sequence := ?_ }
    simp only [Direct.bindParams, List.map_nil, h.sequence, Expr.relabelAll_eq_map, List.map_append,
      List.filter_map, heffects]
  | cons param params ih =>
    cases args with
    | nil =>
      have hfirst := h.bindParam target param .undefined []
        (hpasses.before (generates_bindParams _ _ _ _) (generates_bindParams _ _ _ _))
      exact ih hfirst [] hpasses
    | cons arg args =>
      have hfirst := h.bindParam target param arg args
        (hpasses.before (generates_bindParams _ _ _ _) (generates_bindParams _ _ _ _))
      exact ih hfirst args hpasses

/-- What a finished substitution puts in the place of the call. -/
def Build.expansion (expr : Expr) (build : Build) : Expansion :=
  let value := expr.substitute build.bindings
  ⟨.direct, build.prelude,
    if build.sequence.isEmpty then value else .sequence (build.sequence ++ [value]), none⟩

theorem Build.Paired.expansion (h : build.Paired p build') (expr : Expr) :
    build'.expansion (expr.relabel p.label) = (build.expansion expr).relabel p.label := by
  have hempty : (Expr.relabelAll p.label build.sequence).isEmpty = build.sequence.isEmpty := by
    rw [Expr.relabelAll_eq_map, List.isEmpty_map]
  simp only [Build.expansion, Expansion.relabel, h.prelude, h.sequence, h.bindings,
    expr.substitute_relabel p.label, hempty]
  split
  · rfl
  · rw [Expr.relabel, Expr.relabelAll_append]
    rfl

/-- Two substitutions give corresponding expansions. -/
theorem inline_paired (h : ctx.Paired p ctx') (fn : FunctionLit) (expr : Expr) (args : List Expr)
    (scope : Nat) : let done := inline fn expr args scope ctx
    let done' :=
      inline (fn.relabel p.label) (expr.relabel p.label) (Expr.relabelAll p.label args) scope ctx'
    p.Passes done.2 done'.2 → done'.1 = done.1.relabel p.label ∧ done.2.Paired p done'.2 := by
  let target : Target := ⟨expr, (expr.lateReads fn.params {}).late, scope⟩
  have htarget : (⟨expr.relabel p.label,
      ((expr.relabel p.label).lateReads (fn.relabel p.label).params {}).late, scope⟩ : Target) =
        target.relabel p.label := by
    have hlate := expr.lateReads_relabel p.label fn.params {}
    exact congrArg (fun scan => Target.mk (expr.relabel p.label) scan.late scope) hlate
  have hstart : Build.Paired p ⟨[], [], [], ctx⟩ ⟨[], [], [], ctx'⟩ := ⟨rfl, rfl, rfl, h⟩
  simp only [inline, htarget]
  intro hpasses
  have hbuild := hstart.bindParams target fn.params args hpasses
  exact ⟨hbuild.expansion expr, hbuild.ctx⟩

end Direct

namespace Block

theorem freshLabel_paired (h : ctx.Paired p ctx') (body : List Stmt) (scope : Nat)
    (hpasses : p.Passes (freshLabel body scope ctx).2
      (freshLabel (Stmt.relabelAll p.label body) scope ctx').2) :
    (freshLabel (Stmt.relabelAll p.label body) scope ctx').1 =
      (freshLabel body scope ctx).1.map p.label ∧
      (freshLabel body scope ctx).2.Paired p
        (freshLabel (Stmt.relabelAll p.label body) scope ctx').2 := by
  simp only [freshLabel, needsLabel_relabelAll] at hpasses ⊢
  by_cases hlabel : needsLabel body = true
  · simp only [if_pos hlabel] at hpasses ⊢
    obtain ⟨hname, hctx⟩ := h.freshName (fun _ => rfl) scope hpasses
    exact ⟨congrArg some hname, hctx⟩
  · simp only [if_neg hlabel]
    exact ⟨rfl, h⟩

/-- The names drawn for a block at the same point of two runs. -/
structure Drawn.Paired (p : Pairing) (drawn drawn' : Drawn) : Prop where
  result : drawn'.result = p.label drawn.result
  label : drawn'.label = drawn.label.map p.label
  names : drawn'.names = Renaming.relabel p.label drawn.names
  labels : drawn'.labels = Renaming.relabel p.label drawn.labels
  ctx : drawn.ctx.Paired p drawn'.ctx

/-- The names drawn for two blocks correspond. -/
theorem draw_paired (h : ctx.Paired p ctx') (fn : FunctionLit) (scope : Nat)
    (hpasses : p.Passes (draw fn scope ctx).ctx (draw (fn.relabel p.label) scope ctx').ctx) :
    (draw fn scope ctx).Paired p (draw (fn.relabel p.label) scope ctx') := by
  simp only [draw, FunctionLit.relabel, declaredNames_relabelAll,
    declaredLabels_relabelAll] at hpasses ⊢
  have hpasses₃ :=
    hpasses.before (Context.generates_freshNames _ _ _) (Context.generates_freshNames _ _ _)
  have hpasses₂ :=
    hpasses₃.before (Context.generates_freshNames _ _ _) (Context.generates_freshNames _ _ _)
  have hpasses₁ := hpasses₂.before (generates_freshLabel _ _ _) (generates_freshLabel _ _ _)
  obtain ⟨hresult, hctx₁⟩ := h.freshName (fun _ => rfl) scope hpasses₁
  obtain ⟨hlabel, hctx₂⟩ := freshLabel_paired hctx₁ fn.body scope hpasses₂
  obtain ⟨hnames, hctx₃⟩ := hctx₂.freshNames _ scope hpasses₃
  obtain ⟨hlabels, hctx₄⟩ := hctx₃.freshNames _ scope hpasses
  exact ⟨hresult, hlabel, hnames, hlabels, hctx₄⟩

variable {drawn drawn' : Drawn}

theorem Drawn.Paired.copy (h : drawn.Paired p drawn') (fn : FunctionLit) :
    drawn'.copy (fn.relabel p.label) =
      (Stmt.relabelAll p.label (drawn.copy fn).1, (drawn.copy fn).2) := by
  rw [Drawn.copy, h.names, h.labels, h.ctx.nextNodeId]
  exact Stmt.renameAll_relabelAll p.label drawn.names drawn.labels fn.body drawn.ctx.nextNodeId

theorem Drawn.Paired.expansion (h : drawn.Paired p drawn') (fn : FunctionLit) (args : List Expr) :
    drawn'.expansion (fn.relabel p.label) (Expr.relabelAll p.label args) =
      (drawn.expansion fn args).relabel p.label := by
  have hblock : drawn'.block (fn.relabel p.label) (Expr.relabelAll p.label args) =
      Stmt.relabelAll p.label (drawn.block fn args) := by
    rw [Drawn.block, Drawn.block, h.copy fn]
    simp only [rebind_relabelAll, h.names, h.result, h.label, FunctionLit.relabel,
      parameters_relabel, excess_relabel, endsWithReturn_relabelAll, lower_relabelAll,
      Stmt.relabelAll_append]
  have hwrapped : drawn'.wrapped (fn.relabel p.label) (Expr.relabelAll p.label args) =
      (drawn.wrapped fn args).relabel p.label := by
    rw [Drawn.wrapped, Drawn.wrapped, h.label, hblock]
    cases drawn.label <;> rfl
  simp only [Drawn.expansion, Expansion.relabel, Drawn.prelude, hwrapped, h.result]
  rfl

/-- Two blocks are corresponding expansions. -/
theorem inline_paired (h : ctx.Paired p ctx') (fn : FunctionLit) (args : List Expr) (scope : Nat) :
    let done := inline fn args scope ctx
    let done' := inline (fn.relabel p.label) (Expr.relabelAll p.label args) scope ctx'
    p.Passes done.2 done'.2 → done'.1 = done.1.relabel p.label ∧ done.2.Paired p done'.2 := by
  simp only [inline_eq]
  intro hpasses
  have hdrawn := draw_paired h fn scope hpasses
  refine ⟨hdrawn.expansion fn args, ?_⟩
  exact { hdrawn.ctx with nextNodeId := (congrArg Prod.snd (hdrawn.copy fn) :) }

end Block

namespace Definition

def relabel (σ : Relabeling) (definition : Definition) : Definition :=
  ⟨definition.name.relabel σ, definition.function.relabel σ, definition.unit, definition.unitName⟩

variable (σ : Relabeling)

/-- Which obstacle is found first may depend on the labels, but not whether there is one. -/
theorem ineligible?_relabel (definition : Definition) (site : CallSite) (scopes : ScopeTree) :
    ((definition.relabel σ).ineligible? site (scopes.relabel σ)).map Option.isSome =
      (definition.ineligible? site scopes).map Option.isSome := by
  have hfree (scope : Nat) :
      (shadowedFree? (scopes.relabel σ) scope site.scope
          (definition.function.relabel σ).freeVariables).isSome =
        (shadowedFree? scopes scope site.scope definition.function.freeVariables).isSome := by
    rw [shadowedFree?_isSome, shadowedFree?_isSome, Bool.eq_iff_iff, List.any_eq_true,
      List.any_eq_true]
    simp only [definition.function.mem_freeVariables_relabel σ]
    constructor
    · rintro ⟨_, ⟨name, hname, rfl⟩, hbound⟩
      simp only [ScopeTree.isBoundInFunction_relabel] at hbound
      exact ⟨name, hname, hbound⟩
    · rintro ⟨name, hname, hbound⟩
      refine ⟨σ name, ⟨name, hname, rfl⟩, ?_⟩
      simp only [ScopeTree.isBoundInFunction_relabel]
      exact hbound
  simp only [ineligible?, relabel, FunctionLit.relabel, readsThis_relabelAll,
    readsArguments_relabelAll, callsName_relabelAll, ScopeTree.functionScope?_relabel]
  split
  · rfl
  · split
    · rfl
    · split
      · rfl
      · split
        · rfl
        · exact congrArg Except.ok (hfree _)

/-- If names are kept, it is the same obstacle. -/
theorem ineligible?_relabel_eq (h : σ.KeepsNames) (definition : Definition) (site : CallSite)
    (scopes : ScopeTree) :
    (definition.relabel σ).ineligible? site (scopes.relabel σ) =
      definition.ineligible? site scopes := by
  have hfree := definition.function.freeVariables_relabel σ h
  simp only [ineligible?, relabel, hfree, ScopeTree.relabel_eq_self σ h]
  simp only [FunctionLit.relabel, readsThis_relabelAll, readsArguments_relabelAll,
    callsName_relabelAll]

theorem unblockable?_relabel (definition : Definition) (site : CallSite) :
    ((definition.relabel σ).unblockable? site).isSome = (definition.unblockable? site).isSome := by
  have hcaptured : ((capturedNames (Stmt.relabelAll σ definition.function.body)).find?
      ((hoistedNames (Stmt.relabelAll σ definition.function.body)).contains ·)).isSome =
        ((capturedNames definition.function.body).find?
          ((hoistedNames definition.function.body).contains ·)).isSome := by
    rw [Bool.eq_iff_iff, List.find?_isSome, List.find?_isSome, hoistedNames_relabelAll]
    simp only [mem_capturedNames_relabelAll]
    constructor
    · rintro ⟨_, ⟨name, hname, rfl⟩, hhoisted⟩
      rw [contains_map_injective σ.injective] at hhoisted
      exact ⟨name, hname, hhoisted⟩
    · rintro ⟨name, hname, hhoisted⟩
      refine ⟨σ name, ⟨name, hname, rfl⟩, ?_⟩
      rw [contains_map_injective σ.injective]
      exact hhoisted
  have hrepeated := definition.function.repeatedParams_relabel σ
  simp only [unblockable?, relabel]
  split
  · rfl
  · rw [hrepeated]
    cases definition.function.repeatedParams with
    | nil =>
      simp only [List.map_nil, Option.isSome_map, FunctionLit.relabel]
      exact hcaptured
    | cons name rest => rfl

theorem unblockable?_relabel_eq (h : σ.KeepsNames) (definition : Definition) (site : CallSite) :
    (definition.relabel σ).unblockable? site = definition.unblockable? site := by
  simp only [unblockable?, relabel, FunctionLit.repeatedParams_relabel, h.map]
  simp only [FunctionLit.relabel, hoistedNames_relabelAll, h.map, capturedNames_relabelAll σ h]

end Definition

/-- What becomes of a call at the same point of two runs. -/
inductive ExpandedAlike (p : Pairing) : Except InlineFault (CallOutcome × Context) →
    Except InlineFault (CallOutcome × Context) → Prop
  | error (fault : InlineFault) : ExpandedAlike p (.error fault) (.error fault)
  | kept {obstacle obstacle' : Obstacle} {ctx ctx' : Context} :
    (p.oneSupply → obstacle' = obstacle) → ctx.Paired p ctx' →
    ExpandedAlike p (.ok (.kept obstacle, ctx)) (.ok (.kept obstacle', ctx'))
  | expanded {expansion expansion' : Expansion} {ctx ctx' : Context} :
    (p.Passes ctx ctx' → expansion' = expansion.relabel p.label ∧ ctx.Paired p ctx') →
    ExpandedAlike p (.ok (.expanded expansion, ctx)) (.ok (.expanded expansion', ctx'))

theorem ExpandedAlike.finish (site : CallSite) {done done' : Expansion × Context}
    (h : p.Passes done.2 done'.2 → done'.1 = done.1.relabel p.label ∧ done.2.Paired p done'.2) :
    ExpandedAlike p (.ok (Definition.finish site done)) (.ok (Definition.finish site done')) := by
  refine .expanded fun hpasses => ?_
  obtain ⟨hexpansion, hctx⟩ := h hpasses
  refine ⟨hexpansion, { hctx with scopes := ?_ }⟩
  rw [hexpansion, hctx.scopes]
  exact Stmt.declareAll_relabelAll p.label site.scope done.1.prelude done.2.scopes

/-- A relabeled call is expanded if the call is, and to the relabeled expansion. -/
theorem Definition.expandCall_paired (h : ctx.Paired p ctx') (definition : Definition)
    (args : List Expr)
    (site : CallSite) : ExpandedAlike p (definition.expandCall args site ctx)
      ((definition.relabel p.label).expandCall (Expr.relabelAll p.label args) site ctx') := by
  have heligible := definition.ineligible?_relabel p.label site ctx.scopes
  have hsame (hone : p.oneSupply) :=
    definition.ineligible?_relabel_eq p.label (p.keeps hone) site ctx.scopes
  rw [← h.scopes] at heligible hsame
  have hsubstitutable : (definition.relabel p.label).function.substitutable? =
      definition.function.substitutable?.map (·.relabel p.label) :=
    definition.function.substitutable?_relabel p.label
  have hblock := definition.unblockable?_relabel p.label site
  simp only [expandCall]
  generalize definition.ineligible? site ctx.scopes = found at heligible hsame ⊢
  generalize (definition.relabel p.label).ineligible? site ctx'.scopes = found' at heligible hsame ⊢
  cases found with
  | error fault =>
    cases found' with
    | error fault' =>
      cases heligible
      exact .error fault
    | ok obstacle' => cases heligible
  | ok obstacle =>
    cases found' with
    | error fault' => cases heligible
    | ok obstacle' =>
      have hobstacle : obstacle'.isSome = obstacle.isSome := Except.ok.inj heligible
      cases obstacle with
      | some obstacle =>
        obtain ⟨obstacle', rfl⟩ := Option.isSome_iff_exists.mp hobstacle
        exact .kept (fun hone => Option.some.inj (Except.ok.inj (hsame hone))) h
      | none =>
        obtain rfl := Option.isNone_iff_eq_none.mp (Option.isSome_eq_false_iff.mp hobstacle)
        simp only [hsubstitutable]
        cases definition.function.substitutable? with
        | some expr => exact .finish site (Direct.inline_paired h _ expr args site.scope)
        | none =>
          simp only [Option.map_none]
          cases hunblockable : definition.unblockable? site with
          | some obstacle =>
            rw [hunblockable] at hblock
            obtain ⟨obstacle', hobstacle'⟩ := Option.isSome_iff_exists.mp hblock
            rw [hobstacle']
            refine .kept (fun hone => ?_) h
            rw [definition.unblockable?_relabel_eq p.label (p.keeps hone),
              hunblockable] at hobstacle'
            exact (Option.some.inj hobstacle').symm
          | none =>
            rw [hunblockable] at hblock
            rw [Option.isNone_iff_eq_none.mp (Option.isSome_eq_false_iff.mp hblock)]
            exact .finish site (Block.inline_paired h _ args site.scope)

end Expansion

end StaticInliner
