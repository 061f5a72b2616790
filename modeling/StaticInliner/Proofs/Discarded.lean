import StaticInliner.Proofs.Changes
import StaticInliner.Proofs.Hygiene

/-!
Literals that are lost. An inlining discards the arguments that have no side effects and whose
parameter is ignored. The function literals of a program and those discarded on the way to it
are together the literals at the start and the copies made since, each of them once. So a body
that is marked as changed is in the result, unless it was discarded after it was changed.
-/
namespace StaticInliner

open ScopeTree

section Arguments

/-- The arguments of a call, each with the parameter that it is for. -/
def paired : List String → List Expr → List (Option String × Expr)
  | _, [] => []
  | [], arg :: args => (none, arg) :: paired [] args
  | param :: params, arg :: args => (some param, arg) :: paired params args

/-- The arguments without side effects for parameters that are ignored. -/
def discardedBy (ignored : Option String → Bool) (params : List String) (args : List Expr) :
    List Expr :=
  ((paired params args).filter fun entry => ignored entry.1 && !entry.2.hasSideEffects).map (·.2)

/-- The function takes no such parameter, or is an expression in which it does not occur. -/
def FunctionLit.ignores (fn : FunctionLit) (param : Option String) : Bool :=
  param.all fun name => fn.substitutable?.any (·.occurrences name == 0)

/-- The arguments that are left out when a call is inlined. -/
def FunctionLit.discarded (fn : FunctionLit) (args : List Expr) : List Expr :=
  discardedBy fn.ignores fn.params args

variable {ignored : Option String → Bool}

theorem discardedBy_none (h : ignored none = true) (args : List Expr) :
    discardedBy ignored [] args = args.filter (!·.hasSideEffects) := by
  induction args with
  | nil => rfl
  | cons arg args ih =>
    unfold discardedBy at ih ⊢
    rw [paired, List.filter_cons, List.filter_cons, h, Bool.true_and]
    cases arg.hasSideEffects with
    | true => exact ih
    | false => exact congrArg (arg :: ·) ih

theorem discardedBy_cons (param : String) (params : List String) (arg : Expr) (args : List Expr) :
    discardedBy ignored (param :: params) (arg :: args) =
      (if ignored (some param) && !arg.hasSideEffects then [arg] else []) ++
        discardedBy ignored params args := by
  rw [discardedBy, paired, List.filter_cons]
  split <;> rfl

/-- A block does without the excess arguments that have no side effects. -/
theorem discardedBy_excess (hnone : ignored none = true)
    (hsome : ∀ param, ignored (some param) = false) (params : List String) (args : List Expr) :
    discardedBy ignored params args = (args.drop params.length).filter (!·.hasSideEffects) := by
  induction params generalizing args with
  | nil => exact discardedBy_none hnone args
  | cons param params ih =>
    cases args with
    | nil => rfl
    | cons arg args =>
      rw [discardedBy_cons, hsome, ih]
      rfl

theorem FunctionLit.perm_passed {fn : FunctionLit} (h : fn.substitutable? = none)
    (args : List Expr) :
    (fn.passed args ++ fn.discarded args).Perm args := by
  have hdiscarded :
      fn.discarded args = (args.drop fn.params.length).filter (!·.hasSideEffects) := by
    refine discardedBy_excess rfl (fun param => ?_) fn.params args
    rw [ignores, h]
    rfl
  have hexcess : ((args.drop fn.params.length).filter (·.hasSideEffects) ++
      (args.drop fn.params.length).filter (!·.hasSideEffects)).Perm (args.drop fn.params.length) :=
    List.filter_append_perm _ _
  have hargs := hexcess.append_left (args.take fn.params.length)
  rwa [List.take_append_drop, ← List.append_assoc, ← hdiscarded] at hargs

end Arguments

section Substitutions

namespace Direct

variable (target : Target) (owner : ChangedBody)

/-- The literals of an argument are evaluated, discarded, or there are none. -/
theorem perm_bindParam (param : String) (arg : Expr) (later : List Expr) (build : Build) :
    ((bindParam target param arg later build).sequence.flatMap (·.layers owner) ++
      (if target.expr.occurrences param == 0 && !arg.hasSideEffects then [arg] else []).flatMap
        (·.layers owner)).Perm
      (build.sequence.flatMap (·.layers owner) ++ arg.layers owner) := by
  unfold bindParam
  by_cases hunused : target.expr.occurrences param = 0
  · rw [if_pos hunused]
    cases hpure : arg.hasSideEffects with
    | true => simp
    | false => simp [hunused]
  · rw [if_neg hunused]
    split
    · next hdup => simp [hunused, Target.layers_of_mayDuplicate hdup owner]
    · simp [hunused, Expr.layers]

/-- The run over the parameters: every argument is placed or discarded. -/
theorem perm_bindParams (params : List String) (args : List Expr) (build : Build) :
    ((bindParams target params args build).sequence.flatMap (·.layers owner) ++
      (discardedBy (·.all (target.expr.occurrences · == 0)) params args).flatMap
        (·.layers owner)).Perm
      (build.sequence.flatMap (·.layers owner) ++ args.flatMap (·.layers owner)) := by
  let unused (params : List String) (args : List Expr) : List Layer :=
    (discardedBy (·.all (target.expr.occurrences · == 0)) params args).flatMap (·.layers owner)
  -- what will be discarded is what is discarded of the rest and what has been so far
  obtain ⟨extras, last, hlast, hdone⟩ := bindParams_run target
    (fun left rest build' =>
      (build'.sequence.flatMap (·.layers owner) ++ rest.flatMap (·.layers owner) ++
        unused params args).Perm
      (build.sequence.flatMap (·.layers owner) ++ args.flatMap (·.layers owner) ++
        unused left rest))
    (fun param left rest build' h => by
      cases rest with
      | nil =>
        have hstep := perm_bindParam target owner param .undefined [] build'
        have hnone : (if target.expr.occurrences param == 0 && !Expr.undefined.hasSideEffects then
            [Expr.undefined] else []).flatMap (·.layers owner) = [] := by
          split <;> rfl
        rw [hnone, List.append_nil] at hstep
        refine .trans ?_ h
        rw [List.tail_nil, List.flatMap_nil, List.append_nil]
        exact hstep.append_right _
      | cons arg rest =>
        have hstep := perm_bindParam target owner param arg rest build'
        simp only [unused, discardedBy_cons, Option.all_some] at h ⊢
        classical
        rw [List.perm_iff_count] at h hstep ⊢
        intro layer
        have h := h layer
        have hstep := hstep layer
        simp only [List.flatMap_append, List.flatMap_cons, List.count_append, List.headD_cons,
          List.tail_cons] at h hstep ⊢
        omega)
    params args build (.refl _)
  have hextras : ((extras.filter (·.hasSideEffects) ++
      extras.filter (!·.hasSideEffects)).flatMap (·.layers owner)).Perm
      (extras.flatMap (·.layers owner)) := (List.filter_append_perm _ _).flatMap_right _
  rw [hdone, Build.withExcess]
  classical
  rw [List.perm_iff_count] at hlast hextras ⊢
  intro layer
  have hlast := hlast layer
  have hextras := hextras layer
  simp only [unused, discardedBy_none (rfl : Option.all (fun name =>
    target.expr.occurrences name == 0) none = true), List.flatMap_append, List.count_append]
    at hlast hextras ⊢
  omega

/-- The literals of the arguments are evaluated first, or discarded. -/
theorem perm_inline {fn : FunctionLit} {expr : Expr} (h : fn.substitutable? = some expr)
    (args : List Expr) (scope : Nat) (ctx : Context) (owner : ChangedBody) :
    (Stmt.layersAll owner (inline fn expr args scope ctx).1.prelude ++
      (inline fn expr args scope ctx).1.value.layers owner ++
      (fn.discarded args).flatMap (·.layers owner)).Perm (args.flatMap (·.layers owner)) := by
  let target : Target := ⟨expr, (expr.lateReads fn.params {}).late, scope⟩
  have hignores : fn.ignores = (·.all (target.expr.occurrences · == 0)) := by
    funext param
    rw [FunctionLit.ignores, h]
    rfl
  obtain ⟨drawn, hextends⟩ := extends_bindParams target fn.params args ⟨[], [], [], ctx⟩
  obtain ⟨-, hlit, -⟩ := FunctionLit.substitutable?_eq_some_iff.mp h
  have hvalue := hextends.layers_substitute (Expr.layers_eq_nil hlit) owner
  have hprelude : Stmt.layersAll owner (inline fn expr args scope ctx).1.prelude = [] := by
    rw [show (inline fn expr args scope ctx).1.prelude = _ from hextends.prelude, List.nil_append]
    exact Stmt.layersAll_vars owner .var drawn
  have hparams := perm_bindParams target owner fn.params args ⟨[], [], [], ctx⟩
  rw [← hignores] at hparams
  rw [hprelude, List.nil_append]
  simp only [inline]
  rw [Expr.found_sequence (·.layers owner) (fun e => Expr.layers_children owner), hvalue,
    List.append_nil]
  exact hparams

end Direct

theorem gathers_layers (owner : ChangedBody) :
    Gathers (fun _ => []) (·.layers owner) (·.layers owner) where
  parts s hs := by
    rw [Stmt.layers_parts owner hs, ← funext (Stmt.layersAll_eq_flatMap owner)]
  assign _ _ := rfl

/-- The literals of a block are those of the arguments that are passed and the copies of those
in the body. -/
theorem Block.perm_inline {fn : FunctionLit} (h : fn.substitutable? = none) (args : List Expr)
    (scope : Nat) (ctx : Context) (owner : ChangedBody) :
    (Stmt.layersAll owner (inline fn args scope ctx).1.prelude ++
      (inline fn args scope ctx).1.value.layers owner ++
      (fn.discarded args).flatMap (·.layers owner)).Perm
      (args.flatMap (·.layers owner) ++ Stmt.layersAll owner ((draw fn scope ctx).copy fn).1) := by
  have hprelude := (draw fn scope ctx).gathered_prelude_eq fn (gathers_layers owner) args
  rw [← Stmt.layersAll_eq_flatMap, ← Stmt.layersAll_eq_flatMap] at hprelude
  have hargs := (FunctionLit.perm_passed h args).flatMap_right (·.layers owner)
  have hvalue : (inline fn args scope ctx).1.value.layers owner = [] := rfl
  rw [hvalue, List.append_nil, inline_eq]
  refine (List.Perm.append_right _ (List.Perm.of_eq hprelude)).trans ?_
  classical
  rw [List.perm_iff_count] at hargs ⊢
  intro layer
  have hargs := hargs layer
  simp only [List.flatMap_append, List.count_append] at hargs ⊢
  omega

/-- The copies have the ids that are drawn. -/
theorem Block.map_owner_copy (fn : FunctionLit) (scope : Nat) (ctx : Context)
    (owner : ChangedBody) :
    (Stmt.layersAll owner ((draw fn scope ctx).copy fn).1).map (·.owner) =
      (ctx.nextNodeId.drawn
        (functionIds (Stmt.nodesAll .nested fn.body)).length).map .function := by
  have hnext : (draw fn scope ctx).ctx.nextNodeId = ctx.nextNodeId :=
    (congrArg Context.nextNodeId (drewAt_draw fn scope ctx).others :)
  rw [Stmt.map_owner_layersAll, Drawn.copy, (Stmt.numbered_renameAll _ _ _ _).ids,
    Stmt.length_functionIds_renameAll, hnext]

/-- The literals of an expansion and of the discarded arguments are those of all arguments and
the copies. -/
theorem Definition.perm_expandCall {definition : Definition} {args : List Expr} {site : CallSite}
    {ctx ctx' : Context} {expansion : Expansion}
    (h : definition.expandCall args site ctx = .ok (.expanded expansion, ctx'))
    (owner : ChangedBody) :
    ∃ copied : List Layer, copied.map (·.owner) =
        (ctx.nextNodeId.drawn (expansion.copies definition.function)).map .function ∧
      (Stmt.layersAll owner expansion.prelude ++ expansion.value.layers owner ++
        (definition.function.discarded args).flatMap (·.layers owner)).Perm
        (args.flatMap (·.layers owner) ++ copied) := by
  obtain ⟨-, ⟨expr, hexpr, hdone⟩ | ⟨hexpr, -, hdone⟩⟩ := Definition.expandCall_cases h
  · obtain ⟨hexpansion, rfl⟩ := Prod.mk.inj hdone
    obtain rfl := CallOutcome.expanded.inj hexpansion
    refine ⟨[], rfl, ?_⟩
    rw [List.append_nil]
    exact Direct.perm_inline hexpr args site.scope ctx owner
  · obtain ⟨hexpansion, rfl⟩ := Prod.mk.inj hdone
    obtain rfl := CallOutcome.expanded.inj hexpansion
    exact ⟨_, Block.map_owner_copy definition.function site.scope ctx owner,
      Block.perm_inline hexpr args site.scope ctx owner⟩

end Substitutions

section Conservation

/-- The bodies of a program: those of its units and of its function literals. -/
def Program.bodies (program : Program) : List ChangedBody :=
  program.units.map (.script ·.id) ++ (functionIds program.nodes).map .function

/-- The function literals that an inlining discards. -/
def Inlining.discarded (i : Inlining) : List ChangedBody :=
  (i.definition.function.discarded i.args).flatMap fun arg =>
    (functionIds (arg.nodes .nested)).map .function

/-- A dotted name holds no function literal. -/
theorem Expr.layers_of_qualifiedName? {e : Expr} {name : QualifiedName}
    (h : e.qualifiedName? = some name) (owner : ChangedBody) :
    e.layers owner = [] := by
  induction e using Expr.qualifiedName?.induct generalizing name with
  | case1 name => rfl
  | case2 object property ih =>
    obtain ⟨inner, hinner, -⟩ := Option.bind_eq_some_iff.mp h
    exact ih hinner
  | case3 e hident hmember => simp [qualifiedName?] at h

/-- The bodies of a program are those in what is filled in at a spot, and others that do not
depend on it. -/
theorem Spot.perm_bodies (spot : Spot) : ∃ others, ∀ prelude e, (spot.plug prelude e).bodies.Perm
    (others ++ (Stmt.layersAll spot.place.owner prelude ++ e.layers spot.place.owner).map
      (·.owner)) := by
  obtain ⟨others, hplug⟩ := spot.layers_plug
  refine ⟨spot.place.owner :: others.map (·.owner), fun prelude e => ?_⟩
  have hlayers := (hplug prelude e).map (·.owner)
  have howner : (spot.layer prelude e).owner = spot.place.owner := spot.place.owner_layer _
  rw [List.map_cons, List.map_append, howner] at hlayers
  exact (Program.perm_owners _).symm.trans hlayers

/-- What an inlining discards is missing afterwards, and nothing else is. -/
theorem Inlining.Performed.perm_bodies {i : Inlining} (h : i.Performed) :
    (i.programAfter.bodies ++ i.discarded).Perm
      (i.programBefore.bodies ++ (i.before.nextNodeId.drawn i.copies).map .function) := by
  obtain ⟨name, hname, -, -⟩ := h.callee
  obtain ⟨ctx, hexpand, -⟩ := h.expanded
  obtain ⟨copied, hcopied, hlayers⟩ := Definition.perm_expandCall hexpand i.owner
  have hcallee : i.callee.layers i.owner = [] :=
    Expr.layers_of_qualifiedName? (Option.filter_eq_some_iff.mp hname).1 i.owner
  have hcall : (Expr.call i.callee i.args).layers i.owner = i.args.flatMap (·.layers i.owner) := by
    rw [Expr.layers, hcallee, List.nil_append, Expr.layersAll_eq_flatMap]
  have hdiscarded :
    ((i.definition.function.discarded i.args).flatMap (·.layers i.owner)).map (·.owner) =
      i.discarded := by
    rw [List.map_flatMap]
    exact List.flatMap_congr fun arg _ => arg.map_owner_layers i.owner
  obtain ⟨others, hplug⟩ := i.spot.perm_bodies
  have hbefore : i.programBefore.bodies.Perm (others ++ (Stmt.layersAll i.owner i.waiting ++
      (Expr.call i.callee i.args).layers i.owner).map (·.owner)) := hplug _ _
  have hafter : i.programAfter.bodies.Perm (others ++ (Stmt.layersAll i.owner
      (i.waiting ++ i.expansion.prelude) ++ i.expansion.value.layers i.owner).map (·.owner)) :=
    hplug _ _
  have hbalance := hlayers.map (·.owner)
  rw [hcall] at hbefore
  rw [Stmt.layersAll_append] at hafter
  rw [Inlining.copies, ← hcopied, ← hdiscarded]
  rw [List.perm_iff_count] at hbefore hafter hbalance ⊢
  intro body
  have hbefore := hbefore body
  have hafter := hafter body
  have hbalance := hbalance body
  simp only [List.map_append, List.count_append] at hbefore hafter hbalance ⊢
  omega

theorem Place.perm_bodies_drop (place : Place) (done rest : List Stmt) (name : String) :
    (place.plug (done ++ Stmt.expr (.ident name) :: rest)).bodies.Perm
      (place.plug (done ++ rest)).bodies := by
  obtain ⟨others, hbefore, hafter⟩ := place.layers_drop done rest name
  have hbefore := hbefore.map (·.owner)
  have hafter := hafter.map (·.owner)
  rw [List.map_cons, place.owner_layer] at hbefore hafter
  exact (Program.perm_owners _).symm.trans
    ((hbefore.trans hafter.symm).trans (Program.perm_owners _))

namespace Reaches

variable {start m : Moment} {history : List Inlining}

/-- The bodies of a moment and those discarded on the way to it are the bodies at the start and
all copies. -/
theorem perm_bodies (h : Reaches start history m) :
    (m.program.bodies ++ history.flatMap Inlining.discarded).Perm
      (start.program.bodies ++
        (start.ctx.nextNodeId.drawn (copyCount history)).map .function) := by
  induction h with
  | start => exact .refl _
  | count _ _ ih => exact ih
  | drop place done rest name _ _ ih =>
    exact ((place.perm_bodies_drop done rest name).symm.append_right _).trans ih
  | inline i hbefore _ hperformed _ ih =>
    have hstep :
      (i.momentAfter.program.bodies ++ i.discarded).Perm (i.momentBefore.program.bodies ++
      (i.momentBefore.ctx.nextNodeId.drawn i.copies).map ChangedBody.function) :=
        hperformed.perm_bodies
    rw [hbefore.counter_eq] at hstep
    rw [copyCount_snoc, IdCounter.drawn_add, List.map_append, List.flatMap_append,
      List.flatMap_singleton]
    rw [List.perm_iff_count] at hstep ih ⊢
    intro body
    have hstep := hstep body
    have ih := ih body
    simp only [List.count_append] at hstep ih ⊢
    omega

/-- A body in which something was inlined is still there or was discarded. -/
theorem owner_mem (h : Reaches start history m) : ∀ i ∈ history,
    i.owner ∈ m.program.bodies ++ history.flatMap Inlining.discarded := by
  induction h with
  | start => exact List.forall_mem_nil _
  | count _ _ ih => exact ih
  | drop place done rest name _ _ ih =>
    exact fun i hi => ((place.perm_bodies_drop done rest name).append_right _).mem_iff.mp (ih i hi)
  | inline i hbefore _ hperformed _ ih =>
    have howner : i.owner ∈ i.programBefore.bodies := i.programBefore.perm_owners.mem_iff.mp
      (List.mem_map.mpr ⟨i.layerBefore, i.layerBefore_mem, i.owner_layerBefore⟩)
    have hkept {body : ChangedBody} (hbody : body ∈ i.programBefore.bodies) :
        body ∈ i.programAfter.bodies ∨ body ∈ i.discarded :=
      List.mem_append.mp (hperformed.perm_bodies.mem_iff.mpr (List.mem_append_left _ hbody))
    simp only [List.flatMap_append, List.flatMap_singleton, List.mem_append] at ih ⊢
    rintro j (hj | hj)
    · rcases ih j hj with hmem | hmem
      · exact (hkept hmem).imp_right .inr
      · exact .inr (.inl hmem)
    · rw [List.mem_singleton.mp hj]
      exact (hkept howner).imp_right .inr

/-- As long as the new ids fit, no body is discarded and still there. -/
theorem notMem_discarded (h : Reaches start history m) {next : Nat} (hstart : start.Consistent next)
    (hfits : IdCounter.Fits next (copyCount history)) {body : ChangedBody}
    (hbody : body ∈ m.program.bodies) : body ∉ history.flatMap Inlining.discarded := by
  have hold : ∀ id, .function id ∈ start.program.bodies → id < next := by
    intro id hid
    obtain ⟨layer, hlayer, howner⟩ := List.mem_map.mp (start.program.perm_owners.mem_iff.mpr hid)
    exact hstart.known id (howner ▸ Knows.of_resolved (hstart.resolved layer hlayer))
  have hnodup : (start.program.bodies ++
      (start.ctx.nextNodeId.drawn (copyCount history)).map ChangedBody.function).Nodup := by
    rw [hstart.counter, IdCounter.drawn_ofNat hfits]
    refine List.nodup_append.mpr ⟨start.program.perm_owners.nodup_iff.mp hstart.distinct, ?_, ?_⟩
    · exact List.Nodup.map (fun _ _ => ChangedBody.function.inj) List.nodup_range'
    · rintro body hbody _ hcopy rfl
      obtain ⟨id, hid, rfl⟩ := List.mem_map.mp hcopy
      exact absurd (hold id hbody) (Nat.not_lt.mpr (List.mem_range'_1.mp hid).1)
  have hapart := (List.nodup_append.mp (h.perm_bodies.nodup_iff.mpr hnodup)).2.2
  exact fun hdiscarded => hapart body hbody body hdiscarded rfl

end Reaches

end Conservation

namespace Config

variable {program : Program}

/-- A body that is marked as changed is in the result if no inlining of the run has discarded
it; and only then, as long as the new ids fit. -/
theorem mem_bodies_of_changes (config : Config) (hvalid : program.validate = .ok ())
    (supply : IdSupply) (hgoing : (config.run program supply).fault = none) {body : ChangedBody}
    (hmarked : (config.run program supply).ctx.changes.contains body = true) :
    ((∀ i ∈ config.inlinings program supply, body ∉ i.discarded) →
      body ∈ (config.run program supply).program.bodies) ∧
    (config.IdsFit program supply → body ∈ (config.run program supply).program.bodies →
      ∀ i ∈ config.inlinings program supply, body ∉ i.discarded) := by
  have hreaches := (config.led_run hvalid supply).reaches hgoing
  obtain ⟨i, hi, rfl⟩ := (config.contains_changes_run hvalid supply body).mp hmarked
  constructor
  · intro hnone
    refine (List.mem_append.mp (hreaches.owner_mem i hi)).resolve_right fun hdiscarded => ?_
    obtain ⟨j, hj, hdiscarded⟩ := List.mem_flatMap.mp hdiscarded
    exact hnone j hj hdiscarded
  · intro hfits hbody j hj hdiscarded
    exact hreaches.notMem_discarded (Run.consistent_start hvalid supply) hfits hbody
      (List.mem_flatMap.mpr ⟨j, hj, hdiscarded⟩)

theorem mem_bodies_of_changes_doubling :
    let run := oneByOne.run .doubling .counter
    run.fault = none ∧ run.ctx.changes.contains (.function 3) = true ∧
      (∀ i ∈ oneByOne.inlinings .doubling .counter, .function 3 ∉ i.discarded) ∧
      .function 3 ∈ run.program.bodies := by
  intro run
  have hgoing : run.fault = none := by decide +kernel
  have hmarked : run.ctx.changes.contains (.function 3) = true := by decide +kernel
  obtain ⟨hkept, hdiscarded⟩ :=
    oneByOne.mem_bodies_of_changes Program.validate_doubling .counter hgoing hmarked
  have hnone : ∀ i ∈ oneByOne.inlinings .doubling .counter, .function 3 ∉ i.discarded :=
    hdiscarded (by decide +kernel) (by decide +kernel)
  exact ⟨hgoing, hmarked, hnone, hkept hnone⟩

end Config

section Losing

/-- `A.drop = function(a) { return true; }; A.same = function(x) { return x; };` and a call
`A.drop(function() { return A.same(true); })`. -/
def Program.losing : Program :=
  ⟨[⟨0, "host.js",
      [.expr (.assign (.member (.ident "A") "drop") none
        (.function ⟨0, none, ["a"], [.ret (some (.bool true))]⟩)),
        .expr (.assign (.member (.ident "A") "same") none
          (.function ⟨1, none, ["x"], [.ret (some (.ident "x"))]⟩))]⟩,
    ⟨1, "main.js",
      [.expr (.call (.member (.ident "A") "drop")
        [.function
          ⟨2, none, [], [.ret (some (.call (.member (.ident "A") "same") [.bool true]))]⟩])]⟩]⟩

/-- A call is inlined in the literal, and then the literal is discarded. -/
theorem Program.losing_discarded :
    let run := Config.run ⟨[⟨"host.js", ["drop", "same"]⟩], .lastWins⟩ Program.losing .counter
    Program.losing.validate = .ok () ∧ run.ctx.changes.contains (.function 2) = true ∧
      .function 2 ∉ run.program.bodies := by
  decide +kernel

end Losing

end StaticInliner
