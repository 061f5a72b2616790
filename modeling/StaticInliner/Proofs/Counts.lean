import StaticInliner.Proofs.Changes
import StaticInliner.Proofs.Courses

/-!
The counts of a run. Every call to a function in the table is either expanded or left, once:
calls in what an expansion brings are not looked at, and no statement is passed over when
others are put before it or when it is dropped. The calls of the program decide how many
there are, unless a callee starts with a call, which may become another callee first.
-/
namespace StaticInliner

/-- The calls that were expanded or left. -/
def Stats.decided (stats : Stats) : Nat := stats.inlined + stats.skipped

/-- The expression that a chain of property accesses starts with. -/
def Expr.chainRoot : Expr → Expr
  | .member object _ => object.chainRoot
  | e => e

/-- What a call calls. -/
def Node.callee? : Node → Option Expr
  | .expr (.call callee _) => some callee
  | _ => none

/-- A call to a function in the table, by a name of at least two segments. -/
def Node.isCandidate (table : DefinitionTable) (node : Node) : Bool :=
  (node.callee?.bind CallWalk.qualifiedCallee?).any table.contains

/-- No callee is a call, or a property of the result of one. -/
def PlainCallees (nodes : List Node) : Prop :=
  ∀ node ∈ nodes, ∀ callee ∈ node.callee?, callee.chainRoot.isCall = false

theorem PlainCallees.subset {nodes nodes' : List Node} (h : PlainCallees nodes)
    (hsub : nodes' ⊆ nodes) :
    PlainCallees nodes' := fun node hnode => h node (hsub hnode)

/-- A callee that spells a name has no calls in it. -/
theorem Expr.countP_isCandidate_of_qualifiedName? (table : DefinitionTable) {e : Expr}
    (h : e.qualifiedName?.isSome = true) : (e.nodes .nested).countP (·.isCandidate table) = 0 := by
  induction e using qualifiedName?.induct with
  | case1 name => rfl
  | case2 object property ih =>
    have hobject : object.qualifiedName?.isSome = true := by
      rw [qualifiedName?] at h
      exact Option.isSome_of_isSome_bind h
    rw [nodes_operation .nested rfl, List.countP_cons, children, nodesAll, nodesAll,
      List.append_nil, ih hobject]
    rfl
  | case3 e hident hmember => simp [qualifiedName?] at h

/-- An inlining is counted. -/
theorem Inlining.Performed.inlined {i : Inlining} (h : i.Performed) :
    i.after.stats.inlined = i.before.stats.inlined + 1 := by
  obtain ⟨ctx, hexpand, hafter⟩ := h.expanded
  obtain ⟨⟨-, hstats⟩, -⟩ := Definition.sound_expandCall hexpand
  rw [hafter]
  cases hshape : i.expansion.shape <;>
    simp only [CallWalk.countExpansion, hstats, Stats.inlined] <;> omega

theorem Definition.ctx_of_kept {definition : Definition} {args : List Expr} {site : CallSite}
    {ctx ctx' : Context} {obstacle : Obstacle}
    (h : definition.expandCall args site ctx = .ok (.kept obstacle, ctx')) : ctx' = ctx := by
  unfold expandCall at h
  dsimp only at h
  split at h
  · cases h
  · cases h
    rfl
  · cases hdirect : definition.function.substitutable? with
    | some expr =>
      rw [hdirect] at h
      cases h
    | none =>
      rw [hdirect] at h
      dsimp only at h
      split at h
      · cases h
        rfl
      · cases h

namespace CallWalk

variable {env : Env} {scope : Nat} {state : State}

/-- The name that a callee spells stays, unless a call is at its root. -/
theorem qualifiedName?_expr {e : Expr} (h : e.chainRoot.isCall = false) :
    (expr env scope e state).1.qualifiedName? = e.qualifiedName? := by
  by_cases hgo : state.fault.isSome = true
  · rw [expr_stopped hgo]
  induction e using Expr.qualifiedName?.induct generalizing state with
  | case1 name => simp only [expr, if_neg hgo]
  | case2 object property ih =>
    simp only [expr, if_neg hgo, Expr.qualifiedName?, ih h hgo]
  | case3 e hident hmember =>
    cases e with
    | ident name => exact absurd rfl (hident name)
    | member object property => exact absurd rfl (hmember object property)
    | call _ _ => cases h
    | assign target op value =>
      cases target <;> simp only [expr, if_neg hgo, Expr.qualifiedName?]
    | function fn =>
      obtain ⟨id, name, params, body⟩ := fn
      simp only [expr, if_neg hgo]
      split <;> rfl
    | _ => simp only [expr, if_neg hgo, Expr.qualifiedName?]

/-- From one state of the walk to another, as many calls have been expanded as are recorded;
and the walk has decided the calls to functions in the table among some nodes, if it went on. -/
structure Tally (table : DefinitionTable) (trace : List Inlining) (nodes : List Node)
    (before after : State) : Prop where
  inlined : after.ctx.stats.inlined = before.ctx.stats.inlined + trace.length
  going : after.fault = none → before.fault = none
  decided : PlainCallees nodes → after.fault = none →
    after.ctx.stats.decided = before.ctx.stats.decided + nodes.countP (·.isCandidate table)

namespace Tally

variable {table : DefinitionTable} {trace trace' : List Inlining} {nodes nodes' : List Node}
  {before middle after : State}

theorem refl (table : DefinitionTable) (state : State) : Tally table [] [] state state :=
  ⟨rfl, id, fun _ _ => rfl⟩

/-- Tallies add up along a walk. -/
theorem trans (h : Tally table trace nodes before middle)
    (h' : Tally table trace' nodes' middle after) :
    Tally table (trace ++ trace') (nodes ++ nodes') before after where
  inlined := by rw [h'.inlined, h.inlined, List.length_append, Nat.add_assoc]
  going hgo := h.going (h'.going hgo)
  decided hplain hgo := by
    rw [h'.decided (hplain.subset (List.subset_append_right _ _)) hgo,
      h.decided (hplain.subset (List.subset_append_left _ _)) (h'.going hgo), List.countP_append,
      Nat.add_assoc]

/-- A node that is no call to a known function does not count. -/
theorem cons (h : Tally table trace nodes before after) {node : Node}
    (hnode : node.isCandidate table = false) : Tally table trace (node :: nodes) before after where
  inlined := h.inlined
  going := h.going
  decided hplain hgo := by
    rw [h.decided (hplain.subset (List.subset_cons_self _ _)) hgo,
      List.countP_cons_of_neg (by rw [hnode]; exact Bool.false_ne_true)]

/-- A walk that has stopped counts nothing. -/
theorem stopped (table : DefinitionTable) (nodes : List Node) {state : State}
    (h : state.fault.isSome = true) : Tally table [] nodes state state where
  inlined := rfl
  going := id
  decided _ hgo := by
    rw [hgo] at h
    cases h

theorem stop (table : DefinitionTable) (nodes : List Node) (state : State) (fault : InlineFault) :
    Tally table [] nodes state (state.stop fault) where
  inlined := rfl
  going hgo := absurd hgo (Option.some_ne_none fault)
  decided _ hgo := absurd hgo (Option.some_ne_none fault)

end Tally

/-- A call to a function in the table is decided at once. -/
theorem decided_expandKnown (callee : Expr) (args : List Expr) (site : CallSite)
    (hgo : (expandKnown env callee args site state).2.fault = none) :
    (expandKnown env callee args site state).2.ctx.stats.decided = state.ctx.stats.decided +
      if (qualifiedCallee? callee).any env.table.contains = true then 1 else 0 := by
  have hleave (state : State) (name : QualifiedName) (obstacle : Obstacle) :
      (state.leave env name obstacle).ctx.stats.decided = state.ctx.stats.decided + 1 := rfl
  unfold expandKnown at hgo ⊢
  cases hname : qualifiedCallee? callee with
  | none => rfl
  | some name =>
    cases hget : env.table.get? name with
    | none => simp [DefinitionTable.contains, hget]
    | some definition =>
      have hcandidate : (some name).any env.table.contains = true := by
        simp [DefinitionTable.contains, hget]
      simp only [hname, hget] at hgo
      simp only [hget, hcandidate, if_true]
      split
      · exact hleave _ _ _
      · next hroot =>
        rw [if_neg hroot] at hgo
        split
        · next fault hexpand =>
          rw [hexpand] at hgo
          cases hgo
        · next obstacle ctx hexpand =>
          rw [hleave, Definition.ctx_of_kept hexpand]
        · next expansion ctx hexpand =>
          obtain ⟨⟨-, hstats⟩, -⟩ := Definition.sound_expandCall hexpand
          cases hshape : expansion.shape <;>
            simp only [State.expanded, countExpansion, hstats, Stats.decided, Stats.inlined] <;>
              omega

/-- A call of a function in the table is counted once. -/
theorem decided_finishCall (before : Progress) (callee : Expr) (args : List Expr)
    (hgo : (finishCall env scope before callee args state).2.fault = none) :
    (finishCall env scope before callee args state).2.ctx.stats.decided = state.ctx.stats.decided +
      if (qualifiedCallee? callee).any env.table.contains = true then 1 else 0 := by
  have hstart := Option.not_isSome_iff_eq_none.mpr (going_of_finishCall hgo)
  obtain ⟨hctx, hfault⟩ := finishCall_ctx hstart before callee args
  rw [hctx]
  exact decided_expandKnown _ _ _ (hfault ▸ hgo)

theorem isSome_of_isKnownCallee {scopes : ScopeTree} {callee : Expr}
    (h : isKnownCallee env scopes scope callee = true) : callee.qualifiedName?.isSome = true := by
  unfold isKnownCallee qualifiedCallee? at h
  split at h
  · next hname => exact Option.isSome_of_mem (Option.filter_eq_some_iff.mp hname).1
  · cases h

theorem inlined_finishCall (before : Progress) (spot : Spot) (callee : Expr) (args : List Expr) :
    (finishCall env scope before callee args state).2.ctx.stats.inlined = state.ctx.stats.inlined +
      (callTrace env scope before spot callee args state).length := by
  rcases finishCall_cases env scope before spot callee args state with
    ⟨skipped, log, hdone, htrace⟩ | ⟨fault, hdone, htrace, -⟩ |
    ⟨definition, expansion, after, log, hperformed, hdone, htrace⟩
  · rw [hdone, htrace]
    rfl
  · rw [hdone, htrace]
    rfl
  · rw [hdone, htrace]
    exact hperformed.inlined

/-- Finish a call whose parts have been counted. -/
theorem Tally.finishCall {trace : List Inlining} {callee callee' : Expr} {args args' : List Expr}
    {before after : State}
    (h : Tally env.table trace (callee.nodes .nested ++ Expr.nodesAll .nested args) before after)
    (hname : callee.chainRoot.isCall = false → callee'.qualifiedName? = callee.qualifiedName?)
    (progress : Progress) (spot : Spot) :
    Tally env.table (trace ++ callTrace env scope progress spot callee' args' after)
      (.expr (.call callee args) :: (callee.nodes .nested ++ Expr.nodesAll .nested args)) before
      (finishCall env scope progress callee' args' after).2 := by
  constructor
  · rw [inlined_finishCall progress spot, h.inlined, Nat.add_assoc, ← List.length_append]
  · exact fun hgo => h.going (going_of_finishCall hgo)
  · intro hplain hgo
    have hroot := hplain _ List.mem_cons_self callee rfl
    have hparts := h.decided (hplain.subset (List.subset_cons_self _ _)) (going_of_finishCall hgo)
    rw [decided_finishCall _ _ _ hgo, hparts, List.countP_cons, qualifiedCallee?, hname hroot,
      ← qualifiedCallee?, Nat.add_assoc]
    rfl

theorem course_tally (table : DefinitionTable) :
    Course (fun _ => True) (fun _ _ => True) (Tally table) where
  ok _ := trivial
  enter _ _ _ _ _ := trivial
  stay _ _ := trivial
  keep _ _ := trivial
  refl _ := .refl _ _
  trans := .trans
  context h ha hafault hb hbfault := by
    refine ⟨?_, ?_, ?_⟩
    · rw [ha, hb]
      exact h.inlined
    · rw [hafault, hbfault]
      exact h.going
    · rw [ha, hb, hbfault]
      exact h.decided
  operation {_ _ _ _ e} hcall h := by
    refine h.cons ?_
    cases e with
    | call _ _ => cases hcall
    | _ => rfl
  statement h := h.cons rfl
  stopped _ := .stopped _ _
  stop _ := .stop _ _ _ _

theorem callCourse_tally (env : Env) :
    CallCourse env (fun _ => True) (fun _ _ => True) (Tally env.table) where
  toCourse := course_tally env.table
  known {_ _ callee} _ hknown := by
    -- a known callee is not walked, and has no calls in it
    refine ⟨rfl, id, fun _ _ => ?_⟩
    rw [Expr.countP_isCandidate_of_qualifiedName? _ (isSome_of_isKnownCallee hknown)]
    rfl
  call _ hcallee h := by
    refine h.finishCall (fun hroot => ?_) _ _
    rcases hcallee with rfl | ⟨state, rfl⟩
    · rfl
    · exact qualifiedName?_expr hroot

end CallWalk

theorem Program.tally_expandCalls (program : Program) (table : DefinitionTable) (ctx : Context) :
    (program.expandCalls table ctx).ctx.stats.inlined =
        ctx.stats.inlined + (program.inlinings table ctx).length ∧
      (PlainCallees program.nodes → (program.expandCalls table ctx).fault = none →
        (program.expandCalls table ctx).ctx.stats.decided =
          ctx.stats.decided + program.nodes.countP (·.isCandidate table)) := by
  let start : CallWalk.State := ⟨ctx, .statement, [], [], none⟩
  have h : CallWalk.Tally table _ _ start (CallWalk.units table program.units start).2 :=
    (CallWalk.course_tally table).units
      (fun name => (CallWalk.callCourse_tally ⟨table, name⟩).byParts.stmt)
        [] program.units start trivial
  exact ⟨h.inlined, h.decided⟩

theorem Run.inlined_target {policy : DuplicatePolicy} (run : Run) (target : Target) :
    (run.target policy target).ctx.stats.inlined =
      run.ctx.stats.inlined + (run.inlinings policy target).length := by
  unfold Run.target inlinings
  split
  · rfl
  · exact (Program.tally_expandCalls _ _ _).1

/-- The run over the targets. -/
theorem Run.inlined_foldl {policy : DuplicatePolicy} (run : Run) (targets : List Target) :
    (targets.foldl (target policy) run).ctx.stats.inlined =
      run.ctx.stats.inlined + (run.history policy targets).length := by
  induction targets generalizing run with
  | nil => rfl
  | cons target rest ih =>
    rw [List.foldl_cons, ih, inlined_target, history, List.length_append, Nat.add_assoc]

/-- In a program whose bodies have their scopes, and in which no callee is a call or starts
with one, an expansion decides exactly the calls to functions in the table. -/
theorem Moment.Consistent.decided_expandCalls {m : Moment} {next : Nat}
    (h : m.Consistent next) (hplain : PlainCallees m.program.nodes) (host : String)
    (wanted : List String) (policy : DuplicatePolicy) :
    let table := (m.program.collect host wanted policy).table
    let done := m.program.expandCalls table m.ctx
    done.fault = none ∧ done.ctx.stats.decided =
      m.ctx.stats.decided + m.program.nodes.countP (·.isCandidate table) := by
  intro table done
  have hcovered := h.toGrounded.covered_collect host wanted policy
  have hfault :=
    ((h.toGrounded.led_expandCalls hcovered).2.2 (h.known_collect host wanted policy)).1
  exact ⟨hfault, (Program.tally_expandCalls _ _ _).2 hplain hfault⟩

namespace Config

/-- A run counts its inlinings. -/
theorem inlined_run (config : Config) (program : Program) (supply : IdSupply) :
    (config.run program supply).ctx.stats.inlined = (config.inlinings program supply).length := by
  cases hvalid : program.validate with
  | error fault => simp [Config.run, inlinings, hvalid, Context.ofProgram, Stats.inlined]
  | ok _ =>
    rw [config.run_eq_foldl hvalid, Run.inlined_foldl]
    simp only [inlinings, hvalid]
    exact Nat.zero_add _

theorem changed_run (config : Config) (program : Program) (supply : IdSupply) :
    (config.run program supply).changed = true ↔ config.inlinings program supply ≠ [] := by
  cases hvalid : program.validate with
  | error fault =>
    simp [Config.run, inlinings, hvalid, Context.ofProgram, Run.changed, ChangedBodies.isEmpty,
      ChangedBodies.empty]
  | ok _ =>
    have hchanges := config.contains_changes_run hvalid supply
    simp only [ChangedBodies.contains, List.contains_iff_mem] at hchanges
    rw [Run.changed, Bool.not_eq_true', ChangedBodies.isEmpty, List.isEmpty_eq_false_iff]
    constructor
    · intro hne
      obtain ⟨body, hbody⟩ := List.exists_mem_of_ne_nil _ hne
      obtain ⟨i, hi, -⟩ := (hchanges body).mp hbody
      exact List.ne_nil_of_mem hi
    · intro hne
      obtain ⟨i, hi⟩ := List.exists_mem_of_ne_nil _ hne
      exact List.ne_nil_of_mem ((hchanges i.owner).mpr ⟨i, hi, rfl⟩)

/-- If no callee of a valid program is a call, or starts with one, then an expansion decides
exactly the calls of the program to functions in the table. So it does in the program that a
run has left, if the ids that the run gave out fit. A run has changed the program if and
only if it has expanded a call. -/
theorem decided_once (config : Config) (program : Program) (supply : IdSupply) :
    let run := config.run program supply
    (program.validate = .ok () → PlainCallees program.nodes → ∀ host wanted policy,
      let table := (program.collect host wanted policy).table
      let done := program.expandCalls table (.ofProgram program supply)
      done.fault = none ∧ done.ctx.stats.decided = program.nodes.countP (·.isCandidate table)) ∧
    (program.validate = .ok () → config.IdsFit program supply → PlainCallees run.program.nodes →
      ∀ host wanted policy,
      let table := (run.program.collect host wanted policy).table
      let done := run.program.expandCalls table run.ctx
      done.fault = none ∧ done.ctx.stats.decided =
        run.ctx.stats.decided + run.program.nodes.countP (·.isCandidate table)) ∧
    (run.changed = true ↔ 0 < run.ctx.stats.inlined) := by
  intro run
  refine ⟨fun hvalid hplain host wanted policy => ?_,
    fun hvalid hfits hplain => (consistent_run hvalid hfits).decided_expandCalls hplain, ?_⟩
  · obtain ⟨hfault, hdecided⟩ :=
      (Run.consistent_start hvalid supply).decided_expandCalls hplain host wanted policy
    exact ⟨hfault, hdecided.trans (Nat.zero_add _)⟩
  · rw [config.changed_run, config.inlined_run, List.length_pos_iff]

/-- The call in the function that is expanded first, and the copy of it, are decided. -/
theorem decided_once_doubling :
    let fresh := (Program.doubling.collect "host.js" ["add"] .lastWins).table
    let run := Config.run ⟨[⟨"host.js", ["twice"]⟩], .lastWins⟩ .doubling .counter
    let table := (run.program.collect "host.js" ["add"] .lastWins).table
    (Program.doubling.expandCalls fresh (.ofProgram .doubling .counter)).ctx.stats.decided = 1 ∧
    run.ctx.stats.decided = 1 ∧ run.program.nodes.countP (·.isCandidate table) = 2 ∧
      (run.program.expandCalls table run.ctx).ctx.stats.decided = 3 := by
  intro fresh run table
  have hone : run.ctx.stats.decided = 1 := by decide +kernel
  have htwo : run.program.nodes.countP (·.isCandidate table) = 2 := by decide +kernel
  have hfresh : Program.doubling.nodes.countP (·.isCandidate fresh) = 1 := by decide +kernel
  have hstart : PlainCallees Program.doubling.nodes := by
    unfold PlainCallees
    decide +kernel
  have hplain : PlainCallees run.program.nodes := by
    unfold PlainCallees
    decide +kernel
  have hfits : Config.IdsFit ⟨[⟨"host.js", ["twice"]⟩], .lastWins⟩ .doubling .counter := by
    decide +kernel
  have hdecided := decided_once ⟨[⟨"host.js", ["twice"]⟩], .lastWins⟩ .doubling .counter
  have hfirst := (hdecided.1 Program.validate_doubling hstart "host.js" ["add"] .lastWins).2
  have hlater := (hdecided.2.1 Program.validate_doubling hfits hplain "host.js" ["add"] .lastWins).2
  refine ⟨?_, hone, htwo, ?_⟩
  · rw [hfirst, hfresh]
  · rw [hlater, hone, htwo]

end Config

end StaticInliner
