import StaticInliner.Proofs.Walks

/-!
Histories of runs. The targets of a run are expanded one after another, each with the
definitions found in the program as it is then; so a run over a valid program is one
history, from the program and its scopes to the result. As long as the new ids fit into
their 32 bits, the run does not stop.
-/
namespace StaticInliner

open ScopeTree

section Collection

theorem DefinitionTable.mem_record {table : DefinitionTable} {policy : DuplicatePolicy}
    {definition other : Definition} (h : other ∈ (table.record policy definition).definitions) :
    other ∈ table.definitions ∨ other = definition := by
  unfold record at h
  split at h
  · exact (List.mem_append.mp h).imp_right List.mem_singleton.mp
  · cases policy with
    | firstWins => exact .inl h
    | lastWins =>
      obtain ⟨old, hold, rfl⟩ := List.mem_map.mp h
      split
      · exact .inr rfl
      · exact .inl hold

theorem Collection.mem_foldl_record {policy : DuplicatePolicy} {list : List Definition}
    {collection : Collection} {definition : Definition}
    (h : definition ∈ (list.foldl (record policy) collection).table.definitions) :
    definition ∈ collection.table.definitions ∨ definition ∈ list := by
  induction list generalizing collection with
  | nil => exact .inl h
  | cons first rest ih =>
    rcases ih h with h | h
    · rcases DefinitionTable.mem_record h with h | rfl
      · exact .inl h
      · exact .inr List.mem_cons_self
    · exact .inr (List.mem_cons_of_mem _ h)

theorem Node.literal_of_staticDefinition? {wanted : List String} {node : Node}
    {name : QualifiedName} {fn : FunctionLit}
    (h : node.staticDefinition? wanted = some (name, fn)) :
    Node.expr (.function fn) ∈ node.nodes .nested := by
  unfold staticDefinition? at h
  split at h
  · next target fn' =>
    split at h
    · split at h
      · cases h
        simp only [Node.nodes, Expr.nodes, List.mem_cons, List.mem_append]
        exact .inr (.inr (Expr.self_mem_nodes .nested _))
      · cases h
    · cases h
  · cases h

/-- A definition of a unit is a function literal in it. -/
theorem SourceUnit.literal_of_mem_definitions {wanted : List String} {unit : SourceUnit}
    {definition : Definition} (h : definition ∈ unit.definitions wanted) :
    Node.expr (.function definition.function) ∈ Stmt.nodesAll .nested unit.body := by
  unfold definitions at h
  obtain ⟨⟨name, fn⟩, hfound, rfl⟩ := List.mem_map.mp h
  rw [List.mem_reverse, Stmt.foldNodes_eq_foldl,
    mem_foldl_collect (fun node => (node.staticDefinition? wanted).toList)] at hfound
  · obtain ⟨node, hnode, hfound⟩ := hfound.resolve_left List.not_mem_nil
    exact Stmt.closed_nodesAll unit.body node hnode
      (Node.literal_of_staticDefinition? (Option.mem_toList.mp hfound))
  · intro found node
    cases node.staticDefinition? wanted <;> rfl

/-- What is collected are function literals of the program. -/
theorem Program.literal_of_mem_collect {program : Program} {host : String} {wanted : List String}
    {policy : DuplicatePolicy} {definition : Definition}
    (h : definition ∈ (program.collect host wanted policy).table.definitions) :
    Node.expr (.function definition.function) ∈ program.nodes := by
  have hfold (units : List SourceUnit) (collection : Collection)
      (h : definition ∈
        (units.foldl (Collection.addUnit host wanted policy) collection).table.definitions) :
      definition ∈ collection.table.definitions ∨
        ∃ unit ∈ units, definition ∈ unit.definitions wanted := by
    induction units generalizing collection with
    | nil => exact .inl h
    | cons unit rest ih =>
      rcases ih _ h with h | ⟨other, hother, h⟩
      · unfold Collection.addUnit at h
        split at h
        · exact (Collection.mem_foldl_record h).imp_right fun h => ⟨unit, List.mem_cons_self, h⟩
        · exact .inl h
      · exact .inr ⟨other, List.mem_cons_of_mem _ hother, h⟩
  obtain ⟨unit, hunit, h⟩ := (hfold program.units ⟨.empty, []⟩ h).resolve_left List.not_mem_nil
  exact List.mem_flatMap.mpr ⟨unit, hunit, SourceUnit.literal_of_mem_definitions h⟩

theorem Program.closed_nodes (program : Program) : Closed program.nodes :=
  .flatMap fun unit _ => Stmt.closed_nodesAll unit.body

/-- What is collected from a program has names of the program. -/
theorem Moment.Grounded.covered_collect {m : Moment} (h : m.Grounded) (host : String)
    (wanted : List String) (policy : DuplicatePolicy) :
    (m.program.collect host wanted policy).table.Covered m.ctx := by
  intro definition hmem name hname
  obtain ⟨node, hnode, hname⟩ := List.mem_flatMap.mp hname
  have hliteral := Program.literal_of_mem_collect hmem
  exact h.reserved name
    (List.mem_flatMap.mpr ⟨node, m.program.closed_nodes _ hliteral hnode, hname⟩)

namespace Moment.Consistent

variable {m : Moment} {next : Nat} (h : m.Consistent next)

include h

theorem knows_function {id : Nat} (hid : id ∈ functionIds m.program.nodes) :
    m.ctx.scopes.Knows (.function id) := by
  have howner : .function id ∈ m.program.layers.map (·.owner) :=
    m.program.perm_owners.mem_iff.mpr (List.mem_append_right _ (List.mem_map_of_mem hid))
  obtain ⟨layer, hlayer, heq⟩ := List.mem_map.mp howner
  exact heq ▸ Knows.of_resolved (h.resolved layer hlayer)

/-- Every layer that is resolved has a scope, and so has every function that is collected. -/
theorem known_collect (host : String) (wanted : List String) (policy : DuplicatePolicy) :
    m.Known (m.program.collect host wanted policy).table where
  bodies owner howner := by
    obtain ⟨layer, hlayer, rfl⟩ := List.mem_map.mp howner
    exact Knows.of_resolved (h.resolved layer hlayer)
  table definition hmem := h.knows_function
    (List.mem_flatMap.mpr ⟨_, Program.literal_of_mem_collect hmem, List.mem_singleton.mpr rfl⟩)

end Moment.Consistent

end Collection

namespace Run

/-- A run before its first target. -/
def start (program : Program) (supply : IdSupply) : Run :=
  ⟨program, .ofProgram program supply, .empty, [], none⟩

/-- The program and the context of a run. -/
def moment (run : Run) : Moment := ⟨run.program, run.ctx⟩

/-- The definitions that the next target is expanded with. -/
def collected (policy : DuplicatePolicy) (run : Run) (target : Target) : DefinitionTable :=
  (run.program.collect target.host target.functions policy).table

/-- The inlinings made for a target. -/
def inlinings (policy : DuplicatePolicy) (run : Run) (target : Target) : List Inlining :=
  if run.fault.isSome then []
  else
    let table := run.collected policy target
    let stats := run.ctx.stats
    run.program.inlinings table { run.ctx with
      stats := { stats with
        targets := stats.targets + 1, collected := stats.collected + table.size } }

/-- The inlinings made for targets one after another. -/
def history (policy : DuplicatePolicy) (run : Run) : List Target → List Inlining
  | [] => []
  | target :: rest => run.inlinings policy target ++ (run.target policy target).history policy rest

variable (policy : DuplicatePolicy) {run : Run}

/-- A target makes a history. If every body has a scope then the target goes through. -/
theorem led_target (hgoing : run.fault = none) (h : run.moment.Grounded) (target : Target) :
    let after := run.target policy target
    let history := run.inlinings policy target
    Led run.moment history after.moment after.fault ∧
      (∀ i ∈ history, i.table = run.collected policy target) ∧
      (run.moment.Known (run.collected policy target) →
        after.fault = none ∧ ∀ i ∈ history, run.ctx.scopes.Knows i.owner) := by
  have hcovered := h.covered_collect target.host target.functions policy
  let stats : Stats := { run.ctx.stats with
    targets := run.ctx.stats.targets + 1
    collected := run.ctx.stats.collected + (run.collected policy target).size }
  let begun : Moment := ⟨run.program, { run.ctx with stats }⟩
  have hbegun : begun.Grounded := { h with }
  obtain ⟨hled, htable, hknown⟩ := hbegun.led_expandCalls hcovered
  have hsome : ¬ run.fault.isSome = true := by rw [hgoing]; exact Bool.false_ne_true
  simp only [Run.target, inlinings, if_neg hsome]
  exact ⟨.trans (Reaches.count stats .start) hled, htable, fun hall => hknown { hall with }⟩

/-- After a fault nothing happens. -/
theorem foldl_stopped (h : run.fault.isSome = true) (targets : List Target) :
    targets.foldl (target policy) run = run ∧ run.history policy targets = [] := by
  induction targets with
  | nil => exact ⟨rfl, rfl⟩
  | cons target rest ih =>
    have hsame : run.target policy target = run := by rw [Run.target, if_pos h]
    rw [List.foldl_cons, history, inlinings, if_pos h, hsame]
    exact ih

variable {policy}

/-- Several targets make one history. -/
theorem led_foldl (hgoing : run.fault = none) (h : run.moment.Grounded) (targets : List Target) :
    let after := targets.foldl (target policy) run
    Led run.moment (run.history policy targets) after.moment after.fault := by
  induction targets generalizing run with
  | nil => exact .of_reaches .start _
  | cons target rest ih =>
    obtain ⟨hled, -, -⟩ := led_target policy hgoing h target
    rw [List.foldl_cons, history]
    by_cases hfault : (run.target policy target).fault = none
    · exact .trans (hled.reaches hfault) (ih hfault (hled.grounded h))
    · obtain ⟨hsame, hnone⟩ := foldl_stopped policy (Option.ne_none_iff_isSome.mp hfault) rest
      rw [hsame, hnone, List.append_nil]
      exact hled

theorem history_append (first second : List Target) : run.history policy (first ++ second) =
    run.history policy first ++ (first.foldl (target policy) run).history policy second := by
  induction first generalizing run with
  | nil => rfl
  | cons target rest ih =>
    rw [List.cons_append, history, ih, history, List.foldl_cons, List.append_assoc]

/-- As long as the new ids fit, targets go through. -/
theorem going_foldl (hgoing : run.fault = none) {next : Nat} (h : run.moment.Consistent next)
    {targets : List Target} (hfits : IdCounter.Fits next (copyCount (run.history policy targets))) :
    (targets.foldl (target policy) run).fault = none := by
  induction targets generalizing run next with
  | nil => exact hgoing
  | cons target rest ih =>
    rw [history, copyCount_append] at hfits
    obtain ⟨hled, -, hknown⟩ := led_target policy hgoing h.toGrounded target
    have hfault := (hknown (h.known_collect target.host target.functions policy)).1
    exact ih hfault ((hled.reaches hfault).consistent h hfits.split.1) hfits.split.2

end Run

/-- The context made for a program is well-formed, and reserves its names. -/
theorem Run.grounded_start (program : Program) (supply : IdSupply) :
    (Run.start program supply).moment.Grounded where
  wellFormed := program.wellFormed_scopes
  reserved _ hname := Program.mem_reserveAll.mpr (.inl (List.mem_flatMap.mp hname))

/-- The context made for a valid program fits it. -/
theorem Run.consistent_start {program : Program} (h : program.validate = .ok ())
    (supply : IdSupply) :
    (Run.start program supply).moment.Consistent program.firstFreeId where
  toGrounded := Run.grounded_start program supply
  distinct := Program.distinct_of_validate h
  resolved := (Program.distinct_of_validate h).resolved_scopes.1
  counter := rfl
  known id hid := by
    have howner := (Program.distinct_of_validate h).resolved_scopes.2 _ hid
    rcases List.mem_append.mp (program.perm_owners.mem_iff.mp howner) with howner | howner
    · obtain ⟨unit, -, ⟨⟩⟩ := List.mem_map.mp howner
    · obtain ⟨_, hmem, ⟨⟩⟩ := List.mem_map.mp howner
      exact Program.lt_firstFreeId hmem

namespace Config

/-- The inlinings of a run, in order. -/
def inlinings (config : Config) (program : Program) (supply : IdSupply) : List Inlining :=
  match program.validate with
  | .error _ => []
  | .ok _ => (Run.start program supply).history config.policy config.targets

variable {program : Program}

theorem run_eq_foldl (config : Config) (h : program.validate = .ok ()) (supply : IdSupply) :
    config.run program supply =
      config.targets.foldl (Run.target config.policy) (Run.start program supply) := by
  simp only [Config.run, h]
  rfl

/-- The ids that a run gives to copies stay below `2 ^ 32`. -/
def IdsFit (config : Config) (program : Program) (supply : IdSupply) : Prop :=
  IdCounter.Fits program.firstFreeId (copyCount (config.inlinings program supply))

instance (config : Config) (program : Program) (supply : IdSupply) :
    Decidable (config.IdsFit program supply) := inferInstanceAs (Decidable (IdCounter.Fits _ _))

section Valid

variable (config : Config) (h : program.validate = .ok ()) (supply : IdSupply)

include h

theorem inlinings_eq_history : config.inlinings program supply =
    (Run.start program supply).history config.policy config.targets := by
  simp only [inlinings, h]

/-- A run over a valid program is a history. -/
theorem led_run : Led (Run.start program supply).moment (config.inlinings program supply)
    (config.run program supply).moment (config.run program supply).fault := by
  rw [config.run_eq_foldl h supply, config.inlinings_eq_history h supply]
  exact Run.led_foldl rfl (Run.grounded_start program supply) config.targets

/-- The names that a run has drawn are new and different, and reserved at its end. -/
theorem reserved_run : let drawn := (config.inlinings program supply).flatMap Inlining.drawn
    (config.run program supply).ctx.names.reserved =
        drawn.reverse ++ (Context.ofProgram program supply).names.reserved ∧
      drawn.Nodup ∧ ∀ name ∈ drawn, name ∉ (Context.ofProgram program supply).names.reserved := by
  obtain ⟨reached, hreaches, -⟩ := config.led_run h supply
  exact hreaches.reserved_eq

theorem grounded_run : (config.run program supply).moment.Grounded :=
  (config.led_run h supply).grounded (Run.grounded_start program supply)

variable {config supply} (hfits : config.IdsFit program supply)

include hfits

/-- As long as the new ids fit, it goes through. -/
theorem going_run : (config.run program supply).fault = none := by
  rw [IdsFit, config.inlinings_eq_history h supply] at hfits
  rw [config.run_eq_foldl h supply]
  exact Run.going_foldl rfl (Run.consistent_start h supply) hfits

theorem reaches_run : Reaches (Run.start program supply).moment (config.inlinings program supply)
    (config.run program supply).moment :=
  (config.led_run h supply).reaches (going_run h hfits)

theorem consistent_run : (config.run program supply).moment.Consistent
    (program.firstFreeId + copyCount (config.inlinings program supply)) :=
  (reaches_run h hfits).consistent (Run.consistent_start h supply) hfits

/-- If the ids of a run fit then so do those of the run over its first targets. -/
theorem IdsFit.first {done rest : List Target} (htargets : config.targets = done ++ rest) :
    Config.IdsFit ⟨done, config.policy⟩ program supply := by
  rw [IdsFit, config.inlinings_eq_history h supply, htargets, Run.history_append, copyCount_append]
    at hfits
  rw [IdsFit, inlinings_eq_history _ h supply]
  exact hfits.split.1

end Valid

theorem validate_of_mem_inlinings {config : Config} {supply : IdSupply} {i : Inlining}
    (h : i ∈ config.inlinings program supply) : program.validate = .ok () := by
  unfold inlinings at h
  split at h
  · cases h
  · assumption

/-- Each inlining of a run is made at a moment of its history. -/
theorem reaches_inlining {config : Config} {supply : IdSupply} {first last : List Inlining}
    {i : Inlining} (h : config.inlinings program supply = first ++ i :: last) :
    Reaches (Run.start program supply).moment first i.momentBefore ∧ i.table.Covered i.before ∧
      i.Performed ∧ i.Sited := by
  have hmem : i ∈ config.inlinings program supply :=
    h ▸ List.mem_append_right _ List.mem_cons_self
  obtain ⟨reached, hreaches, -⟩ := config.led_run (validate_of_mem_inlinings hmem) supply
  exact hreaches.at_inlining h

/-- The names in use are reserved then. -/
theorem at_inlining {config : Config} {supply : IdSupply} {i : Inlining}
    (h : i ∈ config.inlinings program supply) :
    i.momentBefore.Grounded ∧ i.table.Covered i.before ∧ i.Performed ∧ i.Sited := by
  obtain ⟨first, last, heq⟩ := List.append_of_mem h
  obtain ⟨hbefore, hothers⟩ := reaches_inlining heq
  exact ⟨hbefore.grounded (Run.grounded_start program supply), hothers⟩

/-- As long as the new ids of the run fit, the context fits the program. -/
theorem consistent_inlining {config : Config} {supply : IdSupply} {i : Inlining}
    (hfits : config.IdsFit program supply) (h : i ∈ config.inlinings program supply) :
    ∃ next, i.momentBefore.Consistent next ∧ IdCounter.Fits next i.copies := by
  have hvalid := validate_of_mem_inlinings h
  obtain ⟨first, last, heq⟩ := List.append_of_mem h
  exact ⟨_, (reaches_run hvalid hfits).consistent_at (Run.consistent_start hvalid supply) hfits heq⟩

/-- A run over a program that is not valid fails with what is wrong with it, and leaves the
program alone. A run over a valid one does not fail, as long as its new ids fit. -/
theorem fault_run (config : Config) (program : Program) (supply : IdSupply) :
    match program.validate with
    | .error fault => (config.run program supply).fault = some (.malformed fault) ∧
        (config.run program supply).program = program
    | .ok _ => config.IdsFit program supply → (config.run program supply).fault = none := by
  cases h : program.validate with
  | error fault => simp only [Config.run, h, and_self]
  | ok _ => exact going_run h

theorem fault_run_doubling : oneByOne.IdsFit .doubling .counter ∧
    (oneByOne.run .doubling .counter).fault = none := by
  have hfits : oneByOne.IdsFit .doubling .counter := by decide +kernel
  have hrun := oneByOne.fault_run .doubling .counter
  rw [Program.validate_doubling] at hrun
  exact ⟨hfits, hrun hfits⟩

end Config

end StaticInliner
