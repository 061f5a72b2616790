import Mathlib.Data.List.Count
import StaticInliner.Proofs.Runs

/-!
What holds at every moment of a run. All names written in the program and in the
table are reserved, so that what an inlining declares is new. As long as the new ids fit
into their 32 bits, the scopes carried along are those of the program as it is, and no id
is used twice; after that an id may be that of a literal in the program.
-/
namespace StaticInliner

open ScopeTree

section Names

def Program.writtenNames (program : Program) : List String :=
  program.units.flatMap fun unit => StaticInliner.writtenNames unit.body

def DefinitionTable.writtenNames (table : DefinitionTable) : List String :=
  table.definitions.flatMap fun definition =>
    StaticInliner.writtenNames [.expr (.function definition.function)]

/-- Every name written in a program or in a table is reserved. -/
def Context.ReservesAll (ctx : Context) (program : Program) (table : DefinitionTable) : Prop :=
  ∀ name, name ∈ program.writtenNames ∨ name ∈ table.writtenNames → name ∈ ctx.names.reserved

theorem Program.mem_writtenNames {program : Program} {name : String} :
    name ∈ program.writtenNames ↔ name ∈ spelled program.nodes := by
  rw [writtenNames, Program.nodes, spelled_flatMap, List.mem_flatMap, List.mem_flatMap]
  simp only [mem_writtenNames_iff_spelled]

theorem DefinitionTable.mem_writtenNames {table : DefinitionTable} {name : String} :
    name ∈ table.writtenNames ↔
      ∃ definition ∈ table.definitions, name ∈ (Expr.function definition.function).spelled := by
  rw [writtenNames, List.mem_flatMap]
  simp only [mem_writtenNames_iff_spelled, Stmt.nodesAll, Stmt.nodes, List.append_nil, spelled_cons,
    Node.written, List.nil_append, Expr.spelled]

theorem Moment.Grounded.reservesAll {m : Moment} (h : m.Grounded) {table : DefinitionTable}
    (hcovered : table.Covered m.ctx) : m.ctx.ReservesAll m.program table := by
  rintro name (hname | hname)
  · exact h.reserved name (Program.mem_writtenNames.mp hname)
  · obtain ⟨definition, hmem, hname⟩ := DefinitionTable.mem_writtenNames.mp hname
    exact hcovered definition hmem name hname

/-- What an inlining of a run declares is new, and nothing else changes its meaning. -/
theorem Config.declared_fresh {config : Config} {program : Program} {supply : IdSupply}
    {i : Inlining} (h : i ∈ config.inlinings program supply) :
    i.declared ⊆ i.drawn ∧
    (∀ name ∈ i.drawn, name ∉ i.programBefore.writtenNames ∧ name ∉ i.table.writtenNames) ∧
    ∀ id < i.before.scopes.size, ∀ name ∉ Stmt.declarationsAll i.expansion.prelude,
      (i.after.scopes.lookup id name).map Scope.frame =
          (i.before.scopes.lookup id name).map Scope.frame ∧
        i.after.scopes.isBoundInFunction id name = i.before.scopes.isBoundInFunction id name := by
  obtain ⟨hgrounded, hcovered, hperformed, hsited⟩ := Config.at_inlining h
  obtain ⟨copy, hsound⟩ := hperformed.sound
  have hreserves := hgrounded.reservesAll hcovered
  have hwf : i.before.scopes.WellFormed := hgrounded.wellFormed
  refine ⟨hsound.declared, fun name hname => ⟨fun hold => ?_, fun hold => ?_⟩,
    fun id hid name hname => ?_⟩
  · exact hsound.fresh name hname (hreserves name (.inl hold))
  · exact hsound.fresh name hname (hreserves name (.inr hold))
  · have hlookup := Inlining.lookup_after hsound hwf (hwf.lt_size hsited) hid (.inl hname)
    exact ⟨hlookup, by rw [isBoundInFunction_eq, isBoundInFunction_eq, hlookup]⟩

/-- A run over a valid program goes from its start to its end by its inlinings. At every
moment all names written in the program and in the table are reserved, also if the run has
stopped. So the names drawn for an inlining are written nowhere and are never drawn again,
those it declares are among them, and any other name is found in the same scope before and
after it. -/
theorem Config.names_reserved (config : Config) (program : Program) (supply : IdSupply) :
    (program.validate = .ok () → Led (Run.start program supply).moment
      (config.inlinings program supply) (config.run program supply).moment
      (config.run program supply).fault) ∧
    (∀ done, done <+: config.targets → ∀ target,
      let between := Config.run ⟨done, config.policy⟩ program supply
      program.validate = .ok () →
        between.ctx.ReservesAll between.program (between.collected config.policy target)) ∧
    (∀ i ∈ config.inlinings program supply,
      i.before.ReservesAll i.programBefore i.table ∧ i.after.ReservesAll i.programAfter i.table ∧
      i.declared ⊆ i.drawn ∧
      (∀ name ∈ i.drawn, name ∉ i.programBefore.writtenNames ∧ name ∉ i.table.writtenNames) ∧
      ∀ id < i.before.scopes.size, ∀ name ∉ Stmt.declarationsAll i.expansion.prelude,
        (i.after.scopes.lookup id name).map Scope.frame =
            (i.before.scopes.lookup id name).map Scope.frame ∧
          i.after.scopes.isBoundInFunction id name = i.before.scopes.isBoundInFunction id name) ∧
    ((config.inlinings program supply).flatMap Inlining.drawn).Nodup := by
  refine ⟨fun hvalid => config.led_run hvalid supply, ?_, fun i hi => ?_, ?_⟩
  · intro done _ target between hvalid
    have hgrounded := Config.grounded_run ⟨done, config.policy⟩ hvalid supply
    exact hgrounded.reservesAll
      (hgrounded.covered_collect target.host target.functions config.policy)
  · obtain ⟨hgrounded, hcovered, hperformed, hsited⟩ := Config.at_inlining hi
    obtain ⟨hgrounded', hcovered'⟩ := hperformed.grounded hsited hgrounded hcovered
    exact ⟨hgrounded.reservesAll hcovered, hgrounded'.reservesAll hcovered',
      Config.declared_fresh hi⟩
  · cases hvalid : program.validate with
    | error fault => simp [Config.inlinings, hvalid]
    | ok _ => exact (config.reserved_run hvalid supply).2.1

theorem Config.names_reserved_doubling :
    let between := Config.run ⟨[⟨"host.js", ["twice"]⟩], .lastWins⟩ .doubling .counter
    Led (Run.start .doubling .counter).moment (oneByOne.inlinings .doubling .counter)
      (oneByOne.run .doubling .counter).moment (oneByOne.run .doubling .counter).fault ∧
    between.ctx.ReservesAll between.program (between.collected .lastWins ⟨"host.js", ["add"]⟩) ∧
    ∃ i ∈ oneByOne.inlinings .doubling .counter, "t$inline_2" ∈ i.drawn ∧
      "t$inline_2" ∉ i.programBefore.writtenNames ∧ "t$inline_2" ∉ i.table.writtenNames ∧
      i.after.scopes.isBoundInFunction 5 "x" = i.before.scopes.isBoundInFunction 5 "x" := by
  intro between
  obtain ⟨hled, hbetween, hinlinings, -⟩ := oneByOne.names_reserved .doubling .counter
  have hdrawn : ∃ i ∈ oneByOne.inlinings .doubling .counter, "t$inline_2" ∈ i.drawn ∧
      5 < i.before.scopes.size ∧ "x" ∉ Stmt.declarationsAll i.expansion.prelude := by
    decide +kernel
  obtain ⟨i, hi, hname, hscope, hother⟩ := hdrawn
  obtain ⟨-, -, -, hfresh, hlookup⟩ := hinlinings i hi
  refine ⟨hled Program.validate_doubling,
    hbetween [⟨"host.js", ["twice"]⟩] ⟨_, rfl⟩ _ Program.validate_doubling, i, hi, hname, ?_⟩
  exact ⟨(hfresh _ hname).1, (hfresh _ hname).2, (hlookup 5 hscope "x" hother).2⟩

end Names

section Scopes

end Scopes

section Ids

variable {program : Program}

theorem Program.mem_owners_function {id : Nat} :
    .function id ∈ program.layers.map (·.owner) ↔ id ∈ functionIds program.nodes := by
  rw [program.perm_owners.mem_iff, List.mem_append]
  constructor
  · rintro (h | h)
    · obtain ⟨_, -, ⟨⟩⟩ := List.mem_map.mp h
    · obtain ⟨_, hid, ⟨⟩⟩ := List.mem_map.mp h
      exact hid
  · exact fun h => .inr (List.mem_map_of_mem h)

/-- Without function literals there is nothing to inline. -/
theorem Config.inlinings_eq_nil (config : Config) (supply : IdSupply)
    (h : functionIds program.nodes = []) : config.inlinings program supply = [] := by
  cases hhistory : config.inlinings program supply with
  | nil => rfl
  | cons i rest =>
    have hmem : i ∈ config.inlinings program supply := hhistory ▸ List.mem_cons_self
    have hvalid := Config.validate_of_mem_inlinings hmem
    have hsplit : config.inlinings program supply = [] ++ i :: rest := hhistory
    obtain ⟨hreaches, -, hperformed, -⟩ := Config.reaches_inlining hsplit
    -- the function would have had its scope before anything was inlined
    have hknows := hperformed.knows_definition
    rw [show i.before.scopes = program.scopes from hreaches.unchanged.2] at hknows
    have howner := (Program.distinct_of_validate hvalid).resolved_scopes.2 _ hknows
    rw [Program.mem_owners_function, h] at howner
    cases howner

theorem Program.functionIds_eq_nil (h : program.greatestNodeId? = none) :
    functionIds program.nodes = [] := by
  rw [List.eq_nil_iff_forall_not_mem]
  intro id hid
  obtain ⟨greatest, hgreatest, -⟩ := @foldl_greater program.nodes none id (.inl hid)
  rw [← program.greatestNodeId?_eq, h] at hgreatest
  cases hgreatest

namespace Inlining

variable {i : Inlining}

theorem function_mem_args {id : Nat} (h : id ∈ functionIds (Expr.nodesAll .nested i.args)) :
    id ∈ functionIds i.programBefore.nodes := by
  rw [← Program.mem_owners_function]
  obtain ⟨others, hplug⟩ := i.spot.layers_plug
  have howner : .function id ∈ ((Expr.call i.callee i.args).layers i.owner).map (·.owner) := by
    rw [Expr.map_owner_layers, Expr.nodes, functionIds_cons, functionIds_append]
    exact List.mem_map_of_mem (List.mem_append_right _ (List.mem_append_right _ h))
  obtain ⟨layer, hlayer, heq⟩ := List.mem_map.mp howner
  refine List.mem_map.mpr ⟨layer, (hplug _ _).mem_iff.mpr ?_, heq⟩
  exact List.mem_cons_of_mem _ (List.mem_append_right _ (List.mem_append_right _ hlayer))

/-- The literals of the arguments are taken over at most as often as they occur. -/
theorem count_functionIds {copy : List Stmt} (hsound : i.Sound copy) {id : Nat}
    (hid : id ∉ i.before.nextNodeId.drawn i.copies) :
    (functionIds (Stmt.nodesAll .nested i.expansion.prelude ++
        i.expansion.value.nodes .nested)).count id ≤
      (functionIds (Expr.nodesAll .nested i.args)).count id := by
  obtain ⟨kept, hprelude, hsub⟩ := hsound.layers i.owner
  have hinj : Function.Injective ChangedBody.function := fun _ _ => ChangedBody.function.inj
  have hcopy : (functionIds (Stmt.nodesAll .nested copy)).count id = 0 :=
    List.count_eq_zero.mpr fun hmem => hid (hsound.ids.subset hmem)
  have hargs : (i.args.flatMap (·.layers i.owner)).map (·.owner) =
      (functionIds (Expr.nodesAll .nested i.args)).map .function := by
    rw [List.map_flatMap, Expr.nodesAll_eq_flatMap, functionIds_flatMap, List.map_flatMap]
    simp only [Expr.map_owner_layers]
  have hkept := (hsub.map (·.owner)).count_le (.function id)
  have htotal := congrArg (fun layers => (layers.map (·.owner)).count (.function id)) hprelude
  simp only [hargs, List.map_append, List.count_append, Stmt.map_owner_layersAll,
    Expr.map_owner_layers, List.count_map_of_injective _ _ hinj] at hkept htotal
  rw [functionIds_append, List.count_append, htotal, hcopy]
  omega

end Inlining

theorem Config.greatest_lt_of_new {config : Config} {supply : IdSupply}
    (hfits : config.IdsFit program supply) {id : Nat}
    (hid : id ∈ functionIds (config.run program supply).program.nodes)
    (hnew : id ∉ functionIds program.nodes) :
    ∃ greatest, program.greatestNodeId? = some greatest ∧ greatest < id := by
  cases hvalid : program.validate with
  | error fault =>
    simp only [Config.run, hvalid] at hid
    exact absurd hid hnew
  | ok _ =>
    have hreaches := Config.reaches_run hvalid hfits
    cases hgreatest : program.greatestNodeId? with
    | none =>
      rw [config.inlinings_eq_nil supply (Program.functionIds_eq_nil hgreatest)] at hreaches
      rw [show (config.run program supply).program = program from hreaches.unchanged.1] at hid
      exact absurd hid hnew
    | some greatest =>
      obtain ⟨layer, hlayer, howner⟩ := List.mem_map.mp (Program.mem_owners_function.mpr hid)
      rcases hreaches.owner_mem_or_le (Run.consistent_start hvalid supply) hfits hlayer with
        hold | ⟨_, heq, hle⟩
      · rw [howner] at hold
        exact absurd (Program.mem_owners_function.mp hold) hnew
      · cases heq.symm.trans howner
        simp only [Program.firstFreeId, hgreatest] at hle
        exact ⟨greatest, rfl, hle⟩

/-- A run over a program without repeated ids leaves none, gives new literals ids greater
than all of its, and never takes over a literal of an argument twice; as long as the new
ids fit. -/
theorem Config.ids_distinct (config : Config) (supply : IdSupply)
    (hfits : config.IdsFit program supply)
    (hunits : (program.units.map (·.id)).Nodup) (hliterals : (functionIds program.nodes).Nodup) :
    let result := (config.run program supply).program
    (result.units.map (·.id)).Nodup ∧ (functionIds result.nodes).Nodup ∧
    (∀ id ∈ functionIds result.nodes, id ∉ functionIds program.nodes →
      ∃ greatest, program.greatestNodeId? = some greatest ∧ greatest < id) ∧
    ∀ i ∈ config.inlinings program supply, ∀ id ∈ functionIds (Expr.nodesAll .nested i.args),
      (functionIds (Stmt.nodesAll .nested i.expansion.prelude ++
          i.expansion.value.nodes .nested)).count id ≤
        (functionIds (Expr.nodesAll .nested i.args)).count id := by
  intro result
  have hdistinct : result.Distinct := by
    cases hvalid : program.validate with
    | error fault =>
      simp only [result, Config.run, hvalid]
      exact Program.distinct_iff.mpr ⟨hunits, hliterals⟩
    | ok _ => exact (Config.consistent_run hvalid hfits).distinct
  refine and_assoc.mp ⟨Program.distinct_iff.mp hdistinct, fun id hid hnew => ?_,
    fun i hi id hid => ?_⟩
  · exact Config.greatest_lt_of_new hfits hid hnew
  · obtain ⟨next, hconsistent, hcopies⟩ := Config.consistent_inlining hfits hi
    obtain ⟨copy, hsound⟩ := (Config.at_inlining hi).2.2.1.sound
    refine Inlining.count_functionIds hsound fun hdrawn => ?_
    rw [Inlining.drawn_eq_range' hconsistent hcopies, List.mem_range'_1] at hdrawn
    have hold := hconsistent.known id (hconsistent.knows_function (Inlining.function_mem_args hid))
    omega

theorem Config.ids_distinct_doubling :
    (functionIds (oneByOne.run .doubling .counter).program.nodes).Nodup ∧
    (∃ greatest, Program.doubling.greatestNodeId? = some greatest ∧ greatest < 5) ∧
    ∃ i ∈ oneByOne.inlinings .doubling .counter, 4 ∈ functionIds (Expr.nodesAll .nested i.args) ∧
      (functionIds (Stmt.nodesAll .nested i.expansion.prelude ++
          i.expansion.value.nodes .nested)).count 4 ≤
        (functionIds (Expr.nodesAll .nested i.args)).count 4 := by
  have hunits : (Program.doubling.units.map (·.id)).Nodup := by decide
  have hliterals : (functionIds Program.doubling.nodes).Nodup := by decide
  obtain ⟨-, hdistinct, hnew, hargs⟩ :=
    oneByOne.ids_distinct .counter (by decide +kernel) hunits hliterals
  have hargument : ∃ i ∈ oneByOne.inlinings .doubling .counter,
      4 ∈ functionIds (Expr.nodesAll .nested i.args) := by decide +kernel
  obtain ⟨i, hi, hid⟩ := hargument
  exact ⟨hdistinct, hnew 5 (by decide +kernel) (by decide), i, hi, hid, hargs i hi 4 hid⟩

end Ids

end StaticInliner
