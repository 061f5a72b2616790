import StaticInliner.Proofs.Validity

/-!
What is wrong with a program that is refused. A program is accepted just if its ids are
different and all its callees can be resolved. The fault reported otherwise is found in one
of its units, and there is no fault in the units before that one.
-/
namespace StaticInliner

/-- Units have different ids, function literals have different ids at every depth and across
units, and whatever is called, with or without `new`, can be resolved. -/
structure Program.WellFormed (program : Program) : Prop where
  units : (program.units.map (·.id)).Nodup
  literals : (functionIds program.nodes).Nodup
  callees : ∀ node ∈ program.nodes, ∀ callee ∈ node.target?, callee.isResolvable = true

/-- The fault is one of a unit, given the units before it. -/
def Malformation.OccursIn (before : List SourceUnit) (unit : SourceUnit) : Malformation → Prop
  | .duplicateUnitId id => unit.id = id ∧ id ∈ before.map (·.id)
  | .duplicateNodeId id name => unit.name = name ∧
    id ∈ functionIds (Stmt.nodesAll .nested unit.body) ∧
      2 ≤ (functionIds (Program.nodes ⟨before ++ [unit]⟩)).count id
  | .unresolvableCallee name => unit.name = name ∧
    ∃ node ∈ Stmt.nodesAll .nested unit.body, ∃ callee ∈ node.target?, callee.isResolvable = false

theorem Program.validate_eq_ok {program : Program} :
    program.validate = .ok () ↔ program.WellFormed := by
  rw [Program.validate_iff, Program.distinct_iff, Callable, List.flatMap_eq_nil_iff]
  simp only [Node.unresolved_eq_nil]
  exact ⟨fun h => ⟨h.1.1, h.1.2, h.2⟩, fun h => ⟨⟨h.units, h.literals⟩, h.callees⟩⟩

theorem Program.nodes_append (first second : List SourceUnit) :
    Program.nodes ⟨first ++ second⟩ = Program.nodes ⟨first⟩ ++ Program.nodes ⟨second⟩ :=
  List.flatMap_append

namespace Validation

theorem nodeFault?_eq_some {unit : String} {nodeIds : List Nat} {node : Node} {fault : Malformation}
    (h : nodeFault? unit nodeIds node = some fault) :
    (∃ id ∈ node.functionIds, id ∈ nodeIds ∧ fault = .duplicateNodeId id unit) ∨
      ∃ callee ∈ node.target?, callee.isResolvable = false ∧ fault = .unresolvableCallee unit := by
  unfold nodeFault? at h
  unfold Node.functionIds Node.function? Node.target?
  split at h
  all_goals simp_all

/-- The first fault is that of a node before which there is none. -/
theorem exists_fault_foldl_step (unit : String) {nodes : List Node} {state : State}
    (hstart : state.fault = none) {fault : Malformation}
    (h : (nodes.foldl (step unit) state).fault = some fault) :
    ∃ earlier node later, nodes = earlier ++ node :: later ∧
      (earlier.foldl (step unit) state).fault = none ∧
      nodeFault? unit (earlier.foldl (step unit) state).nodeIds node = some fault := by
  induction nodes generalizing state with
  | nil =>
    rw [List.foldl_nil, hstart] at h
    cases h
  | cons node rest ih =>
    have hstep : (step unit state node).fault = nodeFault? unit state.nodeIds node := by
      rw [step_of_none unit hstart]
    rw [List.foldl_cons] at h
    cases hnode : nodeFault? unit state.nodeIds node with
    | some first =>
      -- nothing is checked after the first fault
      rw [foldl_step_of_fault unit (by rw [hstep, hnode]; rfl), hstep] at h
      exact ⟨[], node, rest, rfl, hstart, h⟩
    | none =>
      obtain ⟨earlier, found, later, rfl, hnone, hfault⟩ := ih (hstep.trans hnode) h
      exact ⟨node :: earlier, found, later, rfl, hnone, hfault⟩

/-- The fault reported comes from a unit before which everything is accepted: its id was met
before, or one of its nodes is at fault, given the ids met before that node. -/
theorem exists_fault_units {unitIds nodeIds : List Nat} {list : List SourceUnit}
    {fault : Malformation} (h : units unitIds nodeIds list = .error fault) :
    ∃ before unit after, list = before ++ unit :: after ∧ units unitIds nodeIds before = .ok () ∧
      ((unit.id ∈ before.map (·.id) ∨ unit.id ∈ unitIds) ∧ fault = .duplicateUnitId unit.id ∨
        ∃ earlier node later met, Stmt.nodesAll .nested unit.body = earlier ++ node :: later ∧
          (∀ id ∈ met, id ∈ functionIds (Program.nodes ⟨before⟩ ++ earlier) ∨ id ∈ nodeIds) ∧
          nodeFault? unit.name met node = some fault) := by
  induction list generalizing unitIds nodeIds with
  | nil => cases h
  | cons unit rest ih =>
    simp only [units, Stmt.walkAll_eq_foldl (visits_visit unit.name)] at h
    split at h
    · next hunit =>
      cases h
      exact ⟨[], unit, rest, rfl, rfl, .inl ⟨.inr (List.contains_iff_mem.mp hunit), rfl⟩⟩
    · next hunit =>
      split at h
      · next first hfirst =>
        cases h
        obtain ⟨earlier, node, later, hnodes, hnone, hfault⟩ :=
          exists_fault_foldl_step unit.name rfl hfirst
        refine ⟨[], unit, rest, rfl, rfl,
          .inr ⟨earlier, node, later, _, hnodes, fun id hid => ?_, hfault⟩⟩
        rw [nodeIds_foldl_step hnone, List.mem_append, List.mem_reverse] at hid
        exact hid
      · next hnone =>
        obtain ⟨before, found, after, rfl, hbefore, hfault⟩ := ih h
        have haccepted : units unitIds nodeIds (unit :: before) = .ok () := by
          simp only [units, Stmt.walkAll_eq_foldl (visits_visit unit.name), if_neg hunit, hnone]
          exact hbefore
        refine ⟨unit :: before, found, after, rfl, haccepted, hfault.imp ?_ ?_⟩
        · rintro ⟨hid, heq⟩
          refine ⟨?_, heq⟩
          rw [List.mem_cons] at hid
          rw [List.map_cons, List.mem_cons]
          tauto
        · rintro ⟨earlier, node, later, met, hnodes, hearlier, hnode⟩
          refine ⟨earlier, node, later, met, hnodes, fun id hid => ?_, hnode⟩
          have hid := hearlier id hid
          rw [nodeIds_foldl_step hnone, List.mem_append, List.mem_reverse] at hid
          rw [Program.nodes_cons, List.append_assoc, functionIds_append, List.mem_append]
          tauto

end Validation

/-- What is reported of a unit is wrong with it. -/
theorem Validation.occursIn_of_nodeFault? {before : List SourceUnit} {unit : SourceUnit}
    {earlier later : List Node} {node : Node} {met : List Nat} {fault : Malformation}
    (hnodes : Stmt.nodesAll .nested unit.body = earlier ++ node :: later)
    (hmet : ∀ id ∈ met, id ∈ functionIds (Program.nodes ⟨before⟩ ++ earlier))
    (h : nodeFault? unit.name met node = some fault) : fault.OccursIn before unit := by
  have hmem : node ∈ Stmt.nodesAll .nested unit.body := by
    rw [hnodes]
    exact List.mem_append_right _ List.mem_cons_self
  obtain ⟨id, hid, hold, rfl⟩ | ⟨callee, hcallee, hresolvable, rfl⟩ := nodeFault?_eq_some h
  · refine ⟨rfl, List.mem_flatMap.mpr ⟨node, hmem, hid⟩, ?_⟩
    have hall : functionIds (Program.nodes ⟨before ++ [unit]⟩) =
        functionIds (Program.nodes ⟨before⟩ ++ earlier) ++
          (node.functionIds ++ functionIds later) := by
      have hunit : Program.nodes ⟨[unit]⟩ = Stmt.nodesAll .nested unit.body := List.append_nil _
      rw [Program.nodes_append, hunit, hnodes, ← List.append_assoc, functionIds_append,
        functionIds_cons]
    -- once among the ids met before the node, and once at the node
    have hfirst := List.count_pos_iff.mpr (hmet id hold)
    have hsecond := List.count_pos_iff.mpr hid
    rw [hall, List.count_append, List.count_append]
    omega
  · exact ⟨rfl, node, hmem, callee, hcallee, hresolvable⟩

/-- Just the well-formed programs are accepted. A fault reported is one of some unit of the
program, and the units before it make a well-formed program. -/
theorem Program.validate_reports (program : Program) :
    (program.validate = .ok () ↔ program.WellFormed) ∧
      ∀ fault, program.validate = .error fault → ∃ before unit after,
        program.units = before ++ unit :: after ∧ Program.WellFormed ⟨before⟩ ∧
          fault.OccursIn before unit := by
  refine ⟨Program.validate_eq_ok, fun fault h => ?_⟩
  obtain ⟨before, unit, after, hunits, hbefore, hfault⟩ := Validation.exists_fault_units h
  refine ⟨before, unit, after, hunits, Program.validate_eq_ok.mp hbefore, ?_⟩
  obtain ⟨hid, rfl⟩ | ⟨earlier, node, later, met, hnodes, hmet, hnode⟩ := hfault
  · exact ⟨rfl, hid.resolve_right List.not_mem_nil⟩
  · refine Validation.occursIn_of_nodeFault? hnodes (fun id hid => ?_) hnode
    exact (hmet id hid).resolve_right List.not_mem_nil

/-- The second unit has, in a call that is fine, a literal with an id of the first unit, and
after that a call that cannot be resolved. -/
def Program.clashing : Program :=
  ⟨[⟨0, "a.js", [.function ⟨3, some "f", [], [.ret (some (.call (.ident "g") []))]⟩]⟩,
    ⟨1, "b.js",
      [.expr (.call (.ident "h") [.array [.function ⟨3, none, [], []⟩]]),
        .expr (.new (.member (.ident "A") "") [])]⟩]⟩

theorem Program.validate_reports_clashing :
    clashing.validate = .error (.duplicateNodeId 3 "b.js") ∧ ¬ clashing.WellFormed ∧
      ∃ before unit after, clashing.units = before ++ unit :: after ∧ Program.WellFormed ⟨before⟩ ∧
        (Malformation.duplicateNodeId 3 "b.js").OccursIn before unit := by
  have hfault : clashing.validate = .error (.duplicateNodeId 3 "b.js") := by decide +kernel
  obtain ⟨hok, herror⟩ := clashing.validate_reports
  refine ⟨hfault, fun hwf => ?_, herror _ hfault⟩
  rw [← hok, hfault] at hwf
  cases hwf

end StaticInliner
