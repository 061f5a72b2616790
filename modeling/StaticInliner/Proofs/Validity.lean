import Mathlib.Data.List.Perm.Basic
import StaticInliner.Inline.Context
import StaticInliner.Proofs.Analysis
import StaticInliner.Proofs.Resolution

/-!
What a program starts with. A program is valid if no two of its layers have the same
owner and each callee can be resolved. Then the scopes of the program resolve all its
layers, and no others. The context made for a program has used none of the ids and names
that come next.
-/
namespace StaticInliner

/-- All nodes of a program, nested functions included. -/
def Program.nodes (program : Program) : List Node :=
  program.units.flatMap fun unit => Stmt.nodesAll .nested unit.body

/-- No two layers have the same owner. -/
def Program.Distinct (program : Program) : Prop := (program.layers.map (·.owner)).Nodup

theorem Program.layers_cons (unit : SourceUnit) (rest : List SourceUnit) :
    Program.layers ⟨unit :: rest⟩ = unit.layer :: (Stmt.layersAll (.script unit.id) unit.body ++
      Program.layers ⟨rest⟩) := List.flatMap_cons

theorem Program.nodes_cons (unit : SourceUnit) (rest : List SourceUnit) :
    Program.nodes ⟨unit :: rest⟩ = Stmt.nodesAll .nested unit.body ++ Program.nodes ⟨rest⟩ :=
  List.flatMap_cons

/-- The owners of the layers are the units and the function literals. -/
theorem Program.perm_owners (program : Program) : (program.layers.map (·.owner)).Perm
    (program.units.map (ChangedBody.script ·.id) ++ (functionIds program.nodes).map .function) := by
  obtain ⟨units⟩ := program
  induction units with
  | nil => exact .nil
  | cons unit rest ih =>
    rw [Program.layers_cons, Program.nodes_cons, List.map_cons, List.map_append,
      Stmt.map_owner_layersAll, functionIds_append, List.map_append, List.map_cons,
      List.cons_append]
    exact .cons _ ((ih.append_left _).trans (List.perm_append_comm_assoc _ _ _))

theorem Program.distinct_iff {program : Program} : program.Distinct ↔
    (program.units.map (·.id)).Nodup ∧ (functionIds program.nodes).Nodup := by
  have hscript : Function.Injective ChangedBody.script := fun _ _ => ChangedBody.script.inj
  have hfunction : Function.Injective ChangedBody.function := fun _ _ => ChangedBody.function.inj
  have hmap : program.units.map (ChangedBody.script ·.id) =
      (program.units.map (·.id)).map .script := by rw [List.map_map]; rfl
  rw [Distinct, program.perm_owners.nodup_iff, List.nodup_append, hmap, List.nodup_map_iff hscript,
    List.nodup_map_iff hfunction]
  refine ⟨fun h => ⟨h.1, h.2.1⟩, fun h => ⟨h.1, h.2, fun a ha b hb hab => ?_⟩⟩
  obtain ⟨_, -, rfl⟩ := List.mem_map.mp ha
  obtain ⟨_, -, rfl⟩ := List.mem_map.mp hb
  cases hab

/-- What a call or a `new` calls. -/
def Node.target? : Node → Option Expr
  | .expr (.call callee _) | .expr (.new callee _) => some callee
  | _ => none

/-- The callee of a node, if it cannot be resolved. -/
def Node.unresolved (node : Node) : List Expr :=
  (node.target?.filter fun callee => !callee.isResolvable).toList

/-- Every callee can be resolved. -/
def Callable (nodes : List Node) : Prop := nodes.flatMap Node.unresolved = []

section Callable

theorem callable_nil : Callable [] := rfl

theorem callable_cons (node : Node) (nodes : List Node) :
    Callable (node :: nodes) ↔ node.unresolved = [] ∧ Callable nodes := by
  rw [Callable, List.flatMap_cons, List.append_eq_nil_iff]
  rfl

@[simp] theorem callable_append (first second : List Node) :
    Callable (first ++ second) ↔ Callable first ∧ Callable second := by
  rw [Callable, List.flatMap_append, List.append_eq_nil_iff]
  rfl

theorem callable_flatMap {α : Type} (f : α → List Node) (list : List α) :
    Callable (list.flatMap f) ↔ ∀ a ∈ list, Callable (f a) := by
  simp only [Callable, List.flatMap_eq_nil_iff, List.mem_flatMap, forall_exists_index, and_imp]
  exact ⟨fun h a ha node hnode => h node a ha hnode, fun h node a ha hnode => h a ha node hnode⟩

theorem Callable.subset {nodes nodes' : List Node} (h : Callable nodes) (hsub : nodes' ⊆ nodes) :
    Callable nodes' := by
  rw [Callable, List.flatMap_eq_nil_iff] at h ⊢
  exact fun node hnode => h node (hsub hnode)

theorem Node.unresolved_eq_nil {node : Node} :
    node.unresolved = [] ↔ ∀ callee ∈ node.target?, callee.isResolvable = true := by
  rw [unresolved]
  cases node.target? with
  | none => simp
  | some callee => cases hresolvable : callee.isResolvable <;> simp [hresolvable]

end Callable

namespace Validation

/-- What one visit does to the state. -/
def step (unit : String) (state : State) (node : Node) : State := (visit unit node state).2

theorem foldl_step_of_fault (unit : String) {state : State} (h : state.fault.isSome = true)
    (nodes : List Node) : nodes.foldl (step unit) state = state := by
  induction nodes with
  | nil => rfl
  | cons node rest ih =>
    obtain ⟨fault, hfault⟩ := Option.isSome_iff_exists.mp h
    have hstep : step unit state node = state := by simp [step, visit, hfault]
    rw [List.foldl_cons, hstep, ih]

theorem visits_visit (unit : String) : Visits .nested (step unit) (visit unit) := by
  intro node state
  cases hfault : state.fault with
  | some fault =>
    have hstep : visit unit node state = (.prune, state) := by simp [visit, hfault]
    refine .inr ⟨by rw [step, hstep], fun nodes => ?_⟩
    rw [step, hstep]
    exact foldl_step_of_fault unit (by rw [hfault]; rfl) nodes
  | none =>
    refine .inl ?_
    simp [step, visit, hfault]

/-- When a node passes the check. -/
theorem nodeFault?_iff {unit : String} {nodeIds : List Nat} {node : Node} :
    nodeFault? unit nodeIds node = none ↔
      node.unresolved = [] ∧ ∀ id ∈ node.functionIds, id ∉ nodeIds := by
  rw [Node.unresolved_eq_nil, Node.functionIds]
  unfold nodeFault?
  split
  all_goals simp_all [Node.target?, Node.function?]

/-- Without a fault so far the next node is checked and its id is remembered. -/
theorem step_of_none (unit : String) {state : State} (h : state.fault = none) (node : Node) :
    step unit state node =
      ⟨node.functionIds ++ state.nodeIds, nodeFault? unit state.nodeIds node⟩ := by
  simp only [step, visit, h]
  unfold Node.functionIds
  cases node.function? <;> rfl

theorem fault_of_foldl_step {unit : String} {nodes : List Node} {state : State}
    (h : (nodes.foldl (step unit) state).fault = none) : state.fault = none := by
  rw [← Option.not_isSome_iff_eq_none]
  intro hfault
  rw [foldl_step_of_fault unit hfault] at h
  rw [h] at hfault
  cases hfault

/-- If no fault was found, the ids of the functions have been remembered. -/
theorem nodeIds_foldl_step {unit : String} {nodes : List Node} {state : State}
    (h : (nodes.foldl (step unit) state).fault = none) :
    (nodes.foldl (step unit) state).nodeIds = (functionIds nodes).reverse ++ state.nodeIds := by
  induction nodes generalizing state with
  | nil => rfl
  | cons node rest ih =>
    have hreverse : node.functionIds.reverse = node.functionIds := by
      unfold Node.functionIds
      cases node.function? <;> rfl
    have hstep := step_of_none unit (fault_of_foldl_step h) node
    rw [List.foldl_cons] at h ⊢
    rw [ih h, hstep, functionIds_cons, List.reverse_append, hreverse, List.append_assoc]

/-- When all nodes of a unit pass. -/
theorem fault_foldl_step (unit : String) {nodes : List Node} {state : State}
    (h : state.fault = none) :
    (nodes.foldl (step unit) state).fault = none ↔ Callable nodes ∧ (functionIds nodes).Nodup ∧
      ∀ id ∈ functionIds nodes, id ∉ state.nodeIds := by
  induction nodes generalizing state with
  | nil => simp [h, callable_nil]
  | cons node rest ih =>
    have hstep := step_of_none unit h node
    rw [List.foldl_cons, callable_cons, functionIds_cons]
    by_cases hnode : nodeFault? unit state.nodeIds node = none
    · have hunique : node.functionIds.Nodup := by
        unfold Node.functionIds
        cases node.function? <;> simp
      rw [ih (by rw [hstep, hnode]), hstep, List.nodup_append]
      rw [nodeFault?_iff] at hnode
      simp only [List.mem_append]
      grind
    · have hfault : (step unit state node).fault.isSome = true := by
        rw [hstep]
        exact Option.ne_none_iff_isSome.mp hnode
      rw [foldl_step_of_fault unit hfault]
      rw [nodeFault?_iff] at hnode
      simp only [Option.isSome_iff_ne_none.mp hfault, false_iff, List.mem_append]
      grind

/-- When all units pass. -/
theorem units_eq_ok {unitIds nodeIds : List Nat} {list : List SourceUnit} :
    units unitIds nodeIds list = .ok () ↔ Callable (Program.nodes ⟨list⟩) ∧
      ((list.map (·.id)).Nodup ∧ ∀ id ∈ list.map (·.id), id ∉ unitIds) ∧
      (functionIds (Program.nodes ⟨list⟩)).Nodup ∧
        ∀ id ∈ functionIds (Program.nodes ⟨list⟩), id ∉ nodeIds := by
  induction list generalizing unitIds nodeIds with
  | nil => simp [units, Program.nodes, callable_nil]
  | cons unit rest ih =>
    simp only [units, Stmt.walkAll_eq_foldl (visits_visit unit.name), Program.nodes_cons,
      callable_append, functionIds_append, List.nodup_append, List.map_cons, List.nodup_cons,
      List.forall_mem_cons, List.mem_append]
    have hchecked :
      ((Stmt.nodesAll .nested unit.body).foldl (step unit.name) ⟨nodeIds, none⟩).fault =
        none ↔ _ := fault_foldl_step unit.name rfl
    by_cases hunit : unitIds.contains unit.id = true
    · rw [if_pos hunit]
      simp only [reduceCtorEq, false_iff]
      rw [List.contains_iff_mem] at hunit
      exact fun h => h.2.1.2.1 hunit
    · rw [if_neg hunit]
      rw [List.contains_iff_mem] at hunit
      split
      · next fault hfault =>
        simp only [hfault, reduceCtorEq, false_iff] at hchecked ⊢
        grind
      · next hfault =>
        have hbody := hchecked.mp hfault
        rw [ih, nodeIds_foldl_step hfault]
        simp only [List.mem_append, List.mem_reverse]
        grind

end Validation

/-- What is checked of a program. -/
theorem Program.validate_iff {program : Program} :
    program.validate = .ok () ↔ program.Distinct ∧ Callable program.nodes := by
  rw [Program.validate, Validation.units_eq_ok, Program.distinct_iff]
  simp only [List.not_mem_nil, not_false_eq_true, implies_true, and_true]
  exact and_comm

/-- A valid program uses no id twice. -/
theorem Program.distinct_of_validate {program : Program} (h : program.validate = .ok ()) :
    program.Distinct :=
  (Program.validate_iff.mp h).1

section Scopes

open ScopeTree

theorem ScopeTree.WellFormed.addUnit {tree : ScopeTree} (hwf : tree.WellFormed)
    (hsize : 0 < tree.size) (unit : SourceUnit) :
    (tree.addUnit unit).WellFormed ∧ 0 < (tree.addUnit unit).size := by
  have hgrown := Stmt.grown_declareAll unit.body tree.size (tree.push globalId (.script unit.id))
  have hopened := size_push tree globalId (.script unit.id)
  have hle := hgrown.size
  refine ⟨hgrown.wellFormed (hwf.push hsize (.script unit.id)) (by omega), ?_⟩
  rw [ScopeTree.addUnit]
  omega

theorem ScopeTree.wellFormed_initial : initial.WellFormed := by
  have hget {i : Nat} {scope : Scope} (h : initial.get? i = some scope) :
      i = 0 ∧ scope = ⟨globalId, .global, none, []⟩ := by
    cases i with
    | zero => exact ⟨rfl, (Option.some.inj h).symm⟩
    | succ i => simp [initial, get?] at h
  refine ⟨fun i scope h => ?_, fun i scope h p hp => ?_, fun i scope h => ?_, fun owner i h => ?_⟩
  · obtain ⟨rfl, rfl⟩ := hget h
    rfl
  · obtain ⟨rfl, rfl⟩ := hget h
    cases hp
  · obtain ⟨rfl, rfl⟩ := hget h
    exact .nil
  · cases owner <;> cases h

theorem ScopeTree.WellFormed.addUnits {tree : ScopeTree} (hwf : tree.WellFormed)
    (hsize : 0 < tree.size) (units : List SourceUnit) :
    (units.foldl ScopeTree.addUnit tree).WellFormed := by
  induction units generalizing tree with
  | nil => exact hwf
  | cons unit rest ih =>
    obtain ⟨hwf', hsize'⟩ := hwf.addUnit hsize unit
    exact ih hwf' hsize'

/-- The scopes of a program form a well-formed tree. -/
theorem Program.wellFormed_scopes (program : Program) : program.scopes.WellFormed :=
  wellFormed_initial.addUnits (by decide) program.units

/-- A unit that is new, with literals that are new, is resolved when it is added. -/
theorem SourceUnit.resolved_addUnit {tree : ScopeTree} (hwf : tree.WellFormed)
    (hsize : 0 < tree.size) {unit : SourceUnit} (hnodup : (unit.layers.map (·.owner)).Nodup)
    (hnew : ∀ layer ∈ unit.layers, ¬ tree.Knows layer.owner) :
    (∀ layer ∈ unit.layers, layer.Resolved (tree.addUnit unit)) ∧
      (∀ layer : Layer, layer.Resolved tree → layer.Resolved (tree.addUnit unit)) ∧
      ∀ owner, (tree.addUnit unit).Knows owner →
        tree.Knows owner ∨ owner ∈ unit.layers.map (·.owner) := by
  obtain ⟨hunit, hbelow⟩ := List.forall_mem_cons.mp hnew
  have hnone : tree.scopeOf? (.script unit.id) = none := Option.not_isSome_iff_eq_none.mp hunit
  have hpush := scopeOf?_push tree globalId (.script unit.id)
  have hscope := (hpush (.script unit.id)).trans (if_pos rfl)
  have hwf' := hwf.push hsize (.script unit.id)
  have hgrown := Stmt.grown_declareAll unit.body tree.size (tree.push globalId (.script unit.id))
  have hne {layer : Layer} (hlayer : layer ∈ Stmt.layersAll (.script unit.id) unit.body) :
      layer.owner ≠ .script unit.id := fun heq =>
    (List.nodup_cons.mp hnodup).1 (List.mem_map.mpr ⟨layer, hlayer, heq⟩)
  have hunknown {layer : Layer} (hlayer : layer ∈ Stmt.layersAll (.script unit.id) unit.body) :
      ¬ (tree.push globalId (.script unit.id)).Knows layer.owner := by
    have h := hbelow layer hlayer
    rw [Knows] at h ⊢
    rwa [show ScopeKind.script unit.id = (ChangedBody.script unit.id).kind from rfl, hpush,
      if_neg (hne hlayer)]
  have hbody := (Stmt.declares_declareAll unit.body (.script unit.id) tree.size).resolved
    (tree.push globalId (.script unit.id)) hwf' hscope ⟨hnodup,
      fun layer hlayer hknows => absurd hknows (hunknown hlayer),
      fun layer hlayer encloser hencloser hother hknows => ?_⟩
  · refine ⟨List.forall_mem_cons.mpr ⟨?_, hbody⟩, fun layer hlayer => ?_, fun owner howner => ?_⟩
    · have hget := get?_push tree globalId (.script unit.id) tree.size
      rw [if_pos rfl] at hget
      refine ⟨tree.size, _, globalId, hgrown.owners _ _ hscope, hgrown.kept _ _ hget, ?_, rfl,
        fun name => ?_⟩
      · rw [Scope.parent_bindAll]
      · have hbindings : unit.layer.bindings = Stmt.bindingsAll unit.body :=
          Stmt.bindingsAll_outlineAll unit.body
        rw [if_pos rfl, Scope.lookup_bindAll, hbindings]
        exact Option.none_or
    · have howner : layer.owner ≠ .script unit.id := fun heq =>
        hunit (show tree.Knows (.script unit.id) from heq ▸ Knows.of_resolved hlayer)
      exact (hlayer.push hnone globalId).grown_of_ne hgrown hwf' hscope howner
    · rcases hgrown.only owner howner with howner | ⟨id, hid, rfl⟩
      · rw [show ScopeKind.script unit.id = (ChangedBody.script unit.id).kind from rfl,
          hpush] at howner
        split at howner
        · next heq => exact .inr (heq ▸ List.mem_cons_self)
        · exact .inl howner
      · refine .inr (List.mem_cons_of_mem _ ?_)
        rw [Stmt.map_owner_layersAll]
        exact List.mem_map_of_mem hid
  · obtain ⟨encloser', hencloser', hcases⟩ :=
      (Stmt.enclosed_layersAll (.script unit.id) unit.body).exists_encloser hlayer
    rw [hencloser] at hencloser'
    cases hencloser'
    have hinner := hcases.resolve_left fun hmem => hother (List.mem_singleton.mp hmem)
    obtain ⟨outer, houter, rfl⟩ := List.mem_map.mp hinner
    exact absurd hknows (hunknown houter)

/-- Units one after another, as long as all their bodies are new. -/
theorem Program.Distinct.resolved_addUnits {units : List SourceUnit}
    (h : Program.Distinct ⟨units⟩) {tree : ScopeTree} (hwf : tree.WellFormed)
    (hsize : 0 < tree.size) (hnew : ∀ layer ∈ Program.layers ⟨units⟩, ¬ tree.Knows layer.owner) :
    (∀ layer, layer.Resolved tree ∨ layer ∈ Program.layers ⟨units⟩ →
      layer.Resolved (units.foldl ScopeTree.addUnit tree)) ∧
    ∀ owner, (units.foldl ScopeTree.addUnit tree).Knows owner →
      tree.Knows owner ∨ owner ∈ (Program.layers ⟨units⟩).map (·.owner) := by
  induction units generalizing tree with
  | nil => exact ⟨fun layer hlayer => hlayer.resolve_right List.not_mem_nil, fun _ => .inl⟩
  | cons unit rest ih =>
    have hlayers : Program.layers ⟨unit :: rest⟩ = unit.layers ++ Program.layers ⟨rest⟩ :=
      List.flatMap_cons
    rw [Program.Distinct, hlayers, List.map_append, List.nodup_append] at h
    rw [hlayers, List.forall_mem_append] at hnew
    obtain ⟨hunit, hrest, hapart⟩ := h
    obtain ⟨hwf', hsize'⟩ := hwf.addUnit hsize unit
    obtain ⟨hresolved, hkept, hknows⟩ := SourceUnit.resolved_addUnit hwf hsize hunit hnew.1
    obtain ⟨hresolved', hknows'⟩ := ih hrest hwf' hsize' fun layer hlayer hold =>
      (hknows _ hold).elim (hnew.2 layer hlayer) fun hfirst =>
        hapart _ hfirst _ (List.mem_map_of_mem hlayer) rfl
    rw [hlayers]
    refine ⟨fun layer hlayer => hresolved' layer ?_, fun owner howner => ?_⟩
    · rcases hlayer with hlayer | hlayer
      · exact .inl (hkept layer hlayer)
      · exact (List.mem_append.mp hlayer).imp_left (hresolved layer)
    · rw [List.map_append, List.mem_append, ← or_assoc]
      exact (hknows' owner howner).imp_left (hknows owner)

/-- The scopes of a program without repeated ids resolve its layers, and no others. -/
theorem Program.Distinct.resolved_scopes {program : Program} (h : program.Distinct) :
    (∀ layer ∈ program.layers, layer.Resolved program.scopes) ∧
      ∀ owner, program.scopes.Knows owner → owner ∈ program.layers.map (·.owner) := by
  have hnew (owner : ChangedBody) : ¬ initial.Knows owner := by
    rw [Knows, Bool.not_eq_true]
    cases owner <;> rfl
  obtain ⟨hresolved, hknows⟩ := h.resolved_addUnits wellFormed_initial (by decide)
    fun layer _ => hnew layer.owner
  exact ⟨fun layer hlayer => hresolved layer (.inr hlayer),
    fun owner howner => (hknows owner howner).resolve_left (hnew owner)⟩

end Scopes

section Context

/-- What one node does to the greatest id met. -/
def greater (greatest : Option Nat) (node : Node) : Option Nat :=
  match node.function?, greatest with
  | some fn, some id => some (max id fn.id)
  | some fn, none => some fn.id
  | none, greatest => greatest

/-- The greatest id bounds every id that was seen. -/
theorem foldl_greater {nodes : List Node} {greatest : Option Nat} {id : Nat}
    (h : id ∈ functionIds nodes ∨ ∃ old ∈ greatest, id ≤ old) :
    ∃ new ∈ nodes.foldl greater greatest, id ≤ new := by
  induction nodes generalizing greatest with
  | nil => exact h.resolve_left List.not_mem_nil
  | cons node rest ih =>
    refine ih ?_
    rw [functionIds, List.flatMap_cons, List.mem_append] at h
    unfold Node.functionIds at h
    unfold greater
    cases hfn : node.function? with
    | none =>
      rw [hfn] at h
      rcases h with (h | h) | h
      · cases h
      · exact .inl h
      · exact .inr h
    | some fn =>
      rw [hfn] at h
      rcases h with (h | h) | ⟨old, rfl, h⟩
      · obtain rfl := List.mem_singleton.mp h
        cases greatest with
        | none => exact .inr ⟨fn.id, rfl, Nat.le_refl _⟩
        | some old => exact .inr ⟨_, rfl, Nat.le_max_right _ _⟩
      · exact .inl h
      · exact .inr ⟨_, rfl, Nat.le_trans h (Nat.le_max_left _ _)⟩

theorem Program.greatestNodeId?_eq (program : Program) :
    program.greatestNodeId? = program.nodes.foldl greater none := by
  rw [Program.greatestNodeId?, Program.nodes, List.foldl_flatMap]
  simp only [Stmt.foldNodes_eq_foldl]
  rfl

/-- Every id in use is below the first free one. -/
theorem Program.lt_firstFreeId {program : Program} {id : Nat}
    (h : id ∈ functionIds program.nodes) : id < program.firstFreeId := by
  obtain ⟨greatest, hgreatest, hle⟩ := foldl_greater (.inl h)
  rw [← program.greatestNodeId?_eq] at hgreatest
  simp only [firstFreeId, Option.mem_def.mp hgreatest]
  omega

theorem NameSupply.mem_foldl_reserve {list : List String} {names : NameSupply} {name : String} :
    name ∈ (list.foldl NameSupply.reserve names).reserved ↔
      name ∈ list ∨ name ∈ names.reserved := by
  induction list generalizing names with
  | nil => simp
  | cons first rest ih =>
    rw [List.foldl_cons, ih, List.mem_cons, NameSupply.reserve]
    split
    · next h =>
      rw [NameSupply.isReserved, List.contains_iff_mem] at h
      constructor
      · exact fun h => h.imp_left .inr
      · rintro ((rfl | hname) | hname)
        · exact .inr h
        · exact .inl hname
        · exact .inr hname
    · rw [List.mem_cons, or_left_comm, or_assoc]

theorem Program.mem_reserveAll {program : Program} {names : NameSupply} {name : String} :
    name ∈ (names.reserveAll program).reserved ↔
      (∃ node ∈ program.nodes, name ∈ node.written) ∨ name ∈ names.reserved := by
  obtain ⟨units⟩ := program
  rw [NameSupply.reserveAll]
  induction units generalizing names with
  | nil => simp [Program.nodes]
  | cons unit rest ih =>
    rw [List.foldl_cons, ih, NameSupply.mem_foldl_reserve, mem_writtenNames, Program.nodes_cons]
    simp only [List.mem_append, or_and_right, exists_or]
    rw [or_left_comm, or_assoc]

end Context

end StaticInliner
