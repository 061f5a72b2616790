import StaticInliner.Proofs.Validity

/-!
Nesting of function literals. A node stands directly in a body if it belongs to the own layer
of the body; the owner of that body is then the innermost unit or function around the node. The
scopes of a valid program are nested as its literals are: each literal has one scope, below
the scope of the body it stands in, and the names bound there are those that the literal
declares.
-/
namespace StaticInliner

open ScopeTree

section Standing

def Node.isExpression : Node → Bool
  | .expr _ => true
  | .stmt _ => false

/-- The bodies of a program, with their owners. -/
inductive Program.HasBody (program : Program) : ChangedBody → List Stmt → Prop
  | unit {unit : SourceUnit} : unit ∈ program.units → HasBody program (.script unit.id) unit.body
  | function {node : Node} {fn : FunctionLit} : node ∈ program.nodes → node.function? = some fn →
    HasBody program (.function fn.id) fn.body

theorem Expr.ownLayer_function (fn : FunctionLit) :
    (Expr.function fn).nodes .ownLayer = [.expr (.function fn)] := by
  cases fn
  rfl

theorem Stmt.ownLayer_function (fn : FunctionLit) :
    (Stmt.function fn).nodes .ownLayer = [.stmt (.function fn)] := by
  cases fn
  rfl

/-- Nodes that are in the own layer, or in that of a literal among the nodes. -/
def Standing (own nodes : List Node) : Prop :=
  ∀ node ∈ nodes, node ∈ own ∨
    ∃ outer ∈ nodes, ∃ fn, outer.function? = some fn ∧ node ∈ Stmt.nodesAll .ownLayer fn.body

namespace Standing

variable {own own' nodes nodes' : List Node}

theorem append (h : Standing own nodes) (h' : Standing own' nodes') :
    Standing (own ++ own') (nodes ++ nodes') := by
  intro node hnode
  rcases List.mem_append.mp hnode with hnode | hnode
  · rcases h node hnode with hown | ⟨outer, houter, hfn⟩
    · exact .inl (List.mem_append_left _ hown)
    · exact .inr ⟨outer, List.mem_append_left _ houter, hfn⟩
  · rcases h' node hnode with hown | ⟨outer, houter, hfn⟩
    · exact .inl (List.mem_append_right _ hown)
    · exact .inr ⟨outer, List.mem_append_right _ houter, hfn⟩

theorem cons (self : Node) (h : Standing own nodes) : Standing (self :: own) (self :: nodes) := by
  have hself : Standing [self] [self] := fun node hnode => .inl hnode
  exact hself.append h

theorem flatMap {α : Type} {list : List α} {own nodes : α → List Node}
    (h : ∀ a ∈ list, Standing (own a) (nodes a)) :
    Standing (list.flatMap own) (list.flatMap nodes) := by
  induction list with
  | nil => exact List.forall_mem_nil _
  | cons a rest ih =>
    obtain ⟨hfirst, hrest⟩ := List.forall_mem_cons.mp h
    exact hfirst.append (ih hrest)

/-- What stands in the body of a literal stands inside the literal. -/
theorem function {self : Node} {fn : FunctionLit} (hself : self.function? = some fn)
    (h : Standing (Stmt.nodesAll .ownLayer fn.body) nodes) : Standing [self] (self :: nodes) := by
  intro node hnode
  rcases List.mem_cons.mp hnode with rfl | hnode
  · exact .inl List.mem_cons_self
  · rcases h node hnode with hown | ⟨outer, houter, hfn⟩
    · exact .inr ⟨self, List.mem_cons_self, fn, hself, hown⟩
    · exact .inr ⟨outer, List.mem_cons_of_mem _ houter, hfn⟩

end Standing

theorem byParts_standing : ByParts (fun e => Standing (e.nodes .ownLayer) (e.nodes .nested))
    (fun s => Standing (s.nodes .ownLayer) (s.nodes .nested))
    (fun list => Standing (Stmt.nodesAll .ownLayer list) (Stmt.nodesAll .nested list)) := by
  have hexprs {es : List Expr} (ih : ∀ e ∈ es, Standing (e.nodes .ownLayer) (e.nodes .nested)) :
      Standing (Expr.nodesAll .ownLayer es) (Expr.nodesAll .nested es) := by
    simp only [Expr.nodesAll_eq_flatMap]
    exact .flatMap ih
  constructor
  case operation =>
    intro e he ih
    rw [Expr.nodes_operation .ownLayer he, Expr.nodes_operation .nested he]
    exact (hexprs ih).cons _
  case literal =>
    intro fn ih
    rw [Expr.ownLayer_function, Expr.nodes_function]
    exact .function rfl ih
  case declaration =>
    intro fn ih
    rw [Stmt.ownLayer_function, Stmt.nodes_function]
    exact .function rfl ih
  case statement =>
    intro s hfn hhead hbodies
    rw [Stmt.nodes_parts .ownLayer hfn, Stmt.nodes_parts .nested hfn]
    have hhead' := hexprs fun e he => hhead e (Option.mem_toList.mp he)
    exact (hhead'.append (.flatMap hbodies)).cons _
  case list =>
    intro list ih
    simp only [Stmt.nodesAll_eq_flatMap]
    exact .flatMap ih

/-- Every node of a program stands in one of its bodies. -/
theorem Program.exists_body {program : Program} {node : Node} (h : node ∈ program.nodes) :
    ∃ owner body, program.HasBody owner body ∧ node ∈ Stmt.nodesAll .ownLayer body := by
  obtain ⟨unit, hunit, hnode⟩ := List.mem_flatMap.mp h
  obtain ⟨s, hs, hnode⟩ := Stmt.mem_nodesAll.mp hnode
  rcases byParts_standing.stmt s node hnode with hown | ⟨outer, houter, fn, hfn, hinside⟩
  · exact ⟨_, unit.body, .unit hunit, Stmt.mem_nodesAll.mpr ⟨s, hs, hown⟩⟩
  · have hmem : outer ∈ program.nodes :=
      List.mem_flatMap.mpr ⟨unit, hunit, Stmt.mem_nodesAll.mpr ⟨s, hs, houter⟩⟩
    exact ⟨_, fn.body, .function hmem hfn, hinside⟩

end Standing

section Layers

/-- The layers that a node brings: that of the literal it is, if any, and those below. -/
def Node.layers (owner : ChangedBody) (node : Node) : List Layer :=
  match node.function? with
  | some fn => fn.layer owner node.isExpression :: Stmt.layersAll (.function fn.id) fn.body
  | none => []

theorem Node.layers_of_none {owner : ChangedBody} {node : Node} (h : node.function? = none) :
    node.layers owner = [] := by
  rw [Node.layers, h]

theorem Node.layers_of_some {owner : ChangedBody} {node : Node} {fn : FunctionLit}
    (h : node.function? = some fn) : node.layers owner =
      fn.layer owner node.isExpression :: Stmt.layersAll (.function fn.id) fn.body := by
  rw [Node.layers, h]

/-- Layers that hold all those of the nodes, each under some owner. Nodes of the own layer
stand under the owner itself. -/
def Covers (owner : ChangedBody) (layers : List Layer) (reach : Reach) (nodes : List Node) : Prop :=
  ∀ node ∈ nodes, ∃ outer, (reach = .ownLayer → outer = owner) ∧ node.layers outer ⊆ layers

namespace Covers

variable {owner : ChangedBody} {layers : List Layer} {reach : Reach} {nodes : List Node}

theorem mono {layers' : List Layer} (h : Covers owner layers reach nodes)
    (hsub : layers ⊆ layers') :
    Covers owner layers' reach nodes := by
  intro node hnode
  obtain ⟨outer, houter, hlayers⟩ := h node hnode
  exact ⟨outer, houter, List.Subset.trans hlayers hsub⟩

theorem flatMap {α : Type} {list : List α} {layers : α → List Layer} {nodes : α → List Node}
    (h : ∀ a ∈ list, Covers owner (layers a) reach (nodes a)) :
    Covers owner (list.flatMap layers) reach (list.flatMap nodes) := by
  intro node hnode
  obtain ⟨a, ha, hnode⟩ := List.mem_flatMap.mp hnode
  exact (h a ha).mono (fun _ hlayer => List.mem_flatMap.mpr ⟨a, ha, hlayer⟩) node hnode

theorem cons_of_none {node : Node} (hnode : node.function? = none)
    (h : Covers owner layers reach nodes) : Covers owner layers reach (node :: nodes) := by
  refine List.forall_mem_cons.mpr ⟨⟨owner, fun _ => rfl, ?_⟩, h⟩
  rw [Node.layers_of_none hnode]
  exact List.nil_subset _

/-- A literal with everything in its body. -/
theorem function {node : Node} {fn : FunctionLit} (hnode : node.function? = some fn)
    (h : Covers (.function fn.id) (Stmt.layersAll (.function fn.id) fn.body) .nested nodes) :
    Covers owner (node.layers owner) .nested (node :: nodes) := by
  refine List.forall_mem_cons.mpr ⟨⟨owner, fun _ => rfl, List.Subset.refl _⟩,
    fun inner hinner => ?_⟩
  obtain ⟨outer, -, hlayers⟩ := h inner hinner
  rw [Node.layers_of_some hnode]
  refine ⟨outer, fun hreach => ?_, List.subset_cons_of_subset _ hlayers⟩
  cases hreach

theorem append {layers' : List Layer} {nodes' : List Node} (h : Covers owner layers reach nodes)
    (h' : Covers owner layers' reach nodes') :
    Covers owner (layers ++ layers') reach (nodes ++ nodes') := by
  intro node hnode
  rcases List.mem_append.mp hnode with hnode | hnode
  · exact h.mono (List.subset_append_left _ _) node hnode
  · exact h'.mono (List.subset_append_right _ _) node hnode

end Covers

theorem byParts_covers : ByParts
    (fun e => ∀ owner reach, Covers owner (e.layers owner) reach (e.nodes reach))
    (fun s => ∀ owner reach, Covers owner (s.layers owner) reach (s.nodes reach))
    (fun list => ∀ owner reach,
      Covers owner (Stmt.layersAll owner list) reach (Stmt.nodesAll reach list)) := by
  have hfunction {fn : FunctionLit} {node : Node} (hnode : node.function? = some fn)
      (ih : ∀ owner reach, Covers owner (Stmt.layersAll owner fn.body) reach
        (Stmt.nodesAll reach fn.body))
      (owner : ChangedBody) : Covers owner (node.layers owner) .ownLayer [node] ∧
        Covers owner (node.layers owner) .nested (node :: Stmt.nodesAll .nested fn.body) := by
    refine ⟨?_, .function hnode (ih _ _)⟩
    exact List.forall_mem_singleton.mpr ⟨owner, fun _ => rfl, List.Subset.refl _⟩
  constructor
  case operation =>
    intro e he ih owner reach
    rw [Expr.layers_operation owner he, Expr.nodes_operation reach he, Expr.nodesAll_eq_flatMap]
    exact .cons_of_none (Expr.function?_of_ownsLayer he)
      (.flatMap fun operand hoperand => ih operand hoperand owner reach)
  case literal =>
    intro fn ih owner reach
    have hlayers : (Expr.function fn).layers owner = (Node.expr (.function fn)).layers owner :=
      Expr.layers_literal owner fn
    rw [hlayers]
    cases reach with
    | ownLayer =>
      rw [Expr.ownLayer_function]
      exact (hfunction rfl ih owner).1
    | nested =>
      rw [Expr.nodes_function]
      exact (hfunction rfl ih owner).2
  case declaration =>
    intro fn ih owner reach
    have hlayers : (Stmt.function fn).layers owner = (Node.stmt (.function fn)).layers owner :=
      Stmt.layers_function owner fn
    rw [hlayers]
    cases reach with
    | ownLayer =>
      rw [Stmt.ownLayer_function]
      exact (hfunction rfl ih owner).1
    | nested =>
      rw [Stmt.nodes_function]
      exact (hfunction rfl ih owner).2
  case statement =>
    intro s hfn hhead hbodies owner reach
    rw [Stmt.layers_parts owner hfn, Stmt.nodes_parts reach hfn, Expr.nodesAll_eq_flatMap]
    refine .cons_of_none (Stmt.function?_node.trans hfn) (.append (.flatMap fun e he => ?_)
      (.flatMap fun body hbody => hbodies body hbody owner reach))
    exact hhead e (Option.mem_toList.mp he) owner reach
  case list =>
    intro list ih owner reach
    rw [Stmt.layersAll_eq_flatMap, Stmt.nodesAll_eq_flatMap]
    exact .flatMap fun s hs => ih s hs owner reach

theorem Stmt.covers_layersAll (stmts : List Stmt) (owner : ChangedBody) (reach : Reach) :
    Covers owner (Stmt.layersAll owner stmts) reach (Stmt.nodesAll reach stmts) :=
  byParts_covers.stmts stmts owner reach

theorem SourceUnit.layers_subset {program : Program} {unit : SourceUnit}
    (h : unit ∈ program.units) :
    unit.layers ⊆ program.layers := fun _ hlayer => List.mem_flatMap.mpr ⟨unit, h, hlayer⟩

/-- The layers below a body are among those of the program. -/
theorem Program.HasBody.layers_subset {program : Program} {owner : ChangedBody} {body : List Stmt}
    (h : program.HasBody owner body) : Stmt.layersAll owner body ⊆ program.layers := by
  have hunits {unit : SourceUnit} (hunit : unit ∈ program.units) :
      Stmt.layersAll (.script unit.id) unit.body ⊆ program.layers :=
    (List.cons_subset.mp (SourceUnit.layers_subset hunit)).2
  cases h with
  | unit hunit => exact hunits hunit
  | function hnode hfn =>
    obtain ⟨unit, hunit, hnode⟩ := List.mem_flatMap.mp hnode
    obtain ⟨outer, -, hlayers⟩ := Stmt.covers_layersAll unit.body (.script unit.id) .nested _ hnode
    rw [Node.layers_of_some hfn] at hlayers
    exact List.Subset.trans (List.cons_subset.mp hlayers).2 (hunits hunit)

/-- The layer of a literal that stands in a body. -/
theorem Program.HasBody.layer_mem {program : Program} {owner : ChangedBody} {body : List Stmt}
    (h : program.HasBody owner body) {node : Node} (hnode : node ∈ Stmt.nodesAll .ownLayer body)
    {fn : FunctionLit} (hfn : node.function? = some fn) :
    fn.layer owner node.isExpression ∈ program.layers := by
  obtain ⟨outer, houter, hlayers⟩ := Stmt.covers_layersAll body owner .ownLayer node hnode
  obtain rfl := houter rfl
  rw [Node.layers_of_some hfn] at hlayers
  exact h.layers_subset (hlayers List.mem_cons_self)

end Layers

section Size

/-- A step that opens one scope for each of the literals, if none of them has one. -/
def Opens (ids : List Nat) (step : ScopeTree → ScopeTree) : Prop :=
  ∀ tree, ids.Nodup → (∀ id ∈ ids, tree.functionScope? id = none) →
    (step tree).size = tree.size + ids.length

/-- Literals that are new stay so while others get their scopes. -/
theorem ScopeTree.Grown.functionScope?_eq_none {site : Nat} {new : List (String × BindingKind)}
    {opened : List Nat} {tree tree' : ScopeTree} (h : Grown site new opened tree tree') {id : Nat}
    (hid : id ∉ opened) (hnew : tree.functionScope? id = none) :
    tree'.functionScope? id = none := by
  rw [← Option.not_isSome_iff_eq_none] at hnew ⊢
  intro hknown
  rcases h.only (.function id) hknown with hold | ⟨other, hother, heq⟩
  · exact hnew hold
  · cases heq
    exact hid hother

@[simp] theorem ScopeTree.size_bindAll (tree : ScopeTree) (site : Nat)
    (new : List (String × BindingKind)) : (tree.bindAll site new).size = tree.size := by
  induction new generalizing tree with
  | nil => rfl
  | cons binding rest ih =>
    refine (ih _).trans ?_
    simp [size, declare]

namespace Opens

variable {site : Nat} {ids ids' : List Nat} {step step' : ScopeTree → ScopeTree}

theorem bindAll (site : Nat) (new : List (String × BindingKind)) :
    Opens [] fun tree => tree.bindAll site new :=
  fun tree _ _ => size_bindAll tree site new

theorem comp {new : List (String × BindingKind)}
    (hgrown : ∀ tree, Grown site new ids tree (step tree)) (h : Opens ids step)
    (h' : Opens ids' step') :
    Opens (ids ++ ids') fun tree => step' (step tree) := by
  intro tree hnodup hfresh
  obtain ⟨hfirst, hsecond, hapart⟩ := List.nodup_append.mp hnodup
  obtain ⟨hfresh, hfresh'⟩ := List.forall_mem_append.mp hfresh
  have hstill : ∀ id ∈ ids', (step tree).functionScope? id = none := fun id hid =>
    (hgrown tree).functionScope?_eq_none (fun hold => hapart id hold id hid rfl) (hfresh' id hid)
  calc (step' (step tree)).size
    _ = (step tree).size + ids'.length := h' (step tree) hsecond hstill
    _ = tree.size + (ids ++ ids').length := by
      rw [h tree hfirst hfresh, List.length_append, Nat.add_assoc]

theorem foldl {α : Type} {list : List α} {new : α → List (String × BindingKind)}
    {ids : α → List Nat} {step : ScopeTree → α → ScopeTree}
    (hgrown : ∀ a ∈ list, ∀ tree, Grown site (new a) (ids a) tree (step tree a))
    (h : ∀ a ∈ list, Opens (ids a) fun tree => step tree a) :
    Opens (list.flatMap ids) fun tree => list.foldl step tree := by
  induction list with
  | nil => exact fun tree _ _ => rfl
  | cons a rest ih =>
    obtain ⟨hfirst, hrest⟩ := List.forall_mem_cons.mp h
    obtain ⟨hgrown, hgrown'⟩ := List.forall_mem_cons.mp hgrown
    exact hfirst.comp hgrown (ih hgrown' hrest)

/-- A literal opens its own scope and those of the literals in its body. -/
theorem enter {fn : FunctionLit}
    (hbody : ∀ site, Opens (functionIds (Stmt.nodesAll .nested fn.body))
      (Stmt.declareAll site fn.body)) (site : Nat) (new : List (String × BindingKind)) :
    Opens (fn.id :: functionIds (Stmt.nodesAll .nested fn.body)) fun tree =>
      tree.enter site fn new := by
  intro tree hnodup hfresh
  obtain ⟨hne, hnodup⟩ := List.nodup_cons.mp hnodup
  obtain ⟨hfn, hfresh⟩ := List.forall_mem_cons.mp hfresh
  have hopening : (tree.opening site fn new).size = tree.size + 1 := by
    rw [opening, size_bindAll, size_push]
  have hstill : ∀ id ∈ functionIds (Stmt.nodesAll .nested fn.body),
      (tree.opening site fn new).functionScope? id = none := by
    intro id hid
    refine (scopeOf?_opening tree site fn new (.function id)).trans ?_
    rw [if_neg, scopeOf?, hfresh id hid]
    rintro ⟨rfl⟩
    exact hne hid
  have henter :
      tree.enter site fn new = Stmt.declareAll tree.size fn.body (tree.opening site fn new) := by
    rw [ScopeTree.enter, hfn]
  calc (tree.enter site fn new).size
    _ = (tree.opening site fn new).size + (functionIds (Stmt.nodesAll .nested fn.body)).length := by
      rw [henter, hbody tree.size _ hnodup hstill]
    _ = tree.size + (fn.id :: functionIds (Stmt.nodesAll .nested fn.body)).length := by
      rw [hopening, List.length_cons]
      omega

end Opens

theorem byParts_opens : ByParts
    (fun e => ∀ site, Opens (functionIds (e.nodes .nested)) (e.declare site))
    (fun s => ∀ site, Opens (functionIds (s.nodes .nested)) (s.declare site))
    (fun list => ∀ site,
      Opens (functionIds (Stmt.nodesAll .nested list)) (Stmt.declareAll site list)) := by
  have hexprs {es : List Expr}
      (ih : ∀ e ∈ es, ∀ site, Opens (functionIds (e.nodes .nested)) (e.declare site)) (site : Nat) :
      Opens (functionIds (Expr.nodesAll .nested es))
        fun tree => es.foldl (fun tree e => e.declare site tree) tree := by
    rw [Expr.nodesAll_eq_flatMap, functionIds_flatMap]
    exact .foldl (fun e _ => byParts_grown.expr e site) fun e he => ih e he site
  constructor
  case operation =>
    intro e he ih site
    rw [Expr.nodes_operation .nested he, functionIds_cons_of_none (Expr.function?_of_ownsLayer he),
      funext (Expr.declare_operation site he)]
    exact hexprs ih site
  case literal =>
    intro fn ih site
    rw [Expr.nodes_function, functionIds_cons, funext (Expr.declare_literal site fn)]
    exact .enter ih site _
  case declaration =>
    intro fn ih site
    rw [Stmt.nodes_function, functionIds_cons, funext (Stmt.declare_function site fn)]
    exact (Opens.bindAll site _).comp (grown_bindAll site _) (.enter ih site _)
  case statement =>
    intro s hfn hhead hbodies site
    have hgrown (tree : ScopeTree) := (grown_bindAll site s.ownBindings tree).trans
      (Grown.foldl (fun e (_ : e ∈ s.head?.toList) => byParts_grown.expr e site) _)
    have hfront := (Opens.bindAll site s.ownBindings).comp (grown_bindAll site s.ownBindings)
      (hexprs (fun e he => hhead e (Option.mem_toList.mp he)) site)
    rw [Expr.nodesAll_eq_flatMap, functionIds_flatMap] at hfront
    rw [Stmt.nodes_parts .nested hfn, functionIds_cons_of_none (Stmt.function?_node.trans hfn),
      functionIds_append, Expr.nodesAll_eq_flatMap, functionIds_flatMap, functionIds_flatMap,
      funext (Stmt.declare_parts site hfn)]
    exact hfront.comp hgrown (.foldl (fun body _ => Stmt.grown_declareAll body site)
      fun body hbody => hbodies body hbody site)
  case list =>
    intro list ih site
    simp only [funext (Stmt.declareAll_eq_foldl site list), Stmt.nodesAll_eq_flatMap,
      functionIds_flatMap]
    exact .foldl (fun s _ => byParts_grown.stmt s site) fun s hs => ih s hs site

theorem Stmt.opens_declareAll (stmts : List Stmt) (site : Nat) :
    Opens (functionIds (Stmt.nodesAll .nested stmts)) (Stmt.declareAll site stmts) :=
  byParts_opens.stmts stmts site

/-- Units one after another open a scope each, and one for each of their literals. -/
theorem ScopeTree.size_addUnits {units : List SourceUnit} {tree : ScopeTree}
    (hnodup : (functionIds (Program.nodes ⟨units⟩)).Nodup)
    (hfresh : ∀ id ∈ functionIds (Program.nodes ⟨units⟩), tree.functionScope? id = none) :
    (units.foldl ScopeTree.addUnit tree).size =
      tree.size + units.length + (functionIds (Program.nodes ⟨units⟩)).length := by
  induction units generalizing tree with
  | nil => rfl
  | cons unit rest ih =>
    rw [Program.nodes_cons, functionIds_append] at hnodup hfresh ⊢
    obtain ⟨hunit, hrest, hapart⟩ := List.nodup_append.mp hnodup
    obtain ⟨hfresh, hfresh'⟩ := List.forall_mem_append.mp hfresh
    have hgrown := Stmt.grown_declareAll unit.body tree.size (tree.push globalId (.script unit.id))
    have hopens := Stmt.opens_declareAll unit.body tree.size (tree.push globalId (.script unit.id))
      hunit hfresh
    have hsize : (tree.addUnit unit).size =
        tree.size + 1 + (functionIds (Stmt.nodesAll .nested unit.body)).length := by
      rw [ScopeTree.addUnit, hopens, size_push]
    have hstill : ∀ id ∈ functionIds (Program.nodes ⟨rest⟩),
        (tree.addUnit unit).functionScope? id = none := fun id hid =>
      hgrown.functionScope?_eq_none (fun hold => hapart id hold id hid rfl) (hfresh' id hid)
    rw [List.foldl_cons, ih hrest hstill, hsize, List.length_cons, List.length_append]
    omega

end Size

section Nesting

/-- The body has a scope of its own below the given one, in which these names are bound and no
others. -/
def ScopeTree.HasScope (tree : ScopeTree) (owner : ChangedBody) (parent : Nat)
    (names : List String) :
    Prop :=
  ∃ i scope, tree.scopeOf? owner = some i ∧ tree.get? i = some scope ∧ scope.kind = owner.kind ∧
    scope.parent = some parent ∧ ∀ name, scope.binds name = true ↔ name ∈ names

/-- The names bound inside a literal: those it declares, and its own name if it is an expression. -/
def FunctionLit.innerNames (fn : FunctionLit) (isExpression : Bool) : List String :=
  (if isExpression then fn.name.toList else []) ++ declaredNames fn.params fn.body

/-- The scopes of a program: the global one, one for each unit below it, and one for each
literal below the scope of the body it stands in. -/
structure Program.NestedScopes (program : Program) (tree : ScopeTree) : Prop where
  size : tree.size = 1 + program.units.length + (program.nodes.filterMap Node.function?).length
  units : ∀ unit ∈ program.units,
    tree.HasScope (.script unit.id) globalId (declaredNames [] unit.body)
  placed : ∀ node ∈ program.nodes, ∃ owner body, program.HasBody owner body ∧
    node ∈ Stmt.nodesAll .ownLayer body
  literals : ∀ owner body, program.HasBody owner body → ∀ node ∈ Stmt.nodesAll .ownLayer body,
    ∀ fn, node.function? = some fn → ∃ parent, tree.scopeOf? owner = some parent ∧
      tree.HasScope (.function fn.id) parent (fn.innerNames node.isExpression)

theorem isSome_lookup_iff {entries : List (String × BindingKind)} {name : String} :
    (entries.lookup name).isSome = true ↔ name ∈ entries.map (·.1) := by
  rw [Option.isSome_iff_ne_none, ne_eq, List.lookup_eq_none_iff, List.mem_map]
  simp only [bne_iff_ne, ne_eq, not_forall, not_not, exists_prop]
  exact exists_congr fun entry => and_congr_right fun _ => eq_comm

theorem Layer.Resolved.hasScope {tree : ScopeTree} (hwf : tree.WellFormed) {layer : Layer}
    (h : layer.Resolved tree) {names : List String}
    (hnames : ∀ name, name ∈ layer.bindings.map (·.1) ↔ name ∈ names) :
    ∃ parent, tree.enclosing? layer = some parent ∧ tree.HasScope layer.owner parent names := by
  obtain ⟨i, scope, parent, hi, hscope, hparent, henclosing, hlookup⟩ := h
  obtain ⟨scope', hscope', hkind⟩ := hwf.owners layer.owner i hi
  obtain rfl : scope = scope' := Option.some.inj (hscope.symm.trans hscope')
  refine ⟨parent, henclosing, i, scope, hi, hscope, hkind, hparent, fun name => ?_⟩
  rw [Scope.binds_eq, hlookup, isSome_lookup_iff, hnames]

theorem FunctionLit.mem_innerNames {fn : FunctionLit} {encloser : ChangedBody} {isExpression : Bool}
    {name : String} : name ∈ (fn.layer encloser isExpression).bindings.map (·.1) ↔
      name ∈ fn.innerNames isExpression := by
  have hhead : (fn.headBindings isExpression).map (·.1) =
      (if isExpression then fn.name.toList else []) ++ fn.params := by
    cases isExpression <;> simp [headBindings, Function.comp_def]
  rw [FunctionLit.bindings_layer, List.map_append, hhead, Stmt.map_fst_bindingsAll, innerNames,
    List.append_assoc, List.mem_append, List.mem_append, List.mem_append, mem_declaredNames]

/-- A literal whose layer is resolved has its scope below that of the body around it. -/
theorem FunctionLit.hasScope {tree : ScopeTree} (hwf : tree.WellFormed) {fn : FunctionLit}
    {owner : ChangedBody} {isExpression : Bool} (h : (fn.layer owner isExpression).Resolved tree) :
    ∃ parent, tree.scopeOf? owner = some parent ∧
      tree.HasScope (.function fn.id) parent (fn.innerNames isExpression) :=
  h.hasScope hwf fun _ => fn.mem_innerNames

theorem functionIds_eq_map (nodes : List Node) :
    functionIds nodes = (nodes.filterMap Node.function?).map (·.id) := by
  induction nodes with
  | nil => rfl
  | cons node rest ih =>
    cases hfn : node.function? <;> simp [functionIds_cons, Node.functionIds, hfn, ih]

/-- Scope resolution finds the literals, their nesting and their declarations. -/
theorem Program.nestedScopes_scopes {program : Program} (h : program.validate = .ok ()) :
    program.NestedScopes program.scopes := by
  have hdistinct := Program.distinct_of_validate h
  obtain ⟨hresolved, -⟩ := hdistinct.resolved_scopes
  have hwf := program.wellFormed_scopes
  constructor
  case size =>
    have hfresh : ∀ id ∈ functionIds program.nodes, initial.functionScope? id = none :=
      fun _ _ => rfl
    have hsize := size_addUnits (Program.distinct_iff.mp hdistinct).2 hfresh
    rw [functionIds_eq_map, List.length_map] at hsize
    exact hsize
  case units =>
    intro unit hunit
    have hlayer := hresolved unit.layer (SourceUnit.layers_subset hunit List.mem_cons_self)
    have hnames (name : String) :
        name ∈ unit.layer.bindings.map (·.1) ↔ name ∈ declaredNames [] unit.body := by
      have hbindings : unit.layer.bindings = Stmt.bindingsAll unit.body :=
        Stmt.bindingsAll_outlineAll unit.body
      rw [hbindings, Stmt.map_fst_bindingsAll, mem_declaredNames, or_iff_right List.not_mem_nil]
    obtain ⟨parent, hparent, hscope⟩ := hlayer.hasScope hwf hnames
    cases hparent
    exact hscope
  case placed => exact fun node => Program.exists_body
  case literals =>
    intro owner body hbody node hnode fn hfn
    exact fn.hasScope hwf (hresolved _ (hbody.layer_mem hnode hfn))

/-- A literal that mentions names of its own, names from around it and a global one. -/
def FunctionLit.sheltered : FunctionLit :=
  ⟨2, some "inner", ["b"],
    [.ifElse (.ident "b") [.var .letVar "u" (some (.ident "t"))] none,
      .ret (some (.array [.ident "inner", .ident "u", .ident "g",
        .function ⟨3, none, ["c"], [.ret (some (.binary .add (.ident "c") (.ident "a")))]⟩]))]⟩

def Program.sheltering : Program :=
  ⟨[⟨0, "main.js",
      [.function ⟨1, some "outer", ["a"],
        [.var .var "t" (some (.function .sheltered)), .ret (some (.ident "t"))]⟩]⟩]⟩

theorem Program.validate_sheltering : sheltering.validate = .ok () := by decide

/-- A scope for the unit and for each of its three literals, each below the one around it. -/
theorem Program.nestedScopes_sheltering : sheltering.NestedScopes sheltering.scopes ∧
    sheltering.scopes.size = 5 ∧ sheltering.scopes.parent? 4 = sheltering.scopes.functionScope? 2 ∧
    (sheltering.scopes.get? 3).map (·.bindings.map (·.1)) = some ["inner", "b", "u"] :=
  ⟨nestedScopes_scopes validate_sheltering, by decide, by decide, by decide⟩

end Nesting

end StaticInliner
