import StaticInliner.Analysis.Declared
import StaticInliner.ChangedBodies
import StaticInliner.Proofs.Parts
import StaticInliner.Scope.Tree

/-!
The layers of a program: the bodies of its units and of its function literals, each
without what stands inside the functions nested in it. Layers are named by their
owners, and a program is described by the list of its layers: node ids, bound names
and what a body looks like from outside are read off it.
-/
namespace StaticInliner

section Outline

/-- The literal without its body. -/
def FunctionLit.stub (fn : FunctionLit) : FunctionLit := ⟨fn.id, fn.name, fn.params, []⟩

mutual

/-- The expression with the bodies of its function literals left out. -/
def Expr.outline : Expr → Expr
  | .undefined => .undefined
  | .null => .null
  | .bool value => .bool value
  | .number value => .number value
  | .string value => .string value
  | .ident name => .ident name
  | .this => .this
  | .member object property => .member object.outline property
  | .index object key => .index object.outline key.outline
  | .call callee args => .call callee.outline (Expr.outlineAll args)
  | .new callee args => .new callee.outline (Expr.outlineAll args)
  | .assign target op value => .assign target.outline op value.outline
  | .binary op left right => .binary op left.outline right.outline
  | .logical op left right => .logical op left.outline right.outline
  | .unary op operand => .unary op operand.outline
  | .conditional condition thenExpr elseExpr =>
    .conditional condition.outline thenExpr.outline elseExpr.outline
  | .sequence items => .sequence (Expr.outlineAll items)
  | .array items => .array (Expr.outlineAll items)
  | .function fn => .function fn.stub

def Expr.outlineAll : List Expr → List Expr
  | [] => []
  | e :: rest => e.outline :: Expr.outlineAll rest

end

mutual

/-- The statement with the bodies of its function literals left out. -/
def Stmt.outline : Stmt → Stmt
  | .var kind name init => .var kind name (init.map Expr.outline)
  | .function fn => .function fn.stub
  | .expr value => .expr value.outline
  | .ret value => .ret (value.map Expr.outline)
  | .ifElse condition thenBranch none =>
    .ifElse condition.outline (Stmt.outlineAll thenBranch) none
  | .ifElse condition thenBranch (some elseBranch) =>
    .ifElse condition.outline (Stmt.outlineAll thenBranch) (some (Stmt.outlineAll elseBranch))
  | .whileDo condition body => .whileDo condition.outline (Stmt.outlineAll body)
  | .block body => .block (Stmt.outlineAll body)
  | .labeled label body => .labeled label (Stmt.outlineAll body)
  | .breakTo label => .breakTo label
  | .continueTo label => .continueTo label
  | .throw value => .throw value.outline

def Stmt.outlineAll : List Stmt → List Stmt
  | [] => []
  | s :: rest => s.outline :: Stmt.outlineAll rest

end

theorem Expr.outlineAll_eq_map (es : List Expr) : Expr.outlineAll es = es.map Expr.outline := by
  induction es with
  | nil => rfl
  | cons e rest ih => rw [Expr.outlineAll, ih, List.map_cons]

theorem Stmt.outlineAll_eq_map (stmts : List Stmt) :
    Stmt.outlineAll stmts = stmts.map Stmt.outline := by
  induction stmts with
  | nil => rfl
  | cons s rest ih => rw [Stmt.outlineAll, ih, List.map_cons]

/-- The outline of an operation has the outlines of its operands. -/
theorem Expr.outline_operation {e : Expr} (h : e.ownsLayer = false) :
    e.outline = e.withOperands (e.children.map Expr.outline) := by
  cases e with
  | function _ => cases h
  | _ => simp [Expr.outline, Expr.children, Expr.withOperands, Expr.outlineAll_eq_map]

theorem Stmt.outline_withHead (s : Stmt) (e : Expr) :
    (s.withHead e).outline = s.outline.withHead e.outline := by
  cases s with
  | ifElse _ _ elseBranch => cases elseBranch <;> rfl
  | _ => rfl

end Outline

section Bindings

mutual

/-- The names a statement declares in its own layer, and how. -/
def Stmt.bindings : Stmt → List (String × BindingKind)
  | .var kind name _ => [(name, .ofVar kind)]
  | .function fn => fn.name.toList.map (·, .function)
  | .ifElse _ thenBranch none => Stmt.bindingsAll thenBranch
  | .ifElse _ thenBranch (some elseBranch) =>
    Stmt.bindingsAll thenBranch ++ Stmt.bindingsAll elseBranch
  | .whileDo _ body | .block body | .labeled _ body => Stmt.bindingsAll body
  | .expr _ | .ret _ | .breakTo _ | .continueTo _ | .throw _ => []

def Stmt.bindingsAll : List Stmt → List (String × BindingKind)
  | [] => []
  | s :: rest => s.bindings ++ Stmt.bindingsAll rest

end

theorem Stmt.bindingsAll_eq_flatMap (stmts : List Stmt) :
    Stmt.bindingsAll stmts = stmts.flatMap Stmt.bindings := by
  induction stmts with
  | nil => rfl
  | cons s rest ih => rw [Stmt.bindingsAll, ih, List.flatMap_cons]

@[simp] theorem Stmt.bindingsAll_append (first second : List Stmt) :
    Stmt.bindingsAll (first ++ second) = Stmt.bindingsAll first ++ Stmt.bindingsAll second := by
  simp only [Stmt.bindingsAll_eq_flatMap, List.flatMap_append]

@[simp] theorem Stmt.bindings_withHead (s : Stmt) (e : Expr) :
    (s.withHead e).bindings = s.bindings := by
  cases s with
  | ifElse _ _ elseBranch => cases elseBranch <;> rfl
  | _ => rfl

mutual

/-- The names are those that the statement declares. -/
theorem Stmt.map_fst_bindings : ∀ s : Stmt, s.bindings.map (·.1) = s.declarations
  | .var _ _ _ | .expr _ | .ret _ | .breakTo _ | .continueTo _ | .throw _ => rfl
  | .function fn => by cases h : fn.name <;> simp [Stmt.bindings, Stmt.declarations, h]
  | .ifElse _ body none | .whileDo _ body | .block body | .labeled _ body =>
    Stmt.map_fst_bindingsAll body
  | .ifElse _ thenBranch (some elseBranch) => by
    rw [Stmt.bindings, List.map_append, Stmt.map_fst_bindingsAll thenBranch,
      Stmt.map_fst_bindingsAll elseBranch, Stmt.declarations]

theorem Stmt.map_fst_bindingsAll : ∀ stmts : List Stmt,
    (Stmt.bindingsAll stmts).map (·.1) = Stmt.declarationsAll stmts
  | [] => rfl
  | s :: rest => by
    rw [Stmt.bindingsAll, List.map_append, s.map_fst_bindings, Stmt.map_fst_bindingsAll rest,
      Stmt.declarationsAll]

end

mutual

theorem Stmt.bindings_outline : ∀ s : Stmt, s.outline.bindings = s.bindings
  | .var _ _ _ | .expr _ | .ret _ | .breakTo _ | .continueTo _ | .throw _ | .function _ => rfl
  | .ifElse _ body none | .whileDo _ body | .block body | .labeled _ body =>
    Stmt.bindingsAll_outlineAll body
  | .ifElse _ thenBranch (some elseBranch) => by
    rw [Stmt.outline, Stmt.bindings, Stmt.bindingsAll_outlineAll thenBranch,
      Stmt.bindingsAll_outlineAll elseBranch, Stmt.bindings]

theorem Stmt.bindingsAll_outlineAll : ∀ stmts : List Stmt,
    Stmt.bindingsAll (Stmt.outlineAll stmts) = Stmt.bindingsAll stmts
  | [] => rfl
  | s :: rest => by
    rw [Stmt.outlineAll, Stmt.bindingsAll, s.bindings_outline, Stmt.bindingsAll_outlineAll rest,
      Stmt.bindingsAll]

end

end Bindings

/-- A body of a program: the top level of a unit or the body of a function literal. -/
structure Layer where
  owner : ChangedBody
  /-- The body that the function literal stands in. -/
  encloser : Option ChangedBody
  /-- A function expression binds its own name inside. -/
  isExpression : Bool
  name : Option String
  params : List String
  /-- The statements, without what stands inside other functions. -/
  body : List Stmt

/-- The names bound in the scope of a body, the first entry of a name counting. -/
def Layer.bindings (layer : Layer) : List (String × BindingKind) :=
  (if layer.isExpression then layer.name.toList.map (·, .function) else []) ++
    layer.params.map (·, .param) ++ Stmt.bindingsAll layer.body

def FunctionLit.layer (fn : FunctionLit) (encloser : ChangedBody) (isExpression : Bool) : Layer :=
  ⟨.function fn.id, some encloser, isExpression, fn.name, fn.params, Stmt.outlineAll fn.body⟩

def SourceUnit.layer (unit : SourceUnit) : Layer :=
  ⟨.script unit.id, none, false, some unit.name, [], Stmt.outlineAll unit.body⟩

section Layers

mutual

/-- The layers of the function literals in an expression that stands in a body. -/
def Expr.layers (owner : ChangedBody) : Expr → List Layer
  | .undefined | .null | .bool _ | .number _ | .string _ | .ident _ | .this => []
  | .member e _ | .unary _ e => e.layers owner
  | .index left right | .assign left _ right | .binary _ left right | .logical _ left right =>
    left.layers owner ++ right.layers owner
  | .conditional condition thenExpr elseExpr =>
    condition.layers owner ++ (thenExpr.layers owner ++ elseExpr.layers owner)
  | .call callee args | .new callee args => callee.layers owner ++ Expr.layersAll owner args
  | .sequence items | .array items => Expr.layersAll owner items
  | .function ⟨id, name, params, body⟩ =>
    FunctionLit.layer ⟨id, name, params, body⟩ owner true :: Stmt.layersAll (.function id) body

def Expr.layersAll (owner : ChangedBody) : List Expr → List Layer
  | [] => []
  | e :: rest => e.layers owner ++ Expr.layersAll owner rest

def Stmt.layers (owner : ChangedBody) : Stmt → List Layer
  | .var _ _ none | .ret none | .breakTo _ | .continueTo _ => []
  | .var _ _ (some e) | .ret (some e) | .expr e | .throw e => e.layers owner
  | .function ⟨id, name, params, body⟩ =>
    FunctionLit.layer ⟨id, name, params, body⟩ owner false :: Stmt.layersAll (.function id) body
  | .ifElse e body none | .whileDo e body => e.layers owner ++ Stmt.layersAll owner body
  | .ifElse e thenBranch (some elseBranch) =>
    e.layers owner ++ (Stmt.layersAll owner thenBranch ++ Stmt.layersAll owner elseBranch)
  | .block body | .labeled _ body => Stmt.layersAll owner body

def Stmt.layersAll (owner : ChangedBody) : List Stmt → List Layer
  | [] => []
  | s :: rest => s.layers owner ++ Stmt.layersAll owner rest

end

def SourceUnit.layers (unit : SourceUnit) : List Layer :=
  unit.layer :: Stmt.layersAll (.script unit.id) unit.body

def Program.layers (program : Program) : List Layer := program.units.flatMap SourceUnit.layers

theorem Expr.layersAll_eq_flatMap (owner : ChangedBody) (es : List Expr) :
    Expr.layersAll owner es = es.flatMap (·.layers owner) := by
  induction es with
  | nil => rfl
  | cons e rest ih => rw [Expr.layersAll, ih, List.flatMap_cons]

theorem Stmt.layersAll_eq_flatMap (owner : ChangedBody) (stmts : List Stmt) :
    Stmt.layersAll owner stmts = stmts.flatMap (·.layers owner) := by
  induction stmts with
  | nil => rfl
  | cons s rest ih => rw [Stmt.layersAll, ih, List.flatMap_cons]

/-- The layers of an operation are those of its operands. -/
theorem Expr.layers_operation (owner : ChangedBody) {e : Expr} (h : e.ownsLayer = false) :
    e.layers owner = e.children.flatMap (·.layers owner) := by
  cases e with
  | function _ => cases h
  | _ => simp [Expr.layers, Expr.children, Expr.layersAll_eq_flatMap]

theorem Expr.layers_literal (owner : ChangedBody) (fn : FunctionLit) :
    (Expr.function fn).layers owner = fn.layer owner true ::
      Stmt.layersAll (.function fn.id) fn.body := by
  cases fn
  rfl

theorem Stmt.layers_function (owner : ChangedBody) (fn : FunctionLit) :
    (Stmt.function fn).layers owner =
      fn.layer owner false :: Stmt.layersAll (.function fn.id) fn.body := by
  cases fn
  rfl

/-- The layers of a statement are those of its parts. -/
theorem Stmt.layers_parts (owner : ChangedBody) {s : Stmt} (h : s.function? = none) :
    s.layers owner =
      s.head?.toList.flatMap (·.layers owner) ++ s.bodies.flatMap (Stmt.layersAll owner) := by
  cases s with
  | var _ _ init => cases init <;> simp [Stmt.layers, head?, bodies]
  | ret value => cases value <;> simp [Stmt.layers, head?, bodies]
  | ifElse _ _ elseBranch => cases elseBranch <;> simp [Stmt.layers, head?, bodies]
  | function _ => cases h
  | _ => simp [Stmt.layers, head?, bodies]

@[simp] theorem Stmt.layersAll_append (owner : ChangedBody) (first second : List Stmt) :
    Stmt.layersAll owner (first ++ second) =
      Stmt.layersAll owner first ++ Stmt.layersAll owner second := by
  simp only [Stmt.layersAll_eq_flatMap, List.flatMap_append]

/-- The layers in a tree belong to the function literals in it. -/
theorem byParts_map_owner_layers : ByParts
    (fun e => ∀ owner, (e.layers owner).map (·.owner) =
      (functionIds (e.nodes .nested)).map .function)
    (fun s => ∀ owner, (s.layers owner).map (·.owner) =
      (functionIds (s.nodes .nested)).map .function)
    (fun list => ∀ owner, (Stmt.layersAll owner list).map (·.owner) =
      (functionIds (Stmt.nodesAll .nested list)).map .function) := by
  refine ⟨fun e he ih owner => ?_, fun fn ih owner => ?_, fun fn ih owner => ?_,
    fun s hfn hhead hbodies owner => ?_, fun list ih owner => ?_⟩
  · rw [Expr.layers_operation owner he, Expr.nodes_operation .nested he, Expr.nodesAll_eq_flatMap,
      functionIds_cons_of_none (Expr.function?_of_ownsLayer he), functionIds_flatMap,
      List.map_flatMap, List.map_flatMap]
    exact List.flatMap_congr fun operand hoperand => ih operand hoperand owner
  · rw [Expr.layers_literal, Expr.nodes_function, functionIds_cons, List.map_cons, ih,
      List.map_append]
    rfl
  · rw [Stmt.layers_function, Stmt.nodes_function, functionIds_cons, List.map_cons, ih,
      List.map_append]
    rfl
  · rw [Stmt.layers_parts owner hfn, Stmt.nodes_parts .nested hfn,
      functionIds_cons_of_none (Stmt.function?_node.trans hfn), functionIds_append,
      Expr.nodesAll_eq_flatMap, functionIds_flatMap, functionIds_flatMap, List.map_append,
      List.map_append, List.map_flatMap, List.map_flatMap, List.map_flatMap, List.map_flatMap]
    congr 1
    · exact List.flatMap_congr fun e he => hhead e (Option.mem_toList.mp he) owner
    · exact List.flatMap_congr fun body hbody => hbodies body hbody owner
  · rw [Stmt.layersAll_eq_flatMap, Stmt.nodesAll_eq_flatMap, functionIds_flatMap,
      List.map_flatMap, List.map_flatMap]
    exact List.flatMap_congr fun s hs => ih s hs owner

/-- The layers of an expression belong to its function literals, in order. -/
theorem Expr.map_owner_layers (owner : ChangedBody) (e : Expr) :
    (e.layers owner).map (·.owner) = (functionIds (e.nodes .nested)).map .function :=
  byParts_map_owner_layers.expr e owner

theorem Stmt.map_owner_layersAll (owner : ChangedBody) (stmts : List Stmt) :
    (Stmt.layersAll owner stmts).map (·.owner) =
      (functionIds (Stmt.nodesAll .nested stmts)).map .function :=
  byParts_map_owner_layers.stmts stmts owner

/-- Every layer is enclosed by one of the given bodies or by a layer that comes before it. -/
def Enclosed (outer : List ChangedBody) : List Layer → Prop
  | [] => True
  | layer :: rest => (∃ encloser ∈ outer, layer.encloser = some encloser) ∧
      Enclosed (layer.owner :: outer) rest

namespace Enclosed

variable {outer outer' : List ChangedBody}

theorem mono {layers : List Layer} (h : Enclosed outer layers) (hsub : outer ⊆ outer') :
    Enclosed outer' layers := by
  induction layers generalizing outer outer' with
  | nil => trivial
  | cons layer rest ih =>
    obtain ⟨⟨encloser, hmem, hencloser⟩, hrest⟩ := h
    exact ⟨⟨encloser, hsub hmem, hencloser⟩, ih hrest (List.cons_subset_cons _ hsub)⟩

theorem append {first second : List Layer} (h : Enclosed outer first) (h' : Enclosed outer second) :
    Enclosed outer (first ++ second) := by
  induction first generalizing outer with
  | nil => exact h'
  | cons layer rest ih =>
    exact ⟨h.1, ih h.2 (h'.mono (List.subset_cons_self _ _))⟩

theorem flatMap {α : Type} {list : List α} {layers : α → List Layer}
    (h : ∀ a ∈ list, Enclosed outer (layers a)) : Enclosed outer (list.flatMap layers) := by
  induction list with
  | nil => trivial
  | cons a rest ih =>
    obtain ⟨hfirst, hrest⟩ := List.forall_mem_cons.mp h
    exact hfirst.append (ih hrest)

/-- What stands in a function is enclosed by it. -/
theorem function {owner : ChangedBody} {layer : Layer} {below : List Layer}
    (hencloser : layer.encloser = some owner) (h : Enclosed [layer.owner] below) :
    Enclosed [owner] (layer :: below) :=
  ⟨⟨owner, List.mem_cons_self, hencloser⟩,
    h.mono (List.cons_subset_cons _ (List.nil_subset _))⟩

theorem exists_encloser {layers : List Layer} (h : Enclosed outer layers) {layer : Layer}
    (hlayer : layer ∈ layers) : ∃ encloser, layer.encloser = some encloser ∧
      (encloser ∈ outer ∨ encloser ∈ layers.map (·.owner)) := by
  induction layers generalizing outer with
  | nil => cases hlayer
  | cons first rest ih =>
    obtain ⟨⟨encloser, hmem, hencloser⟩, hrest⟩ := h
    rcases List.mem_cons.mp hlayer with rfl | hlayer
    · exact ⟨encloser, hencloser, .inl hmem⟩
    · obtain ⟨encloser, hencloser, hcases⟩ := ih hrest hlayer
      refine ⟨encloser, hencloser, ?_⟩
      rcases hcases with hcases | hcases
      · rcases List.mem_cons.mp hcases with rfl | hcases
        · exact .inr List.mem_cons_self
        · exact .inl hcases
      · exact .inr (List.mem_cons_of_mem _ hcases)

end Enclosed

/-- The layers of every tree are enclosed by its owner or by one another. -/
theorem byParts_enclosed : ByParts (fun e => ∀ owner, Enclosed [owner] (e.layers owner))
    (fun s => ∀ owner, Enclosed [owner] (s.layers owner))
    (fun list => ∀ owner, Enclosed [owner] (Stmt.layersAll owner list)) := by
  refine ⟨fun e he ih owner => ?_, fun fn ih owner => ?_, fun fn ih owner => ?_,
    fun s hfn hhead hbodies owner => ?_, fun list ih owner => ?_⟩
  · rw [Expr.layers_operation owner he]
    exact .flatMap fun operand hoperand => ih operand hoperand owner
  · rw [Expr.layers_literal]
    exact .function rfl (ih _)
  · rw [Stmt.layers_function]
    exact .function rfl (ih _)
  · rw [Stmt.layers_parts owner hfn]
    exact .append (.flatMap fun e he => hhead e (Option.mem_toList.mp he) owner)
      (.flatMap fun body hbody => hbodies body hbody owner)
  · rw [Stmt.layersAll_eq_flatMap]
    exact .flatMap fun s hs => ih s hs owner

theorem Stmt.enclosed_layersAll (owner : ChangedBody) (stmts : List Stmt) :
    Enclosed [owner] (Stmt.layersAll owner stmts) :=
  byParts_enclosed.stmts stmts owner

end Layers

section Outlines

def Node.outline : Node → Node
  | .stmt s => .stmt s.outline
  | .expr e => .expr e.outline

mutual

/-- The own layer of an outline is the outline of the own layer. -/
theorem Expr.nodes_outline : ∀ e : Expr,
    e.outline.nodes .ownLayer = (e.nodes .ownLayer).map Node.outline
  | .undefined | .null | .bool _ | .number _ | .string _ | .ident _ | .this
  | .function ⟨_, _, _, _⟩ => rfl
  | .member e _ | .unary _ e => by
    simp only [Expr.outline, Expr.nodes, List.map_cons, e.nodes_outline, Node.outline]
  | .index left right | .assign left _ right | .binary _ left right | .logical _ left right => by
    simp only [Expr.outline, Expr.nodes, List.map_cons, List.map_append, left.nodes_outline,
      right.nodes_outline, Node.outline]
  | .conditional condition thenExpr elseExpr => by
    simp only [Expr.outline, Expr.nodes, List.map_cons, List.map_append, condition.nodes_outline,
      thenExpr.nodes_outline, elseExpr.nodes_outline, Node.outline]
  | .call callee args | .new callee args => by
    simp only [Expr.outline, Expr.nodes, List.map_cons, List.map_append, callee.nodes_outline,
      Expr.nodesAll_outlineAll args, Node.outline]
  | .sequence items | .array items => by
    simp only [Expr.outline, Expr.nodes, List.map_cons, Expr.nodesAll_outlineAll items,
      Node.outline]

theorem Expr.nodesAll_outlineAll : ∀ es : List Expr,
    Expr.nodesAll .ownLayer (Expr.outlineAll es) = (Expr.nodesAll .ownLayer es).map Node.outline
  | [] => rfl
  | e :: rest => by
    rw [Expr.outlineAll, Expr.nodesAll, e.nodes_outline, Expr.nodesAll_outlineAll rest,
      Expr.nodesAll, List.map_append]

end

mutual

theorem Stmt.nodes_outline : ∀ s : Stmt,
    s.outline.nodes .ownLayer = (s.nodes .ownLayer).map Node.outline
  | .var _ _ none | .ret none | .breakTo _ | .continueTo _ | .function ⟨_, _, _, _⟩ => rfl
  | .var _ _ (some e) | .ret (some e) | .expr e | .throw e => by
    simp only [Stmt.outline, Option.map_some, Stmt.nodes, List.map_cons, e.nodes_outline,
      Node.outline]
  | .ifElse e body none | .whileDo e body => by
    simp only [Stmt.outline, Stmt.nodes, List.map_cons, List.map_append, e.nodes_outline,
      Stmt.nodesAll_outlineAll body, Node.outline]
  | .ifElse e thenBranch (some elseBranch) => by
    simp only [Stmt.outline, Stmt.nodes, List.map_cons, List.map_append, e.nodes_outline,
      Stmt.nodesAll_outlineAll thenBranch, Stmt.nodesAll_outlineAll elseBranch, Node.outline]
  | .block body | .labeled _ body => by
    simp only [Stmt.outline, Stmt.nodes, List.map_cons, Stmt.nodesAll_outlineAll body,
      Node.outline]

theorem Stmt.nodesAll_outlineAll : ∀ stmts : List Stmt,
    Stmt.nodesAll .ownLayer (Stmt.outlineAll stmts) =
      (Stmt.nodesAll .ownLayer stmts).map Node.outline
  | [] => rfl
  | s :: rest => by
    rw [Stmt.outlineAll, Stmt.nodesAll, s.nodes_outline, Stmt.nodesAll_outlineAll rest,
      Stmt.nodesAll, List.map_append]

end

end Outlines

end StaticInliner
