import StaticInliner.Proofs.FreeNames
import StaticInliner.Proofs.Operands

/-!
Relabeling. The names of variables, functions, parameters and labels in a tree are replaced
along a map, and so are the operators of assignments; properties, texts and ids stay. If the
map tells names apart and keeps the names that mean something by themselves, then no test of a
body can tell the difference, and what is collected from a body are the same names, relabeled.
-/
namespace StaticInliner

section Definitions

/-- What is put in the place of each name, and of the operator of each assignment. -/
structure Labels where
  name : String → String
  operator : Option BinaryOp → Option BinaryOp

instance : CoeFun Labels fun _ => String → String := ⟨Labels.name⟩

/-- Names are replaced, and operators stay. -/
def Labels.ofNames (f : String → String) : Labels := ⟨f, id⟩

theorem Labels.name_ofNames (f : String → String) : (ofNames f).name = f := rfl

mutual

/-- The expression with each name and operator of an assignment replaced. -/
@[simp] def Expr.relabel (f : Labels) : Expr → Expr
  | .undefined => .undefined
  | .null => .null
  | .bool value => .bool value
  | .number value => .number value
  | .string value => .string value
  | .ident name => .ident (f name)
  | .this => .this
  | .member object property => .member (object.relabel f) property
  | .index object key => .index (object.relabel f) (key.relabel f)
  | .call callee args => .call (callee.relabel f) (Expr.relabelAll f args)
  | .new callee args => .new (callee.relabel f) (Expr.relabelAll f args)
  | .assign target op value => .assign (target.relabel f) (f.operator op) (value.relabel f)
  | .binary op left right => .binary op (left.relabel f) (right.relabel f)
  | .logical op left right => .logical op (left.relabel f) (right.relabel f)
  | .unary op operand => .unary op (operand.relabel f)
  | .conditional condition thenExpr elseExpr =>
    .conditional (condition.relabel f) (thenExpr.relabel f) (elseExpr.relabel f)
  | .sequence items => .sequence (Expr.relabelAll f items)
  | .array items => .array (Expr.relabelAll f items)
  | .function ⟨id, name, params, body⟩ =>
    .function ⟨id, name.map f, params.map f, Stmt.relabelAll f body⟩

@[simp] def Expr.relabelAll (f : Labels) : List Expr → List Expr
  | [] => []
  | e :: rest => e.relabel f :: Expr.relabelAll f rest

@[simp] def Stmt.relabel (f : Labels) : Stmt → Stmt
  | .var kind name none => .var kind (f name) none
  | .var kind name (some init) => .var kind (f name) (some (init.relabel f))
  | .function ⟨id, name, params, body⟩ =>
    .function ⟨id, name.map f, params.map f, Stmt.relabelAll f body⟩
  | .expr value => .expr (value.relabel f)
  | .ret none => .ret none
  | .ret (some value) => .ret (some (value.relabel f))
  | .ifElse condition thenBranch none =>
    .ifElse (condition.relabel f) (Stmt.relabelAll f thenBranch) none
  | .ifElse condition thenBranch (some elseBranch) =>
    .ifElse (condition.relabel f) (Stmt.relabelAll f thenBranch)
      (some (Stmt.relabelAll f elseBranch))
  | .whileDo condition body => .whileDo (condition.relabel f) (Stmt.relabelAll f body)
  | .block body => .block (Stmt.relabelAll f body)
  | .labeled label body => .labeled (f label) (Stmt.relabelAll f body)
  | .breakTo label => .breakTo (label.map f)
  | .continueTo label => .continueTo (label.map f)
  | .throw value => .throw (value.relabel f)

@[simp] def Stmt.relabelAll (f : Labels) : List Stmt → List Stmt
  | [] => []
  | s :: rest => s.relabel f :: Stmt.relabelAll f rest

end

def FunctionLit.relabel (f : Labels) (fn : FunctionLit) : FunctionLit :=
  ⟨fn.id, fn.name.map f, fn.params.map f, Stmt.relabelAll f fn.body⟩

def Node.relabel (f : Labels) : Node → Node
  | .stmt s => .stmt (s.relabel f)
  | .expr e => .expr (e.relabel f)

def relabelBinding (f : String → String) (binding : String × BindingKind) : String × BindingKind :=
  (f binding.1, binding.2)

def SourceUnit.relabel (f : Labels) (unit : SourceUnit) : SourceUnit :=
  ⟨unit.id, unit.name, Stmt.relabelAll f unit.body⟩

def Program.relabel (f : Labels) (program : Program) : Program :=
  ⟨program.units.map (·.relabel f)⟩

/-- Labels that tell names apart, and keep the name of the arguments object, the empty name
and plain assignments. -/
structure Relabeling extends Labels where
  injective : Function.Injective name
  empty : name "" = ""
  arguments : name "arguments" = "arguments"
  plain : operator none = none

instance : Coe Relabeling Labels := ⟨Relabeling.toLabels⟩

instance : CoeFun Relabeling fun _ => String → String := ⟨fun σ => σ.name⟩

/-- No operator is replaced. -/
def Relabeling.KeepsOperators (σ : Relabeling) : Prop := ∀ op, σ.operator op = op

/-- No name is replaced. -/
def Relabeling.KeepsNames (σ : Relabeling) : Prop := ∀ name, σ name = name

theorem Relabeling.KeepsNames.map {σ : Relabeling} (h : σ.KeepsNames) (names : List String) :
    names.map σ = names :=
  (List.map_congr_left fun name _ => h name).trans (List.map_id' _)

end Definitions

section Parts

variable (f : Labels)

theorem Expr.relabelAll_eq_map (es : List Expr) : Expr.relabelAll f es = es.map (·.relabel f) := by
  induction es with
  | nil => rfl
  | cons e rest ih => rw [Expr.relabelAll, ih, List.map_cons]

theorem Stmt.relabelAll_eq_map (stmts : List Stmt) :
    Stmt.relabelAll f stmts = stmts.map (·.relabel f) := by
  induction stmts with
  | nil => rfl
  | cons s rest ih => rw [Stmt.relabelAll, ih, List.map_cons]

@[simp] theorem Expr.relabelAll_append (first second : List Expr) :
    Expr.relabelAll f (first ++ second) = Expr.relabelAll f first ++ Expr.relabelAll f second := by
  simp only [Expr.relabelAll_eq_map, List.map_append]

@[simp] theorem Stmt.relabelAll_append (first second : List Stmt) :
    Stmt.relabelAll f (first ++ second) = Stmt.relabelAll f first ++ Stmt.relabelAll f second := by
  simp only [Stmt.relabelAll_eq_map, List.map_append]

theorem Expr.relabel_function (fn : FunctionLit) :
    (Expr.function fn).relabel f = .function (fn.relabel f) := by
  cases fn
  rfl

theorem Stmt.relabel_function (fn : FunctionLit) :
    (Stmt.function fn).relabel f = .function (fn.relabel f) := by
  cases fn
  rfl

namespace Expr

theorem children_relabel (e : Expr) : (e.relabel f).children = e.children.map (·.relabel f) := by
  cases e with
  | function fn => cases fn; rfl
  | _ => simp [children, relabelAll_eq_map]

/-- A relabeled expression is of the same kind. -/
theorem shape_relabel (e : Expr) : (e.relabel f).ownsLayer = e.ownsLayer ∧
    (e.relabel f).walksOperands = e.walksOperands ∧ (e.relabel f).isImpure = e.isImpure ∧
    (e.relabel f).isLiteral = e.isLiteral := by
  cases e with
  | function fn => cases fn; exact ⟨rfl, rfl, rfl, rfl⟩
  | assign target _ _ =>
    refine ⟨rfl, ?_, rfl, rfl⟩
    cases target with
    | function fn => cases fn; rfl
    | _ => rfl
  | unary op _ => cases op <;> exact ⟨rfl, rfl, rfl, rfl⟩
  | _ => exact ⟨rfl, rfl, rfl, rfl⟩

theorem relabel_ne_ident {e : Expr} (h : ∀ name, e ≠ .ident name) (name : String) :
    e.relabel f ≠ .ident name := by
  cases e with
  | ident other => exact absurd rfl (h other)
  | function fn => cases fn; exact fun heq => by cases heq
  | _ => exact fun heq => by cases heq

/-- Operands are relabeled one by one. -/
theorem relabel_withOperands {e : Expr} (hlayer : e.ownsLayer = false) {operands : List Expr}
    (h : operands.length = e.children.length) :
    (e.withOperands operands).relabel f = (e.relabel f).withOperands
      (operands.map (·.relabel f)) := by
  cases e with
  | undefined | null | bool _ | number _ | string _ | ident _ | this => rfl
  | member _ _ | unary _ _ =>
    obtain ⟨a, rfl⟩ := List.length_eq_one_iff.mp h
    rfl
  | index _ _ | assign _ _ _ | binary _ _ _ | logical _ _ _ =>
    obtain ⟨a, b, rfl⟩ := List.length_eq_two.mp h
    rfl
  | conditional _ _ _ =>
    obtain ⟨a, b, c, rfl⟩ := List.length_eq_three.mp h
    rfl
  | call _ _ | new _ _ =>
    obtain ⟨a, rest, rfl⟩ := List.exists_cons_of_length_eq_add_one h
    rw [withOperands, relabel, relabelAll_eq_map]
    rfl
  | sequence _ | array _ =>
    rw [withOperands, relabel, relabelAll_eq_map]
    rfl
  | function _ => cases hlayer

end Expr

namespace Stmt

/-- Parts are relabeled one by one. -/
theorem parts_relabel (s : Stmt) : (s.relabel f).head? = s.head?.map (·.relabel f) ∧
    (s.relabel f).bodies = s.bodies.map (Stmt.relabelAll f) ∧
    (s.relabel f).function? = s.function?.map (·.relabel f) ∧
    (s.relabel f).isLoop = s.isLoop ∧
    (s.relabel f).ownBindings = s.ownBindings.map (relabelBinding f) := by
  cases s with
  | var _ _ init => cases init <;> exact ⟨rfl, rfl, rfl, rfl, rfl⟩
  | ret value => cases value <;> exact ⟨rfl, rfl, rfl, rfl, rfl⟩
  | ifElse _ _ elseBranch => cases elseBranch <;> exact ⟨rfl, rfl, rfl, rfl, rfl⟩
  | function fn =>
    obtain ⟨id, name, params, body⟩ := fn
    cases name <;> exact ⟨rfl, rfl, rfl, rfl, rfl⟩
  | _ => exact ⟨rfl, rfl, rfl, rfl, rfl⟩

/-- Relabeling reaches the parts of a statement. -/
theorem relabel_withParts {s : Stmt} {head : Option Expr} {bodies : List (List Stmt)}
    (hhead : head.isSome = s.head?.isSome) (hbodies : bodies.length = s.bodies.length) :
    (s.withParts head bodies).relabel f =
      (s.relabel f).withParts (head.map (·.relabel f)) (bodies.map (Stmt.relabelAll f)) := by
  cases s with
  | function fn => cases fn; rfl
  | var _ _ init => cases init <;> cases head <;> rfl
  | ret value => cases value <;> cases head <;> rfl
  | expr _ | throw _ =>
    obtain ⟨e, rfl⟩ := Option.isSome_iff_exists.mp hhead
    rfl
  | ifElse _ _ elseBranch =>
    obtain ⟨e, rfl⟩ := Option.isSome_iff_exists.mp hhead
    cases elseBranch with
    | none =>
      obtain ⟨a, rfl⟩ := List.length_eq_one_iff.mp hbodies
      rfl
    | some _ =>
      obtain ⟨a, b, rfl⟩ := List.length_eq_two.mp hbodies
      rfl
  | whileDo _ _ =>
    obtain ⟨e, rfl⟩ := Option.isSome_iff_exists.mp hhead
    obtain ⟨a, rfl⟩ := List.length_eq_one_iff.mp hbodies
    rfl
  | block _ | labeled _ _ =>
    obtain ⟨a, rfl⟩ := List.length_eq_one_iff.mp hbodies
    rfl
  | breakTo _ | continueTo _ => rfl

end Stmt

end Parts

section Nodes

variable (f : Labels)

theorem Node.function?_relabel (node : Node) :
    (node.relabel f).function? = node.function?.map (·.relabel f) := by
  cases node with
  | expr e =>
    cases e with
    | function fn => cases fn; rfl
    | _ => rfl
  | stmt s =>
    rw [relabel, Stmt.function?_node, Stmt.function?_node]
    exact (s.parts_relabel f).2.2.1

/-- The nodes of a relabeled tree are its nodes, relabeled. -/
theorem byParts_nodes_relabel (reach : Reach) : ByParts
    (fun e => (e.relabel f).nodes reach = (e.nodes reach).map (·.relabel f))
    (fun s => (s.relabel f).nodes reach = (s.nodes reach).map (·.relabel f))
    (fun list => Stmt.nodesAll reach (Stmt.relabelAll f list) =
      (Stmt.nodesAll reach list).map (·.relabel f)) := by
  have hexprs {es : List Expr} (h : ∀ e ∈ es, (e.relabel f).nodes reach =
    (e.nodes reach).map (·.relabel f)) :
      Expr.nodesAll reach (es.map (·.relabel f)) = (Expr.nodesAll reach es).map (·.relabel f) := by
    simp only [Expr.nodesAll_eq_flatMap, List.flatMap_map, List.map_flatMap]
    exact List.flatMap_congr h
  refine ⟨fun e hlayer ih => ?_, fun fn ih => ?_, fun fn ih => ?_, fun s hfn hhead hbodies => ?_,
    fun list ih => ?_⟩
  · rw [Expr.nodes_operation reach ((e.shape_relabel f).1.trans hlayer),
      Expr.nodes_operation reach hlayer, Expr.children_relabel, hexprs ih]
    rfl
  · obtain ⟨id, name, params, body⟩ := fn
    cases reach with
    | ownLayer => rfl
    | nested => exact congrArg (List.cons _) ih
  · obtain ⟨id, name, params, body⟩ := fn
    cases reach with
    | ownLayer => rfl
    | nested => exact congrArg (List.cons _) ih
  · obtain ⟨hhead', hbodies', hfn', -, -⟩ := s.parts_relabel f
    rw [Stmt.nodes_parts reach (by rw [hfn', hfn]; rfl), Stmt.nodes_parts reach hfn,
      hhead', hbodies', Option.toList_map, List.map_cons, List.map_append, List.flatMap_map,
      List.map_flatMap, hexprs fun e he => hhead e (Option.mem_toList.mp he)]
    rw [List.flatMap_congr hbodies]
    rfl
  · simp only [Stmt.relabelAll_eq_map, Stmt.nodesAll_eq_flatMap, List.flatMap_map, List.map_flatMap]
    exact List.flatMap_congr ih

theorem Expr.nodes_relabel (reach : Reach) (e : Expr) :
    (e.relabel f).nodes reach = (e.nodes reach).map (·.relabel f) :=
  (byParts_nodes_relabel f reach).expr e

theorem Stmt.nodesAll_relabelAll (reach : Reach) (stmts : List Stmt) :
    Stmt.nodesAll reach (Stmt.relabelAll f stmts) = (Stmt.nodesAll reach stmts).map (·.relabel f) :=
  (byParts_nodes_relabel f reach).stmts stmts

variable {f}

/-- A fold over the nodes of a relabeled body, in which the state is seen through `view`. -/
theorem Stmt.foldNodes_relabelAll {α β : Type} {step : α → Node → α} {step' : β → Node → β}
    (view : α → β) (h : ∀ state node, step' (view state) (node.relabel f) = view (step state node))
    (reach : Reach) (stmts : List Stmt) (start : α) :
    Stmt.foldNodes reach step' (Stmt.relabelAll f stmts) (view start) =
      view (Stmt.foldNodes reach step stmts start) := by
  rw [Stmt.foldNodes_eq_foldl, Stmt.foldNodes_eq_foldl, Stmt.nodesAll_relabelAll, List.foldl_map]
  exact List.foldl_hom view h

/-- A traversal that respects the names gives corresponding results. -/
theorem Expr.foldNodes_relabel {α β : Type} {step : α → Node → α} {step' : β → Node → β}
    (view : α → β) (h : ∀ state node, step' (view state) (node.relabel f) = view (step state node))
    (e : Expr) (start : α) :
    (e.relabel f).foldNodes step' (view start) = view (e.foldNodes step start) := by
  rw [Expr.foldNodes_eq_foldl, Expr.foldNodes_eq_foldl, Expr.nodes_relabel, List.foldl_map]
  exact List.foldl_hom view h

theorem Stmt.existsNode_relabelAll {test test' : Node → Bool}
    (h : ∀ node, test' (node.relabel f) = test node) (reach : Reach) (stmts : List Stmt) :
    Stmt.existsNode reach test' (Stmt.relabelAll f stmts) = Stmt.existsNode reach test stmts := by
  rw [Stmt.existsNode_eq_any, Stmt.existsNode_eq_any, Stmt.nodesAll_relabelAll, List.any_map]
  exact congrArg _ (funext h)

end Nodes

end StaticInliner
