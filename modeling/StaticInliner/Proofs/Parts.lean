import Mathlib.Data.List.Basic
import StaticInliner.Proofs.Nodes

/-!
A uniform view of trees. An expression other than a function literal consists of
its operands; a statement consists of at most one expression at its head and of
lists of statements below it. Functions that treat all operands alike satisfy one
equation in these terms, and one principle of induction, with three cases, does for
all of them.
-/
namespace StaticInliner

namespace Expr

/-- A function literal, whose body is a layer of its own. -/
def ownsLayer : Expr → Bool
  | .function _ => true
  | _ => false

/-- The expression with other operands, as many as before. -/
def withOperands : Expr → List Expr → Expr
  | .member _ property, [object] => .member object property
  | .index _ _, [object, key] => .index object key
  | .call _ _, callee :: args => .call callee args
  | .new _ _, callee :: args => .new callee args
  | .assign _ op _, [target, value] => .assign target op value
  | .binary op _ _, [left, right] => .binary op left right
  | .logical op _ _, [left, right] => .logical op left right
  | .unary op _, [operand] => .unary op operand
  | .conditional _ _ _, [condition, thenExpr, elseExpr] => .conditional condition thenExpr elseExpr
  | .sequence _, items => .sequence items
  | .array _, items => .array items
  | e, _ => e

@[simp] theorem withOperands_children (e : Expr) : e.withOperands e.children = e := by
  cases e <;> rfl

/-- The operands of an operation can be replaced by as many others. -/
theorem children_withOperands {e : Expr} {operands : List Expr}
    (h : operands.length = e.children.length) : (e.withOperands operands).children = operands := by
  cases e with
  | undefined | null | bool _ | number _ | string _ | ident _ | this | function _ =>
    exact (List.length_eq_zero_iff.mp h).symm
  | member _ _ | unary _ _ =>
    obtain ⟨a, rfl⟩ := List.length_eq_one_iff.mp h
    rfl
  | index _ _ | assign _ _ _ | binary _ _ _ | logical _ _ _ =>
    obtain ⟨a, b, rfl⟩ := List.length_eq_two.mp h
    rfl
  | conditional _ _ _ =>
    obtain ⟨a, b, c, rfl⟩ := List.length_eq_three.mp h
    rfl
  | call _ _ | new _ _ =>
    obtain ⟨a, rest, rfl⟩ := List.exists_cons_of_length_eq_add_one h
    rfl
  | sequence _ | array _ => rfl

theorem withOperands_withOperands {e : Expr} {operands others : List Expr}
    (h : operands.length = e.children.length) (h' : others.length = e.children.length) :
    (e.withOperands operands).withOperands others = e.withOperands others := by
  cases e with
  | undefined | null | bool _ | number _ | string _ | ident _ | this | function _ => rfl
  | member _ _ | unary _ _ =>
    obtain ⟨a, rfl⟩ := List.length_eq_one_iff.mp h
    obtain ⟨b, rfl⟩ := List.length_eq_one_iff.mp h'
    rfl
  | index _ _ | assign _ _ _ | binary _ _ _ | logical _ _ _ =>
    obtain ⟨a, a', rfl⟩ := List.length_eq_two.mp h
    obtain ⟨b, b', rfl⟩ := List.length_eq_two.mp h'
    rfl
  | conditional _ _ _ =>
    obtain ⟨a, a', a'', rfl⟩ := List.length_eq_three.mp h
    obtain ⟨b, b', b'', rfl⟩ := List.length_eq_three.mp h'
    rfl
  | call _ _ | new _ _ =>
    obtain ⟨a, rest, rfl⟩ := List.exists_cons_of_length_eq_add_one h
    obtain ⟨b, rest', rfl⟩ := List.exists_cons_of_length_eq_add_one h'
    rfl
  | sequence _ | array _ => rfl

theorem ownsLayer_withOperands (e : Expr) (operands : List Expr) :
    (e.withOperands operands).ownsLayer = e.ownsLayer := by
  unfold withOperands
  split <;> rfl

theorem withOperands_ne_ident {e : Expr} (h : ∀ name, e ≠ .ident name) (operands : List Expr)
    (name : String) : e.withOperands operands ≠ .ident name := by
  unfold withOperands
  split
  all_goals first
    | exact h name
    | intro heq
      cases heq

/-- An expression with operands is no function literal. -/
theorem ownsLayer_of_mem_children {e operand : Expr} (h : operand ∈ e.children) :
    e.ownsLayer = false := by
  cases e with
  | function _ => cases h
  | _ => rfl

end Expr

namespace Stmt

/-- The expression that belongs to the statement itself. -/
def head? : Stmt → Option Expr
  | .var _ _ init => init
  | .ret value => value
  | .expr value | .throw value | .ifElse value _ _ | .whileDo value _ => some value
  | .function _ | .block _ | .labeled _ _ | .breakTo _ | .continueTo _ => none

/-- The lists of statements below the statement. -/
def bodies : Stmt → List (List Stmt)
  | .ifElse _ thenBranch none => [thenBranch]
  | .ifElse _ thenBranch (some elseBranch) => [thenBranch, elseBranch]
  | .whileDo _ body | .block body | .labeled _ body => [body]
  | .function fn => [fn.body]
  | .var _ _ _ | .expr _ | .ret _ | .breakTo _ | .continueTo _ | .throw _ => []

/-- The statement with another expression at its head. -/
def withHead : Stmt → Expr → Stmt
  | .var kind name _, e => .var kind name (some e)
  | .ret _, e => .ret (some e)
  | .expr _, e => .expr e
  | .throw _, e => .throw e
  | .ifElse _ thenBranch elseBranch, e => .ifElse e thenBranch elseBranch
  | .whileDo _ body, e => .whileDo e body
  | s, _ => s

/-- The literal of a function declaration. -/
def function? : Stmt → Option FunctionLit
  | .function fn => some fn
  | _ => none

variable {s : Stmt}

theorem head?_withHead (h : s.head?.isSome = true) (e : Expr) : (s.withHead e).head? = some e := by
  cases s with
  | function _ | block _ | labeled _ _ | breakTo _ | continueTo _ => cases h
  | _ => rfl

@[simp] theorem bodies_withHead (s : Stmt) (e : Expr) : (s.withHead e).bodies = s.bodies := by
  cases s with
  | ifElse _ _ elseBranch => cases elseBranch <;> rfl
  | _ => rfl

@[simp] theorem function?_withHead (s : Stmt) (e : Expr) :
    (s.withHead e).function? = s.function? := by
  cases s <;> rfl

theorem eq_function {fn : FunctionLit} (h : s.function? = some fn) : s = .function fn := by
  cases s with
  | function _ => exact congrArg Stmt.function (Option.some.inj h)
  | _ => cases h

theorem function?_of_head? (h : s.head?.isSome = true) : s.function? = none := by
  cases s with
  | function _ => cases h
  | _ => rfl

/-- The statement with other parts, as many as before. -/
def withParts : Stmt → Option Expr → List (List Stmt) → Stmt
  | .var kind name _, head, _ => .var kind name head
  | .ret _, head, _ => .ret head
  | .expr _, some e, _ => .expr e
  | .throw _, some e, _ => .throw e
  | .ifElse _ _ none, some e, [thenBranch] => .ifElse e thenBranch none
  | .ifElse _ _ (some _), some e, [thenBranch, elseBranch] => .ifElse e thenBranch (some elseBranch)
  | .whileDo _ _, some e, [body] => .whileDo e body
  | .block _, _, [body] => .block body
  | .labeled label _, _, [body] => .labeled label body
  | s, _, _ => s

/-- A statement is made of its parts. -/
theorem withParts_parts (h : s.function? = none) :
    s.withParts s.head? s.bodies = s := by
  cases s with
  | ifElse _ _ elseBranch => cases elseBranch <;> rfl
  | function _ => cases h
  | _ => rfl

theorem withParts_bodies (s : Stmt) (e : Expr) : s.withParts (some e) s.bodies = s.withHead e := by
  cases s with
  | ifElse _ _ elseBranch => cases elseBranch <;> rfl
  | _ => rfl

end Stmt

section Nodes

theorem Expr.function?_of_ownsLayer {e : Expr} (h : e.ownsLayer = false) :
    (Node.expr e).function? = none := by
  cases e with
  | function _ => cases h
  | _ => rfl

theorem Stmt.function?_node {s : Stmt} : (Node.stmt s).function? = s.function? := by
  cases s <;> rfl

/-- The nodes of an operation are its own and those of its operands. -/
theorem Expr.nodes_operation (reach : Reach) {e : Expr} (h : e.ownsLayer = false) :
    e.nodes reach = .expr e :: Expr.nodesAll reach e.children := by
  cases e with
  | function _ => cases h
  | _ => simp [Expr.nodes, Expr.nodesAll, Expr.children]

theorem Expr.self_mem_nodes (reach : Reach) (e : Expr) : Node.expr e ∈ e.nodes reach := by
  cases e with
  | function fn => cases fn; simp [Expr.nodes]
  | _ => simp [Expr.nodes]

/-- The nodes of a statement are its own and those of its parts. -/
theorem Stmt.nodes_parts (reach : Reach) {s : Stmt} (h : s.function? = none) :
    s.nodes reach = .stmt s ::
      (Expr.nodesAll reach s.head?.toList ++ s.bodies.flatMap (Stmt.nodesAll reach)) := by
  cases s with
  | var _ _ init => cases init <;> simp [Stmt.nodes, Expr.nodesAll, head?, bodies]
  | ret value => cases value <;> simp [Stmt.nodes, Expr.nodesAll, head?, bodies]
  | ifElse _ _ elseBranch => cases elseBranch <;> simp [Stmt.nodes, Expr.nodesAll, head?, bodies]
  | function _ => cases h
  | _ => simp [Stmt.nodes, Expr.nodesAll, head?, bodies]

theorem Stmt.nodes_function (fn : FunctionLit) : (Stmt.function fn).nodes .nested =
    .stmt (.function fn) :: Stmt.nodesAll .nested fn.body := by
  cases fn
  rfl

theorem Expr.nodes_function (fn : FunctionLit) : (Expr.function fn).nodes .nested =
    .expr (.function fn) :: Stmt.nodesAll .nested fn.body := by
  cases fn
  rfl

theorem Expr.nodesAll_eq_flatMap (reach : Reach) (es : List Expr) :
    Expr.nodesAll reach es = es.flatMap (·.nodes reach) := by
  induction es with
  | nil => rfl
  | cons e rest ih => rw [Expr.nodesAll, ih, List.flatMap_cons]

theorem Stmt.nodesAll_eq_flatMap (reach : Reach) (stmts : List Stmt) :
    Stmt.nodesAll reach stmts = stmts.flatMap (·.nodes reach) := by
  induction stmts with
  | nil => rfl
  | cons s rest ih => rw [Stmt.nodesAll, ih, List.flatMap_cons]

/-- What holds of all nodes of an operation holds of the operation and in its operands. -/
theorem Expr.forall_nodes_iff {reach : Reach} {p : Node → Prop} {e : Expr}
    (h : e.ownsLayer = false) :
    (∀ node ∈ e.nodes reach, p node) ↔
      p (.expr e) ∧ ∀ operand ∈ e.children, ∀ node ∈ operand.nodes reach, p node := by
  rw [Expr.nodes_operation reach h, List.forall_mem_cons, Expr.nodesAll_eq_flatMap,
    List.forall_mem_flatMap]

theorem Stmt.forall_nodesAll_iff {reach : Reach} {p : Node → Prop} {stmts : List Stmt} :
    (∀ node ∈ Stmt.nodesAll reach stmts, p node) ↔ ∀ s ∈ stmts, ∀ node ∈ s.nodes reach, p node := by
  rw [Stmt.nodesAll_eq_flatMap, List.forall_mem_flatMap]

theorem Stmt.forall_nodes_iff {reach : Reach} {p : Node → Prop} {s : Stmt}
    (h : s.function? = none) :
    (∀ node ∈ s.nodes reach, p node) ↔ p (.stmt s) ∧
      (∀ e ∈ s.head?, ∀ node ∈ e.nodes reach, p node) ∧
      ∀ body ∈ s.bodies, ∀ inner ∈ body, ∀ node ∈ inner.nodes reach, p node := by
  rw [Stmt.nodes_parts reach h, List.forall_mem_cons, List.forall_mem_append,
    Expr.nodesAll_eq_flatMap]
  simp only [List.forall_mem_flatMap, Stmt.forall_nodesAll_iff, Option.mem_toList, Option.mem_def]

theorem Expr.mem_nodes_iff {reach : Reach} {e : Expr} (h : e.ownsLayer = false) {node : Node} :
    node ∈ e.nodes reach ↔ node = .expr e ∨ ∃ operand ∈ e.children, node ∈ operand.nodes reach := by
  rw [Expr.nodes_operation reach h, List.mem_cons, Expr.nodesAll_eq_flatMap, List.mem_flatMap]

theorem Stmt.mem_nodes_iff {reach : Reach} {s : Stmt} (h : s.function? = none) {node : Node} :
    node ∈ s.nodes reach ↔ node = .stmt s ∨ (∃ e ∈ s.head?, node ∈ e.nodes reach) ∨
      ∃ body ∈ s.bodies, ∃ inner ∈ body, node ∈ inner.nodes reach := by
  rw [Stmt.nodes_parts reach h, List.mem_cons, List.mem_append, Expr.nodesAll_eq_flatMap]
  simp only [List.mem_flatMap, Stmt.mem_nodesAll, Option.mem_toList, Option.mem_def]

def Node.functionIds (node : Node) : List Nat := (node.function?.map (·.id)).toList

/-- The ids of the function literals among the nodes. -/
def functionIds (nodes : List Node) : List Nat := nodes.flatMap Node.functionIds

@[simp] theorem functionIds_nil : functionIds [] = [] := rfl

theorem functionIds_cons (node : Node) (nodes : List Node) :
    functionIds (node :: nodes) = node.functionIds ++ functionIds nodes := List.flatMap_cons

theorem functionIds_append (first second : List Node) :
    functionIds (first ++ second) = functionIds first ++ functionIds second := List.flatMap_append

theorem functionIds_flatMap {α : Type} (f : α → List Node) (list : List α) :
    functionIds (list.flatMap f) = list.flatMap fun a => functionIds (f a) := List.flatMap_assoc

theorem functionIds_cons_of_none {node : Node} (h : node.function? = none) (nodes : List Node) :
    functionIds (node :: nodes) = functionIds nodes := by
  simp [functionIds, Node.functionIds, h]

end Nodes

section Induction

/-- What an induction over trees by their parts has to show of expressions, of statements and of
lists of statements. -/
structure ByParts (E : Expr → Prop) (S : Stmt → Prop) (B : List Stmt → Prop) : Prop where
  operation : ∀ e : Expr, e.ownsLayer = false → (∀ operand ∈ e.children, E operand) → E e
  literal : ∀ fn : FunctionLit, B fn.body → E (.function fn)
  declaration : ∀ fn : FunctionLit, B fn.body → S (.function fn)
  statement : ∀ s : Stmt, s.function? = none → (∀ e ∈ s.head?, E e) →
    (∀ body ∈ s.bodies, B body) → S s
  list : ∀ list : List Stmt, (∀ s ∈ list, S s) → B list

namespace ByParts

variable {E : Expr → Prop} {S : Stmt → Prop} {B : List Stmt → Prop}

mutual

theorem expr (h : ByParts E S B) : ∀ e : Expr, E e
  | .undefined | .null | .bool _ | .number _ | .string _ | .ident _ | .this =>
    h.operation _ rfl nofun
  | .member a _ | .unary _ a => h.operation _ rfl (List.forall_mem_singleton.mpr (h.expr a))
  | .index a b | .assign a _ b | .binary _ a b | .logical _ a b =>
    h.operation _ rfl
      (List.forall_mem_cons.mpr ⟨h.expr a, List.forall_mem_singleton.mpr (h.expr b)⟩)
  | .conditional a b c => h.operation _ rfl (List.forall_mem_cons.mpr ⟨h.expr a,
      List.forall_mem_cons.mpr ⟨h.expr b, List.forall_mem_singleton.mpr (h.expr c)⟩⟩)
  | .call a args | .new a args =>
    h.operation _ rfl (List.forall_mem_cons.mpr ⟨h.expr a, h.exprs args⟩)
  | .sequence items | .array items => h.operation _ rfl (h.exprs items)
  | .function ⟨id, name, params, body⟩ => h.literal ⟨id, name, params, body⟩ (h.list _ (h.all body))

theorem exprs (h : ByParts E S B) : ∀ es : List Expr, ∀ e ∈ es, E e
  | [] => nofun
  | e :: rest => List.forall_mem_cons.mpr ⟨h.expr e, h.exprs rest⟩

theorem stmt (h : ByParts E S B) : ∀ s : Stmt, S s
  | .var _ _ none | .ret none | .breakTo _ | .continueTo _ => h.statement _ rfl nofun nofun
  | .var _ _ (some e) | .ret (some e) | .expr e | .throw e =>
    h.statement _ rfl (fun _ he => Option.some.inj he ▸ h.expr e) nofun
  | .ifElse e body none | .whileDo e body =>
    h.statement _ rfl (fun _ he => Option.some.inj he ▸ h.expr e)
      (List.forall_mem_singleton.mpr (h.list _ (h.all body)))
  | .ifElse e thenBranch (some elseBranch) =>
    h.statement _ rfl (fun _ he => Option.some.inj he ▸ h.expr e)
      (List.forall_mem_cons.mpr ⟨h.list _ (h.all thenBranch),
        List.forall_mem_singleton.mpr (h.list _ (h.all elseBranch))⟩)
  | .block body | .labeled _ body =>
    h.statement _ rfl nofun (List.forall_mem_singleton.mpr (h.list _ (h.all body)))
  | .function ⟨id, name, params, body⟩ =>
    h.declaration ⟨id, name, params, body⟩ (h.list _ (h.all body))

theorem all (h : ByParts E S B) : ∀ list : List Stmt, ∀ s ∈ list, S s
  | [] => nofun
  | s :: rest => List.forall_mem_cons.mpr ⟨h.stmt s, h.all rest⟩

end

theorem stmts (h : ByParts E S B) (list : List Stmt) : B list := h.list list (h.all list)

end ByParts

/-- Induction over expressions that does not enter function literals. -/
@[elab_as_elim]
theorem Expr.byOperands {E : Expr → Prop}
    (operation : ∀ e : Expr, e.ownsLayer = false → (∀ operand ∈ e.children, E operand) → E e)
    (literal : ∀ fn, E (.function fn)) (e : Expr) : E e :=
  ByParts.expr (S := fun _ => True) (B := fun _ => True) ⟨operation, fun fn _ => literal fn,
    fun _ _ => trivial, fun _ _ _ _ => trivial, fun _ _ => trivial⟩ e

/-- Induction over statements, from those in the bodies of a statement to itself. -/
@[elab_as_elim]
theorem Stmt.byBodies {S : Stmt → Prop}
    (statement : ∀ s : Stmt, (∀ body ∈ s.bodies, ∀ inner ∈ body, S inner) → S s) (s : Stmt) : S s :=
  ByParts.stmt (E := fun _ => True) (B := fun list => ∀ s ∈ list, S s)
    ⟨fun _ _ _ => trivial, fun _ _ => trivial,
      fun _ ih => statement _ (List.forall_mem_singleton.mpr ih), fun s _ _ ih => statement s ih,
      fun _ ih => ih⟩ s

/-- Closed lists are put together. -/
theorem Closed.flatMap {α : Type} {items : List α} {nodes : α → List Node}
    (h : ∀ item ∈ items, Closed (nodes item)) : Closed (items.flatMap nodes) := by
  intro node hnode other hother
  obtain ⟨item, hitem, hnode⟩ := List.mem_flatMap.mp hnode
  exact List.mem_flatMap.mpr ⟨item, hitem, h item hitem node hnode hother⟩

/-- The nodes of every tree are closed. -/
theorem byParts_closed :
    ByParts (fun e => Closed (e.nodes .nested)) (fun s => Closed (s.nodes .nested))
    fun list => Closed (Stmt.nodesAll .nested list) where
  operation e hlayer ih := by
    have hnodes := Expr.nodes_operation .nested hlayer
    rw [hnodes]
    refine .cons hnodes ?_
    rw [Expr.nodesAll_eq_flatMap]
    exact .flatMap ih
  literal fn ih := by
    rw [Expr.nodes_function]
    exact .cons (Expr.nodes_function fn) ih
  declaration fn ih := by
    rw [Stmt.nodes_function]
    exact .cons (Stmt.nodes_function fn) ih
  statement s hfn hhead hbodies := by
    have hnodes := Stmt.nodes_parts .nested hfn
    rw [hnodes]
    refine .cons hnodes (.append ?_ (.flatMap hbodies))
    rw [Expr.nodesAll_eq_flatMap]
    exact .flatMap fun e he => hhead e (Option.mem_toList.mp he)
  list stmts ih := by
    rw [Stmt.nodesAll_eq_flatMap]
    exact .flatMap ih

theorem Expr.closed_nodes (e : Expr) : Closed (e.nodes .nested) := byParts_closed.expr e

theorem Stmt.closed_nodesAll (stmts : List Stmt) : Closed (Stmt.nodesAll .nested stmts) :=
  byParts_closed.stmts stmts

end Induction

end StaticInliner
