import StaticInliner.Proofs.Relabeling.Analyses
import StaticInliner.Proofs.Scopes

/-!
Relabeled scopes. A name is bound in a scope if and only if its label is bound in the
relabeled scope, and declaring a relabeled body declares the labels of its names.
-/
namespace StaticInliner

variable (σ : Relabeling)

def Scope.relabel (scope : Scope) : Scope :=
  { scope with bindings := scope.bindings.map (relabelBinding σ) }

def ScopeTree.relabel (tree : ScopeTree) : ScopeTree :=
  { tree with scopes := tree.scopes.map (Scope.relabel σ) }

theorem ScopeTree.relabel_eq_self (h : σ.KeepsNames) (tree : ScopeTree) :
    tree.relabel σ = tree := by
  have hbinding : relabelBinding σ = id := funext fun binding => Prod.ext (h binding.1) rfl
  have hscope : Scope.relabel σ = id :=
    funext fun scope => by simp only [Scope.relabel, hbinding, List.map_id, id]
  simp only [ScopeTree.relabel, hscope, List.map_id]

section Lookup

/-- A scope binds the names that correspond. -/
theorem Scope.binds_relabel (scope : Scope) (name : String) :
    (scope.relabel σ).binds (σ name) = scope.binds name := by
  rw [binds, binds, relabel, List.any_map]
  exact congrArg _ (funext fun binding => beq_injective σ.injective binding.1 name)

theorem Scope.bind_relabel (scope : Scope) (name : String) (kind : BindingKind) :
    (scope.relabel σ).bind (σ name) kind = (scope.bind name kind).relabel σ := by
  rw [bind, bind, scope.binds_relabel σ]
  split
  · rfl
  · simp [relabel, relabelBinding]

namespace ScopeTree

@[simp] theorem size_relabel (tree : ScopeTree) : (tree.relabel σ).size = tree.size :=
  List.length_map _

theorem get?_relabel (tree : ScopeTree) (id : Nat) :
    (tree.relabel σ).get? id = (tree.get? id).map (Scope.relabel σ) :=
  List.getElem?_map

@[simp] theorem functionScope?_relabel (tree : ScopeTree) (node : Nat) :
    (tree.relabel σ).functionScope? node = tree.functionScope? node := rfl

theorem chain_relabel (tree : ScopeTree) (limit : Nat) (id : Option Nat) :
    (tree.relabel σ).chain limit id = (tree.chain limit id).map (Scope.relabel σ) := by
  induction limit generalizing id with
  | zero => rfl
  | succ limit ih =>
    cases id with
    | none => rfl
    | some id =>
      rw [chain, chain, get?_relabel]
      cases tree.get? id with
      | none => rfl
      | some scope => exact congrArg (List.cons _) (ih scope.parent)

/-- The chain of a scope is the same. -/
theorem ancestors_relabel (tree : ScopeTree) (id : Nat) :
    (tree.relabel σ).ancestors id = (tree.ancestors id).map (Scope.relabel σ) := by
  rw [ancestors, ancestors, size_relabel, chain_relabel]

/-- What a function binds does not depend on the names. -/
theorem isBoundInFunction_relabel (tree : ScopeTree) (id : Nat) (name : String) :
    (tree.relabel σ).isBoundInFunction id (σ name) = tree.isBoundInFunction id name := by
  have hbinds : (Scope.binds · (σ name)) ∘ Scope.relabel σ = (Scope.binds · name) :=
    funext fun scope => scope.binds_relabel σ name
  rw [isBoundInFunction, isBoundInFunction, lookup, lookup, ancestors_relabel,
    List.find?_map, hbinds, Option.any_map]
  rfl

theorem bodyScope_relabel (tree : ScopeTree) (id : Nat) :
    (tree.relabel σ).bodyScope id = tree.bodyScope id := by
  have hfind : ((tree.relabel σ).ancestors id).find? (·.kind != .global) =
      ((tree.ancestors id).find? (·.kind != .global)).map (Scope.relabel σ) := by
    rw [ancestors_relabel, List.find?_map]
    rfl
  rw [bodyScope, bodyScope, hfind]
  cases (tree.ancestors id).find? (·.kind != .global) <;> rfl

end ScopeTree

end Lookup

section Declaring

namespace ScopeTree

/-- One more declaration, in both trees. -/
theorem declare_relabel (tree : ScopeTree) (site : Nat) (name : String) (kind : BindingKind) :
    (tree.relabel σ).declare site (σ name) kind = (tree.declare site name kind).relabel σ := by
  refine congrArg (ScopeTree.mk · tree.byFunction tree.byUnit) (List.ext_getElem? fun i => ?_)
  simp only [relabel, declare, List.getElem?_modify, List.getElem?_map]
  cases tree.scopes[i]? with
  | none => rfl
  | some scope =>
    by_cases hsite : site = i
    · simp [hsite, scope.bind_relabel σ]
    · simp [hsite]

theorem push_relabel (tree : ScopeTree) (parent : Nat) (kind : ScopeKind) :
    (tree.relabel σ).push parent kind = (tree.push parent kind).relabel σ := by
  simp only [push, size_relabel]
  simp only [relabel, List.map_append]
  rfl

theorem bindAll_relabel (tree : ScopeTree) (site : Nat) (new : List (String × BindingKind)) :
    (tree.relabel σ).bindAll site (new.map (relabelBinding σ)) =
      (tree.bindAll site new).relabel σ := by
  rw [bindAll, bindAll, List.foldl_map]
  exact List.foldl_hom (relabel σ) fun tree binding =>
    tree.declare_relabel σ site binding.1 binding.2

end ScopeTree

/-- A fold over relabeled parts, each of which declares the labels of its names. -/
theorem foldl_declare_relabel {α : Type} {g : α → α} {step : ScopeTree → α → ScopeTree}
    {list : List α} (h : ∀ a ∈ list, ∀ tree, step (tree.relabel σ) (g a) = (step tree a).relabel σ)
    (tree : ScopeTree) :
    (list.map g).foldl step (tree.relabel σ) = (list.foldl step tree).relabel σ := by
  induction list generalizing tree with
  | nil => rfl
  | cons a rest ih =>
    obtain ⟨hfirst, hrest⟩ := List.forall_mem_cons.mp h
    rw [List.map_cons, List.foldl_cons, List.foldl_cons, hfirst, ih hrest]

theorem FunctionLit.headBindings_relabel (fn : FunctionLit) (isExpression : Bool) :
    (fn.relabel σ).headBindings isExpression =
      (fn.headBindings isExpression).map (relabelBinding σ) := by
  obtain ⟨id, name, params, body⟩ := fn
  cases isExpression <;> cases name <;> simp [headBindings, relabel, relabelBinding]

/-- Declaring the names of a tree commutes with relabeling. -/
theorem byParts_declare_relabel : ByParts
    (fun e => ∀ site tree,
      (e.relabel σ).declare site (tree.relabel σ) = (e.declare site tree).relabel σ)
    (fun s => ∀ site tree,
      (s.relabel σ).declare site (tree.relabel σ) = (s.declare site tree).relabel σ)
    (fun list => ∀ site tree, Stmt.declareAll site (Stmt.relabelAll σ list) (tree.relabel σ) =
      (Stmt.declareAll site list tree).relabel σ) := by
  have henter {fn : FunctionLit} (h : ∀ site tree, Stmt.declareAll site (Stmt.relabelAll σ fn.body)
      (tree.relabel σ) = (Stmt.declareAll site fn.body tree).relabel σ) (site : Nat)
      (new : List (String × BindingKind)) (tree : ScopeTree) :
      (tree.relabel σ).enter site (fn.relabel σ) (new.map (relabelBinding σ)) =
        (tree.enter site fn new).relabel σ := by
    simp only [ScopeTree.enter, ScopeTree.functionScope?_relabel, FunctionLit.relabel]
    cases tree.functionScope? fn.id with
    | some _ => rfl
    | none =>
      simp only [ScopeTree.opening, ScopeTree.size_relabel, ScopeTree.push_relabel,
        ScopeTree.bindAll_relabel, h]
  refine ⟨fun e hlayer ih site tree => ?_, fun fn ih site tree => ?_, fun fn ih site tree => ?_,
    fun s hfn hhead hbodies site tree => ?_, fun list ih site tree => ?_⟩
  · rw [Expr.declare_operation site ((e.shape_relabel σ).1.trans hlayer),
      Expr.declare_operation site hlayer, Expr.children_relabel]
    exact foldl_declare_relabel σ (fun operand hoperand tree => ih operand hoperand site tree) tree
  · rw [Expr.relabel_function, Expr.declare_literal, Expr.declare_literal,
      fn.headBindings_relabel σ]
    exact henter ih site _ tree
  · obtain ⟨-, -, -, -, hown'⟩ := (Stmt.function fn).parts_relabel σ
    rw [Stmt.relabel_function] at hown' ⊢
    rw [Stmt.declare_function, Stmt.declare_function, fn.headBindings_relabel σ, hown',
      ScopeTree.bindAll_relabel]
    exact henter ih site _ _
  · obtain ⟨hhead', hbodies', hfn', -, hown'⟩ := s.parts_relabel σ
    rw [Stmt.declare_parts site (by rw [hfn', hfn]; rfl), Stmt.declare_parts site hfn, hhead',
      hbodies', hown', ScopeTree.bindAll_relabel, Option.toList_map,
      foldl_declare_relabel σ (fun e he tree => hhead e (Option.mem_toList.mp he) site tree)]
    exact foldl_declare_relabel σ (fun body hbody tree => hbodies body hbody site tree) _
  · rw [Stmt.declareAll_eq_foldl, Stmt.declareAll_eq_foldl, Stmt.relabelAll_eq_map]
    exact foldl_declare_relabel σ (fun s hs tree => ih s hs site tree) tree

theorem Stmt.declareAll_relabelAll (site : Nat) (list : List Stmt) (tree : ScopeTree) :
    Stmt.declareAll site (Stmt.relabelAll σ list) (tree.relabel σ) =
      (Stmt.declareAll site list tree).relabel σ :=
  (byParts_declare_relabel σ).stmts list site tree

end Declaring

end StaticInliner
