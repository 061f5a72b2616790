import Mathlib.Data.List.Nodup
import StaticInliner.Proofs.Layers
import StaticInliner.Scope.Resolve

/-!
Scope trees grow. Declaring statements in a scope binds the names they declare
there and opens scopes below it; every other scope stays as it was. So a name that
is not declared means the same as before wherever it is looked up, and so does any
name that means something, if what is declared meant nothing in its place.
-/
namespace StaticInliner

namespace Scope

/-- Bind names one after another. -/
def bindAll (scope : Scope) (new : List (String × BindingKind)) : Scope :=
  new.foldl (fun scope binding => scope.bind binding.1 binding.2) scope

/-- The scope apart from what it binds. -/
def frame (scope : Scope) : Scope := { scope with bindings := [] }

variable (scope : Scope) (name other : String) (kind : BindingKind)
  (new : List (String × BindingKind))

theorem binds_eq : scope.binds name = (scope.bindings.lookup name).isSome := by
  rw [binds]
  induction scope.bindings with
  | nil => rfl
  | cons binding rest ih =>
    rw [List.any_cons, ih, List.lookup_cons, BEq.comm]
    cases name == binding.1 <;> rfl

@[simp] theorem frame_bind : (scope.bind name kind).frame = scope.frame := by
  rw [bind]
  split <;> rfl

/-- An earlier binding of the name stays. -/
theorem lookup_bind : (scope.bind name kind).bindings.lookup other =
    (scope.bindings.lookup other).or ([(name, kind)].lookup other) := by
  rw [bind]
  split
  · next h =>
    rw [binds_eq] at h
    by_cases heq : other = name
    · rw [heq, Option.or_of_isSome h]
    · rw [List.lookup_cons, beq_eq_false_iff_ne.mpr heq, List.lookup_nil, Option.or_none]
  · rw [List.lookup_append]

theorem nodup_bind (h : (scope.bindings.map (·.1)).Nodup) :
    ((scope.bind name kind).bindings.map (·.1)).Nodup := by
  rw [bind]
  split
  · exact h
  · next hnew =>
    rw [List.map_append]
    refine List.nodup_append.mpr ⟨h, List.nodup_singleton _, ?_⟩
    intro a ha b hb hab
    obtain ⟨binding, hbinding, rfl⟩ := List.mem_map.mp ha
    have hname : binding.1 = name := hab.trans (List.mem_singleton.mp hb)
    refine hnew (List.any_eq_true.mpr ⟨binding, hbinding, ?_⟩)
    rw [hname, BEq.rfl]

@[simp] theorem bindAll_nil : scope.bindAll [] = scope := rfl

theorem bindAll_append (new' : List (String × BindingKind)) :
    scope.bindAll (new ++ new') = (scope.bindAll new).bindAll new' := List.foldl_append

@[simp] theorem frame_bindAll : (scope.bindAll new).frame = scope.frame := by
  induction new generalizing scope with
  | nil => rfl
  | cons binding rest ih => exact (ih _).trans (frame_bind scope binding.1 binding.2)

@[simp] theorem parent_bindAll : (scope.bindAll new).parent = scope.parent :=
  (congrArg Scope.parent (frame_bindAll scope new) :)

/-- What was bound before comes first. -/
theorem lookup_bindAll : (scope.bindAll new).bindings.lookup name =
    (scope.bindings.lookup name).or (new.lookup name) := by
  induction new generalizing scope with
  | nil => exact Option.or_none.symm
  | cons binding rest ih =>
    have hsplit : (binding :: rest).lookup name =
        ([binding].lookup name).or (rest.lookup name) := by
      rw [← List.lookup_append, List.singleton_append]
    rw [hsplit, ← Option.or_assoc, ← lookup_bind]
    exact ih _

end Scope

/-- What opens the scope of a body. -/
def ChangedBody.kind : ChangedBody → ScopeKind
  | .script unit => .script unit
  | .function node => .function node

theorem ChangedBody.kind_injective {a b : ChangedBody} (h : a.kind = b.kind) : a = b := by
  cases a <;> cases b <;> cases h <;> rfl

namespace ScopeTree

/-- The scope of a body. -/
def scopeOf? (tree : ScopeTree) : ChangedBody → Option Nat
  | .script unit => tree.unitScope? unit
  | .function node => tree.functionScope? node

/-- Bind names in a scope one after another. -/
def bindAll (tree : ScopeTree) (site : Nat) (new : List (String × BindingKind)) : ScopeTree :=
  new.foldl (fun tree binding => tree.declare site binding.1 binding.2) tree

theorem bindAll_append (tree : ScopeTree) (site : Nat) (new new' : List (String × BindingKind)) :
    tree.bindAll site (new ++ new') = (tree.bindAll site new).bindAll site new' := List.foldl_append

/-- Scopes are numbered in order, parents first, bind no name twice and are found
under the bodies that opened them. -/
structure WellFormed (tree : ScopeTree) : Prop where
  ids : ∀ i scope, tree.get? i = some scope → scope.id = i
  parents : ∀ i scope, tree.get? i = some scope → ∀ p ∈ scope.parent, p < i
  distinct : ∀ i scope, tree.get? i = some scope → (scope.bindings.map (·.1)).Nodup
  owners : ∀ owner i, tree.scopeOf? owner = some i →
    ∃ scope, tree.get? i = some scope ∧ scope.kind = owner.kind

/-- A tree after names were bound in one scope, and scopes were opened for some
function literals. -/
structure Grown (site : Nat) (new : List (String × BindingKind)) (opened : List Nat)
    (tree tree' : ScopeTree) : Prop where
  size : tree.size ≤ tree'.size
  kept : ∀ i scope, tree.get? i = some scope →
    tree'.get? i = some (scope.bindAll (if i = site then new else []))
  owners : ∀ owner i, tree.scopeOf? owner = some i → tree'.scopeOf? owner = some i
  only : ∀ owner, (tree'.scopeOf? owner).isSome = true →
    (tree.scopeOf? owner).isSome = true ∨ ∃ id ∈ opened, owner = .function id
  wellFormed : tree.WellFormed → site < tree.size → tree'.WellFormed

theorem lt_size_of_get? {tree : ScopeTree} {i : Nat} {scope : Scope}
    (h : tree.get? i = some scope) : i < tree.size :=
  (List.getElem?_eq_some_iff.mp h).1

theorem WellFormed.lt_size {tree : ScopeTree} (hwf : tree.WellFormed)
    {owner : ChangedBody} {i : Nat} (h : tree.scopeOf? owner = some i) :
    i < tree.size := by
  obtain ⟨scope, hscope, -⟩ := hwf.owners owner i h
  exact lt_size_of_get? hscope

/-- Two bodies do not share a scope. -/
theorem WellFormed.owner_unique {tree : ScopeTree} (hwf : tree.WellFormed) {a b : ChangedBody}
    {i : Nat} (ha : tree.scopeOf? a = some i) (hb : tree.scopeOf? b = some i) : a = b := by
  obtain ⟨scope, hscope, hkind⟩ := hwf.owners a i ha
  obtain ⟨scope', hscope', hkind'⟩ := hwf.owners b i hb
  rw [hscope] at hscope'
  cases hscope'
  exact ChangedBody.kind_injective (hkind.symm.trans hkind')

namespace Grown

variable {site : Nat} {new new' : List (String × BindingKind)} {opened opened' : List Nat}
  {tree tree' tree'' : ScopeTree}

theorem refl (site : Nat) (tree : ScopeTree) : Grown site [] [] tree tree where
  size := Nat.le_refl _
  kept i scope h := by rw [ite_self, Scope.bindAll_nil, h]
  owners _ _ h := h
  only _ h := .inl h
  wellFormed h _ := h

theorem only_append {site' : Nat} (h : Grown site new opened tree tree')
    (h' : Grown site' new' opened' tree' tree'') (owner : ChangedBody)
    (howner : (tree''.scopeOf? owner).isSome = true) :
    (tree.scopeOf? owner).isSome = true ∨ ∃ id ∈ opened ++ opened', owner = .function id := by
  rcases h'.only owner howner with howner | ⟨id, hid, heq⟩
  · rcases h.only owner howner with howner | ⟨id, hid, heq⟩
    · exact .inl howner
    · exact .inr ⟨id, List.mem_append_left _ hid, heq⟩
  · exact .inr ⟨id, List.mem_append_right _ hid, heq⟩

/-- A tree that grows in two steps. -/
theorem trans (h : Grown site new opened tree tree') (h' : Grown site new' opened' tree' tree'') :
    Grown site (new ++ new') (opened ++ opened') tree tree'' where
  size := Nat.le_trans h.size h'.size
  kept i scope hi := by
    rw [h'.kept i _ (h.kept i scope hi), ← Scope.bindAll_append]
    split <;> rfl
  owners owner i hi := h'.owners owner i (h.owners owner i hi)
  only := h.only_append h'
  wellFormed hwf hsite :=
    h'.wellFormed (h.wellFormed hwf hsite) (Nat.lt_of_lt_of_le hsite h.size)

/-- A tree that grows step by step. -/
theorem foldl {α : Type} {list : List α} {step : ScopeTree → α → ScopeTree}
    {new : α → List (String × BindingKind)} {opened : α → List Nat}
    (h : ∀ a ∈ list, ∀ tree, Grown site (new a) (opened a) tree (step tree a)) (tree : ScopeTree) :
    Grown site (list.flatMap new) (list.flatMap opened) tree (list.foldl step tree) := by
  induction list generalizing tree with
  | nil => exact .refl site tree
  | cons a rest ih =>
    obtain ⟨hfirst, hrest⟩ := List.forall_mem_cons.mp h
    exact (hfirst tree).trans (ih hrest _)

/-- What happens in a scope that was opened meanwhile leaves the old ones alone. -/
theorem inner {newest : Nat} (h : Grown site [] opened tree tree')
    (h' : Grown newest new opened' tree' tree'') (hnewest : tree.size ≤ newest)
    (hlt : newest < tree'.size) : Grown site [] (opened ++ opened') tree tree'' where
  size := Nat.le_trans h.size h'.size
  kept i scope hi := by
    have hne : i ≠ newest := by
      have := lt_size_of_get? hi
      omega
    rw [h'.kept i _ (h.kept i scope hi), if_neg hne, Scope.bindAll_nil]
  owners owner i hi := h'.owners owner i (h.owners owner i hi)
  only := h.only_append h'
  wellFormed hwf hsite := h'.wellFormed (h.wellFormed hwf hsite) hlt

end Grown

section Operations

variable {site : Nat} {tree : ScopeTree}

theorem get?_declare (tree : ScopeTree) (site : Nat) (name : String) (kind : BindingKind)
    (i : Nat) :
    (tree.declare site name kind).get? i =
      (tree.get? i).map fun scope => if i = site then scope.bind name kind else scope := by
  simp only [get?, declare, List.getElem?_modify, eq_comm (a := site)]
  split <;> simp

/-- One declaration. -/
theorem grown_declare (site : Nat) (tree : ScopeTree) (name : String) (kind : BindingKind) :
    Grown site [(name, kind)] [] tree (tree.declare site name kind) where
  size := by simp [size, declare]
  kept i scope hi := by
    rw [get?_declare, hi, Option.map_some]
    split <;> rfl
  owners owner _ h := by cases owner <;> exact h
  only owner h := by cases owner <;> exact .inl h
  wellFormed hwf _ := by
    have hold {i : Nat} {scope : Scope} (hi : (tree.declare site name kind).get? i = some scope) :
        ∃ old, tree.get? i = some old ∧ (old = scope ∨ old.bind name kind = scope) := by
      rw [get?_declare, Option.map_eq_some_iff] at hi
      obtain ⟨old, hold, hbind⟩ := hi
      refine ⟨old, hold, ?_⟩
      split at hbind
      · exact .inr hbind
      · exact .inl hbind
    refine ⟨fun i scope hi => ?_, fun i scope hi p hp => ?_, fun i scope hi => ?_,
      fun owner i hi => ?_⟩
    · obtain ⟨old, hget, rfl | rfl⟩ := hold hi
      · exact hwf.ids i old hget
      · exact (congrArg Scope.id (Scope.frame_bind old name kind) :).trans (hwf.ids i old hget)
    · obtain ⟨old, hget, rfl | rfl⟩ := hold hi
      · exact hwf.parents i old hget p hp
      · refine hwf.parents i old hget p ?_
        exact (congrArg Scope.parent (Scope.frame_bind old name kind) :) ▸ hp
    · obtain ⟨old, hget, rfl | rfl⟩ := hold hi
      · exact hwf.distinct i old hget
      · exact Scope.nodup_bind old name kind (hwf.distinct i old hget)
    · have hi' : tree.scopeOf? owner = some i := by cases owner <;> exact hi
      obtain ⟨old, hget, hkind⟩ := hwf.owners owner i hi'
      rw [get?_declare, hget]
      refine ⟨_, rfl, ?_⟩
      split
      · exact (congrArg Scope.kind (Scope.frame_bind old name kind) :).trans hkind
      · exact hkind

/-- The run over a list of declarations. -/
theorem grown_bindAll (site : Nat) (new : List (String × BindingKind)) (tree : ScopeTree) :
    Grown site new [] tree (tree.bindAll site new) := by
  induction new generalizing tree with
  | nil => exact .refl site tree
  | cons binding rest ih => exact (grown_declare site tree binding.1 binding.2).trans (ih _)

@[simp] theorem scopeOf?_bindAll (tree : ScopeTree) (site : Nat)
    (new : List (String × BindingKind)) (owner : ChangedBody) :
    (tree.bindAll site new).scopeOf? owner = tree.scopeOf? owner := by
  induction new generalizing tree with
  | nil => rfl
  | cons binding rest ih =>
    refine (ih _).trans ?_
    cases owner <;> rfl

theorem get?_push (tree : ScopeTree) (parent : Nat) (kind : ScopeKind) (i : Nat) :
    (tree.push parent kind).get? i =
      if i = tree.size then some ⟨tree.size, kind, some parent, []⟩ else tree.get? i := by
  change (tree.scopes ++ [_])[i]? = _
  by_cases h : i = tree.size
  · rw [if_pos h, h]
    exact List.getElem?_concat_length
  · rw [if_neg h]
    by_cases hlt : i < tree.size
    · exact List.getElem?_append_left hlt
    · have hgt : tree.scopes.length + 1 ≤ i := by
        rw [size] at h hlt
        omega
      rw [get?, List.getElem?_eq_none (by simpa using hgt), List.getElem?_eq_none (by omega)]

theorem size_push (tree : ScopeTree) (parent : Nat) (kind : ScopeKind) :
    (tree.push parent kind).size = tree.size + 1 := by
  simp [size, push]

theorem scopeOf?_push (tree : ScopeTree) (parent : Nat) (owner other : ChangedBody) :
    (tree.push parent owner.kind).scopeOf? other =
      if other = owner then some tree.size else tree.scopeOf? other := by
  have hlookup (entries : List (Nat × Nat)) (a b n : Nat) :
      List.lookup a ((b, n) :: entries) = if a = b then some n else entries.lookup a := by
    rw [List.lookup_cons]
    by_cases h : a = b
    · simp [h]
    · simp [h, beq_eq_false_iff_ne.mpr h]
  cases owner <;> cases other <;>
    simp [scopeOf?, functionScope?, unitScope?, push, ChangedBody.kind, hlookup]

/-- A new scope below another one leaves the tree well-formed. -/
theorem WellFormed.push (hwf : tree.WellFormed) {parent : Nat} (hparent : parent < tree.size)
    (owner : ChangedBody) : (tree.push parent owner.kind).WellFormed := by
  have hnew {i : Nat} {scope : Scope} (hi : (tree.push parent owner.kind).get? i = some scope) :
      (i = tree.size ∧ scope = ⟨tree.size, owner.kind, some parent, []⟩) ∨
        tree.get? i = some scope := by
    rw [get?_push] at hi
    split at hi
    · next heq => exact .inl ⟨heq, (Option.some.inj hi).symm⟩
    · exact .inr hi
  refine ⟨fun i scope hi => ?_, fun i scope hi p hp => ?_, fun i scope hi => ?_,
    fun other i hi => ?_⟩
  · rcases hnew hi with ⟨rfl, rfl⟩ | hold
    · rfl
    · exact hwf.ids i scope hold
  · rcases hnew hi with ⟨rfl, rfl⟩ | hold
    · exact Option.some.inj hp ▸ hparent
    · exact hwf.parents i scope hold p hp
  · rcases hnew hi with ⟨rfl, rfl⟩ | hold
    · exact .nil
    · exact hwf.distinct i scope hold
  · rw [scopeOf?_push] at hi
    split at hi
    · next heq =>
      cases hi
      exact ⟨_, by rw [get?_push, if_pos rfl], by rw [heq]⟩
    · obtain ⟨scope, hscope, hkind⟩ := hwf.owners other i hi
      have := lt_size_of_get? hscope
      exact ⟨scope, by rw [get?_push, if_neg (by omega), hscope], hkind⟩

/-- A new function scope. -/
theorem grown_push {node : Nat} (h : tree.functionScope? node = none) :
    Grown site [] [node] tree (tree.push site (.function node)) where
  size := by rw [size_push]; exact Nat.le_succ _
  kept i scope hi := by
    have hlt := lt_size_of_get? hi
    rw [get?_push, if_neg (by omega), hi, ite_self, Scope.bindAll_nil]
  owners owner i hi := by
    have hne : owner ≠ .function node := by
      rintro rfl
      rw [scopeOf?, h] at hi
      cases hi
    rw [show ScopeKind.function node = (ChangedBody.function node).kind from rfl, scopeOf?_push,
      if_neg hne, hi]
  only owner howner := by
    rw [show ScopeKind.function node = (ChangedBody.function node).kind from rfl,
      scopeOf?_push] at howner
    split at howner
    · next heq => exact .inr ⟨node, List.mem_cons_self, heq⟩
    · exact .inl howner
  wellFormed hwf hsite := hwf.push hsite (.function node)

end Operations

end ScopeTree

section Declaring

open ScopeTree

theorem Expr.declareAll_eq_foldl (site : Nat) (es : List Expr) (tree : ScopeTree) :
    Expr.declareAll site es tree = es.foldl (fun tree e => e.declare site tree) tree := by
  induction es generalizing tree with
  | nil => rfl
  | cons e rest ih => exact ih _

theorem Stmt.declareAll_eq_foldl (site : Nat) (stmts : List Stmt) (tree : ScopeTree) :
    Stmt.declareAll site stmts tree = stmts.foldl (fun tree s => s.declare site tree) tree := by
  induction stmts generalizing tree with
  | nil => rfl
  | cons s rest ih => exact ih _

/-- The operands declare their names in order. -/
theorem Expr.declare_operation (site : Nat) {e : Expr} (h : e.ownsLayer = false)
    (tree : ScopeTree) :
    e.declare site tree = e.children.foldl (fun tree e => e.declare site tree) tree := by
  cases e with
  | function _ => cases h
  | _ => simp [Expr.declare, Expr.children, Expr.declareAll_eq_foldl]

/-- The names that a statement binds by itself. -/
def Stmt.ownBindings : Stmt → List (String × BindingKind)
  | .var kind name _ => [(name, .ofVar kind)]
  | .function fn => fn.name.toList.map (·, .function)
  | _ => []

theorem Stmt.bindings_parts {s : Stmt} (h : s.function? = none) :
    s.bindings = s.ownBindings ++ s.bodies.flatMap Stmt.bindingsAll := by
  cases s with
  | ifElse _ _ elseBranch => cases elseBranch <;> simp [Stmt.bindings, ownBindings, bodies]
  | function _ => cases h
  | _ => simp [Stmt.bindings, ownBindings, bodies]

/-- A statement declares its own names before those of its parts. -/
theorem Stmt.declare_parts (site : Nat) {s : Stmt} (h : s.function? = none) (tree : ScopeTree) :
    s.declare site tree = s.bodies.foldl (fun tree body => Stmt.declareAll site body tree)
      (s.head?.toList.foldl (fun tree e => e.declare site tree)
        (tree.bindAll site s.ownBindings)) := by
  cases s with
  | var _ _ init => cases init <;> rfl
  | ret value => cases value <;> rfl
  | ifElse _ _ elseBranch => cases elseBranch <;> rfl
  | function _ => cases h
  | _ => rfl

/-- Open a scope for a function literal with some names bound in it. -/
def ScopeTree.opening (tree : ScopeTree) (site : Nat) (fn : FunctionLit)
    (new : List (String × BindingKind)) : ScopeTree :=
  (tree.push site (.function fn.id)).bindAll tree.size new

/-- Open a scope for a function literal and declare its body there, unless it has one. -/
def ScopeTree.enter (tree : ScopeTree) (site : Nat) (fn : FunctionLit)
    (new : List (String × BindingKind)) : ScopeTree :=
  match tree.functionScope? fn.id with
  | some _ => tree
  | none => Stmt.declareAll tree.size fn.body (tree.opening site fn new)

/-- The names that a literal binds in its scope whatever its body is. -/
def FunctionLit.headBindings (fn : FunctionLit) (isExpression : Bool) :
    List (String × BindingKind) :=
  (if isExpression then fn.name.toList.map (·, .function) else []) ++ fn.params.map (·, .param)

theorem FunctionLit.bindings_layer (fn : FunctionLit) (encloser : ChangedBody)
    (isExpression : Bool) :
    (fn.layer encloser isExpression).bindings =
      fn.headBindings isExpression ++ Stmt.bindingsAll fn.body :=
  congrArg (_ ++ ·) (Stmt.bindingsAll_outlineAll fn.body)

theorem ScopeTree.declareParams_eq (tree : ScopeTree) (site : Nat) (params : List String) :
    tree.declareParams site params = tree.bindAll site (params.map (·, .param)) := by
  rw [declareParams, bindAll, List.foldl_map]

theorem ScopeTree.declareName_eq (tree : ScopeTree) (site : Nat) (name : Option String) :
    tree.declareName site name = tree.bindAll site (name.toList.map (·, .function)) := by
  cases name <;> rfl

theorem Expr.declare_literal (site : Nat) (fn : FunctionLit) (tree : ScopeTree) :
    (Expr.function fn).declare site tree = tree.enter site fn (fn.headBindings true) := by
  obtain ⟨id, name, params, body⟩ := fn
  rw [Expr.declare, enter]
  cases h : tree.functionScope? id with
  | some _ => rfl
  | none =>
    simp only [declareName_eq, declareParams_eq, ← bindAll_append]
    rfl

theorem Stmt.declare_function (site : Nat) (fn : FunctionLit) (tree : ScopeTree) :
    (Stmt.function fn).declare site tree =
      (tree.bindAll site (Stmt.function fn).ownBindings).enter site fn (fn.headBindings false) := by
  obtain ⟨id, name, params, body⟩ := fn
  rw [Stmt.declare, enter]
  simp only [declareName_eq, declareParams_eq, Stmt.ownBindings]
  rfl

/-- Opening a scope leaves the others alone, if declaring the body does. -/
theorem ScopeTree.grown_enter {fn : FunctionLit}
    (hbody : ∀ site tree, Grown site (Stmt.bindingsAll fn.body)
      (functionIds (Stmt.nodesAll .nested fn.body)) tree (Stmt.declareAll site fn.body tree))
    (site : Nat) (new : List (String × BindingKind)) (tree : ScopeTree) :
    Grown site [] (fn.id :: functionIds (Stmt.nodesAll .nested fn.body)) tree
      (tree.enter site fn new) := by
  rw [enter]
  split
  · refine { Grown.refl site tree with only := fun owner howner => .inl howner }
  · next h =>
    exact (grown_push h).inner ((grown_bindAll tree.size new _).trans (hbody tree.size _))
      (Nat.le_refl _) (by rw [size_push]; exact Nat.lt_succ_self _)

/-- Declaring any tree only adds to the scopes. -/
theorem byParts_grown : ByParts
    (fun e => ∀ site tree, Grown site [] (functionIds (e.nodes .nested)) tree (e.declare site tree))
    (fun s => ∀ site tree,
      Grown site s.bindings (functionIds (s.nodes .nested)) tree (s.declare site tree))
    (fun list => ∀ site tree, Grown site (Stmt.bindingsAll list)
      (functionIds (Stmt.nodesAll .nested list)) tree (Stmt.declareAll site list tree)) := by
  have hexprs {es : List Expr} (ih : ∀ e ∈ es, ∀ site tree,
      Grown site [] (functionIds (e.nodes .nested)) tree (e.declare site tree))
      (site : Nat) (tree : ScopeTree) : Grown site [] (functionIds (Expr.nodesAll .nested es)) tree
        (es.foldl (fun tree e => e.declare site tree) tree) := by
    have h := Grown.foldl (fun e he tree => ih e he site tree) tree
    rwa [List.flatMap_eq_nil_iff.mpr fun _ _ => rfl, ← functionIds_flatMap,
      ← Expr.nodesAll_eq_flatMap] at h
  refine ⟨fun e he ih site tree => ?_, fun fn ih site tree => ?_, fun fn ih site tree => ?_,
    fun s hfn hhead hbodies site tree => ?_, fun list ih site tree => ?_⟩
  · rw [Expr.declare_operation site he, Expr.nodes_operation .nested he,
      functionIds_cons_of_none (Expr.function?_of_ownsLayer he)]
    exact hexprs ih site tree
  · rw [Expr.declare_literal, Expr.nodes_function, functionIds_cons]
    exact grown_enter ih site _ tree
  · have h := (grown_bindAll site (Stmt.function fn).ownBindings tree).trans
      (grown_enter ih site (fn.headBindings false) _)
    rw [List.append_nil] at h
    rw [Stmt.declare_function, Stmt.nodes_function, functionIds_cons]
    exact h
  · have hhead' : ∀ e ∈ s.head?.toList, ∀ site tree,
        Grown site [] (functionIds (e.nodes .nested)) tree (e.declare site tree) :=
      fun e he => hhead e (Option.mem_toList.mp he)
    have h := ((grown_bindAll site s.ownBindings tree).trans (hexprs hhead' site _)).trans
      (Grown.foldl (fun body hbody tree => hbodies body hbody site tree) _)
    rw [List.append_nil, ← functionIds_flatMap, List.nil_append, ← functionIds_append] at h
    rw [Stmt.declare_parts site hfn, Stmt.bindings_parts hfn, Stmt.nodes_parts .nested hfn,
      functionIds_cons_of_none (Stmt.function?_node.trans hfn)]
    exact h
  · rw [Stmt.bindingsAll_eq_flatMap, Stmt.nodesAll_eq_flatMap, functionIds_flatMap,
      Stmt.declareAll_eq_foldl]
    exact .foldl (fun s hs tree => ih s hs site tree) tree

/-- Declaring statements in a scope binds the names they declare, and no others. -/
theorem Stmt.grown_declareAll (stmts : List Stmt) (site : Nat) (tree : ScopeTree) :
    Grown site (Stmt.bindingsAll stmts) (functionIds (Stmt.nodesAll .nested stmts)) tree
      (Stmt.declareAll site stmts tree) :=
  byParts_grown.stmts stmts site tree

end Declaring

section Lookup

namespace ScopeTree

variable {tree tree' : ScopeTree} {name : String}

@[simp] theorem chain_none (tree : ScopeTree) (limit : Nat) : tree.chain limit none = [] := by
  cases limit <;> rfl

/-- The chain of a scope does not depend on the limit. -/
theorem WellFormed.chain_eq (hwf : tree.WellFormed) {limit limit' id : Nat} (h : id < limit)
    (h' : id < limit') : tree.chain limit (some id) = tree.chain limit' (some id) := by
  induction limit generalizing limit' id with
  | zero => omega
  | succ limit ih =>
    obtain ⟨limit', rfl⟩ : ∃ k, limit' = k + 1 := ⟨limit' - 1, by omega⟩
    rw [chain, chain]
    cases hscope : tree.get? id with
    | none => rfl
    | some scope =>
      simp only
      cases hparent : scope.parent with
      | none => rw [chain_none, chain_none]
      | some p =>
        have hlt := hwf.parents id scope hscope p hparent
        rw [ih (show p < limit by omega) (show p < limit' by omega)]

/-- A name is looked up in the scope itself, then from its parent. -/
theorem WellFormed.lookup_eq (hwf : tree.WellFormed) {id : Nat} {scope : Scope}
    (h : tree.get? id = some scope) (name : String) : tree.lookup id name =
      if scope.binds name then some scope else scope.parent.bind (tree.lookup · name) := by
  have hlt := lt_size_of_get? h
  obtain ⟨limit, hlimit⟩ : ∃ k, tree.size = k + 1 := ⟨tree.size - 1, by omega⟩
  rw [lookup, ancestors, hlimit, chain, h, List.find?_cons]
  cases scope.binds name with
  | true => rfl
  | false =>
    cases hparent : scope.parent with
    | none => cases limit <;> rfl
    | some p =>
      have hp := hwf.parents id scope h p hparent
      simp only [Bool.false_eq_true, if_false, Option.bind_some]
      rw [lookup, ancestors, hwf.chain_eq (show p < limit by omega) (show p < tree.size by omega)]

variable {site : Nat} {new : List (String × BindingKind)} {opened : List Nat}

theorem isBoundInFunction_eq (tree : ScopeTree) (id : Nat) (name : String) :
    tree.isBoundInFunction id name = ((tree.lookup id name).map Scope.frame).any
      (·.isFunction) := by
  rw [isBoundInFunction]
  cases tree.lookup id name <;> rfl

/-- A name is found in the same scope as before if it was not declared, or if it
was found before and would not have been found from where it was declared. -/
theorem Grown.lookup_frame (h : Grown site new opened tree tree') (hwf : tree.WellFormed)
    (hsite : site < tree.size) {id : Nat} (hid : id < tree.size)
    (hname : name ∉ new.map (·.1) ∨ tree.isBound site name = false ∧ tree.isBound id name = true) :
    (tree'.lookup id name).map Scope.frame = (tree.lookup id name).map Scope.frame := by
  induction id using Nat.strongRecOn with
  | ind id ih =>
    obtain ⟨scope, hscope⟩ : ∃ scope, tree.get? id = some scope :=
      ⟨_, List.getElem?_eq_getElem hid⟩
    have hscope' := h.kept id scope hscope
    have hlookup := hwf.lookup_eq hscope name
    rw [hlookup, (h.wellFormed hwf hsite).lookup_eq hscope', Scope.parent_bindAll]
    cases hbinds : scope.binds name with
    | true =>
      -- what was bound in a scope stays bound in it
      have hbinds' : (scope.bindAll (if id = site then new else [])).binds name = true := by
        rw [Scope.binds_eq] at hbinds ⊢
        rw [Scope.lookup_bindAll, Option.or_of_isSome hbinds, hbinds]
      rw [hbinds', if_pos rfl, if_pos rfl, Option.map_some, Scope.frame_bindAll, Option.map_some]
    | false =>
      rw [hbinds, if_neg Bool.false_ne_true] at hlookup
      have hbinds' : (scope.bindAll (if id = site then new else [])).binds name = false := by
        rw [Scope.binds_eq] at hbinds ⊢
        rw [Scope.lookup_bindAll, Option.isSome_or, hbinds, Bool.false_or]
        split
        · next heq =>
          rw [Bool.eq_false_iff]
          intro hnew
          rcases hname with hname | ⟨hsite, hfound⟩
          · rw [Option.isSome_iff_ne_none, ne_eq, List.lookup_eq_none_iff] at hnew
            refine hnew fun binding hbinding => bne_iff_ne.mpr fun heq => hname ?_
            exact List.mem_map.mpr ⟨binding, hbinding, heq.symm⟩
          · rw [heq, hsite] at hfound
            cases hfound
        · rfl
      rw [hbinds', if_neg Bool.false_ne_true, if_neg Bool.false_ne_true]
      cases hparent : scope.parent with
      | none => rfl
      | some p =>
        have hlt := hwf.parents id scope hscope p hparent
        refine ih p hlt (by omega) (hname.imp_right fun ⟨hsite, hfound⟩ => ⟨hsite, ?_⟩)
        rwa [isBound, hlookup, hparent] at hfound

/-- A body that is not the global scope is the body of its own scope. -/
theorem WellFormed.bodyScope_eq (hwf : tree.WellFormed) {owner : ChangedBody} {id : Nat}
    (h : tree.scopeOf? owner = some id) : tree.bodyScope id = id := by
  obtain ⟨scope, hscope, hkind⟩ := hwf.owners owner id h
  have hlt := lt_size_of_get? hscope
  obtain ⟨limit, hlimit⟩ : ∃ k, tree.size = k + 1 := ⟨tree.size - 1, by omega⟩
  have hglobal : (scope.kind != .global) = true := by
    rw [hkind]
    cases owner <;> rfl
  rw [bodyScope, ancestors, hlimit, chain, hscope, List.find?_cons, hglobal]
  exact hwf.ids id scope hscope

end ScopeTree

end Lookup

end StaticInliner
