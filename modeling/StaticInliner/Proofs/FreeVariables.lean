import StaticInliner.Proofs.FreeNames
import StaticInliner.Proofs.Nesting

/-!
Free variables and scopes. The free variables of a function expression are collected with the
names bound so far at hand, and without a scope tree. They are nevertheless the names that the
scopes of the program resolve outside of it: a name mentioned in the expression, or in a
literal inside, that is not found before the search leaves the scope of the expression.
-/
namespace StaticInliner

open ScopeTree

section Ancestors

namespace ScopeTree

variable {tree : ScopeTree} {i j k : Nat} {name : String} {scope : Scope}

theorem WellFormed.ancestors_eq (hwf : tree.WellFormed) (h : tree.get? k = some scope)
    (hparent : scope.parent = some j) : tree.ancestors k = scope :: tree.ancestors j := by
  have hlt := lt_size_of_get? h
  have hj := hwf.parents k scope h j hparent
  obtain ⟨limit, hlimit⟩ : ∃ n, tree.size = n + 1 := ⟨tree.size - 1, by omega⟩
  have hshorter : tree.chain limit (some j) = tree.ancestors j :=
    hwf.chain_eq (by omega) (by omega)
  rw [ancestors, hlimit, chain, h]
  simp only [hparent, hshorter]

theorem WellFormed.id_le_of_mem_chain (hwf : tree.WellFormed) {limit : Nat}
    (h : scope ∈ tree.chain limit (some i)) : scope.id ≤ i := by
  induction limit generalizing i with
  | zero => cases h
  | succ limit ih =>
    rw [chain] at h
    cases hget : tree.get? i with
    | none => simp [hget] at h
    | some first =>
      simp only [hget, List.mem_cons] at h
      rcases h with rfl | h
      · exact Nat.le_of_eq (hwf.ids i scope hget)
      · cases hparent : first.parent with
        | none => simp [hparent] at h
        | some p =>
          have hp := hwf.parents i first hget p hparent
          rw [hparent] at h
          exact Nat.le_trans (ih h) (Nat.le_of_lt hp)

/-- Seen from scope `j` the name has no binding, or one in a proper ancestor of scope `i`. -/
def BoundOutside (tree : ScopeTree) (i j : Nat) (name : String) : Prop :=
  ∀ scope ∈ tree.lookup j name, scope ∈ (tree.ancestors i).tail

/-- A scope inside `i` hides what it binds, and passes on everything else. -/
theorem WellFormed.boundOutside_iff (hwf : tree.WellFormed) (h : tree.get? k = some scope)
    (hparent : scope.parent = some j) (hik : i < k) :
    tree.BoundOutside i k name ↔ scope.binds name = false ∧ tree.BoundOutside i j name := by
  rw [BoundOutside, hwf.lookup_eq h name]
  cases hbinds : scope.binds name with
  | false => simp [BoundOutside, hparent]
  | true =>
    have hid := hwf.ids k scope h
    simp only [if_true, Option.mem_some_iff, forall_eq', Bool.true_eq_false, false_and, iff_false]
    intro hmem
    have hle : scope.id ≤ i := hwf.id_le_of_mem_chain (List.mem_of_mem_tail hmem)
    omega

theorem WellFormed.boundOutside_self_iff (hwf : tree.WellFormed) (h : tree.get? i = some scope)
    (hparent : scope.parent = some j) : tree.BoundOutside i i name ↔ scope.binds name = false := by
  rw [BoundOutside, hwf.lookup_eq h name, hwf.ancestors_eq h hparent, List.tail_cons]
  cases hbinds : scope.binds name with
  | false =>
    simp only [Bool.false_eq_true, if_false, hparent, Option.bind_some, iff_true]
    exact fun found hfound => List.mem_of_find?_eq_some hfound
  | true =>
    have hid := hwf.ids i scope h
    have hj := hwf.parents i scope h j hparent
    simp only [if_true, Option.mem_some_iff, forall_eq', Bool.true_eq_false, iff_false]
    intro hmem
    have hle : scope.id ≤ j := hwf.id_le_of_mem_chain hmem
    omega

end ScopeTree

end Ancestors

section Occurrences

/-- The literal itself mentions the name, and its scope finds the name outside of scope `i`. -/
def FunctionLit.Reaches (tree : ScopeTree) (i : Nat) (name : String) (fn : FunctionLit) : Prop :=
  Node.expr (.ident name) ∈ Stmt.nodesAll .ownLayer fn.body ∧
    ∃ k, tree.functionScope? fn.id = some k ∧ tree.BoundOutside i k name

/-- Occurrences of a name that is found outside of scope `i`: among the nodes that stand in
scope `j`, or in a literal among all the nodes. -/
def Outward (tree : ScopeTree) (i : Nat) (name : String) (j : Nat) (own nodes : List Node) : Prop :=
  (Node.expr (.ident name) ∈ own ∧ tree.BoundOutside i j name) ∨
    ∃ node ∈ nodes, ∃ fn, node.function? = some fn ∧ fn.Reaches tree i name

namespace Outward

variable {tree : ScopeTree} {i j k : Nat} {name : String} {own own' nodes nodes' : List Node}

theorem append_iff : Outward tree i name j (own ++ own') (nodes ++ nodes') ↔
    Outward tree i name j own nodes ∨ Outward tree i name j own' nodes' := by
  simp only [Outward, List.mem_append]
  grind

theorem flatMap_iff {α : Type} {list : List α} {own nodes : α → List Node} :
    Outward tree i name j (list.flatMap own) (list.flatMap nodes) ↔
      ∃ a ∈ list, Outward tree i name j (own a) (nodes a) := by
  induction list with
  | nil => simp [Outward]
  | cons a rest ih =>
    rw [List.flatMap_cons, List.flatMap_cons, append_iff, ih, List.exists_mem_cons_iff]

theorem cons_iff {self : Node} (hfn : self.function? = none) (hname : self ≠ .expr (.ident name)) :
    Outward tree i name j (self :: own) (self :: nodes) ↔ Outward tree i name j own nodes := by
  have hself : ¬ Outward tree i name j [self] [self] := by
    simp [Outward, hfn, hname.symm]
  rw [← List.singleton_append, ← List.singleton_append (l := nodes), append_iff, or_iff_right hself]

/-- Around a literal, the occurrences are those in its body as seen from its own scope. -/
theorem function_iff {self : Node} {fn : FunctionLit} (hfn : self.function? = some fn)
    (hscope : tree.functionScope? fn.id = some k) :
    Outward tree i name j [self] (self :: nodes) ↔
      Outward tree i name k (Stmt.nodesAll .ownLayer fn.body) nodes := by
  have hself : self ≠ .expr (.ident name) := by
    rintro rfl
    cases hfn
  simp only [Outward, FunctionLit.Reaches, List.mem_singleton, hself.symm, false_and, false_or,
    List.exists_mem_cons_iff, hfn, Option.some.injEq, exists_eq_left', hscope]

end Outward

end Occurrences

section Agreement

/-- Collecting the free names in a body below scope `i`, with the names that count as bound. -/
structure Inside (tree : ScopeTree) (i : Nat) (name : String) (owner : ChangedBody)
    (bound : List String) (j : Nat) : Prop where
  scope : tree.scopeOf? owner = some j
  below : i ≤ j
  outside : name ∉ bound ↔ tree.BoundOutside i j name

/-- On entering a literal, the names added are those that its scope binds. -/
theorem Inside.enter {tree : ScopeTree} (hwf : tree.WellFormed) {i j : Nat} {name : String}
    {owner : ChangedBody} {bound : List String} (h : Inside tree i name owner bound j)
    {fn : FunctionLit} {isExpression : Bool}
    (hlayer : (fn.layer owner isExpression).Resolved tree) :
    ∃ k, Inside tree i name (.function fn.id) (fn.innerNames isExpression ++ bound) k := by
  obtain ⟨parent, hparent, k, scope, hk, hscope, -, hbelow, hnames⟩ := fn.hasScope hwf hlayer
  obtain rfl : j = parent := Option.some.inj (h.scope.symm.trans hparent)
  have hik : i < k := Nat.lt_of_le_of_lt h.below (hwf.parents k scope hscope j hbelow)
  refine ⟨k, hk, Nat.le_of_lt hik, ?_⟩
  rw [hwf.boundOutside_iff hscope hbelow hik, ← h.outside, List.mem_append, not_or, ← hnames,
    Bool.not_eq_true]

/-- The scope of the expression itself, where nothing counts as bound before. -/
theorem Inside.start {tree : ScopeTree} (hwf : tree.WellFormed) {owner : ChangedBody}
    {fn : FunctionLit} {isExpression : Bool} (hlayer : (fn.layer owner isExpression).Resolved tree)
    {i : Nat} (hi : tree.functionScope? fn.id = some i) (name : String) :
    Inside tree i name (.function fn.id) (fn.innerNames isExpression ++ []) i := by
  obtain ⟨parent, -, k, scope, hk, hscope, -, hbelow, hnames⟩ := fn.hasScope hwf hlayer
  obtain rfl : i = k := Option.some.inj (hi.symm.trans hk)
  refine ⟨hi, Nat.le_refl i, ?_⟩
  rw [hwf.boundOutside_self_iff hscope hbelow, List.append_nil, ← hnames, Bool.not_eq_true]

/-- The free names collected are the occurrences found outside. -/
def Agrees (tree : ScopeTree) (i : Nat) (name : String) (layers : ChangedBody → List Layer)
    (free : List String → List String) (own nodes : List Node) : Prop :=
  ∀ owner bound j, Inside tree i name owner bound j →
    (∀ layer ∈ layers owner, layer.Resolved tree) →
    (name ∈ free bound ↔ Outward tree i name j own nodes)

namespace Agrees

variable {tree : ScopeTree} {i : Nat} {name : String}

theorem flatMap {α : Type} {list : List α} {layers : α → ChangedBody → List Layer}
    {free : α → List String → List String} {own nodes : α → List Node}
    (h : ∀ a ∈ list, Agrees tree i name (layers a) (free a) (own a) (nodes a)) :
    Agrees tree i name (fun owner => list.flatMap (layers · owner))
      (fun bound => list.flatMap (free · bound)) (list.flatMap own) (list.flatMap nodes) := by
  intro owner bound j hinside hresolved
  rw [List.mem_flatMap, Outward.flatMap_iff]
  refine exists_congr fun a => and_congr_right fun ha => h a ha owner bound j hinside ?_
  exact fun layer hlayer => hresolved layer (List.mem_flatMap.mpr ⟨a, ha, hlayer⟩)

theorem append {layers layers' : ChangedBody → List Layer} {free free' : List String → List String}
    {own own' nodes nodes' : List Node} (h : Agrees tree i name layers free own nodes)
    (h' : Agrees tree i name layers' free' own' nodes') :
    Agrees tree i name (fun owner => layers owner ++ layers' owner)
      (fun bound => free bound ++ free' bound) (own ++ own') (nodes ++ nodes') := by
  intro owner bound j hinside hresolved
  obtain ⟨hfirst, hsecond⟩ := List.forall_mem_append.mp hresolved
  rw [List.mem_append, Outward.append_iff, h owner bound j hinside hfirst,
    h' owner bound j hinside hsecond]

theorem cons {self : Node} (hfn : self.function? = none) (hname : self ≠ .expr (.ident name))
    {layers : ChangedBody → List Layer} {free free' : List String → List String}
    {own nodes : List Node} (hfree : ∀ bound, name ∈ free' bound ↔ name ∈ free bound)
    (h : Agrees tree i name layers free own nodes) :
    Agrees tree i name layers free' (self :: own) (self :: nodes) := by
  intro owner bound j hinside hresolved
  rw [Outward.cons_iff hfn hname, hfree]
  exact h owner bound j hinside hresolved

/-- A literal among other nodes. -/
theorem function (hwf : tree.WellFormed) {self : Node} {fn : FunctionLit}
    (hself : self.function? = some fn)
    (h : Agrees tree i name (Stmt.layersAll · fn.body) (Stmt.freeNamesAll · fn.body)
      (Stmt.nodesAll .ownLayer fn.body) (Stmt.nodesAll .nested fn.body)) :
    Agrees tree i name self.layers
      (fun bound => Stmt.freeNamesAll (fn.innerNames self.isExpression ++ bound) fn.body)
      [self] (self :: Stmt.nodesAll .nested fn.body) := by
  intro owner bound j hinside hresolved
  simp only [Node.layers_of_some hself] at hresolved
  obtain ⟨hlayer, hresolved⟩ := List.forall_mem_cons.mp hresolved
  obtain ⟨k, hinner⟩ := hinside.enter hwf hlayer
  rw [Outward.function_iff hself hinner.scope]
  exact h _ _ k hinner hresolved

end Agrees

theorem Expr.mem_freeNames_operation {e : Expr} (he : e.ownsLayer = false) {name : String}
    (hname : e ≠ .ident name) (bound : List String) :
    name ∈ e.freeNames bound ↔ name ∈ e.children.flatMap (·.freeNames bound) := by
  rcases e.ident_or with ⟨other, rfl⟩ | hident
  · have hother : name ≠ other := fun heq => hname (by rw [heq])
    have hnone : name ∉ (Expr.ident other).freeNames bound := by
      rw [Expr.freeNames]
      split <;> simp [hother]
    simp [hnone, Expr.children]
  · rw [Expr.freeNames_operation he hident]

theorem byParts_agrees {tree : ScopeTree} (hwf : tree.WellFormed) (i : Nat) (name : String) :
    ByParts
    (fun e => Agrees tree i name e.layers e.freeNames (e.nodes .ownLayer) (e.nodes .nested))
    (fun s => Agrees tree i name s.layers s.freeNames (s.nodes .ownLayer) (s.nodes .nested))
    (fun list => Agrees tree i name (Stmt.layersAll · list) (Stmt.freeNamesAll · list)
      (Stmt.nodesAll .ownLayer list) (Stmt.nodesAll .nested list)) := by
  constructor
  case operation =>
    intro e he ih
    by_cases hident : e = .ident name
    · -- the one place where a name is looked up
      subst hident
      intro owner bound j hinside _
      have hfree : name ∈ (Expr.ident name).freeNames bound ↔ name ∉ bound := by
        simp [Expr.freeNames]
      rw [hfree, hinside.outside]
      simp [Outward, Expr.nodes, Node.function?]
    · rw [funext fun owner => Expr.layers_operation owner he, Expr.nodes_operation .ownLayer he,
        Expr.nodes_operation .nested he, Expr.nodesAll_eq_flatMap, Expr.nodesAll_eq_flatMap]
      have hself : Node.expr e ≠ .expr (.ident name) := fun heq => hident (Node.expr.inj heq)
      exact .cons (Expr.function?_of_ownsLayer he) hself (Expr.mem_freeNames_operation he hident)
        (.flatMap ih)
  case literal =>
    intro fn ih
    rw [Expr.ownLayer_function, Expr.nodes_function,
      funext fun owner => Expr.layers_literal owner fn,
      funext fun bound => Expr.freeNames_function fn]
    have hself : (Node.expr (.function fn)).function? = some fn := rfl
    exact .function hwf hself ih
  case declaration =>
    intro fn ih
    rw [Stmt.ownLayer_function, Stmt.nodes_function,
      funext fun owner => Stmt.layers_function owner fn,
      funext fun bound => Stmt.freeNames_function fn]
    have hself : (Node.stmt (.function fn)).function? = some fn := rfl
    exact .function hwf hself ih
  case statement =>
    intro s hfn hhead hbodies
    rw [Stmt.nodes_parts .ownLayer hfn, Stmt.nodes_parts .nested hfn, Expr.nodesAll_eq_flatMap,
      Expr.nodesAll_eq_flatMap, funext fun owner => Stmt.layers_parts owner hfn,
      funext fun bound => Stmt.freeNames_parts hfn]
    have hself : Node.stmt s ≠ .expr (.ident name) := by
      intro heq
      cases heq
    refine .cons (Stmt.function?_node.trans hfn) hself (fun _ => Iff.rfl) (.append
      (.flatMap fun e he => hhead e (Option.mem_toList.mp he)) (.flatMap hbodies))
  case list =>
    intro list ih
    simp only [Stmt.layersAll_eq_flatMap, Stmt.freeNamesAll_eq_flatMap, Stmt.nodesAll_eq_flatMap]
    exact .flatMap ih

theorem Stmt.agrees_all {tree : ScopeTree} (hwf : tree.WellFormed) (i : Nat) (name : String)
    (stmts : List Stmt) : Agrees tree i name (Stmt.layersAll · stmts) (Stmt.freeNamesAll · stmts)
      (Stmt.nodesAll .ownLayer stmts) (Stmt.nodesAll .nested stmts) :=
  (byParts_agrees hwf i name).stmts stmts

/-- The free variables of a function expression are the names that are mentioned in it, or in a
literal inside, and that the scopes find outside of it. -/
theorem Program.mem_freeVariables_iff_reaches {program : Program} (h : program.validate = .ok ())
    {fn : FunctionLit} (hfn : Node.expr (.function fn) ∈ program.nodes) :
    ∃ i, program.scopes.functionScope? fn.id = some i ∧ ∀ name, name ∈ fn.freeVariables ↔
      ∃ node ∈ (Expr.function fn).nodes .nested, ∃ inner, node.function? = some inner ∧
        inner.Reaches program.scopes i name := by
  obtain ⟨hresolved, -⟩ := (Program.distinct_of_validate h).resolved_scopes
  have hwf := program.wellFormed_scopes
  obtain ⟨owner, body, hbody, hown⟩ := Program.exists_body hfn
  have hlayer := hresolved _ (hbody.layer_mem hown rfl)
  obtain ⟨parent, -, i, scope, hi, -⟩ := fn.hasScope hwf hlayer
  refine ⟨i, hi, fun name => ?_⟩
  have hinside := Inside.start hwf hlayer hi name
  have hbelow : ∀ layer ∈ Stmt.layersAll (.function fn.id) fn.body, layer.Resolved program.scopes :=
    fun layer hlayer => hresolved layer ((Program.HasBody.function hfn rfl).layers_subset hlayer)
  calc name ∈ fn.freeVariables
    _ ↔ name ∈ Stmt.freeNamesAll (fn.innerNames true ++ []) fn.body := by
      rw [FunctionLit.freeVariables, mem_sortedNames, Expr.freeNames_function]
      rfl
    _ ↔ Outward program.scopes i name i (Stmt.nodesAll .ownLayer fn.body)
          (Stmt.nodesAll .nested fn.body) :=
      Stmt.agrees_all hwf i name fn.body _ _ i hinside hbelow
    _ ↔ Outward program.scopes i name i [.expr (.function fn)]
      ((Expr.function fn).nodes .nested) := by
      rw [Expr.nodes_function, Outward.function_iff rfl hi]
    _ ↔ _ := by
      refine or_iff_right fun hself => ?_
      cases List.mem_singleton.mp hself.1

theorem FunctionLit.mem_freeVariables_sheltered (name : String) :
    name ∈ sheltered.freeVariables ↔ name ∈ ["t", "g", "a"] := mem_sortedNames

/-- Of the names mentioned, `inner`, `b`, `u` and `c` are bound inside. -/
theorem Program.reaches_sheltered : ∃ i, sheltering.scopes.functionScope? 2 = some i ∧
    ∀ name, name ∈ ["t", "g", "a"] ↔ ∃ node ∈ (Expr.function .sheltered).nodes .nested,
      ∃ inner, node.function? = some inner ∧ inner.Reaches sheltering.scopes i name := by
  have hfn : Node.expr (.function .sheltered) ∈ sheltering.nodes :=
    List.mem_of_getElem? (show sheltering.nodes[2]? = some _ from rfl)
  obtain ⟨i, hi, hreaches⟩ := mem_freeVariables_iff_reaches validate_sheltering hfn
  exact ⟨i, hi, fun name => (FunctionLit.mem_freeVariables_sheltered name).symm.trans
    (hreaches name)⟩

end Agreement

end StaticInliner
