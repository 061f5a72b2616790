import StaticInliner.Analysis.Body
import StaticInliner.Analysis.Free
import StaticInliner.Inline.Rebind
import StaticInliner.Proofs.Parts

/-!
The analyses of bodies and expressions, read off the lists of nodes: a test
holds if some node passes it, and a collection of names consists of the names of
all nodes. Nodes of one layer are compared with those of all layers where no
function separates them.
-/
namespace StaticInliner

section Folds

theorem foldl_found {step : Bool → Node → Bool} (test : Node → Bool)
    (h : ∀ found node, step found node = (found || test node)) (nodes : List Node) (found : Bool) :
    nodes.foldl step found = (found || nodes.any test) := by
  induction nodes generalizing found with
  | nil => simp
  | cons node rest ih => simp [h, ih, Bool.or_assoc]

theorem foldl_count {step : Nat → Node → Nat} (test : Node → Bool)
    (h : ∀ count node, step count node = if test node then count + 1 else count)
    (nodes : List Node) (count : Nat) : nodes.foldl step count = count + nodes.countP test := by
  induction nodes generalizing count with
  | nil => simp
  | cons node rest ih =>
    rw [List.foldl_cons, ih, h, List.countP_cons]
    split <;> omega

theorem foldl_collect {step : List α → Node → List α} (names : Node → List α)
    (h : ∀ found node, step found node = found ++ names node) (nodes : List Node)
    (found : List α) : nodes.foldl step found = found ++ nodes.flatMap names := by
  induction nodes generalizing found with
  | nil => simp
  | cons node rest ih => simp [h, ih]

/-- The same for a fold that puts new names first. -/
theorem mem_foldl_collect {step : List α → Node → List α} (names : Node → List α)
    (h : ∀ found node, step found node = names node ++ found) (nodes : List Node)
    (found : List α) (name : α) :
    name ∈ nodes.foldl step found ↔ name ∈ found ∨ ∃ node ∈ nodes, name ∈ names node := by
  induction nodes generalizing found with
  | nil => simp
  | cons node rest ih =>
    rw [List.foldl_cons, ih, h]
    simp only [List.mem_append, List.mem_cons, exists_eq_or_imp]
    constructor
    · rintro ((h | h) | h)
      · exact .inr (.inl h)
      · exact .inl h
      · exact .inr (.inr h)
    · rintro (h | h | h)
      · exact .inl (.inr h)
      · exact .inl (.inl h)
      · exact .inr h

theorem reverse_foldl_collect {step : List α → Node → List α} (names : Node → List α)
    (h : ∀ found node, step found node = (names node).reverse ++ found) (nodes : List Node)
    (found : List α) :
    (nodes.foldl step found).reverse = found.reverse ++ nodes.flatMap names := by
  induction nodes generalizing found with
  | nil => simp
  | cons node rest ih => simp [h, ih]

end Folds

section Layers

theorem append_subset_append {a b c d : List α} (hac : a ⊆ c) (hbd : b ⊆ d) : a ++ b ⊆ c ++ d :=
  List.append_subset.mpr
    ⟨List.subset_append_of_subset_left _ hac, List.subset_append_of_subset_right _ hbd⟩

/-- Below an expression all nodes of its own layer are expressions. -/
theorem Expr.isExpr_of_mem_nodes (e : Expr) :
    ∀ node ∈ e.nodes .ownLayer, ∃ e' : Expr, node = .expr e' := by
  induction e using Expr.byOperands with
  | operation e hlayer ih => exact (Expr.forall_nodes_iff hlayer).mpr ⟨⟨e, rfl⟩, ih⟩
  | literal fn =>
    cases fn
    exact List.forall_mem_singleton.mpr ⟨_, rfl⟩

/-- The own layer of a tree is part of the tree. -/
theorem byParts_nodes_subset : ByParts (fun e => e.nodes .ownLayer ⊆ e.nodes .nested)
    (fun s => s.nodes .ownLayer ⊆ s.nodes .nested)
    (fun list => Stmt.nodesAll .ownLayer list ⊆ Stmt.nodesAll .nested list) := by
  refine ⟨fun e hlayer ih node hnode => ?_, fun fn _ => ?_, fun fn _ => ?_,
    fun s hfn hhead hbodies node hnode => ?_, fun list ih node hnode => ?_⟩
  · rw [Expr.mem_nodes_iff hlayer] at hnode ⊢
    refine hnode.imp_right ?_
    rintro ⟨operand, hoperand, hnode⟩
    exact ⟨operand, hoperand, ih operand hoperand hnode⟩
  · cases fn
    exact List.cons_subset_cons _ (List.nil_subset _)
  · cases fn
    exact List.cons_subset_cons _ (List.nil_subset _)
  · rw [Stmt.nodes_parts _ hfn, List.mem_cons, List.mem_append, Expr.mem_nodesAll, List.mem_flatMap]
      at hnode ⊢
    refine hnode.imp_right (Or.imp ?_ ?_)
    · rintro ⟨e, he, hnode⟩
      exact ⟨e, he, hhead e (Option.mem_toList.mp he) hnode⟩
    · rintro ⟨body, hbody, hnode⟩
      exact ⟨body, hbody, hbodies body hbody hnode⟩
  · obtain ⟨s, hs, hnode⟩ := Stmt.mem_nodesAll.mp hnode
    exact Stmt.mem_nodesAll.mpr ⟨s, hs, ih s hs hnode⟩

/-- The nodes of one layer are among those of all layers. -/
theorem Expr.nodes_subset (e : Expr) : e.nodes .ownLayer ⊆ e.nodes .nested :=
  byParts_nodes_subset.expr e

theorem Stmt.nodes_subset (s : Stmt) : s.nodes .ownLayer ⊆ s.nodes .nested :=
  byParts_nodes_subset.stmt s

theorem Expr.nodesAll_subset (es : List Expr) :
    Expr.nodesAll .ownLayer es ⊆ Expr.nodesAll .nested es := by
  intro node hnode
  obtain ⟨e, he, hnode⟩ := Expr.mem_nodesAll.mp hnode
  exact Expr.mem_nodesAll.mpr ⟨e, he, e.nodes_subset hnode⟩

theorem Stmt.nodesAll_subset (stmts : List Stmt) :
    Stmt.nodesAll .ownLayer stmts ⊆ Stmt.nodesAll .nested stmts :=
  byParts_nodes_subset.stmts stmts

/-- Without functions there is only one layer. -/
theorem Expr.nodes_nested_eq (e : Expr) (h : ∀ node ∈ e.nodes .ownLayer, node.function? = none) :
    e.nodes .nested = e.nodes .ownLayer := by
  induction e using Expr.byOperands with
  | operation e hlayer ih =>
    have hoperands := ((Expr.forall_nodes_iff hlayer).mp h).2
    rw [Expr.nodes_operation _ hlayer, Expr.nodes_operation _ hlayer, Expr.nodesAll_eq_flatMap,
      Expr.nodesAll_eq_flatMap]
    exact congrArg _ (List.flatMap_congr fun operand hoperand =>
      ih operand hoperand (hoperands operand hoperand))
  | literal fn => cases h _ (Expr.self_mem_nodes .ownLayer (.function fn))

section Collecting

variable {α : Type} {found : Node → List α} (hexpr : ∀ e, found (.expr e) = [])
include hexpr

/-- What is found at statements only. -/
theorem Expr.flatMap_eq_nil (e : Expr) : (e.nodes .ownLayer).flatMap found = [] := by
  rw [List.flatMap_eq_nil_iff]
  intro node hnode
  obtain ⟨e', rfl⟩ := e.isExpr_of_mem_nodes node hnode
  exact hexpr e'

/-- What is found at the nodes of a statement is found at the statement or in its bodies. -/
theorem Stmt.flatMap_nodes_parts {s : Stmt} (h : s.function? = none) :
    (s.nodes .ownLayer).flatMap found =
      found (.stmt s) ++ s.bodies.flatMap fun body =>
        (Stmt.nodesAll .ownLayer body).flatMap found := by
  have hhead : (Expr.nodesAll .ownLayer s.head?.toList).flatMap found = [] := by
    rw [Expr.nodesAll_eq_flatMap, List.flatMap_assoc, List.flatMap_eq_nil_iff]
    exact fun e _ => Expr.flatMap_eq_nil hexpr e
  rw [Stmt.nodes_parts .ownLayer h, List.flatMap_cons, List.flatMap_append, hhead, List.nil_append,
    List.flatMap_assoc]

end Collecting

end Layers

section Names

/-- The names spelled at a node itself. -/
def Node.written : Node → List String
  | .stmt (.var _ name _) | .stmt (.labeled name _) | .expr (.ident name) => [name]
  | .stmt (.function fn) | .expr (.function fn) => fn.name.toList ++ fn.params
  | _ => []

/-- A written name is at some node. -/
theorem mem_writtenNames {body : List Stmt} {name : String} :
    name ∈ writtenNames body ↔ ∃ node ∈ Stmt.nodesAll .nested body, name ∈ node.written := by
  rw [writtenNames, List.mem_eraseDups, Stmt.foldNodes_eq_foldl, mem_foldl_collect Node.written]
  · simp
  · intro found node
    unfold Node.written
    split <;> simp

theorem Stmt.mem_nodesAll_map_expr {reach : Reach} {es : List Expr} {node : Node}
    (h : node ∈ Expr.nodesAll reach es) : node ∈ Stmt.nodesAll reach (es.map .expr) := by
  induction es with
  | nil => simp [Expr.nodesAll] at h
  | cons e rest ih =>
    rw [Expr.nodesAll, List.mem_append] at h
    rw [List.map_cons, Stmt.nodesAll, Stmt.nodes, List.mem_append]
    exact h.imp (List.mem_cons_of_mem _) ih

/-- What is spelled in a function or in one of its arguments is written. -/
theorem mem_writtenNames_call {fn : FunctionLit} {args : List Expr} {node : Node} {name : String}
    (h : node ∈ Stmt.nodesAll .nested fn.body ∨ node ∈ Expr.nodesAll .nested args)
    (hname : name ∈ node.written) :
    name ∈ writtenNames (.expr (.function fn) :: args.map .expr) := by
  refine mem_writtenNames.mpr ⟨node, ?_, hname⟩
  obtain ⟨id, own, params, body⟩ := fn
  simp only [Stmt.nodesAll, Stmt.nodes, Expr.nodes, List.mem_append, List.mem_cons]
  exact h.imp (fun h => .inr (.inr h)) Stmt.mem_nodesAll_map_expr

theorem Stmt.mem_declarationsAll {stmts : List Stmt} {name : String} :
    name ∈ Stmt.declarationsAll stmts ↔ ∃ s ∈ stmts, name ∈ s.declarations := by
  induction stmts with
  | nil => simp [Stmt.declarationsAll]
  | cons s rest ih => simp [Stmt.declarationsAll, ih]

/-- The variable declared at a node, if by `var`. -/
def Node.varName : Node → List String
  | .stmt (.var .var name _) => [name]
  | _ => []

theorem varNames_eq (body : List Stmt) :
    varNames body = (Stmt.nodesAll .ownLayer body).flatMap Node.varName := by
  rw [varNames, Stmt.foldNodes_eq_foldl, reverse_foldl_collect Node.varName]
  · simp
  · intro found node
    unfold Node.varName
    split <;> simp

theorem varNames_cons (s : Stmt) (rest : List Stmt) :
    varNames (s :: rest) = varNames [s] ++ varNames rest := by
  simp only [varNames_eq, Stmt.nodesAll, List.append_nil, List.flatMap_append]

theorem mem_varNames {body : List Stmt} {name : String} : name ∈ varNames body ↔
    ∃ init, Node.stmt (.var .var name init) ∈ Stmt.nodesAll .ownLayer body := by
  rw [varNames_eq, List.mem_flatMap]
  constructor
  · rintro ⟨node, hnode, hname⟩
    unfold Node.varName at hname
    split at hname
    · next init =>
      rw [List.mem_singleton.mp hname]
      exact ⟨init, hnode⟩
    · cases hname
  · rintro ⟨init, hnode⟩
    exact ⟨_, hnode, List.mem_singleton_self name⟩

/-- The name that a node declares. -/
def Node.declared : Node → List String
  | .stmt (.var _ name _) => [name]
  | .stmt (.function fn) => fn.name.toList
  | _ => []

theorem Stmt.declarationsAll_eq_of_forall {stmts : List Stmt}
    (h : ∀ s ∈ stmts, s.declarations = (s.nodes .ownLayer).flatMap Node.declared) :
    Stmt.declarationsAll stmts = (Stmt.nodesAll .ownLayer stmts).flatMap Node.declared := by
  induction stmts with
  | nil => rfl
  | cons s rest ih =>
    obtain ⟨hs, hrest⟩ := List.forall_mem_cons.mp h
    rw [Stmt.declarationsAll, Stmt.nodesAll, List.flatMap_append, hs, ih hrest]

theorem Stmt.declarations_eq (s : Stmt) :
    s.declarations = (s.nodes .ownLayer).flatMap Node.declared := by
  induction s using Stmt.byBodies with
  | statement s ih =>
    have hbody (body : List Stmt) (hmem : body ∈ s.bodies) :=
      Stmt.declarationsAll_eq_of_forall (ih body hmem)
    cases s with
    | function fn =>
      cases fn
      simp [Stmt.declarations, Stmt.nodes, Node.declared]
    | ifElse _ _ elseBranch =>
      rw [Stmt.flatMap_nodes_parts (fun _ => rfl) rfl, ← List.flatMap_congr hbody]
      cases elseBranch <;> simp [Stmt.declarations, Node.declared, bodies]
    | _ =>
      rw [Stmt.flatMap_nodes_parts (fun _ => rfl) rfl, ← List.flatMap_congr hbody]
      simp [Stmt.declarations, Node.declared, bodies]

theorem Stmt.declarationsAll_eq (stmts : List Stmt) :
    Stmt.declarationsAll stmts = (Stmt.nodesAll .ownLayer stmts).flatMap Node.declared :=
  Stmt.declarationsAll_eq_of_forall fun s _ => s.declarations_eq

/-- What is declared by `var`, `let` or `const` is among the declarations. -/
theorem Stmt.mem_declarationsAll_of_var {kind : VarKind} {name : String} {init : Option Expr}
    (stmts : List Stmt) (h : Node.stmt (.var kind name init) ∈ Stmt.nodesAll .ownLayer stmts) :
    name ∈ Stmt.declarationsAll stmts := by
  rw [Stmt.declarationsAll_eq, List.mem_flatMap]
  exact ⟨_, h, List.mem_singleton_self name⟩

theorem mem_declaredNames {params : List String} {body : List Stmt} {name : String} :
    name ∈ declaredNames params body ↔ name ∈ params ∨ name ∈ Stmt.declarationsAll body := by
  rw [declaredNames, List.mem_eraseDups, List.mem_append]

/-- The label declared at a node. -/
def Node.labelName : Node → List String
  | .stmt (.labeled label _) => [label]
  | _ => []

theorem mem_declaredLabels {body : List Stmt} {label : String} :
    label ∈ declaredLabels body ↔
      ∃ inner, Node.stmt (.labeled label inner) ∈ Stmt.nodesAll .ownLayer body := by
  rw [declaredLabels, List.mem_eraseDups, Stmt.foldNodes_eq_foldl, foldl_collect Node.labelName]
  · rw [List.nil_append, List.mem_flatMap]
    constructor
    · rintro ⟨node, hnode, hlabel⟩
      unfold Node.labelName at hlabel
      split at hlabel
      · next inner =>
        rw [List.mem_singleton.mp hlabel]
        exact ⟨inner, hnode⟩
      · cases hlabel
    · rintro ⟨inner, hnode⟩
      exact ⟨_, hnode, List.mem_singleton_self label⟩
  · intro found node
    unfold Node.labelName
    split <;> simp

theorem nodup_of_repeated {names seen : List String} (h : repeated seen names = []) :
    names.Nodup ∧ ∀ name ∈ names, name ∉ seen := by
  induction names generalizing seen with
  | nil => simp
  | cons name rest ih =>
    rw [repeated] at h
    split at h
    · cases h
    · next hseen =>
      obtain ⟨hnodup, hrest⟩ := ih h
      refine ⟨List.nodup_cons.mpr ⟨fun hmem => hrest name hmem List.mem_cons_self, hnodup⟩, ?_⟩
      rw [List.forall_mem_cons]
      exact ⟨fun hmem => hseen (List.contains_iff_mem.mpr hmem),
        fun other hother hmem => hrest other hother (List.mem_cons_of_mem _ hmem)⟩

/-- Without repeated parameters, each is listed once and none is declared again. -/
theorem FunctionLit.params_of_repeatedParams {fn : FunctionLit} (h : fn.repeatedParams = []) :
    fn.params.Nodup ∧ ∀ name ∈ Stmt.declarationsAll fn.body, name ∉ fn.params := by
  have hnone (name : String) : name ∉ repeated [] fn.params ++
      (Stmt.declarationsAll fn.body).filter (fn.params.contains ·) := by
    rw [← List.mem_eraseDups]
    unfold FunctionLit.repeatedParams at h
    rw [h]
    exact List.not_mem_nil
  refine ⟨(nodup_of_repeated (List.eq_nil_iff_forall_not_mem.mpr fun name hmem =>
    hnone name (List.mem_append_left _ hmem))).1, fun name hname hparam => ?_⟩
  refine hnone name (List.mem_append_right _ (List.mem_filter.mpr ⟨hname, ?_⟩))
  exact List.contains_iff_mem.mpr hparam

end Names

section Tests

variable {body : List Stmt}

/-- A search for one node finds nothing exactly if the node is not there. -/
theorem Stmt.existsNode_eq_false {reach : Reach} {test : Node → Bool} {node : Node}
    (h : ∀ other, test other = true ↔ other = node) :
    Stmt.existsNode reach test body = false ↔ node ∉ Stmt.nodesAll reach body := by
  rw [Stmt.existsNode_eq_any, List.any_eq_false]
  constructor
  · exact fun hall hmem => hall _ hmem ((h node).mpr rfl)
  · exact fun hnot other hmem htest => hnot ((h other).mp htest ▸ hmem)

theorem readsThis_eq_false :
    readsThis body = false ↔ Node.expr .this ∉ Stmt.nodesAll .ownLayer body := by
  refine Stmt.existsNode_eq_false fun other => ?_
  split <;> simp_all

theorem readsArguments_eq_false :
    readsArguments body = false ↔
      Node.expr (.ident "arguments") ∉ Stmt.nodesAll .ownLayer body := by
  refine Stmt.existsNode_eq_false fun other => ?_
  split <;> simp_all

theorem mentions_eq_false {name : String} :
    mentions name body = false ↔ Node.expr (.ident name) ∉ Stmt.nodesAll .nested body := by
  refine Stmt.existsNode_eq_false fun other => ?_
  split <;> simp_all

/-- A `delete` applied to a variable, nested functions included. -/
def deletesVariable (body : List Stmt) : Bool :=
  Stmt.existsNode .nested (fun node => match node with
    | .expr (.unary .delete (.ident _)) => true
    | _ => false) body

theorem deletesVariable_eq_false : deletesVariable body = false ↔
    ∀ name, Node.expr (.unary .delete (.ident name)) ∉ Stmt.nodesAll .nested body := by
  rw [deletesVariable, Stmt.existsNode_eq_any, List.any_eq_false]
  constructor
  · intro h name hmem
    exact h _ hmem rfl
  · intro h node hnode
    split
    · exact fun _ => h _ hnode
    · simp

variable {e : Expr}

def Node.isLiteral : Node → Bool
  | .expr (.function _) => true
  | _ => false

theorem Expr.hasFunctionLit_eq_false :
    e.hasFunctionLit = false ↔ ∀ fn, Node.expr (.function fn) ∉ e.nodes .nested := by
  rw [Expr.hasFunctionLit, Expr.foldNodes_eq_foldl,
    foldl_found Node.isLiteral (by intro found node; unfold Node.isLiteral; split <;> simp),
    Bool.false_or, List.any_eq_false]
  constructor
  · intro h fn hmem
    exact h _ hmem rfl
  · intro h node hnode
    unfold Node.isLiteral
    split
    · exact fun _ => h _ hnode
    · simp

def Node.assignsTo (names : List String) : Node → Bool
  | .expr (.assign (.ident name) _ _) => names.contains name
  | _ => false

theorem Expr.assignsTo_eq_false {names : List String} :
    e.assignsTo names = false ↔ ∀ name op value,
      Node.expr (.assign (.ident name) op value) ∈ e.nodes .nested → name ∉ names := by
  rw [Expr.assignsTo, Expr.foldNodes_eq_foldl,
    foldl_found (Node.assignsTo names) (by intro found node; unfold Node.assignsTo; split <;> simp),
    Bool.false_or, List.any_eq_false]
  constructor
  · intro h name op value hmem
    simpa [Node.assignsTo] using h _ hmem
  · intro h node hnode
    unfold Node.assignsTo
    split
    · simpa using h _ _ _ hnode
    · simp

def Node.reads (name : String) : Node → Bool
  | .expr (.ident other) => other == name
  | _ => false

theorem Expr.occurrences_eq_zero {name : String} :
    e.occurrences name = 0 ↔ Node.expr (.ident name) ∉ e.nodes .nested := by
  rw [Expr.occurrences, Expr.foldNodes_eq_foldl,
    foldl_count (Node.reads name) (by intro count node; unfold Node.reads; split <;> simp),
    Nat.zero_add, List.countP_eq_zero]
  constructor
  · intro h hmem
    exact h _ hmem (beq_self_eq_true name)
  · intro h node hnode
    unfold Node.reads
    split
    · intro hname
      rw [beq_iff_eq.mp hname] at hnode
      exact h hnode
    · simp

end Tests

section InPlace

variable {name : String} {s : Stmt} {body rest : List Stmt}

theorem mentions_cons (s : Stmt) (rest : List Stmt) :
    mentions name (s :: rest) = (mentions name [s] || mentions name rest) := by
  simp only [mentions, Stmt.existsNode_eq_any, Stmt.nodesAll, List.append_nil, List.any_append]

theorem declaresVar_iff : s.declaresVar name = true ↔ ∃ init, s = .var .var name init := by
  unfold Stmt.declaresVar
  split
  · next other init =>
    rw [beq_iff_eq]
    constructor
    · rintro rfl
      exact ⟨init, rfl⟩
    · rintro ⟨_, heq⟩
      cases heq
      rfl
  · next hne =>
    constructor
    · intro h
      cases h
    · rintro ⟨init, heq⟩
      exact absurd heq (hne name init)

theorem mem_varNames_cons :
    name ∈ varNames (s :: rest) ↔ name ∈ varNames [s] ∨ name ∈ varNames rest := by
  rw [varNames_cons, List.mem_append]

theorem varNames_var {init : Option Expr} : varNames [.var .var name init] = [name] := by
  cases init with
  | none => rfl
  | some e =>
    rw [varNames_eq, Stmt.nodesAll_singleton, Stmt.nodes, List.flatMap_cons,
      Expr.flatMap_eq_nil fun _ => rfl]
    rfl

theorem mem_varNames_var {x : String} {init : Option Expr} :
    name ∈ varNames [.var .var x init] ↔ name = x := by
  rw [varNames_var, List.mem_singleton]

theorem mem_varNames_of_upToDeclaration? {before : List Stmt}
    (h : upToDeclaration? name body = some before) : name ∈ varNames body := by
  induction body generalizing before with
  | nil => cases h
  | cons s rest ih =>
    rw [mem_varNames_cons]
    rw [upToDeclaration?] at h
    split at h
    · next hdeclares =>
      obtain ⟨init, rfl⟩ := declaresVar_iff.mp hdeclares
      exact .inl (mem_varNames_var.mpr rfl)
    · obtain ⟨before', hbefore, -⟩ := Option.map_eq_some_iff.mp h
      exact .inr (ih hbefore)

/-- A name that is rebound in place is declared by the first statement, or this
statement does not touch it. -/
theorem rebindsInPlace_cons : rebindsInPlace (s :: rest) name = true ↔ mentions name [s] = false ∧
    ((∃ init, s = .var .var name init) ∧ name ∉ varNames rest ∨
      name ∉ varNames [s] ∧ rebindsInPlace rest name = true) := by
  rw [rebindsInPlace, upToDeclaration?, varNames_cons, List.count_append]
  by_cases hdeclares : ∃ init, s = .var .var name init
  · rw [if_pos (declaresVar_iff.mpr hdeclares)]
    obtain ⟨init, rfl⟩ := hdeclares
    simp [varNames_var, List.count_eq_zero, and_comm]
  · rw [if_neg fun h => hdeclares (declaresVar_iff.mp h), rebindsInPlace]
    cases hup : upToDeclaration? name rest with
    | none => simp [hdeclares]
    | some before =>
      have hpos := List.count_pos_iff.mpr (mem_varNames_of_upToDeclaration? hup)
      have hcount : (varNames [s]).count name + (varNames rest).count name = 1 ↔
          name ∉ varNames [s] ∧ (varNames rest).count name = 1 := by
        rw [← List.count_eq_zero]
        omega
      simp only [Option.map_some, mentions_cons s before, Bool.and_eq_true, beq_iff_eq,
        Bool.not_eq_true', Bool.or_eq_false_iff, hcount, hdeclares, false_and, false_or, and_assoc,
        and_left_comm]

/-- The only declaration of a name by `var` stands at the top of a body, and nothing up to
there mentions the name. -/
def DeclaredFirst (body : List Stmt) (name : String) : Prop :=
  ∃ before init after, body = before ++ Stmt.var .var name init :: after ∧
    (∀ other, Node.stmt (.var .var name other) ∉ Stmt.nodesAll .ownLayer (before ++ after)) ∧
    Node.expr (.ident name) ∉ Stmt.nodesAll .nested (before ++ [Stmt.var .var name init])

/-- The check for a rebinding in place, as a property of the body. -/
theorem rebindsInPlace_iff : rebindsInPlace body name = true ↔ DeclaredFirst body name := by
  induction body with
  | nil => simp [rebindsInPlace, upToDeclaration?, DeclaredFirst]
  | cons s rest ih =>
    rw [rebindsInPlace_cons, ih, mentions_eq_false, mem_varNames, mem_varNames, not_exists,
      not_exists, Stmt.nodesAll_singleton, Stmt.nodesAll_singleton]
    constructor
    · rintro ⟨hs, ⟨⟨init, rfl⟩, hrest⟩ | ⟨hown, before, init, after, rfl, hothers, hmentions⟩⟩
      · rw [← Stmt.nodesAll_singleton] at hs
        exact ⟨[], init, rest, rfl, hrest, hs⟩
      · refine ⟨s :: before, init, after, rfl, fun other => ?_, ?_⟩
        all_goals rw [List.cons_append, Stmt.nodesAll, List.mem_append, not_or]
        · exact ⟨hown other, hothers other⟩
        · exact ⟨hs, hmentions⟩
    · rintro ⟨before, init, after, hsplit, hothers, hmentions⟩
      cases before with
      | nil =>
        cases hsplit
        rw [← Stmt.nodesAll_singleton]
        exact ⟨hmentions, .inl ⟨⟨init, rfl⟩, hothers⟩⟩
      | cons first before =>
        cases hsplit
        simp only [List.cons_append, Stmt.nodesAll, List.mem_append, not_or,
          forall_and] at hothers hmentions
        exact ⟨hmentions.1, .inr ⟨hothers.1, before, init, after, rfl, hothers.2, hmentions.2⟩⟩

end InPlace

section FreeVariables

theorem Expr.freeNamesAll_eq_flatMap (bound : List String) (es : List Expr) :
    Expr.freeNamesAll bound es = es.flatMap (·.freeNames bound) := by
  induction es with
  | nil => rfl
  | cons e rest ih => rw [Expr.freeNamesAll, ih, List.flatMap_cons]

theorem Stmt.freeNamesAll_eq_flatMap (bound : List String) (stmts : List Stmt) :
    Stmt.freeNamesAll bound stmts = stmts.flatMap (·.freeNames bound) := by
  induction stmts with
  | nil => rfl
  | cons s rest ih => rw [Stmt.freeNamesAll, ih, List.flatMap_cons]

theorem Stmt.freeNamesAll_singleton (bound : List String) (s : Stmt) :
    Stmt.freeNamesAll bound [s] = s.freeNames bound := by
  rw [Stmt.freeNamesAll, Stmt.freeNamesAll, List.append_nil]

variable {bound : List String}

/-- An operation other than a name has the free names of its operands. -/
theorem Expr.freeNames_operation {e : Expr} (hlayer : e.ownsLayer = false)
    (hname : ∀ name, e ≠ .ident name) :
    e.freeNames bound = e.children.flatMap (·.freeNames bound) := by
  cases e with
  | ident name => exact absurd rfl (hname name)
  | function _ => cases hlayer
  | _ => simp [freeNames, children, Expr.freeNamesAll_eq_flatMap]

theorem Expr.freeNames_withOperands {e : Expr} (hlayer : e.ownsLayer = false)
    (hname : ∀ name, e ≠ .ident name) {operands : List Expr}
    (h : operands.length = e.children.length) :
    (e.withOperands operands).freeNames bound = operands.flatMap (·.freeNames bound) := by
  rw [freeNames_operation ((e.ownsLayer_withOperands _).trans hlayer)
    (e.withOperands_ne_ident hname _),
    children_withOperands h]

theorem Expr.freeNames_children {e : Expr} (h : e.children ≠ []) :
    e.freeNames bound = e.children.flatMap (·.freeNames bound) := by
  refine freeNames_operation ?_ fun name heq => h (by rw [heq]; rfl)
  cases e with
  | function _ => exact absurd rfl h
  | _ => rfl

theorem Expr.freeNames_function (fn : FunctionLit) : (Expr.function fn).freeNames bound =
    Stmt.freeNamesAll (fn.name.toList ++ declaredNames fn.params fn.body ++ bound) fn.body := by
  cases fn
  rfl

theorem Stmt.freeNames_function (fn : FunctionLit) : (Stmt.function fn).freeNames bound =
    Stmt.freeNamesAll (declaredNames fn.params fn.body ++ bound) fn.body := by
  cases fn
  rfl

theorem Stmt.freeNames_parts {s : Stmt} (h : s.function? = none) : s.freeNames bound =
    s.head?.toList.flatMap (·.freeNames bound) ++ s.bodies.flatMap (Stmt.freeNamesAll bound) := by
  cases s with
  | var _ _ init => cases init <;> simp [Stmt.freeNames, head?, bodies]
  | ret value => cases value <;> simp [Stmt.freeNames, head?, bodies]
  | ifElse _ _ elseBranch => cases elseBranch <;> simp [Stmt.freeNames, head?, bodies]
  | function _ => cases h
  | _ => simp [Stmt.freeNames, head?, bodies]

/-- An unbound identifier of the own layer is free. -/
theorem byParts_free_of_mem {name : String} (hb : name ∉ bound) : ByParts
    (fun e => Node.expr (.ident name) ∈ e.nodes .ownLayer → name ∈ e.freeNames bound)
    (fun s => Node.expr (.ident name) ∈ s.nodes .ownLayer → name ∈ s.freeNames bound)
    (fun list => Node.expr (.ident name) ∈ Stmt.nodesAll .ownLayer list →
      name ∈ Stmt.freeNamesAll bound list) := by
  refine ⟨fun e hlayer ih hnode => ?_, fun fn _ hnode => ?_, fun fn _ hnode => ?_,
    fun s hfn hhead hbodies hnode => ?_, fun list ih hnode => ?_⟩
  · rcases (Expr.mem_nodes_iff hlayer).mp hnode with heq | ⟨operand, hoperand, hnode⟩
    · obtain rfl := Node.expr.inj heq
      simp [Expr.freeNames, hb]
    · rw [Expr.freeNames_children (List.ne_nil_of_mem hoperand)]
      exact List.mem_flatMap.mpr ⟨operand, hoperand, ih operand hoperand hnode⟩
  · cases fn
    simp [Expr.nodes] at hnode
  · cases fn
    simp [Stmt.nodes] at hnode
  · rw [Stmt.freeNames_parts hfn, List.mem_append, List.mem_flatMap, List.mem_flatMap]
    rcases (Stmt.mem_nodes_iff hfn).mp hnode with heq | ⟨e, he, hnode⟩
      | ⟨body, hbody, inner, hinner, hnode⟩
    · cases heq
    · exact .inl ⟨e, Option.mem_toList.mpr he, hhead e he hnode⟩
    · exact .inr ⟨body, hbody, hbodies body hbody (Stmt.mem_nodesAll.mpr ⟨inner, hinner, hnode⟩)⟩
  · obtain ⟨s, hs, hnode⟩ := Stmt.mem_nodesAll.mp hnode
    rw [Stmt.freeNamesAll_eq_flatMap]
    exact List.mem_flatMap.mpr ⟨s, hs, ih s hs hnode⟩

/-- An identifier that is not bound is free. -/
theorem Expr.mem_freeNames {name : String} (hb : name ∉ bound) (e : Expr)
    (h : Node.expr (.ident name) ∈ e.nodes .ownLayer) : name ∈ e.freeNames bound :=
  (byParts_free_of_mem hb).expr e h

theorem mem_sortedNames {names : List String} {name : String} :
    name ∈ sortedNames names ↔ name ∈ names := by
  rw [sortedNames, List.mem_mergeSort, List.mem_eraseDups]

theorem nodup_eraseDups (names : List String) : names.eraseDups.Nodup := by
  induction hlength : names.length using Nat.strongRecOn generalizing names with
  | ind length ih =>
    cases names with
    | nil => exact List.nodup_nil
    | cons name rest =>
      have hshorter : (rest.filter fun other => !other == name).length < length :=
        hlength ▸ Nat.lt_succ_of_le (List.length_filter_le _ _)
      rw [List.eraseDups_cons, List.nodup_cons]
      refine ⟨?_, ih _ hshorter _ rfl⟩
      simp [List.mem_eraseDups]

/-- Sorted names are determined by which names they are. -/
theorem sortedNames_congr {names names' : List String} (h : ∀ name, name ∈ names ↔ name ∈ names') :
    sortedNames names = sortedNames names' := by
  have hperm : names.eraseDups.Perm names'.eraseDups := by
    rw [List.perm_ext_iff_of_nodup (nodup_eraseDups names) (nodup_eraseDups names')]
    intro name
    rw [List.mem_eraseDups, List.mem_eraseDups, h]
  have hsorted (list : List String) :
      (list.mergeSort fun a b => decide (a ≤ b)).Pairwise fun a b => decide (a ≤ b) = true := by
    refine List.pairwise_mergeSort (fun a b c hab hbc => ?_) (fun a b => ?_) list
    · exact decide_eq_true (String.le_trans (of_decide_eq_true hab) (of_decide_eq_true hbc))
    · rw [Bool.or_eq_true, decide_eq_true_iff, decide_eq_true_iff]
      exact String.le_total a b
  refine List.Perm.eq_of_pairwise (fun a b _ _ hab hba => ?_) (hsorted _) (hsorted _)
    (((List.mergeSort_perm _ _).trans hperm).trans (List.mergeSort_perm _ _).symm)
  exact String.le_antisymm (of_decide_eq_true hab) (of_decide_eq_true hba)

/-- A name a function mentions is its own name, declared by it, or free in it. -/
theorem FunctionLit.mem_freeVariables {fn : FunctionLit} {name : String}
    (hmem : Node.expr (.ident name) ∈ Stmt.nodesAll .ownLayer fn.body)
    (hname : fn.name ≠ some name) (hdecl : name ∉ declaredNames fn.params fn.body) :
    name ∈ fn.freeVariables := by
  obtain ⟨id, own, params, body⟩ := fn
  rw [FunctionLit.freeVariables, mem_sortedNames, Expr.freeNames]
  have hbound : name ∉ own.toList ++ declaredNames params body ++ [] := by
    simp only [List.append_nil, List.mem_append, Option.mem_toList, not_or]
    exact ⟨hname, hdecl⟩
  obtain ⟨s, hs, hnode⟩ := Stmt.mem_nodesAll.mp hmem
  rw [Stmt.freeNamesAll_eq_flatMap]
  exact List.mem_flatMap.mpr ⟨s, hs, (byParts_free_of_mem hbound).stmt s hnode⟩

end FreeVariables

end StaticInliner
