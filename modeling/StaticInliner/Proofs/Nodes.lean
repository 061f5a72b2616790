import StaticInliner.Syntax.Walk

/-!
The nodes of a tree in pre-order. A traversal whose visitor never prunes within
its reach is a fold over this list, and a search succeeds exactly if some node
of the list passes the test. Statements about names and node ids are stated over
the list, and traversals do not have to be unfolded again.
-/
namespace StaticInliner

mutual

/-- An expression and everything below it, entering functions if they are within reach. -/
def Expr.nodes (reach : Reach) : Expr → List Node
  | .undefined => [.expr .undefined]
  | .null => [.expr .null]
  | .bool value => [.expr (.bool value)]
  | .number value => [.expr (.number value)]
  | .string value => [.expr (.string value)]
  | .ident name => [.expr (.ident name)]
  | .this => [.expr .this]
  | .member object property => .expr (.member object property) :: object.nodes reach
  | .index object key => .expr (.index object key) :: (object.nodes reach ++ key.nodes reach)
  | .call callee args =>
    .expr (.call callee args) :: (callee.nodes reach ++ Expr.nodesAll reach args)
  | .new callee args =>
    .expr (.new callee args) :: (callee.nodes reach ++ Expr.nodesAll reach args)
  | .assign target op value =>
    .expr (.assign target op value) :: (target.nodes reach ++ value.nodes reach)
  | .binary op left right =>
    .expr (.binary op left right) :: (left.nodes reach ++ right.nodes reach)
  | .logical op left right =>
    .expr (.logical op left right) :: (left.nodes reach ++ right.nodes reach)
  | .unary op operand => .expr (.unary op operand) :: operand.nodes reach
  | .conditional condition thenExpr elseExpr =>
    .expr (.conditional condition thenExpr elseExpr) ::
      (condition.nodes reach ++ thenExpr.nodes reach ++ elseExpr.nodes reach)
  | .sequence items => .expr (.sequence items) :: Expr.nodesAll reach items
  | .array items => .expr (.array items) :: Expr.nodesAll reach items
  | .function ⟨id, name, params, body⟩ =>
    .expr (.function ⟨id, name, params, body⟩) ::
      match reach with
      | .ownLayer => []
      | .nested => Stmt.nodesAll .nested body

def Expr.nodesAll (reach : Reach) : List Expr → List Node
  | [] => []
  | e :: rest => e.nodes reach ++ Expr.nodesAll reach rest

def Stmt.nodes (reach : Reach) : Stmt → List Node
  | .var kind name none => [.stmt (.var kind name none)]
  | .var kind name (some init) => .stmt (.var kind name (some init)) :: init.nodes reach
  | .function ⟨id, name, params, body⟩ =>
    .stmt (.function ⟨id, name, params, body⟩) ::
      match reach with
      | .ownLayer => []
      | .nested => Stmt.nodesAll .nested body
  | .expr value => .stmt (.expr value) :: value.nodes reach
  | .ret none => [.stmt (.ret none)]
  | .ret (some value) => .stmt (.ret (some value)) :: value.nodes reach
  | .ifElse condition thenBranch none =>
    .stmt (.ifElse condition thenBranch none) ::
      (condition.nodes reach ++ Stmt.nodesAll reach thenBranch)
  | .ifElse condition thenBranch (some elseBranch) =>
    .stmt (.ifElse condition thenBranch (some elseBranch)) ::
      (condition.nodes reach ++ Stmt.nodesAll reach thenBranch ++ Stmt.nodesAll reach elseBranch)
  | .whileDo condition body =>
    .stmt (.whileDo condition body) :: (condition.nodes reach ++ Stmt.nodesAll reach body)
  | .block body => .stmt (.block body) :: Stmt.nodesAll reach body
  | .labeled label body => .stmt (.labeled label body) :: Stmt.nodesAll reach body
  | .breakTo label => [.stmt (.breakTo label)]
  | .continueTo label => [.stmt (.continueTo label)]
  | .throw value => .stmt (.throw value) :: value.nodes reach

def Stmt.nodesAll (reach : Reach) : List Stmt → List Node
  | [] => []
  | s :: rest => s.nodes reach ++ Stmt.nodesAll reach rest

end

theorem Expr.ident_or (e : Expr) : (∃ name, e = .ident name) ∨ ∀ name, e ≠ .ident name :=
  (Classical.em _).imp_right fun h name heq => h ⟨name, heq⟩

theorem Stmt.nodesAll_singleton (reach : Reach) (s : Stmt) :
    Stmt.nodesAll reach [s] = s.nodes reach := by
  rw [Stmt.nodesAll, Stmt.nodesAll, List.append_nil]

theorem Stmt.nodesAll_append (reach : Reach) (first second : List Stmt) :
    Stmt.nodesAll reach (first ++ second) =
      Stmt.nodesAll reach first ++ Stmt.nodesAll reach second := by
  induction first with
  | nil => simp [Stmt.nodesAll]
  | cons s rest ih => simp [Stmt.nodesAll, ih]

theorem Stmt.self_mem_nodes (reach : Reach) (s : Stmt) : Node.stmt s ∈ s.nodes reach := by
  cases s with
  | var kind name init => cases init <;> simp [Stmt.nodes]
  | function fn => cases fn; simp [Stmt.nodes]
  | ret value => cases value <;> simp [Stmt.nodes]
  | ifElse condition thenBranch elseBranch => cases elseBranch <;> simp [Stmt.nodes]
  | _ => simp [Stmt.nodes]

theorem Stmt.mem_nodesAll {reach : Reach} {stmts : List Stmt} {node : Node} :
    node ∈ Stmt.nodesAll reach stmts ↔ ∃ s ∈ stmts, node ∈ s.nodes reach := by
  induction stmts with
  | nil => simp [Stmt.nodesAll]
  | cons s rest ih => simp [Stmt.nodesAll, ih]

theorem Expr.mem_nodesAll {reach : Reach} {es : List Expr} {node : Node} :
    node ∈ Expr.nodesAll reach es ↔ ∃ e ∈ es, node ∈ e.nodes reach := by
  induction es with
  | nil => simp [Expr.nodesAll]
  | cons e rest ih => simp [Expr.nodesAll, ih]

theorem Stmt.nodes_subset_nodesAll {reach : Reach} {s : Stmt} {stmts : List Stmt}
    (h : s ∈ stmts) : s.nodes reach ⊆ Stmt.nodesAll reach stmts :=
  fun _ hnode => Stmt.mem_nodesAll.mpr ⟨s, h, hnode⟩

/-- A node and everything below it. -/
def Node.nodes (reach : Reach) : Node → List Node
  | .stmt s => s.nodes reach
  | .expr e => e.nodes reach

/-- Nodes together with everything below them. -/
def Closed (nodes : List Node) : Prop := ∀ node ∈ nodes, node.nodes .nested ⊆ nodes

theorem Closed.append {first second : List Node} (h : Closed first) (h' : Closed second) :
    Closed (first ++ second) := by
  intro node hnode
  rcases List.mem_append.mp hnode with hnode | hnode
  · exact List.subset_append_of_subset_left _ (h node hnode)
  · exact List.subset_append_of_subset_right _ (h' node hnode)

theorem Closed.cons {node : Node} {below : List Node} (hnode : node.nodes .nested = node :: below)
    (h : Closed below) : Closed (node :: below) := by
  intro other hother
  rcases List.mem_cons.mp hother with rfl | hother
  · rw [hnode]
    exact List.Subset.refl _
  · exact List.subset_cons_of_subset _ (h other hother)

@[simp] theorem Reach.descent_nested (node : Node) : Reach.nested.descent node = .enter := by
  simp [Reach.descent]

theorem Reach.descent_of_none (reach : Reach) {node : Node} (h : node.function? = none) :
    reach.descent node = .enter := by simp [Reach.descent, h]

/-- A visitor that steps at every node and enters all it can reach, unless no
further step would change the state. -/
def Visits (reach : Reach) (step : σ → Node → σ) (visit : Node → σ → Descent × σ) : Prop :=
  ∀ node state, visit node state = (reach.descent node, step state node) ∨
    (visit node state = (.prune, step state node) ∧
      ∀ nodes : List Node, nodes.foldl step (step state node) = step state node)

section Fold

variable {reach : Reach} {step : σ → Node → σ} {visit : Node → σ → Descent × σ}

/-- What is below a node is folded as well, whether it is visited or not. -/
theorem Visits.foldl_cons (hv : Visits reach step visit) {node : Node} {state : σ}
    {below : List Node} {children : σ → σ}
    (henter : reach.descent node = .enter → ∀ state, children state = below.foldl step state)
    (hprune : reach.descent node = .prune → below = []) :
    (match visit node state with
      | (.prune, state) => state
      | (.enter, state) => children state) = (node :: below).foldl step state := by
  rw [List.foldl_cons]
  rcases hv node state with h | ⟨h, hstuck⟩
  · rw [h]
    cases hd : reach.descent node with
    | enter => exact henter hd _
    | prune => rw [hprune hd]; rfl
  · rw [h, hstuck]

/-- A node that is no function is entered. -/
theorem Visits.foldl_inner (hv : Visits reach step visit) {node : Node}
    (hnode : node.function? = none) {state : σ} {below : List Node} {children : σ → σ}
    (h : ∀ state, children state = below.foldl step state) :
    (match visit node state with
      | (.prune, state) => state
      | (.enter, state) => children state) = (node :: below).foldl step state := by
  refine hv.foldl_cons (fun _ => h) fun hd => ?_
  rw [reach.descent_of_none hnode] at hd
  cases hd

mutual

/-- Such a visitor folds its step over the nodes. -/
theorem Expr.walk_eq_foldl (hv : Visits reach step visit) : ∀ (e : Expr) (state : σ),
    e.walk visit state = (e.nodes reach).foldl step state
  | .undefined, _ | .null, _ | .bool _, _ | .number _, _ | .string _, _ | .ident _, _
  | .this, _ => by
    rw [Expr.walk, Expr.nodes]
    exact hv.foldl_inner rfl fun _ => rfl
  | .member a _, _ | .unary _ a, _ => by
    rw [Expr.walk, Expr.nodes]
    exact hv.foldl_inner rfl (Expr.walk_eq_foldl hv a)
  | .index a b, _ | .assign a _ b, _ | .binary _ a b, _ | .logical _ a b, _ => by
    rw [Expr.walk, Expr.nodes]
    refine hv.foldl_inner rfl fun state => ?_
    simp only [List.foldl_append, Expr.walk_eq_foldl hv a, Expr.walk_eq_foldl hv b]
  | .conditional a b c, _ => by
    rw [Expr.walk, Expr.nodes]
    refine hv.foldl_inner rfl fun state => ?_
    simp only [List.foldl_append, List.foldl_append, Expr.walk_eq_foldl hv a,
      Expr.walk_eq_foldl hv b, Expr.walk_eq_foldl hv c]
  | .call a args, _ | .new a args, _ => by
    rw [Expr.walk, Expr.nodes]
    refine hv.foldl_inner rfl fun state => ?_
    simp only [List.foldl_append, Expr.walk_eq_foldl hv a, Expr.walkAll_eq_foldl hv args]
  | .sequence items, _ | .array items, _ => by
    rw [Expr.walk, Expr.nodes]
    exact hv.foldl_inner rfl (Expr.walkAll_eq_foldl hv items)
  | .function ⟨_, _, _, body⟩, _ => by
    have ih := Stmt.walkAll_eq_foldl hv body
    rw [Expr.walk]
    cases reach with
    | ownLayer =>
      rw [Expr.nodes]
      exact hv.foldl_cons (fun hd => by cases hd) fun _ => rfl
    | nested =>
      rw [Expr.nodes]
      exact hv.foldl_cons (fun _ => ih) fun hd => by cases hd

theorem Expr.walkAll_eq_foldl (hv : Visits reach step visit) : ∀ (es : List Expr) (state : σ),
    Expr.walkAll visit es state = (Expr.nodesAll reach es).foldl step state
  | [], _ => rfl
  | e :: rest, _ => by
    rw [Expr.walkAll, Expr.nodesAll, List.foldl_append, Expr.walk_eq_foldl hv e,
      Expr.walkAll_eq_foldl hv rest]

/-- The same for statements. -/
theorem Stmt.walk_eq_foldl (hv : Visits reach step visit) : ∀ (s : Stmt) (state : σ),
    s.walk visit state = (s.nodes reach).foldl step state
  | .var _ _ none, _ | .ret none, _ | .breakTo _, _ | .continueTo _, _ => by
    rw [Stmt.walk, Stmt.nodes]
    exact hv.foldl_inner rfl fun _ => rfl
  | .var _ _ (some e), _ | .ret (some e), _ | .expr e, _ | .throw e, _ => by
    rw [Stmt.walk, Stmt.nodes]
    exact hv.foldl_inner rfl (Expr.walk_eq_foldl hv e)
  | .function ⟨_, _, _, body⟩, _ => by
    have ih := Stmt.walkAll_eq_foldl hv body
    rw [Stmt.walk]
    cases reach with
    | ownLayer =>
      rw [Stmt.nodes]
      exact hv.foldl_cons (fun hd => by cases hd) fun _ => rfl
    | nested =>
      rw [Stmt.nodes]
      exact hv.foldl_cons (fun _ => ih) fun hd => by cases hd
  | .ifElse c body none, _ | .whileDo c body, _ => by
    rw [Stmt.walk, Stmt.nodes]
    refine hv.foldl_inner rfl fun state => ?_
    simp only [List.foldl_append, Expr.walk_eq_foldl hv c, Stmt.walkAll_eq_foldl hv body]
  | .ifElse c body (some other), _ => by
    rw [Stmt.walk, Stmt.nodes]
    refine hv.foldl_inner rfl fun state => ?_
    simp only [List.foldl_append, List.foldl_append, Expr.walk_eq_foldl hv c,
      Stmt.walkAll_eq_foldl hv body, Stmt.walkAll_eq_foldl hv other]
  | .block body, _ | .labeled _ body, _ => by
    rw [Stmt.walk, Stmt.nodes]
    exact hv.foldl_inner rfl (Stmt.walkAll_eq_foldl hv body)

theorem Stmt.walkAll_eq_foldl (hv : Visits reach step visit) : ∀ (stmts : List Stmt) (state : σ),
    Stmt.walkAll visit stmts state = (Stmt.nodesAll reach stmts).foldl step state
  | [], _ => rfl
  | s :: rest, _ => by
    rw [Stmt.walkAll, Stmt.nodesAll, List.foldl_append, Stmt.walk_eq_foldl hv s,
      Stmt.walkAll_eq_foldl hv rest]

end

end Fold

/-- A traversal without a visitor is a fold over the nodes. -/
theorem Stmt.foldNodes_eq_foldl (reach : Reach) (step : σ → Node → σ) (stmts : List Stmt)
    (state : σ) :
    Stmt.foldNodes reach step stmts state = (Stmt.nodesAll reach stmts).foldl step state :=
  Stmt.walkAll_eq_foldl (fun _ _ => .inl rfl) stmts state

theorem Expr.foldNodes_eq_foldl (step : σ → Node → σ) (e : Expr) (state : σ) :
    e.foldNodes step state = (e.nodes .nested).foldl step state :=
  Expr.walk_eq_foldl (fun node _ => .inl (by rw [Reach.descent_nested])) e state

namespace Search

/-- What one visit does to a search. -/
def test (passes : Node → Bool) (search : Search) (node : Node) : Search :=
  if search.found then search else ⟨passes node, node :: search.tested⟩

theorem foldl_test_of_found (passes : Node → Bool) {search : Search} (h : search.found = true)
    (nodes : List Node) : nodes.foldl (test passes) search = search := by
  induction nodes with
  | nil => rfl
  | cons node rest ih => rw [List.foldl_cons, test, if_pos h, ih]

theorem visits_visit (reach : Reach) (passes : Node → Bool) :
    Visits reach (test passes) (visit reach passes) := by
  intro node search
  by_cases hfound : search.found = true
  · refine .inr ⟨?_, fun nodes => foldl_test_of_found passes ?_ nodes⟩
    · rw [visit, test, if_pos hfound, if_pos hfound]
    · rwa [test, if_pos hfound]
  · cases hpasses : passes node with
    | true =>
      refine .inr ⟨?_, fun nodes => foldl_test_of_found passes ?_ nodes⟩
      · rw [visit, test, if_neg hfound, if_neg hfound, hpasses, if_pos rfl]
      · rw [test, if_neg hfound, hpasses]
    | false =>
      refine .inl ?_
      rw [visit, test, if_neg hfound, if_neg hfound, hpasses, if_neg nofun]

/-- A search succeeds if some node passes. -/
theorem found_foldl_test (passes : Node → Bool) (search : Search) (nodes : List Node) :
    (nodes.foldl (test passes) search).found = (search.found || nodes.any passes) := by
  induction nodes generalizing search with
  | nil => simp
  | cons node rest ih =>
    rw [List.foldl_cons, ih, test, List.any_cons]
    cases hfound : search.found with
    | true => simp [hfound]
    | false => simp

end Search

/-- A search finds a node exactly if one of the list passes. -/
theorem Stmt.existsNode_eq_any (reach : Reach) (test : Node → Bool) (stmts : List Stmt) :
    Stmt.existsNode reach test stmts = (Stmt.nodesAll reach stmts).any test := by
  rw [Stmt.existsNode, Stmt.search, Stmt.walkAll_eq_foldl (Search.visits_visit reach test),
    Search.found_foldl_test]
  rfl

end StaticInliner
