import StaticInliner.Proofs.Parts

/-!
The order of a search. Every node within reach has an address: the index of a statement in
the list, then of a child of it, and so on down. In the lexicographic order of addresses a
node comes before everything below it, and what is below one child before the next child.
A search tests the nodes in this order, each at most once, up to the first that passes.
-/
namespace StaticInliner

/-- The nodes directly below a node, in the order of evaluation. A function has none, unless
nested functions are within reach. -/
def Node.children (reach : Reach) : Node → List Node
  | .stmt (.function fn) | .expr (.function fn) =>
    match reach with
    | .ownLayer => []
    | .nested => fn.body.map .stmt
  | .stmt s => s.head?.toList.map .expr ++ s.bodies.flatMap (·.map .stmt)
  | .expr e => e.children.map .expr

/-- The node at an address in a list of nodes and what is below them. -/
def nodeAt? (reach : Reach) : List Node → List Nat → Option Node
  | _, [] => none
  | forest, [i] => forest[i]?
  | forest, i :: j :: path =>
    forest[i]?.bind fun parent => nodeAt? reach (parent.children reach) (j :: path)

variable {reach : Reach}

theorem Node.nodes_eq_cons (reach : Reach) (node : Node) :
    node.nodes reach = node :: (node.children reach).flatMap (·.nodes reach) := by
  cases node with
  | stmt s =>
    cases hfn : s.function? with
    | some fn =>
      obtain rfl := Stmt.eq_function hfn
      cases reach with
      | ownLayer =>
        cases fn
        rfl
      | nested =>
        rw [Node.children, List.flatMap_map, Node.nodes, Stmt.nodes_function,
          Stmt.nodesAll_eq_flatMap]
        rfl
    | none =>
      have hchildren : (Node.stmt s).children reach =
          s.head?.toList.map .expr ++ s.bodies.flatMap (·.map .stmt) := by
        cases s with
        | function _ => cases hfn
        | _ => rfl
      rw [hchildren, List.flatMap_append, List.flatMap_map, List.flatMap_assoc, Node.nodes,
        Stmt.nodes_parts reach hfn, Expr.nodesAll_eq_flatMap,
        funext (Stmt.nodesAll_eq_flatMap reach)]
      simp only [List.flatMap_map, Node.nodes]
  | expr e =>
    cases hlayer : e.ownsLayer with
    | true =>
      cases e with
      | function fn =>
        cases reach with
        | ownLayer =>
          cases fn
          rfl
        | nested =>
          rw [Node.children, List.flatMap_map, Node.nodes, Expr.nodes_function,
            Stmt.nodesAll_eq_flatMap]
          rfl
      | _ => cases hlayer
    | false =>
      have hchildren : (Node.expr e).children reach = e.children.map .expr := by
        cases e with
        | function _ => cases hlayer
        | _ => rfl
      rw [hchildren, List.flatMap_map, Node.nodes, Expr.nodes_operation reach hlayer,
        Expr.nodesAll_eq_flatMap]
      rfl

section Addresses

/-- All addresses in use, each with its node, in their order. -/
structure Listing (reach : Reach) (forest : List Node) (places : List (List Nat × Node)) :
    Prop where
  ordered : (places.map (·.1)).Pairwise (· < ·)
  complete : ∀ path node, (path, node) ∈ places ↔ nodeAt? reach forest path = some node

theorem nodeAt?_nil (reach : Reach) (path : List Nat) : nodeAt? reach [] path = none := by
  rcases path with _ | ⟨i, _ | ⟨j, path⟩⟩ <;> rfl

theorem nodeAt?_zero (reach : Reach) (first : Node) (rest : List Node) (path : List Nat) :
    nodeAt? reach (first :: rest) (0 :: path) =
      if path = [] then some first else nodeAt? reach (first.children reach) path := by
  cases path with
  | nil => rfl
  | cons j path => rfl

theorem nodeAt?_succ (reach : Reach) (first : Node) (rest : List Node) (i : Nat) (path : List Nat) :
    nodeAt? reach (first :: rest) ((i + 1) :: path) = nodeAt? reach rest (i :: path) := by
  cases path with
  | nil => rfl
  | cons j path => rfl

theorem Listing.ne_nil {forest : List Node} {places : List (List Nat × Node)}
    (h : Listing reach forest places) {place : List Nat × Node} (hplace : place ∈ places) :
    place.1 ≠ [] := by
  intro hnil
  have hnode := (h.complete place.1 place.2).mp hplace
  rw [hnil] at hnode
  cases hnode

/-- An address below the first node of a list, from the one among its children. -/
def underFirst (place : List Nat × Node) : List Nat × Node := (0 :: place.1, place.2)

/-- An address once there is one more node at the front of the list. -/
def pastFirst (place : List Nat × Node) : List Nat × Node := (place.1.modifyHead (· + 1), place.2)

theorem modifyHead_lt {a b : List Nat} (ha : a ≠ []) (h : a < b) :
    a.modifyHead (· + 1) < b.modifyHead (· + 1) := by
  cases a with
  | nil => exact absurd rfl ha
  | cons i path =>
    cases b with
    | nil => cases h
    | cons j path' =>
      rw [List.modifyHead_cons, List.modifyHead_cons, List.cons_lt_cons_iff]
      exact (List.cons_lt_cons_iff.mp h).imp Nat.succ_lt_succ fun h => ⟨congrArg _ h.1, h.2⟩

theorem Listing.cons {first : Node} {rest : List Node} {below others : List (List Nat × Node)}
    (hbelow : Listing reach (first.children reach) below) (hothers : Listing reach rest others) :
    Listing reach (first :: rest)
      (([0], first) :: (below.map underFirst ++ others.map pastFirst)) where
  ordered := by
    rw [List.pairwise_map]
    refine List.pairwise_cons.mpr ⟨fun place hplace => ?_, List.pairwise_append.mpr ⟨?_, ?_, ?_⟩⟩
    · rcases List.mem_append.mp hplace with hplace | hplace
      · obtain ⟨place, hmem, rfl⟩ := List.mem_map.mp hplace
        obtain ⟨j, path, hpath⟩ := List.exists_cons_of_ne_nil (hbelow.ne_nil hmem)
        rw [underFirst, hpath]
        exact List.cons_lt_cons_iff.mpr (.inr ⟨rfl, List.nil_lt_cons j path⟩)
      · obtain ⟨place, hmem, rfl⟩ := List.mem_map.mp hplace
        obtain ⟨j, path, hpath⟩ := List.exists_cons_of_ne_nil (hothers.ne_nil hmem)
        rw [pastFirst, hpath]
        exact List.cons_lt_cons_iff.mpr (.inl (Nat.succ_pos j))
    · refine List.pairwise_map.mpr ((List.pairwise_map.mp hbelow.ordered).imp fun h => ?_)
      exact List.cons_lt_cons_iff.mpr (.inr ⟨rfl, h⟩)
    · refine List.pairwise_map.mpr ((List.pairwise_map.mp hothers.ordered).imp_of_mem ?_)
      exact fun hmem _ h => modifyHead_lt (hothers.ne_nil hmem) h
    · intro place hplace place' hplace'
      obtain ⟨place, -, rfl⟩ := List.mem_map.mp hplace
      obtain ⟨place', hmem, rfl⟩ := List.mem_map.mp hplace'
      obtain ⟨j, path, hpath⟩ := List.exists_cons_of_ne_nil (hothers.ne_nil hmem)
      rw [underFirst, pastFirst, hpath]
      exact List.cons_lt_cons_iff.mpr (.inl (Nat.succ_pos j))
  complete path node := by
    have hunder : (path, node) ∈ below.map underFirst ↔
        ∃ tail, path = 0 :: tail ∧ (tail, node) ∈ below := by
      simp only [List.mem_map, underFirst, Prod.mk.injEq]
      constructor
      · rintro ⟨⟨tail, _⟩, hmem, rfl, rfl⟩
        exact ⟨tail, rfl, hmem⟩
      · rintro ⟨tail, rfl, hmem⟩
        exact ⟨(tail, node), hmem, rfl, rfl⟩
    have hpast : (path, node) ∈ others.map pastFirst ↔
        ∃ i tail, path = (i + 1) :: tail ∧ (i :: tail, node) ∈ others := by
      simp only [List.mem_map, pastFirst, Prod.mk.injEq]
      constructor
      · rintro ⟨⟨_, _⟩, hmem, rfl, rfl⟩
        obtain ⟨i, tail, hpath⟩ := List.exists_cons_of_ne_nil (hothers.ne_nil hmem)
        cases hpath
        exact ⟨i, tail, rfl, hmem⟩
      · rintro ⟨i, tail, rfl, hmem⟩
        exact ⟨(i :: tail, node), hmem, rfl, rfl⟩
    rw [List.mem_cons, List.mem_append, hunder, hpast, Prod.mk.injEq]
    cases path with
    | nil => simp [nodeAt?]
    | cons i tail =>
      cases i with
      | zero =>
        cases tail with
        | nil =>
          have hroot : ([], node) ∉ below := fun hmem => hbelow.ne_nil hmem rfl
          simp [nodeAt?, hroot, eq_comm]
        | cons j tail => simp [nodeAt?_zero, hbelow.complete]
      | succ i => simp [nodeAt?_succ, hothers.complete]

/-- The nodes in pre-order are those at the addresses, in their order. The induction is on
the number of nodes. -/
theorem exists_listing (reach : Reach) (forest : List Node) :
    ∃ places, Listing reach forest places ∧ places.map (·.2) = forest.flatMap (·.nodes reach) := by
  generalize hcount : (forest.flatMap (·.nodes reach)).length = count
  induction count using Nat.strongRecOn generalizing forest with
  | ind count ih =>
    cases forest with
    | nil => exact ⟨[], ⟨.nil, fun path node => by simp [nodeAt?_nil]⟩, rfl⟩
    | cons first rest =>
      have hnodes : (first :: rest).flatMap (·.nodes reach) = first ::
          ((first.children reach).flatMap (·.nodes reach) ++ rest.flatMap (·.nodes reach)) := by
        rw [List.flatMap_cons, first.nodes_eq_cons, List.cons_append]
      rw [hnodes, List.length_cons, List.length_append] at hcount
      obtain ⟨below, hbelow, hbelow'⟩ := ih _ (by omega) (first.children reach) rfl
      obtain ⟨others, hothers, hothers'⟩ := ih _ (by omega) rest rfl
      refine ⟨_, hbelow.cons hothers, ?_⟩
      rw [hnodes, ← hbelow', ← hothers', List.map_cons, List.map_append, List.map_map, List.map_map]
      rfl

end Addresses

/-- A search that has found nothing goes on up to the first node that passes. -/
theorem Search.order_foldl_test (passes : Node → Bool) (nodes : List Node) {search : Search}
    (h : search.found = false) : (nodes.foldl (test passes) search).order =
      search.order ++ (nodes.takeWhile (!passes ·) ++ (nodes.find? passes).toList) := by
  induction nodes generalizing search with
  | nil => simp
  | cons node rest ih =>
    have htest : test passes search node = ⟨passes node, node :: search.tested⟩ := by
      rw [test, if_neg (Bool.eq_false_iff.mp h)]
    have horder (found : Bool) : order ⟨found, node :: search.tested⟩ = search.order ++ [node] :=
      List.reverse_cons
    rw [List.foldl_cons, htest]
    cases hpasses : passes node with
    | true => simp [foldl_test_of_found, horder, hpasses]
    | false =>
      rw [ih rfl, horder]
      simp [hpasses]

/-- A search succeeds exactly if a node at some address within reach passes the test. It tests
the nodes in the order of their addresses, each once, up to the first that passes. -/
theorem Stmt.search_preorder (reach : Reach) (test : Node → Bool) (stmts : List Stmt) :
    ∃ places : List (List Nat × Node),
      (places.map (·.1)).Pairwise (· < ·) ∧
      (∀ path node, (path, node) ∈ places ↔ nodeAt? reach (stmts.map .stmt) path = some node) ∧
      (Stmt.existsNode reach test stmts = true ↔ ∃ place ∈ places, test place.2 = true) ∧
      (Stmt.search reach test stmts).order =
        (places.map (·.2)).takeWhile (!test ·) ++ ((places.map (·.2)).find? test).toList := by
  obtain ⟨places, hplaces, hnodes⟩ := exists_listing reach (stmts.map .stmt)
  have hall : Stmt.nodesAll reach stmts = places.map (·.2) := by
    rw [hnodes, Stmt.nodesAll_eq_flatMap, List.flatMap_map]
    rfl
  refine ⟨places, hplaces.ordered, hplaces.complete, ?_, ?_⟩
  · rw [Stmt.existsNode_eq_any, hall, List.any_map, List.any_eq_true]
    rfl
  · rw [Stmt.search, Stmt.walkAll_eq_foldl (Search.visits_visit reach test), hall,
      Search.order_foldl_test test _ rfl]
    rfl

end StaticInliner
