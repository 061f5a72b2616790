import StaticInliner.Proofs.Hygiene

/-!
What belongs to a function literal alone: its parameters, locals, labels and returns, and what
each of its blocks declares. None of it is changed when a body around the literal is renamed,
rebound or lowered, so the literals of a block are those of the arguments and of the body.
-/
namespace StaticInliner

/-- The labels that a node declares or jumps to. -/
def Node.labels : Node → List String
  | .stmt (.labeled label _) | .stmt (.breakTo (some label)) | .stmt (.continueTo (some label)) =>
    [label]
  | _ => []

/-- The labels that a body declares or jumps to in its own layer. -/
def layerLabels (body : List Stmt) : List String :=
  (Stmt.nodesAll .ownLayer body).flatMap Node.labels

/-- What a statement declares for the list that it stands in: a `var` counts for the whole
function. -/
def Stmt.blockNames : Stmt → List String
  | .var .var _ _ => []
  | .var _ name _ => [name]
  | .function fn => fn.name.toList
  | _ => []

/-- The names that a list of statements declares by `let`, `const` or as functions. -/
def blockNames (stmts : List Stmt) : List String := stmts.flatMap Stmt.blockNames

/-- The names that the lists below a node declare, in the layer of the node. -/
def Node.blocks : Node → List (List String)
  | .stmt (.function _) | .expr _ => []
  | .stmt s => s.bodies.map StaticInliner.blockNames

/-- The names that each list of statements in the own layer of a body declares. -/
def layerBlocks (body : List Stmt) : List (List String) :=
  blockNames body :: (Stmt.nodesAll .ownLayer body).flatMap Node.blocks

/-- What belongs to a function literal alone. -/
structure Interior where
  /-- Bound inside a function expression. The name of a declaration belongs to the layer around
  it. -/
  name : Option String
  params : List String
  locals : List String
  labels : List String
  /-- The names that each list of statements declares, the body itself first. -/
  blocks : List (List String)
  returns : Nat
  deriving DecidableEq, Repr

def FunctionLit.interior (fn : FunctionLit) (name : Option String) : Interior :=
  ⟨name, fn.params, Stmt.declarationsAll fn.body, layerLabels fn.body, layerBlocks fn.body,
    returnCount fn.body⟩

/-- The interior of the literal, if the node is one. -/
def Node.interior : Node → List Interior
  | .expr (.function fn) => [fn.interior fn.name]
  | .stmt (.function fn) => [fn.interior none]
  | _ => []

def Expr.interiors (e : Expr) : List Interior := (e.nodes .nested).flatMap Node.interior

def Stmt.interiors (s : Stmt) : List Interior := (s.nodes .nested).flatMap Node.interior

/-- The interiors of all function literals in a body, those inside others included. -/
def interiorsOf (body : List Stmt) : List Interior :=
  (Stmt.nodesAll .nested body).flatMap Node.interior

theorem interiorsOf_eq_flatMap (body : List Stmt) :
    interiorsOf body = body.flatMap Stmt.interiors := by
  rw [interiorsOf, Stmt.nodesAll_eq_flatMap, List.flatMap_assoc]
  rfl

/-- The interiors of a tree are gathered from its parts. -/
theorem gathers_interiors : Gathers (fun _ => []) Expr.interiors Stmt.interiors where
  parts s hs := by
    have hself : Node.interior (.stmt s) = [] := by
      cases s with
      | function _ => cases hs
      | _ => rfl
    rw [Stmt.interiors, Stmt.nodes_parts .nested hs, List.flatMap_cons, hself, List.nil_append,
      List.flatMap_append, Expr.nodesAll_eq_flatMap, List.flatMap_assoc, List.flatMap_assoc,
      ← funext interiorsOf_eq_flatMap]
    rfl
  assign _ _ := rfl

theorem Stmt.labels_rename (names labels : Renaming) (s : Stmt) (next : IdCounter) :
    Node.labels (.stmt (s.rename names labels next).1) =
      (Node.labels (.stmt s)).map labels.apply := by
  cases s with
  | var _ _ init => cases init <;> rfl
  | function fn => cases fn; rfl
  | ret value => cases value <;> rfl
  | ifElse _ _ elseBranch => cases elseBranch <;> rfl
  | breakTo label | continueTo label => cases label <;> rfl
  | _ => rfl

/-- The labels of a renamed body are renamed. -/
theorem layerLabels_renameAll (names labels : Renaming) (body : List Stmt) (next : IdCounter) :
    layerLabels (Stmt.renameAll names labels body next).1 = (layerLabels body).map labels.apply :=
  Stmt.flatMap_renameAll (fun _ => rfl) (Stmt.labels_rename names labels) body next

theorem returnCount_renameAll (names labels : Renaming) (body : List Stmt) (next : IdCounter) :
    returnCount (Stmt.renameAll names labels body next).1 = returnCount body := by
  let marks (node : Node) : List Unit := if node.isReturn then [()] else []
  have hcount (nodes : List Node) : nodes.countP Node.isReturn = (nodes.flatMap marks).length := by
    induction nodes with
    | nil => rfl
    | cons node rest ih =>
      rw [List.countP_cons, List.flatMap_cons, List.length_append, ih, Nat.add_comm]
      simp only [marks]
      cases node.isReturn <;> rfl
  have hroot (s : Stmt) (next : IdCounter) :
      marks (.stmt (s.rename names labels next).1) = (marks (.stmt s)).map id := by
    cases s with
    | var _ _ init => cases init <;> rfl
    | function fn => cases fn; rfl
    | ret value => cases value <;> rfl
    | ifElse _ _ elseBranch => cases elseBranch <;> rfl
    | _ => rfl
  rw [returnCount_eq, returnCount_eq, hcount, hcount,
    Stmt.flatMap_renameAll (fun _ => rfl) hroot body next, List.length_map]

/-- So are the names that its lists declare. -/
theorem blockNames_renameAll (names labels : Renaming) (stmts : List Stmt) (next : IdCounter) :
    blockNames (Stmt.renameAll names labels stmts next).1 = (blockNames stmts).map names.apply := by
  have hstmt (s : Stmt) (next : IdCounter) :
      (s.rename names labels next).1.blockNames = s.blockNames.map names.apply := by
    cases s with
    | var kind _ init => cases kind <;> cases init <;> rfl
    | function fn =>
      obtain ⟨_, name, _, _⟩ := fn
      cases name <;> rfl
    | ret value => cases value <;> rfl
    | ifElse _ _ elseBranch => cases elseBranch <;> rfl
    | _ => rfl
  rw [blockNames, blockNames, List.map_flatMap]
  refine flatMap_eq_of_forall₂ ((Stmt.forall₂_renameAll names labels stmts next).imp ?_)
  rintro s s' ⟨next, rfl⟩
  exact hstmt s next

theorem Node.blocks_rename (names labels : Renaming) (s : Stmt) (next : IdCounter) :
    Node.blocks (.stmt (s.rename names labels next).1) =
      (Node.blocks (.stmt s)).map (·.map names.apply) := by
  cases s with
  | var _ _ init => cases init <;> rfl
  | function fn => cases fn; rfl
  | ret value => cases value <;> rfl
  | ifElse _ _ elseBranch =>
    cases elseBranch <;> simp [Stmt.rename, Node.blocks, Stmt.bodies, blockNames_renameAll]
  | whileDo _ _ | block _ | labeled _ _ =>
    simp [Stmt.rename, Node.blocks, Stmt.bodies, blockNames_renameAll]
  | _ => rfl

/-- The lists of a renamed body declare the renamed names. -/
theorem layerBlocks_renameAll (names labels : Renaming) (body : List Stmt) (next : IdCounter) :
    layerBlocks (Stmt.renameAll names labels body next).1 =
      (layerBlocks body).map (·.map names.apply) := by
  rw [layerBlocks, layerBlocks, List.map_cons, blockNames_renameAll,
    Stmt.flatMap_renameAll (fun _ => rfl) (Node.blocks_rename names labels) body next]

section Declared

/-- The lists below a statement, in the layer of the statement. -/
def Stmt.blocks (s : Stmt) : List (List String) := (s.nodes .ownLayer).flatMap Node.blocks

/-- The body itself is the first of its lists. -/
theorem layerBlocks_eq (body : List Stmt) :
    layerBlocks body = blockNames body :: body.flatMap Stmt.blocks := by
  rw [layerBlocks, Stmt.nodesAll_eq_flatMap, List.flatMap_assoc]
  rfl

theorem layerBlocks_inj {first second : List Stmt} : layerBlocks first = layerBlocks second ↔
    blockNames first = blockNames second ∧ first.flatMap Stmt.blocks =
      second.flatMap Stmt.blocks := by
  rw [layerBlocks_eq, layerBlocks_eq, List.cons_eq_cons]

theorem Stmt.blocks_function (fn : FunctionLit) : (Stmt.function fn).blocks = [] := by
  cases fn
  rfl

theorem Stmt.blocks_parts {s : Stmt} (h : s.function? = none) : s.blocks =
    s.bodies.map StaticInliner.blockNames ++ s.bodies.flatMap (·.flatMap Stmt.blocks) := by
  have hself : Node.blocks (.stmt s) = s.bodies.map StaticInliner.blockNames := by
    cases s with
    | function _ => cases h
    | _ => rfl
  rw [blocks, Stmt.flatMap_nodes_parts (fun _ => rfl) h, hself]
  refine congrArg _ (List.flatMap_congr fun body _ => ?_)
  rw [Stmt.nodesAll_eq_flatMap, List.flatMap_assoc]
  rfl

/-- What a node declares for the list that it stands in. -/
def Node.blockNames : Node → List String
  | .stmt s => s.blockNames
  | .expr _ => []

/-- The names that are declared by `let`, `const` or as functions in the own layer of a body,
as often as they are declared. -/
def layerNames (body : List Stmt) : List String :=
  (Stmt.nodesAll .ownLayer body).flatMap Node.blockNames

/-- What is found at the statements of a list is found at the nodes below it. -/
theorem Stmt.flatMap_sublist {α : Type} (found : Node → List α) (stmts : List Stmt) :
    (stmts.flatMap fun s => found (.stmt s)).Sublist
      ((Stmt.nodesAll .ownLayer stmts).flatMap found) := by
  have hstmt (s : Stmt) : (found (.stmt s)).Sublist ((s.nodes .ownLayer).flatMap found) :=
    List.sublist_flatten_of_mem (List.mem_map_of_mem (s.self_mem_nodes .ownLayer))
  rw [Stmt.nodesAll_eq_flatMap, List.flatMap_assoc]
  induction stmts with
  | nil => exact List.Sublist.refl _
  | cons s rest ih =>
    rw [List.flatMap_cons, List.flatMap_cons]
    exact (hstmt s).append ih

theorem blockNames_sublist (stmts : List Stmt) : (blockNames stmts).Sublist (layerNames stmts) :=
  Stmt.flatMap_sublist Node.blockNames stmts

/-- The names of a body that stands below a statement. -/
theorem Stmt.layerNames_sublist {s : Stmt} (h : s.function? = none) {body : List Stmt}
    (hbody : body ∈ s.bodies) :
    (layerNames body).Sublist ((s.nodes .ownLayer).flatMap Node.blockNames) := by
  rw [Stmt.flatMap_nodes_parts (fun _ => rfl) h]
  refine List.Sublist.trans ?_ (List.sublist_append_right _ _)
  exact List.sublist_flatten_of_mem (List.mem_map_of_mem hbody)

theorem Stmt.nodes_sublist {s : Stmt} {stmts : List Stmt} (h : s ∈ stmts) :
    (s.nodes .ownLayer).Sublist (Stmt.nodesAll .ownLayer stmts) := by
  rw [Stmt.nodesAll_eq_flatMap]
  exact List.sublist_flatten_of_mem (List.mem_map_of_mem h)

theorem Stmt.blocks_sublist (s : Stmt) :
    ∀ block ∈ s.blocks, block.Sublist ((s.nodes .ownLayer).flatMap Node.blockNames) := by
  induction s using Stmt.byBodies with
  | statement s ih =>
    intro block hblock
    cases hfn : s.function? with
    | some fn =>
      obtain rfl := Stmt.eq_function hfn
      rw [Stmt.blocks_function] at hblock
      cases hblock
    | none =>
      rw [Stmt.blocks_parts hfn, List.mem_append] at hblock
      rcases hblock with hblock | hblock
      · -- a list right below the statement
        obtain ⟨body, hbody, rfl⟩ := List.mem_map.mp hblock
        exact (blockNames_sublist body).trans (Stmt.layerNames_sublist hfn hbody)
      · obtain ⟨body, hbody, hblock⟩ := List.mem_flatMap.mp hblock
        obtain ⟨inner, hinner, hblock⟩ := List.mem_flatMap.mp hblock
        exact ((ih body hbody inner hinner block hblock).trans
          ((Stmt.nodes_sublist hinner).flatMap _)).trans (Stmt.layerNames_sublist hfn hbody)

/-- What a list declares is declared in the layer. -/
theorem layerBlocks_sublist {body : List Stmt} :
    ∀ block ∈ layerBlocks body, block.Sublist (layerNames body) := by
  rw [layerBlocks_eq, List.forall_mem_cons]
  refine ⟨blockNames_sublist body, fun block hblock => ?_⟩
  obtain ⟨s, hs, hblock⟩ := List.mem_flatMap.mp hblock
  exact (s.blocks_sublist block hblock).trans ((Stmt.nodes_sublist hs).flatMap _)

theorem layerNames_subset (body : List Stmt) : layerNames body ⊆ Stmt.declarationsAll body := by
  have hnode (node : Node) : node.blockNames ⊆ node.declared := by
    cases node with
    | expr _ => exact List.nil_subset _
    | stmt s =>
      cases s with
      | var kind _ _ => cases kind <;> simp [Node.blockNames, Stmt.blockNames, Node.declared]
      | function _ => exact List.Subset.refl _
      | _ => exact List.nil_subset _
  rw [Stmt.declarationsAll_eq]
  intro name hname
  obtain ⟨node, hmem, hname⟩ := List.mem_flatMap.mp hname
  exact List.mem_flatMap.mpr ⟨node, hmem, hnode node hname⟩

end Declared

/-- A literal inside a renamed body, in which its own names are left alone. -/
theorem FunctionLit.interior_rename (names : Renaming) {shadowed params : List String}
    {body : List Stmt} (h : declaredNames params body ⊆ shadowed) {name name' own : Option String}
    {id id' : Nat}
    {next : IdCounter} :
    FunctionLit.interior ⟨id', name', params, (Stmt.renameAll (names.without shadowed) [] body
      next).1⟩ own = FunctionLit.interior ⟨id, name, params, body⟩ own := by
  have hkept {list : List String} (hlist : list ⊆ Stmt.declarationsAll body) :
      list.map (names.without shadowed).apply = list := by
    refine (List.map_congr_left fun name hname => ?_).trans (List.map_id _)
    rw [Renaming.apply_without, if_pos (h (mem_declaredNames.mpr (.inr (hlist hname))))]
    rfl
  have hlabels : (layerLabels body).map (Renaming.apply []) = layerLabels body := List.map_id _
  have hblocks : (layerBlocks body).map (·.map (names.without shadowed).apply) = layerBlocks body :=
    (List.map_congr_left fun block hblock => hkept
      (List.Subset.trans (layerBlocks_sublist block hblock).subset (layerNames_subset body))).trans
        (List.map_id _)
  simp only [interior, Stmt.declarationsAll_renameAll, layerLabels_renameAll, layerBlocks_renameAll,
    returnCount_renameAll, hkept (List.Subset.refl _), hlabels, hblocks]

/-- Renaming a body changes nothing that belongs to a literal in it. -/
theorem interiorsOf_renameAll (names labels : Renaming) (body : List Stmt) (next : IdCounter) :
    interiorsOf (Stmt.renameAll names labels body next).1 = interiorsOf body := by
  refine flatMap_eq_of_forall₂ (Stmt.forall₂_nodesAll_rename
    (R := fun _ _ node node' => node'.interior = node.interior)
    (fun names _ e _ => ?_) (fun names _ s _ => ?_) (fun _ _ _ _ _ _ h => h) names labels body next)
  · cases e with
    | function fn =>
      obtain ⟨id, name, params, body⟩ := fn
      exact congrArg (· :: []) (FunctionLit.interior_rename names (List.subset_append_left _ _))
    | _ => rfl
  · cases s with
    | function fn =>
      obtain ⟨id, name, params, body⟩ := fn
      exact congrArg (· :: []) (FunctionLit.interior_rename names (List.Subset.refl _))
    | var _ _ init => cases init <;> rfl
    | ret value => cases value <;> rfl
    | ifElse _ _ elseBranch => cases elseBranch <;> rfl
    | _ => rfl

end StaticInliner
