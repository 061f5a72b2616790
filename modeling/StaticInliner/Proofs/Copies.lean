import StaticInliner.Proofs.Marks

/-!
Copied bodies. Renaming numbers the function literals of a copy one after another
and declares the new names of what the body declares; rebinding and lowering keep
the literals and declare nothing else.
-/
namespace StaticInliner

section Numbering

namespace IdCounter

/-- The counter after a number of draws. -/
def advance (counter : IdCounter) (count : Nat) : IdCounter := ⟨counter.next + .ofNat count⟩

/-- The ids of a number of draws. -/
def drawn (counter : IdCounter) : Nat → List Nat
  | 0 => []
  | count + 1 => counter.draw.1 :: counter.draw.2.drawn count

theorem advance_zero (counter : IdCounter) : counter.advance 0 = counter :=
  congrArg mk (UInt32.add_zero _)

theorem advance_advance (counter : IdCounter) (first second : Nat) :
    (counter.advance first).advance second = counter.advance (first + second) := by
  simp only [advance, UInt32.ofNat_add, UInt32.add_assoc]

theorem advance_ofNat (next count : Nat) : (ofNat next).advance count = ofNat (next + count) :=
  congrArg mk (UInt32.ofNat_add next count).symm

/-- Draws are made one after another. -/
theorem drawn_add (counter : IdCounter) (first second : Nat) :
    counter.drawn (first + second) = counter.drawn first ++
      (counter.advance first).drawn second := by
  induction first generalizing counter with
  | zero => rw [Nat.zero_add, advance_zero, drawn, List.nil_append]
  | succ first ih =>
    have hstep : counter.draw.2.advance first = counter.advance (first + 1) := by
      rw [Nat.add_comm first, ← advance_advance]
      rfl
    rw [Nat.add_right_comm, drawn, ih, hstep, drawn, List.cons_append]

/-- The ids of a number of draws, as they would be without a limit, stay below `2 ^ 32`. -/
def Fits (next count : Nat) : Prop := count = 0 ∨ next + count ≤ UInt32.size

instance (next count : Nat) : Decidable (Fits next count) := inferInstanceAs (Decidable (_ ∨ _))

/-- Draws that fit together fit one after another. -/
theorem Fits.split {next first second : Nat} (h : Fits next (first + second)) :
    Fits next first ∧ Fits (next + first) second := by
  unfold Fits at h ⊢
  omega

/-- As long as they fit into 32 bits, the ids follow each other. -/
theorem drawn_ofNat {next count : Nat} (h : Fits next count) :
    (ofNat next).drawn count = List.range' next count := by
  unfold Fits UInt32.size at h
  induction count generalizing next with
  | zero => rfl
  | succ count ih =>
    have hlt : next < UInt32.size := by
      rw [UInt32.size]
      omega
    have hfirst : (ofNat next).draw.1 = next := UInt32.toNat_ofNat_of_lt' hlt
    have hrest : (ofNat next).draw.2 = ofNat (next + 1) := advance_ofNat next 1
    rw [drawn, hfirst, hrest, ih (by omega), List.range'_succ]

end IdCounter

/-- The functions among the nodes have the ids that are drawn from `next`, and the counter is
then at `after`. -/
structure Numbered (next : IdCounter) (nodes : List Node) (after : IdCounter) : Prop where
  ids : functionIds nodes = next.drawn (functionIds nodes).length
  counter : after = next.advance (functionIds nodes).length

namespace Numbered

variable {next middle after : IdCounter} {first second nodes : List Node}

theorem nil (next : IdCounter) : Numbered next [] next := ⟨rfl, next.advance_zero.symm⟩

/-- Nodes numbered one after another. -/
theorem append (h : Numbered next first middle) (h' : Numbered middle second after) :
    Numbered next (first ++ second) after where
  ids := by
    rw [functionIds_append, List.length_append, IdCounter.drawn_add, ← h.counter, ← h.ids, ← h'.ids]
  counter := by
    rw [functionIds_append, List.length_append, ← IdCounter.advance_advance, ← h.counter,
      ← h'.counter]

theorem cons {node : Node} (hnode : node.function? = none) (h : Numbered next nodes after) :
    Numbered next (node :: nodes) after := by
  constructor <;> rw [functionIds_cons_of_none hnode]
  exacts [h.ids, h.counter]

/-- A function has its number before those in it. -/
theorem function {node : Node} {fn : FunctionLit} (hfn : node.function? = some fn)
    (hid : fn.id = next.draw.1) (h : Numbered next.draw.2 nodes after) :
    Numbered next (node :: nodes) after := by
  have hown : functionIds [node] = [next.draw.1] := by
    simp [functionIds, Node.functionIds, hfn, hid]
  have hhead : Numbered next [node] next.draw.2 := by
    constructor <;> rw [hown] <;> rfl
  exact hhead.append h

end Numbered

mutual

/-- A renamed copy is numbered in pre-order from the counter. -/
theorem Expr.numbered_rename : ∀ (names : Renaming) (e : Expr) (next : IdCounter),
    Numbered next ((e.rename names next).1.nodes .nested) (e.rename names next).2
  | _, .undefined, next | _, .null, next | _, .bool _, next | _, .number _, next
  | _, .string _, next | _, .this, next | _, .ident _, next => by
    simp only [Expr.rename, Expr.nodes]
    exact .cons rfl (.nil next)
  | names, .member e _, next | names, .unary _ e, next => by
    simp only [Expr.rename, Expr.nodes]
    exact .cons rfl (e.numbered_rename names next)
  | names, .index left right, next | names, .assign left _ right, next
  | names, .binary _ left right, next | names, .logical _ left right, next => by
    simp only [Expr.rename, Expr.nodes]
    exact .cons rfl ((left.numbered_rename names next).append (right.numbered_rename names _))
  | names, .conditional condition thenExpr elseExpr, next => by
    simp only [Expr.rename, Expr.nodes]
    exact .cons rfl (((condition.numbered_rename names next).append
      (thenExpr.numbered_rename names _)).append (elseExpr.numbered_rename names _))
  | names, .call callee args, next | names, .new callee args, next => by
    simp only [Expr.rename, Expr.nodes]
    exact .cons rfl ((callee.numbered_rename names next).append
      (Expr.numbered_renameAll names args _))
  | names, .sequence items, next | names, .array items, next => by
    simp only [Expr.rename, Expr.nodes]
    exact .cons rfl (Expr.numbered_renameAll names items next)
  | names, .function ⟨_, name, params, body⟩, next => by
    simp only [Expr.rename, Expr.nodes]
    exact .function rfl rfl (Stmt.numbered_renameAll _ [] body next.draw.2)

theorem Expr.numbered_renameAll : ∀ (names : Renaming) (es : List Expr) (next : IdCounter),
    Numbered next (Expr.nodesAll .nested (Expr.renameAll names es next).1)
      (Expr.renameAll names es next).2
  | _, [], next => .nil next
  | names, e :: rest, next => by
    simp only [Expr.renameAll, Expr.nodesAll]
    exact (e.numbered_rename names next).append (Expr.numbered_renameAll names rest _)

/-- The same for a statement. -/
theorem Stmt.numbered_rename : ∀ (names labels : Renaming) (s : Stmt) (next : IdCounter),
    Numbered next ((s.rename names labels next).1.nodes .nested) (s.rename names labels next).2
  | _, _, .var _ _ none, next | _, _, .ret none, next | _, _, .breakTo _, next
  | _, _, .continueTo _, next => by
    simp only [Stmt.rename, Stmt.nodes]
    exact .cons rfl (.nil next)
  | names, _, .var _ _ (some e), next | names, _, .ret (some e), next | names, _, .expr e, next
  | names, _, .throw e, next => by
    simp only [Stmt.rename, Stmt.nodes]
    exact .cons rfl (e.numbered_rename names next)
  | names, _, .function ⟨_, name, params, body⟩, next => by
    simp only [Stmt.rename, Stmt.nodes]
    exact .function rfl rfl (Stmt.numbered_renameAll _ [] body next.draw.2)
  | names, labels, .ifElse condition body none, next
  | names, labels, .whileDo condition body, next => by
    simp only [Stmt.rename, Stmt.nodes]
    exact .cons rfl ((condition.numbered_rename names next).append
      (Stmt.numbered_renameAll names labels body _))
  | names, labels, .ifElse condition thenBranch (some elseBranch), next => by
    simp only [Stmt.rename, Stmt.nodes]
    exact .cons rfl (((condition.numbered_rename names next).append
      (Stmt.numbered_renameAll names labels thenBranch _)).append
      (Stmt.numbered_renameAll names labels elseBranch _))
  | names, labels, .block body, next | names, labels, .labeled _ body, next => by
    simp only [Stmt.rename, Stmt.nodes]
    exact .cons rfl (Stmt.numbered_renameAll names labels body next)

/-- The functions of a copy have the ids that the counter passed. -/
theorem Stmt.numbered_renameAll :
    ∀ (names labels : Renaming) (stmts : List Stmt) (next : IdCounter),
    Numbered next (Stmt.nodesAll .nested (Stmt.renameAll names labels stmts next).1)
      (Stmt.renameAll names labels stmts next).2
  | _, _, [], next => .nil next
  | names, labels, s :: rest, next => by
    simp only [Stmt.renameAll, Stmt.nodesAll]
    exact (s.numbered_rename names labels next).append (Stmt.numbered_renameAll names labels rest _)

end

/-- A copy has as many function literals as the body. -/
theorem Stmt.length_functionIds_renameAll (names labels : Renaming) (stmts : List Stmt)
    (next : IdCounter) :
    (functionIds (Stmt.nodesAll .nested (Stmt.renameAll names labels stmts next).1)).length =
      (functionIds (Stmt.nodesAll .nested stmts)).length := by
  let found (node : Node) : List Unit := node.functionIds.map fun _ => ()
  have hfound : (Stmt.nodesAll .nested (Stmt.renameAll names labels stmts next).1).flatMap found =
      (Stmt.nodesAll .nested stmts).flatMap found := by
    refine flatMap_eq_of_forall₂ (Stmt.forall₂_nodesAll_rename
      (R := fun _ _ node node' => found node' = found node) (fun _ _ e _ => ?_) (fun _ _ s _ => ?_)
      (fun _ _ _ _ _ _ h => h) names labels stmts next)
    · cases e with
      | function fn => cases fn; rfl
      | _ => rfl
    · cases s with
      | function fn => cases fn; rfl
      | var _ _ init => cases init <;> rfl
      | ret value => cases value <;> rfl
      | ifElse _ _ elseBranch => cases elseBranch <;> rfl
      | _ => rfl
  have hlength := congrArg List.length hfound
  simp only [found, ← List.map_flatMap, List.length_map] at hlength
  exact hlength

end Numbering

section Literals

variable {α : Type} {found : Node → List α}

/-- What is looked for is not at variables, assignments and jumps, which lowering adds and
removes, nor at statements with others below them. -/
structure Node.Lasting (found : Node → List α) : Prop where
  stmt : ∀ s : Stmt, s.function? = none → found (.stmt s) = []
  ident : ∀ name, found (.expr (.ident name)) = []
  assign : ∀ target op value, found (.expr (.assign target op value)) = []

/-- As much is found at some nodes as at others, or less. -/
abbrev Fewer (found : Node → List α) (nodes nodes' : List Node) : Prop :=
  (nodes.flatMap found).Sublist (nodes'.flatMap found)

theorem Fewer.append {first first' second second' : List Node} (h : Fewer found first first')
    (h' : Fewer found second second') : Fewer found (first ++ second) (first' ++ second') := by
  rw [Fewer, List.flatMap_append, List.flatMap_append]
  exact List.Sublist.append h h'

theorem Fewer.cons_left {node : Node} {nodes nodes' : List Node} (hnode : found node = [])
    (h : Fewer found nodes nodes') : Fewer found (node :: nodes) nodes' := by
  rwa [Fewer, List.flatMap_cons, hnode, List.nil_append]

section Rewriting

variable (hfound : Node.Lasting found)
include hfound

theorem bodywise_fewer : Bodywise fun body body' =>
    Fewer found (Stmt.nodesAll .nested body') (Stmt.nodesAll .nested body) := by
  refine bodywise_nodes (Q := fun nodes nodes' => Fewer found nodes' nodes)
    (fun _ => List.Sublist.refl _)
    (fun h h' => h.append h') fun {s} bodies hs => ?_
  exact .cons_left
    (hfound.stmt _ (Stmt.function?_compound ((s.isSimple_withParts bodies).trans hs)))
    (List.nil_sublist _)

/-- Nothing is found at an assignment to a variable but in its value. -/
theorem Fewer.assign {s : Stmt} {value : Expr}
    (hs : s.nodes .nested = .stmt s :: value.nodes .nested) (name : String) :
    Fewer found (Stmt.nodesAll .nested [.assign name value]) (Stmt.nodesAll .nested [s]) := by
  rw [Stmt.nodesAll_singleton, Stmt.nodesAll_singleton, hs]
  simp only [Stmt.assign, Stmt.nodes, Expr.nodes, List.singleton_append]
  refine .cons_left (hfound.stmt _ rfl)
    (.cons_left (hfound.assign _ _ _) (.cons_left (hfound.ident _) ?_))
  rw [Fewer, List.flatMap_cons]
  exact List.sublist_append_right _ _

/-- Declaring variables elsewhere adds nothing that lasts. -/
theorem Stmt.fewer_rebind (hoisted inPlace : List String) (body : List Stmt) :
    Fewer found (Stmt.nodesAll .nested (Stmt.demoteAll hoisted (body.map (·.promote inPlace))))
      (Stmt.nodesAll .nested body) := by
  have hdemoted := (bodywise_fewer hfound).demoteAll hoisted (fun _ _ => List.nil_sublist _)
    (fun name _ _ => Fewer.assign hfound rfl name) (body.map (·.promote inPlace))
  refine hdemoted.trans ((bodywise_fewer hfound).promoteAll (fun name init => ?_) inPlace body)
  have hkept (kind : VarKind) : found (.stmt (.var kind name init)) = [] := hfound.stmt _ rfl
  cases init <;> simp [Fewer, Stmt.nodesAll, Stmt.nodes, hkept]

/-- Nor does lowering the returns. -/
theorem Block.fewer_lower (result : String) (label : Option String) (trailing : Bool)
    (body : List Stmt) :
    Fewer found (Stmt.nodesAll .nested (Block.lower result label trailing body))
      (Stmt.nodesAll .nested body) := by
  have hjump (target : String) :
      (Stmt.nodesAll .nested [.breakTo (some target)]).flatMap found = [] := by
    rw [Stmt.nodesAll_singleton, Stmt.nodes, List.flatMap_singleton]
    exact hfound.stmt _ rfl
  refine (bodywise_fewer hfound).lower (fun target _ => ?_) (fun target _ value => ?_)
    (fun value => Fewer.assign hfound rfl result) fun _ _ _ _ => List.nil_sublist _
  · rw [Fewer, hjump]
    exact List.nil_sublist _
  · rw [Stmt.nodesAll_append, Fewer, List.flatMap_append, hjump, List.append_nil]
    exact Fewer.assign hfound rfl result

end Rewriting

theorem Node.lasting_functionIds : Node.Lasting Node.functionIds where
  stmt s h := by rw [Node.functionIds, Stmt.function?_node, h]; rfl
  ident _ := rfl
  assign _ _ _ := rfl

end Literals

section Declared

/-- A copy declares the new names of what the body declares. -/
theorem Stmt.declarationsAll_renameAll (names labels : Renaming) (stmts : List Stmt)
    (next : IdCounter) :
    Stmt.declarationsAll (Stmt.renameAll names labels stmts next).1 =
      (Stmt.declarationsAll stmts).map names.apply := by
  rw [Stmt.declarationsAll_eq, Stmt.declarationsAll_eq]
  refine Stmt.flatMap_renameAll (fun _ => rfl) (fun s next => ?_) stmts next
  cases s with
  | var _ _ init => cases init <;> rfl
  | function fn =>
    obtain ⟨_, name, _, _⟩ := fn
    cases name <;> rfl
  | ret value => cases value <;> rfl
  | ifElse _ _ elseBranch => cases elseBranch <;> rfl
  | _ => rfl

theorem Stmt.declarationsAll_append (first second : List Stmt) :
    Stmt.declarationsAll (first ++ second) =
      Stmt.declarationsAll first ++ Stmt.declarationsAll second := by
  induction first with
  | nil => rfl
  | cons s rest ih => rw [List.cons_append, Stmt.declarationsAll, ih, Stmt.declarationsAll,
      List.append_assoc]

theorem Stmt.declared_compound {s : Stmt} (h : s.isSimple = false) :
    Node.declared (.stmt s) = [] := by
  cases s with
  | var _ _ _ | function _ => cases h
  | _ => rfl

/-- Rewriting bodies adds no declarations around them. -/
theorem bodywise_declarations : Bodywise fun body body' =>
    Stmt.declarationsAll body' ⊆ Stmt.declarationsAll body := by
  simp only [Stmt.declarationsAll_eq]
  refine bodywise_nodes (Q := fun nodes nodes' => nodes'.flatMap Node.declared ⊆
    nodes.flatMap Node.declared)
    (fun _ => List.Subset.refl _) (fun h h' => ?_) fun {s} bodies hs => ?_
  · rw [List.flatMap_append, List.flatMap_append]
    exact append_subset_append h h'
  · rw [List.flatMap_singleton, Stmt.declared_compound ((s.isSimple_withParts bodies).trans hs)]
    exact List.nil_subset _

theorem Stmt.declarationsAll_rebind (hoisted inPlace : List String) (body : List Stmt) :
    Stmt.declarationsAll (Stmt.demoteAll hoisted (body.map (·.promote inPlace))) ⊆
      Stmt.declarationsAll body :=
  List.Subset.trans (bodywise_declarations.demoteAll hoisted (fun _ _ => List.nil_subset _)
    (fun _ _ _ => List.nil_subset _) _)
      (bodywise_declarations.promoteAll (fun _ _ => List.Subset.refl _) _ _)

theorem Block.declarationsAll_lower (result : String) (label : Option String) (trailing : Bool)
    (body : List Stmt) :
    Stmt.declarationsAll (Block.lower result label trailing body) ⊆ Stmt.declarationsAll body :=
  bodywise_declarations.lower (fun _ _ => List.nil_subset _) (fun _ _ _ => List.nil_subset _)
    (fun _ => List.nil_subset _) fun _ _ _ _ => List.nil_subset _

end Declared

end StaticInliner
