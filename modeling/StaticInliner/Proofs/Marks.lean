import StaticInliner.Proofs.Analysis
import StaticInliner.Proofs.Rewriting

/-!
Names, labels, jumps and returns that appear in code, and where those of rewritten
code come from. A renamed body has no others than the original, up to the
renaming; rebinding and lowering add nothing but the result variable and its label.
-/
namespace StaticInliner

/-- Something that appears at a node itself. -/
inductive Mark where
  | name (name : String)
  | label (label : String)
  | target (label : String)
  | returns

def Node.marks : Node → List Mark
  | .expr (.ident name) | .stmt (.var _ name _) => [.name name]
  | .stmt (.function fn) | .expr (.function fn) => (fn.name.toList ++ fn.params).map .name
  | .stmt (.labeled label _) => [.label label]
  | .stmt (.breakTo (some label)) | .stmt (.continueTo (some label)) => [.target label]
  | .stmt (.ret _) => [.returns]
  | _ => []

/-- Every entry of the second list comes from one of the first. -/
def Traced (R : α → β → Prop) (xs : List α) (ys : List β) : Prop := ∀ y ∈ ys, ∃ x ∈ xs, R x y

namespace Traced

variable {R : α → β → Prop} {xs xs' : List α} {ys ys' : List β}

theorem nil : Traced R xs [] := nofun

theorem append (h : Traced R xs ys) (h' : Traced R xs' ys') : Traced R (xs ++ xs') (ys ++ ys') := by
  intro y hy
  rcases List.mem_append.mp hy with hy | hy
  · obtain ⟨x, hx, hR⟩ := h y hy
    exact ⟨x, List.mem_append_left _ hx, hR⟩
  · obtain ⟨x, hx, hR⟩ := h' y hy
    exact ⟨x, List.mem_append_right _ hx, hR⟩

theorem cons {x : α} {y : β} (hxy : R x y) (h : Traced R xs ys) : Traced R (x :: xs) (y :: ys) := by
  intro z hz
  rcases List.mem_cons.mp hz with rfl | hz
  · exact ⟨x, List.mem_cons_self, hxy⟩
  · obtain ⟨w, hw, hR⟩ := h z hz
    exact ⟨w, List.mem_cons_of_mem _ hw, hR⟩

theorem mono {S : α → β → Prop} (h : Traced R xs ys) (hRS : ∀ x y, R x y → S x y) :
    Traced S xs ys := by
  intro y hy
  obtain ⟨x, hx, hR⟩ := h y hy
  exact ⟨x, hx, hRS x y hR⟩

end Traced

/-- The marks of the second node come from marks of the first. -/
def Node.Traces (R : Mark → Mark → Prop) (node node' : Node) : Prop :=
  Traced R node.marks node'.marks

/-- The marks of a list of nodes. -/
def marksOf (nodes : List Node) : List Mark := nodes.flatMap Node.marks

/-- Traced nodes have traced marks. -/
theorem Traced.marks {R : Mark → Mark → Prop} {nodes nodes' : List Node}
    (h : Traced (Node.Traces R) nodes nodes') : Traced R (marksOf nodes) (marksOf nodes') := by
  intro mark' hmark'
  obtain ⟨node', hnode', hmark'⟩ := List.mem_flatMap.mp hmark'
  obtain ⟨node, hnode, htraces⟩ := h node' hnode'
  obtain ⟨mark, hmark, hR⟩ := htraces mark' hmark'
  exact ⟨mark, List.mem_flatMap.mpr ⟨node, hnode, hmark⟩, hR⟩

theorem marksOf_cons (node : Node) (nodes : List Node) :
    marksOf (node :: nodes) = node.marks ++ marksOf nodes := List.flatMap_cons

theorem marksOf_append (first second : List Node) :
    marksOf (first ++ second) = marksOf first ++ marksOf second := List.flatMap_append

/-- The marks of an expression are names. -/
theorem Expr.exists_name_of_mem_marksOf {e : Expr} {mark : Mark}
    (h : mark ∈ marksOf (e.nodes .ownLayer)) : ∃ name, mark = .name name := by
  obtain ⟨node, hnode, hmark⟩ := List.mem_flatMap.mp h
  obtain ⟨e', rfl⟩ := e.isExpr_of_mem_nodes node hnode
  cases e' with
  | ident name => exact ⟨name, List.mem_singleton.mp hmark⟩
  | function fn =>
    obtain ⟨name, -, rfl⟩ := List.mem_map.mp hmark
    exact ⟨name, rfl⟩
  | _ => cases hmark

/-- The written names are the names and the declared labels. -/
theorem Node.mem_written {node : Node} {name : String} :
    name ∈ node.written ↔ .name name ∈ node.marks ∨ .label name ∈ node.marks := by
  cases node with
  | expr e => cases e <;> simp [Node.written, Node.marks]
  | stmt s =>
    cases s with
    | breakTo label | continueTo label => cases label <;> simp [Node.written, Node.marks]
    | _ => simp [Node.written, Node.marks]

section Returns

variable {body init : List Stmt}

def Node.isReturn : Node → Bool
  | .stmt (.ret _) => true
  | _ => false

/-- Returns are counted in the own layer. -/
theorem returnCount_eq (body : List Stmt) :
    returnCount body = (Stmt.nodesAll .ownLayer body).countP Node.isReturn := by
  rw [returnCount, Stmt.foldNodes_eq_foldl, foldl_count Node.isReturn, Nat.zero_add]
  intro count node
  unfold Node.isReturn
  split <;> simp_all

theorem returns_notMem_marksOf (h : returnCount body = 0) :
    .returns ∉ marksOf (Stmt.nodesAll .ownLayer body) := by
  rw [returnCount_eq, List.countP_eq_zero] at h
  intro hmem
  obtain ⟨node, hnode, hmark⟩ := List.mem_flatMap.mp hmem
  refine h node hnode ?_
  unfold Node.marks at hmark
  split at hmark <;> simp_all [Node.isReturn]

theorem returnCount_concat (value : Option Expr) :
    returnCount (init ++ [Stmt.ret value]) = returnCount init + 1 := by
  rw [returnCount_eq, returnCount_eq, Stmt.nodesAll_append, List.countP_append]
  congr 1
  cases value with
  | none => rfl
  | some e =>
    have hnone : (e.nodes .ownLayer).countP Node.isReturn = 0 := by
      rw [List.countP_eq_zero]
      intro node hnode
      obtain ⟨_, rfl⟩ := e.isExpr_of_mem_nodes node hnode
      exact nofun
    rw [Stmt.nodesAll, Stmt.nodes, Stmt.nodesAll, List.append_nil, List.countP_cons, hnone]
    rfl

end Returns

section Renaming

/-- A mark and what a renaming makes of it; inside a function it may be kept. -/
inductive Mark.Renames (names labels : Renaming) : Mark → Mark → Prop
  | kept (mark : Mark) : Renames names labels mark mark
  | name {old new : String} (h : (old, new) ∈ names) : Renames names labels (.name old) (.name new)
  | label {old new : String} (h : (old, new) ∈ labels) :
    Renames names labels (.label old) (.label new)
  | target {old new : String} (h : (old, new) ∈ labels) :
    Renames names labels (.target old) (.target new)

/-- A larger renaming explains the same marks. -/
theorem Mark.Renames.mono {names names' labels labels' : Renaming} {mark mark' : Mark}
    (h : Mark.Renames names labels mark mark') (hnames : names ⊆ names')
    (hlabels : labels ⊆ labels') : Mark.Renames names' labels' mark mark' := by
  cases h with
  | kept => exact .kept _
  | name h => exact .name (hnames h)
  | label h => exact .label (hlabels h)
  | target h => exact .target (hlabels h)

theorem Renaming.apply_eq_or_mem (names : Renaming) (name : String) :
    names.apply name = name ∨ (name, names.apply name) ∈ names := by
  induction names with
  | nil => exact .inl rfl
  | cons entry rest ih =>
    obtain ⟨old, new⟩ := entry
    rw [Renaming.apply, List.lookup_cons] at *
    by_cases h : name = old
    · subst h
      simp
    · rw [beq_eq_false_iff_ne.mpr h]
      exact ih.imp_right (List.mem_cons_of_mem _)

variable (names labels : Renaming)

theorem Mark.Renames.apply (name : String) :
    Mark.Renames names labels (.name name) (.name (names.apply name)) := by
  rcases names.apply_eq_or_mem name with h | h
  · rw [h]
    exact .kept _
  · exact .name h

theorem Mark.Renames.applyLabel (label : String) :
    Mark.Renames names labels (.label label) (.label (labels.apply label)) := by
  rcases labels.apply_eq_or_mem label with h | h
  · rw [h]
    exact .kept _
  · exact .label h

theorem Mark.Renames.applyTarget (label : String) :
    Mark.Renames names labels (.target label) (.target (labels.apply label)) := by
  rcases labels.apply_eq_or_mem label with h | h
  · rw [h]
    exact .kept _
  · exact .target h

theorem Renaming.without_subset (shadowed : List String) : names.without shadowed ⊆ names :=
  List.filter_sublist.subset

theorem Traced.refl {R : α → α → Prop} (h : ∀ x, R x x) (xs : List α) : Traced R xs xs :=
  fun x hx => ⟨x, hx, h x⟩

theorem Traced.of_forall₂ {R : α → β → Prop} {xs : List α} {ys : List β}
    (h : List.Forall₂ R xs ys) :
    Traced R xs ys := by
  induction h with
  | nil => exact .nil
  | cons hxy _ ih => exact .cons hxy ih

/-- Renaming traces the marks of the root. -/
theorem Expr.traces_rename (e : Expr) (next : IdCounter) :
    (Node.expr e).Traces (Mark.Renames names labels) (.expr (e.rename names next).1) := by
  cases e with
  | ident name => exact .cons (.apply names labels name) .nil
  | function fn =>
    cases fn
    exact .refl .kept _
  | _ => exact .nil

theorem Stmt.traces_rename (s : Stmt) (next : IdCounter) :
    (Node.stmt s).Traces (Mark.Renames names labels) (.stmt (s.rename names labels next).1) := by
  cases s with
  | var _ name init => cases init <;> exact .cons (.apply names labels name) .nil
  | function fn =>
    obtain ⟨_, name, _, _⟩ := fn
    simp only [Node.Traces, Stmt.rename, Node.marks, List.map_append]
    refine .append ?_ (.refl .kept _)
    cases name with
    | none => exact .nil
    | some name => exact .cons (.apply names labels name) .nil
  | ret value => cases value <;> exact .refl .kept _
  | ifElse _ _ elseBranch => cases elseBranch <;> exact .nil
  | labeled label _ => exact .cons (.applyLabel names labels label) .nil
  | breakTo target | continueTo target =>
    cases target with
    | none => exact .nil
    | some label => exact .cons (.applyTarget names labels label) .nil
  | _ => exact .nil

theorem Node.Traces.inner (shadowed : List String) (node node' : Node)
    (h : node.Traces (Mark.Renames (names.without shadowed) []) node') :
    node.Traces (Mark.Renames names labels) node' :=
  h.mono fun _ _ hmark => hmark.mono (names.without_subset shadowed) (List.nil_subset labels)

/-- Every mark of a renamed expression comes from one of the expression. -/
theorem Expr.traced_rename (reach : Reach) (names labels : Renaming) (e : Expr) (next : IdCounter) :
    Traced (Node.Traces (Mark.Renames names labels)) (e.nodes reach)
      ((e.rename names next).1.nodes reach) :=
  .of_forall₂ (Expr.forall₂_nodes_rename Expr.traces_rename Stmt.traces_rename
    (fun _ => Node.Traces.inner) names labels e next)

/-- The marks of a copy. Those inside a nested function, whose own names and labels are kept,
are no others. -/
theorem Stmt.traced_renameAll (reach : Reach) (names labels : Renaming) (stmts : List Stmt)
    (next : IdCounter) :
    Traced (Node.Traces (Mark.Renames names labels)) (Stmt.nodesAll reach stmts)
      (Stmt.nodesAll reach (Stmt.renameAll names labels stmts next).1) :=
  .of_forall₂ (Stmt.forall₂_nodesAll_rename Expr.traces_rename Stmt.traces_rename
    (fun _ => Node.Traces.inner) names labels stmts next)

section Collecting

variable {α : Type} {names labels : Renaming} {found : Node → List α} {new : α → α}

/-- What is found at the statements of a copy, if it is renamed at each of them. -/
theorem Stmt.flatMap_renameAll (hexpr : ∀ e, found (.expr e) = [])
    (hroot : ∀ s next, found (.stmt (s.rename names labels next).1) =
      (found (.stmt s)).map new) (stmts : List Stmt) (next : IdCounter) :
    (Stmt.nodesAll .ownLayer (Stmt.renameAll names labels stmts next).1).flatMap found =
      ((Stmt.nodesAll .ownLayer stmts).flatMap found).map new := by
  have hcopied : List.Forall₂ _ (Stmt.nodesAll .ownLayer stmts) _ := Stmt.forall₂_nodesAll_rename
    (R := fun names' labels' node node' => names' = names → labels' = labels →
      found node' = (found node).map new)
    (fun _ _ _ _ _ _ => by rw [hexpr, hexpr, List.map_nil])
    (fun _ _ s next hnames hlabels => by rw [hnames, hlabels, hroot])
    (fun hreach => by cases hreach) names labels stmts next
  rw [List.map_flatMap]
  exact flatMap_eq_of_forall₂ (hcopied.imp fun _ _ h => h rfl rfl)

/-- The `var` variables of a renamed body. -/
theorem varNames_renameAll (names labels : Renaming) (stmts : List Stmt) (next : IdCounter) :
    varNames (Stmt.renameAll names labels stmts next).1 = (varNames stmts).map names.apply := by
  rw [varNames_eq, varNames_eq]
  refine Stmt.flatMap_renameAll (fun _ => rfl) (fun s next => ?_) stmts next
  cases s with
  | var kind name init => cases kind <;> cases init <;> rfl
  | function fn => cases fn; rfl
  | ret value => cases value <;> rfl
  | ifElse condition thenBranch elseBranch => cases elseBranch <;> rfl
  | _ => rfl

end Collecting

theorem Stmt.renameAll_append (names labels : Renaming) (first second : List Stmt)
    (next : IdCounter) :
    Stmt.renameAll names labels (first ++ second) next =
      let left := Stmt.renameAll names labels first next
      let right := Stmt.renameAll names labels second left.2
      (left.1 ++ right.1, right.2) := by
  induction first generalizing next with
  | nil => simp [Stmt.renameAll]
  | cons s rest ih => simp [Stmt.renameAll, ih]

end Renaming

section Rewriting

variable {S : Mark → Mark → Prop} (reach : Reach)

/-- Rewriting bodies preserves the marks of what is around them. -/
theorem bodywise_marks (hS : ∀ mark, S mark mark) : Bodywise fun body body' =>
    Traced (Node.Traces S) (Stmt.nodesAll reach body) (Stmt.nodesAll reach body') := by
  refine bodywise_nodes (Traced.refl fun node => Traced.refl hS node.marks) Traced.append ?_
  intro s bodies hs
  have hmarks : (Node.stmt (s.withParts s.head? bodies)).marks = (Node.stmt s).marks := by
    unfold Stmt.withParts
    split <;> rfl
  refine .cons ?_ .nil
  rw [Node.Traces, hmarks]
  exact .refl hS _

/-- An assignment has its name from a mark of what it stands for. -/
theorem Stmt.traced_assign (hS : ∀ mark, S mark mark) {s : Stmt} {mark : Mark} {name : String}
    {value : Expr} (hs : s.nodes reach = .stmt s :: value.nodes reach)
    (hmarks : Node.marks (.stmt s) = [mark])
    (hmark : S mark (.name name)) :
    Traced (Node.Traces S) (Stmt.nodesAll reach [s])
      (Stmt.nodesAll reach [.assign name value]) := by
  rw [Stmt.nodesAll_singleton, Stmt.nodesAll_singleton, hs]
  simp only [Stmt.assign, Stmt.nodes, Expr.nodes, List.singleton_append]
  intro node hnode
  simp only [List.mem_cons] at hnode
  rcases hnode with rfl | rfl | rfl | hnode
  · exact ⟨_, List.mem_cons_self, .nil⟩
  · exact ⟨_, List.mem_cons_self, .nil⟩
  · refine ⟨_, List.mem_cons_self, ?_⟩
    rw [Node.Traces, hmarks]
    exact .cons hmark .nil
  · exact ⟨node, List.mem_cons_of_mem _ hnode, .refl hS _⟩

/-- Rebinding adds no marks. -/
theorem marks_rebind (hoisted inPlace : List String) (body : List Stmt) :
    marksOf (Stmt.nodesAll reach (Stmt.demoteAll hoisted (body.map (·.promote inPlace)))) ⊆
      marksOf (Stmt.nodesAll reach body) := by
  have hbodywise := bodywise_marks reach (S := Eq) fun _ => rfl
  have hdemoted := hbodywise.demoteAll hoisted (fun _ _ => Traced.nil) fun _ _ _ =>
    Stmt.traced_assign reach (fun _ => rfl) rfl rfl rfl
  have hpromoted := hbodywise.promoteAll (fun name init => ?_) inPlace body
  · intro mark hmark
    obtain ⟨_, hdemoted, rfl⟩ := (hdemoted _).marks mark hmark
    obtain ⟨_, hpromoted, rfl⟩ := hpromoted.marks _ hdemoted
    exact hpromoted
  · cases init with
    | none => exact .cons (.refl (fun _ => rfl) _) .nil
    | some value =>
      exact .append (.cons (.refl (fun _ => rfl) _) (.refl (fun _ => .refl (fun _ => rfl) _) _))
        .nil

/-- A mark and what lowering the returns makes of it. -/
inductive Mark.Lowers (result label : String) : Mark → Mark → Prop
  | kept (mark : Mark) : Lowers result label mark mark
  | result : Lowers result label .returns (.name result)
  | jump : Lowers result label .returns (.target label)

/-- A jump comes from the return that it replaces. -/
theorem Stmt.traced_jump (result label : String) (value : Option Expr) :
    Traced (Node.Traces (Mark.Lowers result label)) (Stmt.nodesAll reach [.ret value])
      (Stmt.nodesAll reach [.breakTo (some label)]) := by
  intro node hnode
  obtain rfl := List.mem_singleton.mp hnode
  rw [Stmt.nodesAll_singleton]
  exact ⟨_, Stmt.self_mem_nodes reach _, .cons .jump .nil⟩

/-- Lowering adds no names but that of the result variable. -/
theorem Block.traced_lower (result : String) (label : Option String) (trailing : Bool)
    (body : List Stmt) :
    Traced (Node.Traces (Mark.Lowers result (label.getD result))) (Stmt.nodesAll reach body)
      (Stmt.nodesAll reach (Block.lower result label trailing body)) := by
  have hresult (label : String) (value : Expr) :
      Traced (Node.Traces (Mark.Lowers result label)) (Stmt.nodesAll reach [.ret (some value)])
        (Stmt.nodesAll reach [.assign result value]) :=
    Stmt.traced_assign reach .kept rfl rfl .result
  refine (bodywise_marks reach .kept).lower ?_ ?_ (hresult _) fun _ _ _ _ => .nil
  · rintro target ⟨⟩
    exact Stmt.traced_jump reach result target none
  · rintro target ⟨⟩ value
    rw [Stmt.nodesAll_append]
    intro node hnode
    rcases List.mem_append.mp hnode with hnode | hnode
    · exact hresult target value node hnode
    · exact Stmt.traced_jump reach result target (some value) node hnode

end Rewriting

end StaticInliner
