import StaticInliner.Inline.Rename
import StaticInliner.Proofs.Marks
import StaticInliner.Proofs.Meaning.Runs

/-!
Bodies that can be copied. A body mentions each variable it declares only where
the variable is in scope, jumps only to loops and labels inside itself, and has
no function of its own. These conditions are put together statement by statement
in the form in which a copy is compared with the body.
-/
namespace StaticInliner.Meaning

variable {L : Language}

/-- A body and its copy: how each sees names, and what is renamed. Names in use
before the copy was made are `outer`. -/
structure Copying (L : Language) where
  callee : View L
  caller : View L
  names : Renaming
  labels : Renaming
  declared : List String
  marks : List String
  outer : List String
  injective : ∀ x ∈ declared, ∀ y ∈ declared, names.apply x = names.apply y → x = y
  fresh : ∀ x ∈ declared, names.apply x ∉ outer
  kept : ∀ x, x ∉ declared → names.apply x = x
  distinct : ∀ x ∈ marks, ∀ y ∈ marks, labels.apply x = labels.apply y → x = y

mutual

/-- Every jump ends in a loop or at a label inside the statement, apart from those
around it. -/
def jumpsInside (loop : Bool) (inside : List String) : Stmt → Bool
  | .breakTo none | .continueTo none => loop
  | .breakTo (some label) | .continueTo (some label) => inside.contains label
  | .ifElse _ thenBranch none => jumpsInsideAll loop inside thenBranch
  | .ifElse _ thenBranch (some elseBranch) =>
    jumpsInsideAll loop inside thenBranch && jumpsInsideAll loop inside elseBranch
  | .whileDo _ body => jumpsInsideAll true inside body
  | .block body => jumpsInsideAll loop inside body
  | .labeled label body => jumpsInsideAll loop (label :: inside) body
  | .var _ _ _ | .function _ | .expr _ | .ret _ | .throw _ => true

def jumpsInsideAll (loop : Bool) (inside : List String) : List Stmt → Bool
  | [] => true
  | s :: rest => jumpsInside loop inside s && jumpsInsideAll loop inside rest

end

theorem target_notMem_expr (label : String) (e : Expr) :
    .target label ∉ marksOf (e.nodes .ownLayer) := by
  intro h
  obtain ⟨name, hname⟩ := Expr.exists_name_of_mem_marksOf h
  cases hname

mutual

theorem label_of_jumpsInside {label : String} : ∀ (s : Stmt) {loop : Bool} {inside : List String},
    jumpsInside loop inside s = true → .target label ∈ marksOf (s.nodes .ownLayer) →
    label ∈ inside ∨ .label label ∈ marksOf (s.nodes .ownLayer)
  | .var _ _ none, _, _, _, h | .ret none, _, _, _, h | .breakTo none, _, _, _, h
  | .continueTo none, _, _, _, h => by simp [Stmt.nodes, marksOf, Node.marks] at h
  | .function ⟨_, _, _, _⟩, _, _, _, h => by simp [Stmt.nodes, marksOf, Node.marks] at h
  | .var _ _ (some e), _, _, _, h | .expr e, _, _, _, h | .ret (some e), _, _, _, h
  | .throw e, _, _, _, h => by
    simp [Stmt.nodes, marksOf_cons, Node.marks, target_notMem_expr] at h
  | .breakTo (some _), _, _, hj, h | .continueTo (some _), _, _, hj, h => by
    simp only [Stmt.nodes, marksOf, List.flatMap_cons, List.flatMap_nil, Node.marks,
      List.append_nil, List.mem_singleton, Mark.target.injEq] at h
    simp only [jumpsInside, List.contains_iff_mem] at hj
    exact .inl (h ▸ hj)
  | .ifElse condition body none, _, _, hj, h => by
    simp only [Stmt.nodes, marksOf_cons, marksOf_append, List.mem_append, target_notMem_expr,
      Node.marks, List.nil_append, false_or] at h ⊢
    exact (label_of_jumpsInsideAll body hj h).imp_right .inr
  | .whileDo condition body, _, _, hj, h => by
    simp only [Stmt.nodes, marksOf_cons, marksOf_append, List.mem_append, target_notMem_expr,
      Node.marks, List.nil_append, false_or] at h ⊢
    exact (label_of_jumpsInsideAll body hj h).imp_right .inr
  | .ifElse condition thenBranch (some elseBranch), _, _, hj, h => by
    simp only [Stmt.nodes, marksOf_cons, marksOf_append, List.mem_append, target_notMem_expr,
      Node.marks, List.nil_append, false_or] at h ⊢
    simp only [jumpsInside, Bool.and_eq_true] at hj
    rcases h with h | h
    · exact (label_of_jumpsInsideAll thenBranch hj.1 h).imp_right fun h => .inl (.inr h)
    · exact (label_of_jumpsInsideAll elseBranch hj.2 h).imp_right .inr
  | .block body, _, _, hj, h => by
    simp only [Stmt.nodes, marksOf_cons, Node.marks, List.nil_append] at h ⊢
    exact label_of_jumpsInsideAll body hj h
  | .labeled inner body, _, _, hj, h => by
    simp only [Stmt.nodes, marksOf_cons, Node.marks, List.singleton_append, List.mem_cons,
      reduceCtorEq, false_or, Mark.label.injEq] at h ⊢
    rcases label_of_jumpsInsideAll body hj h with hmem | hmem
    · exact (List.mem_cons.mp hmem).elim (fun heq => .inr (.inl heq)) .inl
    · exact .inr (.inr hmem)

/-- A jump that stays inside ends at a label that is declared there. -/
theorem label_of_jumpsInsideAll {label : String} : ∀ (stmts : List Stmt) {loop : Bool}
    {inside : List String}, jumpsInsideAll loop inside stmts = true →
    .target label ∈ marksOf (Stmt.nodesAll .ownLayer stmts) →
    label ∈ inside ∨ .label label ∈ marksOf (Stmt.nodesAll .ownLayer stmts)
  | [], _, _, _, h => by simp [Stmt.nodesAll, marksOf] at h
  | s :: rest, _, _, hj, h => by
    simp only [Stmt.nodesAll, marksOf_append, List.mem_append] at h ⊢
    simp only [jumpsInsideAll, Bool.and_eq_true] at hj
    rcases h with h | h
    · exact (label_of_jumpsInside s hj.1 h).imp_right .inl
    · exact (label_of_jumpsInsideAll rest hj.2 h).imp_right .inr

end

/-- Some function stands in the body. -/
def containsFunction (body : List Stmt) : Bool :=
  Stmt.existsNode .nested (fun node => node.function?.isSome) body

theorem containsFunction_eq_false {body : List Stmt} (h : containsFunction body = false) :
    ∀ node ∈ Stmt.nodesAll .ownLayer body, node.function? = none := by
  rw [containsFunction, Stmt.existsNode_eq_any, List.any_eq_false] at h
  intro node hnode
  exact Option.not_isSome_iff_eq_none.mp (h node (Stmt.nodesAll_subset body hnode))

/-- Of the declared names, the expression mentions only those in scope. -/
def mentionsInScope (declared scope : List String) (e : Expr) : Bool :=
  (e.nodes .ownLayer).all fun node => match node with
    | .expr (.ident name) => !declared.contains name || scope.contains name
    | _ => true

mutual

/-- Declared names are mentioned only in their scope; a block adds its own. -/
def inScope (declared scope : List String) : Stmt → Bool
  | .var _ _ none | .ret none | .breakTo _ | .continueTo _ | .function _ => true
  | .var _ _ (some value) | .ret (some value) | .expr value | .throw value =>
    mentionsInScope declared scope value
  | .ifElse condition thenBranch none =>
    mentionsInScope declared scope condition &&
      inScopeAll declared (lexicalNames thenBranch ++ scope) thenBranch
  | .ifElse condition thenBranch (some elseBranch) =>
    mentionsInScope declared scope condition &&
      inScopeAll declared (lexicalNames thenBranch ++ scope) thenBranch &&
      inScopeAll declared (lexicalNames elseBranch ++ scope) elseBranch
  | .whileDo condition body =>
    mentionsInScope declared scope condition &&
      inScopeAll declared (lexicalNames body ++ scope) body
  | .block body | .labeled _ body => inScopeAll declared (lexicalNames body ++ scope) body

def inScopeAll (declared scope : List String) : List Stmt → Bool
  | [] => true
  | s :: rest => inScope declared scope s && inScopeAll declared scope rest

end

namespace Copying

variable (c : Copying L)

/-- What is required of a node in an expression of the body. -/
def Admits (scope : List String) : Node → Prop
  | .expr (.ident x) =>
    x ∈ scope ∨ (x ∉ c.declared ∧ x ∈ c.outer ∧ c.callee.reach x = c.caller.reach x)
  | .expr .this | .expr (.function _) => False
  | _ => True

def AdmitsExpr (scope : List String) (e : Expr) : Prop :=
  ∀ node ∈ e.nodes .ownLayer, c.Admits scope node

mutual

/-- A statement of the body, in a scope, perhaps in a loop, and with labels around
it. -/
def Fits (loop : Bool) (inside scope : List String) : Stmt → Prop
  | .var _ name none => name ∈ scope
  | .var _ name (some init) => name ∈ scope ∧ c.AdmitsExpr scope init
  | .function _ => False
  | .expr value | .throw value | .ret (some value) => c.AdmitsExpr scope value
  | .ret none => True
  | .ifElse condition thenBranch none =>
    c.AdmitsExpr scope condition ∧ (∀ x ∈ lexicalNames thenBranch, x ∈ c.declared) ∧
      FitsAll loop inside (lexicalNames thenBranch ++ scope) thenBranch
  | .ifElse condition thenBranch (some elseBranch) =>
    c.AdmitsExpr scope condition ∧ ((∀ x ∈ lexicalNames thenBranch, x ∈ c.declared) ∧
      FitsAll loop inside (lexicalNames thenBranch ++ scope) thenBranch) ∧
      (∀ x ∈ lexicalNames elseBranch, x ∈ c.declared) ∧
      FitsAll loop inside (lexicalNames elseBranch ++ scope) elseBranch
  | .whileDo condition body =>
    c.AdmitsExpr scope condition ∧ (∀ x ∈ lexicalNames body, x ∈ c.declared) ∧
      FitsAll true inside (lexicalNames body ++ scope) body
  | .block body =>
    (∀ x ∈ lexicalNames body, x ∈ c.declared) ∧
      FitsAll loop inside (lexicalNames body ++ scope) body
  | .labeled label body =>
    label ∈ c.marks ∧ (∀ x ∈ lexicalNames body, x ∈ c.declared) ∧
      FitsAll loop (label :: inside) (lexicalNames body ++ scope) body
  | .breakTo none | .continueTo none => loop = true
  | .breakTo (some label) | .continueTo (some label) => label ∈ inside

def FitsAll (loop : Bool) (inside scope : List String) : List Stmt → Prop
  | [] => True
  | s :: rest => Fits loop inside scope s ∧ FitsAll loop inside scope rest

end

variable {c : Copying L} {scope : List String}

/-- What has to hold of the nodes of a body, wherever they stand: `vars` are in
scope everywhere. -/
def Allows (c : Copying L) (vars : List String) : Node → Prop
  | .expr (.ident x) => x ∈ c.declared ∨ (x ∈ c.outer ∧ c.callee.reach x = c.caller.reach x)
  | .expr .this | .expr (.function _) | .stmt (.function _) => False
  | .stmt (.var .var x _) => x ∈ vars
  | .stmt (.var _ x _) => x ∈ c.declared
  | .stmt (.labeled label _) => label ∈ c.marks
  | _ => True

variable {vars : List String}

theorem admitsExpr_of_allows {e : Expr} (h : ∀ node ∈ e.nodes .ownLayer, c.Allows vars node)
    (hscope : mentionsInScope c.declared scope e = true) : c.AdmitsExpr scope e := by
  intro node hnode
  have hallows := h node hnode
  have hmention := List.all_eq_true.mp hscope node hnode
  unfold Admits
  split
  · next x =>
    simp only [Bool.or_eq_true, Bool.not_eq_true', List.contains_eq_mem, decide_eq_true_eq,
      decide_eq_false_iff_not] at hmention
    by_cases hx : x ∈ c.declared
    · exact .inl (hmention.resolve_left fun h => h hx)
    · exact .inr ⟨hx, hallows.resolve_left hx⟩
  · exact hallows
  · exact hallows
  · trivial

/-- The variables of a block are among the declared ones. -/
theorem lexicalNames_declared {body : List Stmt}
    (h : ∀ node ∈ Stmt.nodesAll .ownLayer body, c.Allows vars node) :
    ∀ x ∈ lexicalNames body, x ∈ c.declared := by
  intro x hx
  obtain ⟨init, hmem | hmem⟩ := exists_var_of_lexicalNames hx
  · exact h _ hmem
  · exact h _ hmem

theorem lexical?_mem {body : List Stmt} {s : Stmt} (hs : s ∈ body) {x : String} {const : Bool}
    (h : lexical? s = some (x, const)) : x ∈ lexicalNames body :=
  List.mem_map.mpr ⟨_, List.mem_filterMap.mpr ⟨s, hs, h⟩, rfl⟩

/-- A block brings its own variables into scope. -/
theorem fitsBlock {body : List Stmt} {loop : Bool} {inside : List String}
    (h : ∀ node ∈ Stmt.nodesAll .ownLayer body, c.Allows vars node) (hvars : ∀ x ∈ vars, x ∈ scope)
    (hfits : (∀ x ∈ vars, x ∈ lexicalNames body ++ scope) →
      (∀ s ∈ body, ∀ x const, lexical? s = some (x, const) → x ∈ lexicalNames body ++ scope) →
      c.FitsAll loop inside (lexicalNames body ++ scope) body) :
    (∀ x ∈ lexicalNames body, x ∈ c.declared) ∧
      c.FitsAll loop inside (lexicalNames body ++ scope) body :=
  ⟨lexicalNames_declared h, hfits (fun x hx => List.mem_append_right _ (hvars x hx))
    fun _ hs _ _ hl => List.mem_append_left _ (lexical?_mem hs hl)⟩

mutual

theorem fits_of_allows : ∀ (s : Stmt) {loop : Bool} {inside scope : List String},
    (∀ node ∈ s.nodes .ownLayer, c.Allows vars node) → (∀ x ∈ vars, x ∈ scope) →
    (∀ x const, lexical? s = some (x, const) → x ∈ scope) → jumpsInside loop inside s = true →
    inScope c.declared scope s = true → c.Fits loop inside scope s
  | .var .var x none, _, _, _, h, hvars, _, _, _ => by
    simp only [Stmt.nodes, List.forall_mem_cons] at h
    exact hvars x h.1
  | .var .letVar x none, _, _, _, _, _, hlex, _, _ => hlex x false rfl
  | .var .constVar x none, _, _, _, _, _, hlex, _, _ => hlex x true rfl
  | .var .var x (some init), _, _, _, h, hvars, _, _, hs => by
    simp only [Stmt.nodes, List.forall_mem_cons] at h
    exact ⟨hvars x h.1, admitsExpr_of_allows h.2 hs⟩
  | .var .letVar x (some init), _, _, _, h, _, hlex, _, hs => by
    simp only [Stmt.nodes, List.forall_mem_cons] at h
    exact ⟨hlex x false rfl, admitsExpr_of_allows h.2 hs⟩
  | .var .constVar x (some init), _, _, _, h, _, hlex, _, hs => by
    simp only [Stmt.nodes, List.forall_mem_cons] at h
    exact ⟨hlex x true rfl, admitsExpr_of_allows h.2 hs⟩
  | .function ⟨_, _, _, _⟩, _, _, _, h, _, _, _, _ => by
    simp only [Stmt.nodes, List.forall_mem_cons] at h
    exact h.1.elim
  | .expr value, _, _, _, h, _, _, _, hs | .throw value, _, _, _, h, _, _, _, hs
  | .ret (some value), _, _, _, h, _, _, _, hs => by
    simp only [Stmt.nodes, List.forall_mem_cons] at h
    exact admitsExpr_of_allows h.2 hs
  | .ret none, _, _, _, _, _, _, _, _ => trivial
  | .ifElse condition thenBranch none, _, _, _, h, hvars, _, hj, hs => by
    simp only [Stmt.nodes, List.forall_mem_cons, List.forall_mem_append] at h
    simp only [inScope, Bool.and_eq_true] at hs
    exact ⟨admitsExpr_of_allows h.2.1 hs.1, fitsBlock h.2.2 hvars fun hv hl =>
      fitsAll_of_allows thenBranch h.2.2 hv hl hj hs.2⟩
  | .ifElse condition thenBranch (some elseBranch), _, _, _, h, hvars, _, hj, hs => by
    simp only [Stmt.nodes, List.forall_mem_cons, List.forall_mem_append] at h
    simp only [jumpsInside, inScope, Bool.and_eq_true] at hj hs
    exact ⟨admitsExpr_of_allows h.2.1.1 hs.1.1,
      fitsBlock h.2.1.2 hvars fun hv hl =>
        fitsAll_of_allows thenBranch h.2.1.2 hv hl hj.1 hs.1.2,
      fitsBlock h.2.2 hvars fun hv hl =>
        fitsAll_of_allows elseBranch h.2.2 hv hl hj.2 hs.2⟩
  | .whileDo condition body, _, _, _, h, hvars, _, hj, hs => by
    simp only [Stmt.nodes, List.forall_mem_cons, List.forall_mem_append] at h
    simp only [inScope, Bool.and_eq_true] at hs
    exact ⟨admitsExpr_of_allows h.2.1 hs.1, fitsBlock h.2.2 hvars fun hv hl =>
      fitsAll_of_allows body h.2.2 hv hl hj hs.2⟩
  | .block body, _, _, _, h, hvars, _, hj, hs => by
    simp only [Stmt.nodes, List.forall_mem_cons] at h
    exact fitsBlock h.2 hvars fun hv hl =>
      fitsAll_of_allows body h.2 hv hl hj hs
  | .labeled label body, _, _, _, h, hvars, _, hj, hs => by
    simp only [Stmt.nodes, List.forall_mem_cons] at h
    exact ⟨h.1, fitsBlock h.2 hvars fun hv hl =>
      fitsAll_of_allows body h.2 hv hl hj hs⟩
  | .breakTo none, _, _, _, _, _, _, hj, _ | .continueTo none, _, _, _, _, _, _, hj, _ => hj
  | .breakTo (some label), _, _, _, _, _, _, hj, _
  | .continueTo (some label), _, _, _, _, _, _, hj, _ => by
    simpa [jumpsInside, Fits] using hj

theorem fitsAll_of_allows : ∀ (stmts : List Stmt) {loop : Bool} {inside scope : List String},
    (∀ node ∈ Stmt.nodesAll .ownLayer stmts, c.Allows vars node) → (∀ x ∈ vars, x ∈ scope) →
    (∀ s ∈ stmts, ∀ x const, lexical? s = some (x, const) → x ∈ scope) →
    jumpsInsideAll loop inside stmts = true → inScopeAll c.declared scope stmts = true →
    c.FitsAll loop inside scope stmts
  | [], _, _, _, _, _, _, _, _ => trivial
  | s :: rest, _, _, _, h, hvars, hlex, hj, hs => by
    simp only [Stmt.nodesAll, List.forall_mem_append] at h
    simp only [jumpsInsideAll, inScopeAll, Bool.and_eq_true] at hj hs
    rw [List.forall_mem_cons] at hlex
    exact ⟨fits_of_allows s h.1 hvars hlex.1 hj.1 hs.1,
      fitsAll_of_allows rest h.2 hvars hlex.2 hj.2 hs.2⟩

end

end Copying

end StaticInliner.Meaning
