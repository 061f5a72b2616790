import StaticInliner.Proofs.Rewriting

/-!
Lists gathered from a tree, such as the names that occur in it, those that are free in it, or
its function literals. A statement has what its parts have, one after another. So rebinding and
lowering a body keep such a list in its order, and put in nothing but what stands for the names
they assign to.
-/
namespace StaticInliner

/-- The second list is the first with some entries put in. -/
inductive Inserted {α : Type} (new : α → Prop) : List α → List α → Prop
  | nil : Inserted new [] []
  | keep {old list : List α} (a : α) : Inserted new old list → Inserted new (a :: old) (a :: list)
  | insert {old list : List α} {a : α} : new a → Inserted new old list →
    Inserted new old (a :: list)

namespace Inserted

variable {α : Type} {new new' : α → Prop} {old old' list list' : List α}

theorem refl (new : α → Prop) : ∀ list : List α, Inserted new list list
  | [] => .nil
  | a :: rest => .keep a (refl new rest)

theorem append (h : Inserted new old list) (h' : Inserted new old' list') :
    Inserted new (old ++ old') (list ++ list') := by
  induction h with
  | nil => exact h'
  | keep a _ ih => exact .keep a ih
  | insert hnew _ ih => exact .insert hnew ih

theorem mono (h : Inserted new old list) (hnew : ∀ a, new a → new' a) : Inserted new' old list := by
  induction h with
  | nil => exact .nil
  | keep a _ ih => exact .keep a ih
  | insert ha _ ih => exact .insert (hnew _ ha) ih

theorem trans {middle : List α} (h : Inserted new old middle) (h' : Inserted new middle list) :
    Inserted new old list := by
  induction h' generalizing old with
  | nil => exact h
  | insert hnew _ ih => exact .insert hnew (ih h)
  | keep a _ ih =>
    cases h with
    | keep _ h => exact .keep a (ih h)
    | insert hnew h => exact .insert hnew (ih h)

theorem insertAll (h : Inserted new old list) {front : List α} (hfront : ∀ a ∈ front, new a) :
    Inserted new old (front ++ list) := by
  induction front with
  | nil => exact h
  | cons a rest ih =>
    obtain ⟨ha, hrest⟩ := List.forall_mem_cons.mp hfront
    exact .insert ha (ih hrest)

/-- With nothing to put in the list stays. -/
theorem eq (h : Inserted new old list) (hnew : ∀ a, ¬new a) : list = old := by
  induction h with
  | nil => rfl
  | keep a _ ih => rw [ih]
  | insert ha _ _ => exact absurd ha (hnew _)

theorem subset (h : Inserted new old list) : old ⊆ list := by
  induction h with
  | nil => exact List.Subset.refl _
  | keep a _ ih => exact List.cons_subset_cons a ih
  | insert _ _ ih => exact List.subset_cons_of_subset _ ih

/-- An entry was there or has been put in. -/
theorem mem (h : Inserted new old list) {a : α} (ha : a ∈ list) : a ∈ old ∨ new a := by
  induction h with
  | nil => exact .inl ha
  | keep b _ ih =>
    rcases List.mem_cons.mp ha with rfl | ha
    · exact .inl List.mem_cons_self
    · exact (ih ha).imp_left (List.mem_cons_of_mem b)
  | insert hnew _ ih =>
    rcases List.mem_cons.mp ha with rfl | ha
    · exact .inr hnew
    · exact ih ha

end Inserted

/-- A statement other than a function declaration has what its parts have, and an assignment
to a variable has what stands for its name before what the value has. -/
structure Gathers {α : Type} (ofName : String → List α) (ofExpr : Expr → List α)
    (ofStmt : Stmt → List α) : Prop where
  parts : ∀ s : Stmt, s.function? = none →
    ofStmt s = s.head?.toList.flatMap ofExpr ++ s.bodies.flatMap (·.flatMap ofStmt)
  assign : ∀ (name : String) (value : Expr),
    ofExpr (.assign (.ident name) none value) = ofName name ++ ofExpr value

namespace Gathers

variable {α : Type} {ofName : String → List α} {ofExpr : Expr → List α} {ofStmt : Stmt → List α}

theorem promote (h : Gathers ofName ofExpr ofStmt) (names : List String) (s : Stmt) :
    ofStmt (s.promote names) = ofStmt s := by
  cases s with
  | var kind _ _ =>
    cases kind with
    | var => rw [h.parts _ rfl, h.parts _ rfl]; rfl
    | _ => rfl
  | _ => rfl

theorem assignment (h : Gathers ofName ofExpr ofStmt) (name : String) (value : Expr) :
    ofStmt (.assign name value) = ofName name ++ ofExpr value := by
  rw [h.parts _ rfl, ← h.assign]
  simp [Stmt.assign, Stmt.head?, Stmt.bodies]

/-- Rewriting bodies inserts what is inserted into the parts. -/
theorem bodywise (h : Gathers ofName ofExpr ofStmt) (new : α → Prop) : Bodywise fun body body' =>
    Inserted new (body.flatMap ofStmt) (body'.flatMap ofStmt) where
  refl _ := .refl new _
  append h h' := by
    rw [List.flatMap_append, List.flatMap_append]
    exact h.append h'
  below {s bodies} hs hbodies := by
    have hfn := Stmt.function?_compound ((s.isSimple_withParts bodies).trans hs)
    rw [List.flatMap_singleton, List.flatMap_singleton, h.parts s (Stmt.function?_compound hs),
      h.parts _ hfn, Stmt.head?_withParts, Stmt.bodies_withParts hs hbodies.length_eq.symm]
    refine (Inserted.refl new _).append ?_
    clear hfn
    generalize s.bodies = old at hbodies
    induction hbodies with
    | nil => exact .nil
    | cons hbody _ ih => exact hbody.append ih

/-- An assignment instead of another statement with the value at its head adds the variable. -/
theorem assigned (h : Gathers ofName ofExpr ofStmt) {new : α → Prop} {s : Stmt} {name : String}
    {value : Expr} (hs : s.function? = none) (hhead : s.head? = some value)
    (hbodies : s.bodies = [])
    (hnew : ∀ a ∈ ofName name, new a) :
    Inserted new ([s].flatMap ofStmt) ([Stmt.assign name value].flatMap ofStmt) := by
  rw [List.flatMap_singleton, List.flatMap_singleton, h.assignment, h.parts s hs, hhead, hbodies,
    Option.toList_some, List.flatMap_singleton, List.flatMap_nil, List.append_nil]
  exact (Inserted.refl _ _).insertAll hnew

/-- A declaration that becomes an assignment adds the variable. -/
theorem demoteAll (h : Gathers ofName ofExpr ofStmt) (hoisted : List String) (stmts : List Stmt) :
    Inserted (· ∈ hoisted.flatMap ofName) (stmts.flatMap ofStmt)
      ((Stmt.demoteAll hoisted stmts).flatMap ofStmt) := by
  refine (h.bodywise _).demoteAll hoisted (fun name _ => ?_) (fun name hmem init => ?_) stmts
  · rw [List.flatMap_singleton, h.parts _ rfl]
    exact .nil
  · exact h.assigned rfl rfl rfl fun a ha => List.mem_flatMap.mpr ⟨name, hmem, ha⟩

/-- Lowering adds the result variable, if a trailing return is one. -/
theorem lower (h : Gathers ofName ofExpr ofStmt) (result : String) (label : Option String)
    {trailing : Bool} {body : List Stmt}
    (hbody : trailing = true → ∃ init value, body = init ++ [Stmt.ret value]) :
    Inserted (· ∈ ofName result) (body.flatMap ofStmt)
      ((Block.lower result label trailing body).flatMap ofStmt) := by
  have hassigned (value : Expr) :
    Inserted (· ∈ ofName result) ([Stmt.ret (some value)].flatMap ofStmt)
      ([Stmt.assign result value].flatMap ofStmt) := h.assigned rfl rfl rfl fun _ ha => ha
  have hbare : [Stmt.ret none].flatMap ofStmt = [] := by
    rw [List.flatMap_singleton]
    exact h.parts _ rfl
  have hjump (target : String) : [Stmt.breakTo (some target)].flatMap ofStmt = [] := by
    rw [List.flatMap_singleton]
    exact h.parts _ rfl
  refine (h.bodywise _).lower (fun target _ => ?_) (fun target _ value => ?_) hassigned
    fun htrailing last hlast hne => ?_
  · rw [hbare, hjump]
    exact .nil
  · rw [List.flatMap_append, hjump, List.append_nil]
    exact hassigned value
  · obtain ⟨init, value, rfl⟩ := hbody htrailing
    rw [List.getLast?_concat] at hlast
    cases hlast
    cases value with
    | none =>
      rw [hbare]
      exact .nil
    | some value => exact absurd rfl (hne value)

theorem declarations (h : Gathers ofName ofExpr ofStmt) (kind : VarKind) (names : List String) :
    (names.map (Stmt.var kind · none)).flatMap ofStmt = [] := by
  rw [List.flatMap_map, List.flatMap_eq_nil_iff]
  exact fun _ _ => h.parts _ rfl

/-- The parameters have what their arguments have. -/
theorem parameters (h : Gathers ofName ofExpr ofStmt) (names : Renaming) (params : List String)
    (args : List Expr) : (Block.parameters names params args).flatMap ofStmt =
      (args.take params.length).flatMap ofExpr := by
  induction params generalizing args with
  | nil => rfl
  | cons param params ih =>
    cases args with
    | nil =>
      rw [Block.parameters, List.flatMap_cons, ih, h.parts _ rfl]
      simp [Stmt.head?, Stmt.bodies]
    | cons arg args =>
      rw [Block.parameters, List.flatMap_cons, ih, h.parts _ rfl]
      simp [Stmt.head?, Stmt.bodies]

theorem excess (h : Gathers ofName ofExpr ofStmt) (params : List String) (args : List Expr) :
    (Block.excess params args).flatMap ofStmt =
      ((args.drop params.length).filter (·.hasSideEffects)).flatMap ofExpr := by
  rw [Block.excess, List.flatMap_map]
  refine List.flatMap_congr fun e _ => ?_
  rw [h.parts _ rfl]
  simp [Stmt.head?, Stmt.bodies]

end Gathers

end StaticInliner
