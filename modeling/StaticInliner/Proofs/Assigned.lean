import StaticInliner.Proofs.Hygiene
import StaticInliner.Proofs.Operands

/-!
Variables that are assigned to. A block assigns to variables drawn for it, to global variables
that the body assigns to, and to what its arguments assign to. So a variable around the call
is assigned to in the block only where an argument assigns to it, and if the arguments have no
side effects, only within function literals among them.
-/
namespace StaticInliner

/-- The variable that the operation itself assigns to. -/
def Expr.sets : Expr → List String
  | .assign (.ident name) _ _ => [name]
  | _ => []

mutual

/-- The variables assigned to in an expression, also within function literals, apart from those
that are bound. -/
@[simp] def Expr.assigned (bound : List String) : Expr → List String
  | .undefined | .null | .bool _ | .number _ | .string _ | .ident _ | .this => []
  | .member object _ => object.assigned bound
  | .index object key => object.assigned bound ++ key.assigned bound
  | .call callee args | .new callee args => callee.assigned bound ++ Expr.assignedAll bound args
  | .assign target op value =>
    (Expr.assign target op value).sets.filter (!bound.contains ·) ++
      (target.assigned bound ++ value.assigned bound)
  | .binary _ left right | .logical _ left right => left.assigned bound ++ right.assigned bound
  | .unary _ operand => operand.assigned bound
  | .conditional condition thenExpr elseExpr =>
    condition.assigned bound ++ thenExpr.assigned bound ++ elseExpr.assigned bound
  | .sequence items | .array items => Expr.assignedAll bound items
  | .function ⟨_, name, params, body⟩ =>
    Stmt.assignedAll (name.toList ++ declaredNames params body ++ bound) body

@[simp] def Expr.assignedAll (bound : List String) : List Expr → List String
  | [] => []
  | e :: rest => e.assigned bound ++ Expr.assignedAll bound rest

@[simp] def Stmt.assigned (bound : List String) : Stmt → List String
  | .var _ _ none | .ret none | .breakTo _ | .continueTo _ => []
  | .var _ _ (some value) | .ret (some value) | .expr value | .throw value => value.assigned bound
  | .function ⟨_, _, params, body⟩ => Stmt.assignedAll (declaredNames params body ++ bound) body
  | .ifElse condition thenBranch none =>
    condition.assigned bound ++ Stmt.assignedAll bound thenBranch
  | .ifElse condition thenBranch (some elseBranch) =>
    condition.assigned bound ++ Stmt.assignedAll bound thenBranch ++
      Stmt.assignedAll bound elseBranch
  | .whileDo condition body => condition.assigned bound ++ Stmt.assignedAll bound body
  | .block body | .labeled _ body => Stmt.assignedAll bound body

@[simp] def Stmt.assignedAll (bound : List String) : List Stmt → List String
  | [] => []
  | s :: rest => s.assigned bound ++ Stmt.assignedAll bound rest

end

section Parts

variable {bound : List String}

theorem Expr.assignedAll_eq_flatMap (bound : List String) (es : List Expr) :
    Expr.assignedAll bound es = es.flatMap (·.assigned bound) := by
  induction es with
  | nil => rfl
  | cons e rest ih => rw [Expr.assignedAll, ih, List.flatMap_cons]

theorem Stmt.assignedAll_eq_flatMap (bound : List String) (stmts : List Stmt) :
    Stmt.assignedAll bound stmts = stmts.flatMap (·.assigned bound) := by
  induction stmts with
  | nil => rfl
  | cons s rest ih => rw [Stmt.assignedAll, ih, List.flatMap_cons]

theorem Expr.assigned_operation {e : Expr} (h : e.ownsLayer = false) : e.assigned bound =
    e.sets.filter (!bound.contains ·) ++ e.children.flatMap (·.assigned bound) := by
  cases e with
  | function _ => cases h
  | _ => simp [sets, children, Expr.assignedAll_eq_flatMap]

theorem Expr.assigned_function (fn : FunctionLit) : (Expr.function fn).assigned bound =
    Stmt.assignedAll (fn.name.toList ++ declaredNames fn.params fn.body ++ bound) fn.body := by
  cases fn
  rfl

theorem Stmt.assigned_function (fn : FunctionLit) : (Stmt.function fn).assigned bound =
    Stmt.assignedAll (declaredNames fn.params fn.body ++ bound) fn.body := by
  cases fn
  rfl

theorem Stmt.assigned_parts {s : Stmt} (h : s.function? = none) : s.assigned bound =
    s.head?.toList.flatMap (·.assigned bound) ++ s.bodies.flatMap (Stmt.assignedAll bound) := by
  cases s with
  | var _ _ init => cases init <;> simp [head?, bodies]
  | ret value => cases value <;> simp [head?, bodies]
  | ifElse _ _ elseBranch => cases elseBranch <;> simp [head?, bodies]
  | function _ => cases h
  | _ => simp [head?, bodies]

theorem gathers_assigned : Gathers ([·]) (·.assigned []) (·.assigned []) where
  parts s hs := by
    rw [Stmt.assigned_parts hs, funext (Stmt.assignedAll_eq_flatMap [])]
  assign _ _ := rfl

theorem Expr.sets_eq_nil {e : Expr} (h : ∀ name op value, e ≠ .assign (.ident name) op value) :
    e.sets = [] := by
  unfold sets
  split
  · next name op value => exact absurd rfl (h name op value)
  · rfl

/-- A variable counts as assigned to where its name is free. -/
theorem byParts_assigned_sublist : ByParts
    (fun e => ∀ bound, (e.assigned bound).Sublist (e.freeNames bound))
    (fun s => ∀ bound, (s.assigned bound).Sublist (s.freeNames bound))
    (fun list => ∀ bound, (Stmt.assignedAll bound list).Sublist
      (Stmt.freeNamesAll bound list)) := by
  refine ⟨fun e hlayer ih bound => ?_, fun fn ih bound => ?_, fun fn ih bound => ?_,
    fun s hfn hhead hbodies bound => ?_, fun list ih bound => ?_⟩
  · have hoperands : (e.children.flatMap (·.assigned bound)).Sublist
        (e.children.flatMap (·.freeNames bound)) :=
      List.Sublist.flatMap_right _ fun operand hoperand => ih operand hoperand bound
    by_cases hset : ∃ name op value, e = .assign (.ident name) op value
    · obtain ⟨name, op, value, rfl⟩ := hset
      have hvalue := ih value (List.mem_cons_of_mem _ List.mem_cons_self) bound
      have htarget : [name].filter (!bound.contains ·) = (Expr.ident name).freeNames bound := by
        by_cases hbound : name ∈ bound <;> simp [Expr.freeNames, hbound]
      rw [Expr.assigned, Expr.freeNames, Expr.sets, htarget]
      exact (List.Sublist.refl _).append hvalue
    · have hsets := Expr.sets_eq_nil fun name op value heq => hset ⟨name, op, value, heq⟩
      rw [Expr.assigned_operation hlayer, hsets, List.filter_nil, List.nil_append]
      rcases e.ident_or with ⟨name, rfl⟩ | hname
      · exact List.nil_sublist _
      · rwa [Expr.freeNames_operation hlayer hname]
  · rw [Expr.assigned_function, Expr.freeNames_function]
    exact ih _
  · rw [Stmt.assigned_function, Stmt.freeNames_function]
    exact ih _
  · rw [Stmt.assigned_parts hfn, Stmt.freeNames_parts hfn]
    refine (List.Sublist.flatMap_right _ fun e he => ?_).append
      (List.Sublist.flatMap_right _ fun body hbody => hbodies body hbody bound)
    exact hhead e (Option.mem_toList.mp he) bound
  · rw [Stmt.assignedAll_eq_flatMap, Stmt.freeNamesAll_eq_flatMap]
    exact List.Sublist.flatMap_right list fun s hs => ih s hs bound

theorem Stmt.assignedAll_sublist (stmts : List Stmt) :
    (stmts.flatMap (·.assigned [])).Sublist (Stmt.freeNamesAll [] stmts) := by
  rw [Stmt.freeNamesAll_eq_flatMap]
  exact List.Sublist.flatMap_right _ fun s _ => byParts_assigned_sublist.stmt s []

/-- Without side effects only function literals assign to anything. -/
theorem Expr.mem_assigned_iff {e : Expr} (h : e.hasSideEffects = false) {name : String} :
    name ∈ e.assigned [] ↔
      ∃ fn, Node.expr (.function fn) ∈ e.nodes .ownLayer ∧
        name ∈ (Expr.function fn).assigned [] := by
  induction e using Expr.byOperands with
  | operation e hlayer ih =>
    rw [hasSideEffects_operation, Bool.or_eq_false_iff, List.any_eq_false] at h
    have hsets : e.sets = [] := sets_eq_nil fun name op value heq => by
      rw [heq] at h
      cases h.1
    have hself (fn : FunctionLit) : Node.expr (.function fn) ≠ .expr e := by
      rintro heq
      rw [← Node.expr.inj heq] at hlayer
      cases hlayer
    rw [assigned_operation hlayer, hsets, List.filter_nil, List.nil_append,
      nodes_operation _ hlayer]
    simp only [List.mem_flatMap, List.mem_cons, hself, false_or, mem_nodesAll]
    constructor
    · rintro ⟨operand, hoperand, hname⟩
      obtain ⟨fn, hfn, hname⟩ :=
        (ih operand hoperand (Bool.eq_false_iff.mpr (h.2 operand hoperand))).mp hname
      exact ⟨fn, ⟨operand, hoperand, hfn⟩, hname⟩
    · rintro ⟨fn, ⟨operand, hoperand, hfn⟩, hname⟩
      exact ⟨operand, hoperand,
        (ih operand hoperand (Bool.eq_false_iff.mpr (h.2 operand hoperand))).mpr ⟨fn, hfn, hname⟩⟩
  | literal fn =>
    obtain ⟨id, own, params, body⟩ := fn
    simp [nodes]

end Parts

namespace Block

/-- A name that the call can see, and that is not one of the body, is assigned to in the block
where the arguments assign to it. -/
theorem mem_assigned_prelude {fn : FunctionLit} {scope : Nat} {ctx : Context} {name : String}
    (hbound : ctx.scopes.isBound scope name = true) (hopen : name ∉ fn.openNames)
    (args : List Expr) :
    name ∈ Stmt.assignedAll [] (inline fn args scope ctx).1.prelude ↔
      ∃ arg ∈ fn.passed args, name ∈ arg.assigned [] := by
  let drawn := draw fn scope ctx
  have hkeys : drawn.names.map (·.1) = declaredNames fn.params fn.body :=
    map_fst_names_draw fn scope ctx
  have hnew {other : String} (hother : other ∈ drawn.all) : other ≠ name := by
    rintro rfl
    rw [(drewAt_draw fn scope ctx).unbound other hother] at hbound
    cases hbound
  have hlowered : name ∉ (drawn.lowered fn).flatMap (·.assigned []) := by
    intro hname
    rcases (drawn.inserted_lowered fn gathers_assigned).mem hname with hname | hname
    · -- what the copy assigns to is a name of the body, which is new if the body declares it
      have hcopy := Stmt.renamesFree_renameAll drawn.names drawn.labels fn.body drawn.ctx.nextNodeId
      obtain ⟨old, hold, heq⟩ := hcopy.traced name ((Stmt.assignedAll_sublist _).subset hname)
      by_cases hdeclared : old ∈ declaredNames fn.params fn.body
      · exact hnew (apply_mem_all fn scope ctx hdeclared) heq.symm
      · rw [Renaming.apply_of_notMem (hkeys ▸ hdeclared)] at heq
        exact hopen (heq ▸ FunctionLit.mem_openNames.mpr ⟨hold, hdeclared⟩)
    · rcases List.mem_cons.mp hname with heq | hname
      · exact hnew List.mem_cons_self heq.symm
      · obtain ⟨old, hold, heq⟩ := List.mem_map.mp hname
        exact hnew (apply_mem_all fn scope ctx (mem_declaredNames.mpr (.inr hold))) heq
  have hprelude : Stmt.assignedAll [] (inline fn args scope ctx).1.prelude =
      (fn.passed args).flatMap (·.assigned []) ++ (drawn.lowered fn).flatMap (·.assigned []) := by
    rw [← drawn.gathered_prelude fn gathers_assigned args, ← Stmt.assignedAll_eq_flatMap]
    rfl
  rw [hprelude, List.mem_append, or_iff_left hlowered, List.mem_flatMap]

end Block

namespace Inlining.Performed

variable {i : Inlining}

theorem eq_block (h : i.Performed) (hshape : i.expansion.shape = .block) :
    i.expansion = (Block.inline i.definition.function i.args i.site.scope i.before).1 := by
  obtain ⟨-, ⟨expr, -, hdirect⟩ | ⟨-, -, hblock⟩⟩ := h.expansion_cases
  · rw [hdirect] at hshape
    cases hshape
  · exact hblock

/-- A variable of a function around the call is no global of the body, unless the body refers to
the function by this name. -/
theorem notMem_openNames (h : i.Performed) {name : String}
    (hbound : i.before.scopes.isBoundInFunction i.site.scope name = true)
    (hself : name ∈ i.definition.function.openNames → i.definition.function.name ≠ some name) :
    name ∉ i.definition.function.openNames := by
  intro hopen
  have hfree := FunctionLit.mem_freeVariables_iff.mpr ⟨hopen, hself hopen⟩
  obtain ⟨inner, -, hunbound⟩ := h.expansion_cases.1.free
  rw [(hunbound name hfree).2] at hbound
  cases hbound

/-- A block for arguments without side effects assigns to such a variable just where a function
literal among the arguments does. -/
theorem mem_assigned_iff (h : i.Performed) (hshape : i.expansion.shape = .block)
    (hpure : Expr.anySideEffects i.args = false) {name : String}
    (hbound : i.before.scopes.isBoundInFunction i.site.scope name = true)
    (hself : name ∈ i.definition.function.openNames → i.definition.function.name ≠ some name) :
    name ∈ Stmt.assignedAll [] i.expansion.prelude ↔
      ∃ arg ∈ i.args.take i.definition.function.params.length, ∃ fn,
        Node.expr (.function fn) ∈ arg.nodes .ownLayer ∧ name ∈ (Expr.function fn).assigned [] := by
  rw [Expr.anySideEffects_eq_any, List.any_eq_false] at hpure
  have hexcess : (i.args.drop i.definition.function.params.length).filter (·.hasSideEffects) = [] :=
    List.filter_eq_nil_iff.mpr fun arg harg => hpure arg (List.mem_of_mem_drop harg)
  rw [h.eq_block hshape, Block.mem_assigned_prelude (ScopeTree.isBound_of_isBoundInFunction hbound)
    (h.notMem_openNames hbound hself), FunctionLit.passed, hexcess, List.append_nil]
  refine exists_congr fun arg => and_congr_right fun harg => Expr.mem_assigned_iff ?_
  exact Bool.eq_false_iff.mpr (hpure arg (List.mem_of_mem_take harg))

end Inlining.Performed

end StaticInliner
