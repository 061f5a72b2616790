import Mathlib.Data.List.Count
import StaticInliner.Proofs.Expanded
import StaticInliner.Proofs.Relabeling.Analyses

/-!
Copies of relabeled bodies. Substituting for names, renaming a copy, turning its declarations
into `let` and lowering its returns all commute with relabeling, if the names they are given
are relabeled as well.
-/
namespace StaticInliner

variable (σ : Relabeling)

section Substitution

def LateReads.relabel (scan : LateReads) : LateReads := ⟨scan.effectSeen, scan.late.map σ⟩

mutual

/-- The parameters that are read late are relabeled with the expression. -/
theorem Expr.lateReads_relabel (params : List String) : ∀ (e : Expr) (scan : LateReads),
    (e.relabel σ).lateReads (params.map σ) (scan.relabel σ) = (e.lateReads params scan).relabel σ
  | .ident name, scan => by
    simp only [Expr.relabel, Expr.lateReads, LateReads.relabel, contains_map_injective σ.injective]
    split <;> rfl
  | .undefined, _ | .null, _ | .bool _, _ | .number _, _ | .string _, _ | .this, _
  | .function ⟨_, _, _, _⟩, _ => rfl
  | .call callee args, scan | .new callee args, scan => by
    simp only [Expr.relabel, Expr.lateReads, callee.lateReads_relabel params,
      Expr.lateReadsAll_relabelAll params args]
    rfl
  | .assign target op value, scan => by
    have htarget := target.lateReads_relabel params
    have hvalue := value.lateReads_relabel params
    rcases target.ident_or with ⟨name, rfl⟩ | hname
    · simp only [Expr.relabel, Expr.lateReads, hvalue]
      rfl
    · rw [Expr.relabel, Expr.lateReads_assign (target.relabel_ne_ident σ hname), htarget, hvalue,
        Expr.lateReads_assign hname]
      rfl
  | .unary op operand, scan => by
    have hoperand := operand.lateReads_relabel params scan
    cases op with
    | delete =>
      simp only [Expr.relabel, Expr.lateReads, hoperand]
      rfl
    | _ => exact hoperand
  | .member object _, scan => object.lateReads_relabel params scan
  | .index left right, scan | .binary _ left right, scan | .logical _ left right, scan => by
    simp only [Expr.relabel, Expr.lateReads, left.lateReads_relabel params,
      right.lateReads_relabel params]
  | .conditional condition thenExpr elseExpr, scan => by
    simp only [Expr.relabel, Expr.lateReads, condition.lateReads_relabel params,
      thenExpr.lateReads_relabel params, elseExpr.lateReads_relabel params]
  | .sequence items, scan | .array items, scan => Expr.lateReadsAll_relabelAll params items scan

theorem Expr.lateReadsAll_relabelAll (params : List String) : ∀ (es : List Expr) (scan : LateReads),
    Expr.lateReadsAll (params.map σ) (Expr.relabelAll σ es) (scan.relabel σ) =
      (Expr.lateReadsAll params es scan).relabel σ
  | [], _ => rfl
  | e :: rest, scan => by
    simp only [Expr.relabelAll, Expr.lateReadsAll, e.lateReads_relabel params,
      Expr.lateReadsAll_relabelAll params rest]

end

def Bindings.relabel (bindings : Bindings) : Bindings := bindings.map (Prod.map σ (·.relabel σ))

/-- Substitution commutes with relabeling, which keeps names apart. -/
theorem Expr.substitute_relabel (bindings : Bindings) (e : Expr) :
    (e.relabel σ).substitute (Bindings.relabel σ bindings) = (e.substitute bindings).relabel σ := by
  induction e using Expr.byOperands with
  | operation e hlayer ih =>
    rcases e.ident_or with ⟨name, rfl⟩ | hname
    · rw [Expr.relabel, Expr.substitute, Expr.substitute, Bindings.relabel,
        lookup_map_injective σ.injective]
      cases bindings.lookup name <;> rfl
    · rw [Expr.substitute_withOperands _ ((e.shape_relabel σ).1.trans hlayer)
        (Expr.relabel_ne_ident σ hname),
        Expr.substitute_withOperands _ hlayer hname,
        Expr.relabel_withOperands σ hlayer (List.length_map _), Expr.children_relabel, List.map_map,
        List.map_map]
      exact congrArg _ (List.map_congr_left ih)
  | literal fn =>
    rw [Expr.relabel_function, Expr.substitute, Expr.substitute, Expr.relabel_function]

/-- A function has the same expression to return. -/
theorem FunctionLit.substitutable?_relabel (fn : FunctionLit) :
    (fn.relabel σ).substitutable? = fn.substitutable?.map (·.relabel σ) := by
  have hreturned : (fn.relabel σ).returned? = fn.returned?.map (·.relabel σ) := by
    obtain ⟨id, name, params, body⟩ := fn
    cases body with
    | nil => rfl
    | cons s rest =>
      cases s with
      | ret value => cases value <;> cases rest <;> rfl
      | var _ _ init => cases init <;> rfl
      | ifElse _ _ elseBranch => cases elseBranch <;> rfl
      | function fn => cases fn; rfl
      | _ => rfl
  rw [substitutable?, substitutable?, hreturned, Option.filter_map]
  refine congrArg _ (congrArg (Option.filter · _) (funext fun e => ?_))
  simp only [Function.comp, relabel, e.hasFunctionLit_relabel σ, e.assignsTo_relabel σ]

end Substitution

section Renaming

def Renaming.relabel (names : Renaming) : Renaming := names.map (Prod.map σ σ)

theorem Renaming.apply_relabel (names : Renaming) (name : String) :
    (Renaming.relabel σ names).apply (σ name) = σ (names.apply name) := by
  rw [apply, apply, relabel, lookup_map_injective σ.injective]
  cases names.lookup name <;> rfl

theorem Renaming.without_relabel (names : Renaming) (shadowed : List String) :
    (Renaming.relabel σ names).without (shadowed.map σ) =
      Renaming.relabel σ (names.without shadowed) := by
  rw [without, without, relabel, relabel, List.filter_map]
  refine congrArg _ (List.filter_congr fun entry _ => ?_)
  obtain ⟨old, new⟩ := entry
  simp only [Function.comp, Prod.map_apply, contains_map_injective σ.injective]

theorem Renaming.map_apply_relabel (names : Renaming) (name : Option String) :
    (name.map σ).map (Renaming.relabel σ names).apply = (name.map names.apply).map σ := by
  cases name with
  | none => rfl
  | some name => exact congrArg some (names.apply_relabel σ name)

mutual

/-- Renamed copies correspond, and draw the same node ids. -/
theorem Expr.rename_relabel : ∀ (names : Renaming) (e : Expr) (next : IdCounter),
    (e.relabel σ).rename (Renaming.relabel σ names) next =
      ((e.rename names next).1.relabel σ, (e.rename names next).2)
  | _, .undefined, _ | _, .null, _ | _, .bool _, _ | _, .number _, _ | _, .string _, _
  | _, .this, _ => rfl
  | names, .ident name, next => by
    simp only [Expr.relabel, Expr.rename, names.apply_relabel σ]
  | names, .member e _, next | names, .unary _ e, next => by
    simp only [Expr.relabel, Expr.rename, e.rename_relabel names]
  | names, .index left right, next | names, .assign left _ right, next
  | names, .binary _ left right, next | names, .logical _ left right, next => by
    simp only [Expr.relabel, Expr.rename, left.rename_relabel names, right.rename_relabel names]
  | names, .conditional condition thenExpr elseExpr, next => by
    simp only [Expr.relabel, Expr.rename, condition.rename_relabel names,
      thenExpr.rename_relabel names, elseExpr.rename_relabel names]
  | names, .call callee args, next | names, .new callee args, next => by
    simp only [Expr.relabel, Expr.rename, callee.rename_relabel names,
      Expr.renameAll_relabelAll names args]
  | names, .sequence items, next | names, .array items, next => by
    simp only [Expr.relabel, Expr.rename, Expr.renameAll_relabelAll names items]
  | names, .function ⟨_, name, params, body⟩, next => by
    have hshadowed : declaredNames (params.map σ) (Stmt.relabelAll σ body) ++ (name.map σ).toList =
        (declaredNames params body ++ name.toList).map σ := by
      rw [declaredNames_relabelAll, List.map_append, Option.toList_map]
    have hbody :=
      Stmt.renameAll_relabelAll (names.without (declaredNames params body ++ name.toList)) []
      body next.draw.2
    simp only [Expr.relabel, Expr.rename, hshadowed, names.without_relabel σ]
    rw [show ([] : Renaming) = Renaming.relabel σ [] from rfl, hbody]
    rfl

theorem Expr.renameAll_relabelAll : ∀ (names : Renaming) (es : List Expr) (next : IdCounter),
    Expr.renameAll (Renaming.relabel σ names) (Expr.relabelAll σ es) next =
      (Expr.relabelAll σ (Expr.renameAll names es next).1, (Expr.renameAll names es next).2)
  | _, [], _ => rfl
  | names, e :: rest, next => by
    simp only [Expr.relabelAll, Expr.renameAll, e.rename_relabel names,
      Expr.renameAll_relabelAll names rest]

/-- The same for statements. -/
theorem Stmt.rename_relabel : ∀ (names labels : Renaming) (s : Stmt) (next : IdCounter),
    (s.relabel σ).rename (Renaming.relabel σ names) (Renaming.relabel σ labels) next =
      ((s.rename names labels next).1.relabel σ, (s.rename names labels next).2)
  | names, labels, .var _ _ none, next => by
    simp only [Stmt.relabel, Stmt.rename, names.apply_relabel σ]
  | names, labels, .var _ _ (some init), next => by
    simp only [Stmt.relabel, Stmt.rename, names.apply_relabel σ, init.rename_relabel names]
  | _, _, .ret none, _ => rfl
  | names, labels, .ret (some e), next | names, labels, .expr e, next
  | names, labels, .throw e, next => by
    simp only [Stmt.relabel, Stmt.rename, e.rename_relabel names]
  | names, labels, .breakTo label, next | names, labels, .continueTo label, next => by
    simp only [Stmt.relabel, Stmt.rename, labels.map_apply_relabel σ]
  | names, labels, .function ⟨_, name, params, body⟩, next => by
    have hbody :=
      Stmt.renameAll_relabelAll (names.without (declaredNames params body)) [] body next.draw.2
    simp only [Stmt.relabel, Stmt.rename, declaredNames_relabelAll, names.without_relabel σ,
      names.map_apply_relabel σ]
    rw [show ([] : Renaming) = Renaming.relabel σ [] from rfl, hbody]
    rfl
  | names, labels, .ifElse condition body none, next
  | names, labels, .whileDo condition body, next => by
    simp only [Stmt.relabel, Stmt.rename, condition.rename_relabel names,
      Stmt.renameAll_relabelAll names labels body]
  | names, labels, .ifElse condition thenBranch (some elseBranch), next => by
    simp only [Stmt.relabel, Stmt.rename, condition.rename_relabel names,
      Stmt.renameAll_relabelAll names labels thenBranch,
      Stmt.renameAll_relabelAll names labels elseBranch]
  | names, labels, .block body, next => by
    simp only [Stmt.relabel, Stmt.rename, Stmt.renameAll_relabelAll names labels body]
  | names, labels, .labeled _ body, next => by
    simp only [Stmt.relabel, Stmt.rename, Stmt.renameAll_relabelAll names labels body,
      labels.apply_relabel σ]

theorem Stmt.renameAll_relabelAll :
    ∀ (names labels : Renaming) (stmts : List Stmt) (next : IdCounter),
    Stmt.renameAll (Renaming.relabel σ names) (Renaming.relabel σ labels)
      (Stmt.relabelAll σ stmts) next =
      (Stmt.relabelAll σ (Stmt.renameAll names labels stmts next).1,
        (Stmt.renameAll names labels stmts next).2)
  | _, _, [], _ => rfl
  | names, labels, s :: rest, next => by
    simp only [Stmt.relabelAll, Stmt.renameAll, s.rename_relabel names labels,
      Stmt.renameAll_relabelAll names labels rest]

end

end Renaming

section Rebinding

/-- Assignments that are added are plain, and stay so. -/
theorem Stmt.relabel_assign (name : String) (value : Expr) :
    (Stmt.assign name value).relabel σ = .assign (σ name) (value.relabel σ) := by
  simp only [Stmt.assign, Stmt.relabel, Expr.relabel, σ.plain]

theorem Stmt.declaresVar_relabel (name : String) (s : Stmt) :
    (s.relabel σ).declaresVar (σ name) = s.declaresVar name := by
  cases s with
  | var kind other init =>
    cases kind <;> cases init <;> simp [declaresVar, beq_injective σ.injective]
  | ret value => cases value <;> rfl
  | ifElse _ _ elseBranch => cases elseBranch <;> rfl
  | function fn => cases fn; rfl
  | _ => rfl

theorem upToDeclaration?_relabelAll (name : String) (body : List Stmt) :
    upToDeclaration? (σ name) (Stmt.relabelAll σ body) =
      (upToDeclaration? name body).map (Stmt.relabelAll σ) := by
  induction body with
  | nil => rfl
  | cons s rest ih =>
    rw [Stmt.relabelAll, upToDeclaration?, upToDeclaration?, s.declaresVar_relabel σ, ih]
    split
    · rfl
    · simp only [Option.map_map]
      rfl

/-- The same variables are rebound in place. -/
theorem rebindsInPlace_relabelAll (body : List Stmt) (name : String) :
    rebindsInPlace (Stmt.relabelAll σ body) (σ name) = rebindsInPlace body name := by
  rw [rebindsInPlace, rebindsInPlace, upToDeclaration?_relabelAll, varNames_relabelAll]
  cases upToDeclaration? name body with
  | none => rfl
  | some before =>
    simp only [Option.map_some, mentions_relabelAll, List.count_map_of_injective _ _ σ.injective]

theorem Stmt.promote_relabel (names : List String) (s : Stmt) :
    (s.relabel σ).promote (names.map σ) = (s.promote names).relabel σ := by
  cases s with
  | var kind name init =>
    cases kind <;> cases init <;> simp only [relabel, promote, contains_map_injective σ.injective]
  | ret value => cases value <;> rfl
  | ifElse _ _ elseBranch => cases elseBranch <;> rfl
  | function fn => cases fn; rfl
  | _ => rfl

mutual

theorem Stmt.demote_relabel (names : List String) : ∀ s : Stmt,
    (s.relabel σ).demote (names.map σ) = Stmt.relabelAll σ (s.demote names)
  | .var kind name init => by
    cases kind with
    | var =>
      cases init <;>
      · simp only [Stmt.relabel, Stmt.demote, contains_map_injective σ.injective]
        split <;> simp only [Stmt.relabelAll, Stmt.relabel_assign, Stmt.relabel]
    | _ => cases init <;> rfl
  | .function ⟨_, _, _, _⟩ | .expr _ | .ret none | .ret (some _) | .breakTo _ | .continueTo _
  | .throw _ => rfl
  | .ifElse _ body none | .whileDo _ body | .block body | .labeled _ body => by
    simp only [Stmt.relabel, Stmt.demote, Stmt.demoteAll_relabelAll names body, Stmt.relabelAll]
  | .ifElse _ thenBranch (some elseBranch) => by
    simp only [Stmt.relabel, Stmt.demote, Stmt.demoteAll_relabelAll names thenBranch,
      Stmt.demoteAll_relabelAll names elseBranch, Stmt.relabelAll]

theorem Stmt.demoteAll_relabelAll (names : List String) : ∀ stmts : List Stmt,
    Stmt.demoteAll (names.map σ) (Stmt.relabelAll σ stmts) =
      Stmt.relabelAll σ (Stmt.demoteAll names stmts)
  | [] => rfl
  | s :: rest => by
    simp only [Stmt.relabelAll, Stmt.demoteAll, s.demote_relabel names,
      Stmt.demoteAll_relabelAll names rest, Stmt.relabelAll_append]

end

/-- The declarations of a copied body correspond. -/
theorem rebind_relabelAll (body : List Stmt) : rebind (Stmt.relabelAll σ body) =
    ⟨Stmt.relabelAll σ (rebind body).declarations, Stmt.relabelAll σ (rebind body).body⟩ := by
  have hfilter (test test' : String → Bool) (h : ∀ name, test' (σ name) = test name)
      (names : List String) : (names.map σ).filter test' = (names.filter test).map σ := by
    rw [List.filter_map]
    exact congrArg _ (List.filter_congr fun name _ => h name)
  have hpromote (names : List String) : (Stmt.relabelAll σ body).map (·.promote (names.map σ)) =
      Stmt.relabelAll σ (body.map (·.promote names)) := by
    simp only [Stmt.relabelAll_eq_map, List.map_map]
    exact List.map_congr_left fun s _ => s.promote_relabel σ names
  have hdeclarations (names : List String) :
      (names.map σ).map (Stmt.var .letVar · none) =
        Stmt.relabelAll σ (names.map (Stmt.var .letVar · none)) := by
    simp only [Stmt.relabelAll_eq_map, List.map_map]
    rfl
  have hinPlace := hfilter _ _ (rebindsInPlace_relabelAll σ body) (varNames body).eraseDups
  have hhoisted := hfilter (!rebindsInPlace body ·) (!rebindsInPlace (Stmt.relabelAll σ body) ·)
    (fun name => congrArg Bool.not (rebindsInPlace_relabelAll σ body name))
      (varNames body).eraseDups
  simp only [rebind, varNames_relabelAll, eraseDups_map_injective σ.injective, hinPlace,
    hhoisted, hpromote, Stmt.demoteAll_relabelAll, hdeclarations]

end Rebinding

section Lowering

mutual

/-- Early returns become the corresponding jumps. -/
theorem Stmt.returnsToJumps_relabel (result label : String) : ∀ s : Stmt,
    (s.relabel σ).returnsToJumps (σ result) (σ label) =
      Stmt.relabelAll σ (s.returnsToJumps result label)
  | .var _ _ none | .var _ _ (some _) | .function ⟨_, _, _, _⟩ | .expr _ | .ret none | .breakTo _
  | .continueTo _ | .throw _ => rfl
  | .ret (some value) => by
    simp only [Stmt.relabel, Stmt.returnsToJumps, Stmt.relabelAll, Stmt.relabel_assign,
      Option.map_some]
  | .ifElse _ body none | .whileDo _ body | .block body | .labeled _ body => by
    simp only [Stmt.relabel, Stmt.returnsToJumps,
      Stmt.returnsToJumpsAll_relabelAll result label body, Stmt.relabelAll]
  | .ifElse _ thenBranch (some elseBranch) => by
    simp only [Stmt.relabel, Stmt.returnsToJumps,
      Stmt.returnsToJumpsAll_relabelAll result label thenBranch,
      Stmt.returnsToJumpsAll_relabelAll result label elseBranch, Stmt.relabelAll]

theorem Stmt.returnsToJumpsAll_relabelAll (result label : String) : ∀ stmts : List Stmt,
    Stmt.returnsToJumpsAll (σ result) (σ label) (Stmt.relabelAll σ stmts) =
      Stmt.relabelAll σ (Stmt.returnsToJumpsAll result label stmts)
  | [] => rfl
  | s :: rest => by
    simp only [Stmt.relabelAll, Stmt.returnsToJumpsAll, s.returnsToJumps_relabel result label,
      Stmt.returnsToJumpsAll_relabelAll result label rest, Stmt.relabelAll_append]

end

namespace Block

theorem endsWithReturn_relabelAll (body : List Stmt) :
    endsWithReturn (Stmt.relabelAll σ body) = endsWithReturn body := by
  rw [endsWithReturn, endsWithReturn, Stmt.relabelAll_eq_map, List.getLast?_map]
  cases body.getLast? with
  | none => rfl
  | some s =>
    cases s with
    | var _ _ init => cases init <;> rfl
    | ret value => cases value <;> rfl
    | ifElse _ _ elseBranch => cases elseBranch <;> rfl
    | function fn => cases fn; rfl
    | _ => rfl

theorem needsLabel_relabelAll (body : List Stmt) :
    needsLabel (Stmt.relabelAll σ body) = needsLabel body := by
  rw [needsLabel, needsLabel, endsWithReturn_relabelAll, returnCount_relabelAll]

theorem lowerAll_relabelAll (result : String) (label : Option String) (body : List Stmt) :
    lowerAll (σ result) (label.map σ) (Stmt.relabelAll σ body) =
      Stmt.relabelAll σ (lowerAll result label body) := by
  cases label with
  | none => rfl
  | some label => exact Stmt.returnsToJumpsAll_relabelAll σ result label body

/-- The body of a block is lowered in the same way. -/
theorem lower_relabelAll (result : String) (label : Option String) (trailing : Bool)
    (body : List Stmt) :
    lower (σ result) (label.map σ) trailing (Stmt.relabelAll σ body) =
      Stmt.relabelAll σ (lower result label trailing body) := by
  have hdrop : (Stmt.relabelAll σ body).dropLast = Stmt.relabelAll σ body.dropLast := by
    simp only [Stmt.relabelAll_eq_map, List.map_dropLast]
  have hlast : (Stmt.relabelAll σ body).getLast? = body.getLast?.map (·.relabel σ) := by
    rw [Stmt.relabelAll_eq_map, List.getLast?_map]
  cases trailing with
  | false => exact lowerAll_relabelAll σ result label body
  | true =>
    simp only [lower, if_true, hdrop, hlast, lowerAll_relabelAll, Stmt.relabelAll_append]
    refine congrArg _ ?_
    cases body.getLast? with
    | none => rfl
    | some s =>
      cases s with
      | var _ _ init => cases init <;> rfl
      | ret value =>
        cases value with
        | none => rfl
        | some value => exact congrArg (fun s => [s]) (Stmt.relabel_assign σ result value).symm
      | ifElse _ _ elseBranch => cases elseBranch <;> rfl
      | function fn => cases fn; rfl
      | _ => rfl

/-- The declarations of parameters correspond. -/
theorem parameters_relabel (names : Renaming) (params : List String) (args : List Expr) :
    parameters (Renaming.relabel σ names) (params.map σ) (Expr.relabelAll σ args) =
      Stmt.relabelAll σ (parameters names params args) := by
  induction params generalizing args with
  | nil => rfl
  | cons param params ih =>
    cases args with
    | nil =>
      have hrest := ih []
      rw [Expr.relabelAll] at hrest
      simp only [List.map_cons, Expr.relabelAll, parameters, names.apply_relabel σ, hrest,
        Stmt.relabelAll, Stmt.relabel]
    | cons arg args =>
      simp only [List.map_cons, Expr.relabelAll, parameters, names.apply_relabel σ, ih,
        Stmt.relabelAll, Stmt.relabel]

theorem excess_relabel (params : List String) (args : List Expr) :
    excess (params.map σ) (Expr.relabelAll σ args) = Stmt.relabelAll σ (excess params args) := by
  have heffects : (·.hasSideEffects) ∘ Expr.relabel σ = (·.hasSideEffects) :=
    funext (Expr.hasSideEffects_relabel σ)
  rw [excess, excess, List.length_map, Expr.relabelAll_eq_map, Stmt.relabelAll_eq_map,
    ← List.map_drop, List.filter_map, heffects, List.map_map, List.map_map]
  rfl

end Block

end Lowering

end StaticInliner
