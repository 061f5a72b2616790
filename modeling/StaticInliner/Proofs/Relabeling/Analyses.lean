import StaticInliner.Proofs.Relabeling.Trees

/-!
Analyses of relabeled bodies. Tests give the same answer, and names are collected in the same
order. Only sorting names by their spelling depends on a label, so of sorted names no more is
said than which ones they are.
-/
namespace StaticInliner

section Lists

variable {f : String → String}

theorem contains_map_injective (hf : Function.Injective f) (names : List String) (name : String) :
    (names.map f).contains (f name) = names.contains name := by
  rw [Bool.eq_iff_iff, List.contains_iff_mem, List.contains_iff_mem, List.mem_map_of_injective hf]

theorem beq_injective (hf : Function.Injective f) (a b : String) : (f a == f b) = (a == b) := by
  rw [Bool.eq_iff_iff, beq_iff_eq, beq_iff_eq, hf.eq_iff]

theorem eraseDups_map_injective (hf : Function.Injective f) (names : List String) :
    (names.map f).eraseDups = names.eraseDups.map f := by
  induction hlength : names.length using Nat.strongRecOn generalizing names with
  | ind n ih =>
    cases names with
    | nil => rfl
    | cons name rest =>
      have hfilter : (rest.map f).filter (fun other => !other == f name) =
          (rest.filter (fun other => !other == name)).map f := by
        rw [List.filter_map]
        refine congrArg _ (List.filter_congr fun other _ => ?_)
        rw [Function.comp, beq_injective hf]
      have hshorter : (rest.filter (fun other => !other == name)).length < n := by
        rw [← hlength]
        exact Nat.lt_succ_of_le (List.length_filter_le _ _)
      rw [List.map_cons, List.eraseDups_cons, hfilter, ih _ hshorter _ rfl, List.eraseDups_cons,
        List.map_cons]

theorem lookup_map_injective {α β : Type} (hf : Function.Injective f) (g : α → β)
    (entries : List (String × α)) (name : String) :
    (entries.map (Prod.map f g)).lookup (f name) = (entries.lookup name).map g := by
  induction entries with
  | nil => rfl
  | cons entry rest ih =>
    obtain ⟨other, a⟩ := entry
    rw [List.map_cons, Prod.map_apply, List.lookup_cons, List.lookup_cons, beq_injective hf, ih]
    cases name == other <;> rfl

end Lists

variable (σ : Relabeling)

section QualifiedNames

theorem Relabeling.ne_empty {name : String} (h : name ≠ "") : σ name ≠ "" :=
  fun heq => h (σ.injective (heq.trans σ.empty.symm))

/-- The dotted name with its root replaced; the other segments are properties. -/
def QualifiedName.relabel (name : QualifiedName) : QualifiedName where
  segments := name.segments.modifyHead σ
  ne_nil h := name.ne_nil (List.modifyHead_eq_nil_iff.mp h)
  segment_ne s hs := by
    have hne := name.segment_ne
    cases hsegments : name.segments with
    | nil => exact absurd hsegments name.ne_nil
    | cons root properties =>
      rw [hsegments] at hs hne
      rcases List.mem_cons.mp hs with rfl | hs
      · exact σ.ne_empty (hne root List.mem_cons_self)
      · exact hne s (List.mem_cons_of_mem _ hs)

namespace QualifiedName

variable {σ}

/-- Dotted names stay apart. -/
theorem relabel_injective : Function.Injective (QualifiedName.relabel σ) := by
  intro a b h
  obtain ⟨segments, hnil, hne⟩ := a
  obtain ⟨segments', hnil', hne'⟩ := b
  have hsegments := congrArg QualifiedName.segments h
  simp only [relabel] at hsegments
  cases segments with
  | nil => exact absurd rfl hnil
  | cons root properties =>
    cases segments' with
    | nil => exact absurd rfl hnil'
    | cons root' properties' =>
      simp only [List.modifyHead_cons, List.cons.injEq] at hsegments
      obtain ⟨hroot, rfl⟩ := hsegments
      obtain rfl := σ.injective hroot
      rfl

theorem root_relabel (name : QualifiedName) : (name.relabel σ).root = σ name.root := by
  obtain ⟨segments, hnil, hne⟩ := name
  cases segments with
  | nil => exact absurd rfl hnil
  | cons root properties => rfl

theorem isQualified_relabel (name : QualifiedName) :
    (name.relabel σ).isQualified = name.isQualified := by
  have hlength : (name.relabel σ).length = name.length := List.length_modifyHead
  rw [isQualified, isQualified, hlength]

/-- The last segment of a name with several ones is a property. -/
theorem last_relabel {name : QualifiedName} (h : name.isQualified = true) :
    (name.relabel σ).last = name.last := by
  obtain ⟨segments, hnil, hne⟩ := name
  match segments with
  | [] => exact absurd rfl hnil
  | [_] => cases h
  | _ :: second :: rest => rfl

/-- Only the root of a dotted path is a variable. -/
theorem ofSegments?_modifyHead (segments : List String) :
    ofSegments? (segments.modifyHead σ) = (ofSegments? segments).map (QualifiedName.relabel σ) := by
  cases segments with
  | nil => rfl
  | cons root properties =>
    have hiff : (σ root ≠ "" ∧ ∀ s ∈ properties, s ≠ "") ↔
        root ≠ "" ∧ ∀ s ∈ properties, s ≠ "" := by
      refine and_congr_left fun _ => ⟨fun h heq => h (heq ▸ σ.empty), σ.ne_empty⟩
    by_cases h : root ≠ "" ∧ ∀ s ∈ properties, s ≠ ""
    · rw [ofSegments?, dif_pos ⟨by simp, List.forall_mem_cons.mpr (hiff.mpr h)⟩, ofSegments?,
        dif_pos ⟨by simp, List.forall_mem_cons.mpr h⟩]
      rfl
    · rw [ofSegments?, dif_neg fun hall => h (hiff.mp (List.forall_mem_cons.mp hall.2)),
        ofSegments?, dif_neg fun hall => h (List.forall_mem_cons.mp hall.2)]
      rfl

theorem child?_relabel (name : QualifiedName) (property : String) :
    (name.relabel σ).child? property = (name.child? property).map (QualifiedName.relabel σ) := by
  rw [child?, child?, ← ofSegments?_modifyHead]
  obtain ⟨segments, hnil, hne⟩ := name
  cases segments with
  | nil => exact absurd rfl hnil
  | cons root properties => rfl

theorem relabel_eq_self (h : σ.KeepsNames) (name : QualifiedName) : name.relabel σ = name := by
  obtain ⟨segments, hnil, hne⟩ := name
  cases segments with
  | nil => exact absurd rfl hnil
  | cons root properties => simp only [relabel, List.modifyHead_cons, h root]

theorem beq_relabel (a b : QualifiedName) : (a.relabel σ == b.relabel σ) = (a == b) := by
  rw [Bool.eq_iff_iff, beq_iff_eq, beq_iff_eq, relabel_injective.eq_iff]

end QualifiedName

/-- An expression is a dotted name if its relabeled copy is. -/
theorem Expr.qualifiedName?_relabel (e : Expr) :
    (e.relabel σ).qualifiedName? = e.qualifiedName?.map (QualifiedName.relabel σ) := by
  induction e using qualifiedName?.induct with
  | case1 name => exact QualifiedName.ofSegments?_modifyHead [name]
  | case2 object property ih =>
    rw [relabel, qualifiedName?, qualifiedName?, ih]
    cases object.qualifiedName? with
    | none => rfl
    | some name => exact name.child?_relabel property
  | case3 e hident hmember =>
    cases e with
    | ident name => exact absurd rfl (hident name)
    | member object property => exact absurd rfl (hmember object property)
    | function fn => cases fn; rfl
    | _ => rfl

end QualifiedNames

section Tests

/-- Side effects do not depend on names. -/
@[simp] theorem Expr.hasSideEffects_relabel (f : Labels) (e : Expr) :
    (e.relabel f).hasSideEffects = e.hasSideEffects := by
  induction e using Expr.byOperands with
  | operation e _ ih =>
    have heffect : (e.relabel f).isEffect = e.isEffect := by
      cases e with
      | function fn => cases fn; rfl
      | unary op _ => cases op <;> rfl
      | _ => rfl
    have hany : (e.children.map (·.relabel f)).any (·.hasSideEffects) =
        e.children.any (·.hasSideEffects) := by
      rw [List.any_map, Bool.eq_iff_iff, List.any_eq_true, List.any_eq_true]
      exact exists_congr fun operand => and_congr_right fun hmem => by rw [Function.comp,
        ih operand hmem]
    rw [Expr.hasSideEffects_operation, e.hasSideEffects_operation, Expr.children_relabel,
      heffect, hany]
  | literal fn =>
    cases fn
    rfl

@[simp] theorem Expr.anySideEffects_relabelAll (f : Labels) (es : List Expr) :
    Expr.anySideEffects (Expr.relabelAll f es) = Expr.anySideEffects es := by
  induction es with
  | nil => rfl
  | cons e rest ih =>
    rw [Expr.relabelAll, Expr.anySideEffects, Expr.anySideEffects, ih, hasSideEffects_relabel]

/-- Whether a body reads `this` does not depend on names. -/
theorem readsThis_relabelAll (body : List Stmt) :
    readsThis (Stmt.relabelAll σ body) = readsThis body := by
  refine Stmt.existsNode_relabelAll (fun node => ?_) .ownLayer body
  cases node with
  | stmt s => rfl
  | expr e =>
    cases e with
    | function fn => cases fn; rfl
    | _ => rfl

theorem readsArguments_relabelAll (body : List Stmt) :
    readsArguments (Stmt.relabelAll σ body) = readsArguments body := by
  refine Stmt.existsNode_relabelAll (fun node => ?_) .ownLayer body
  cases node with
  | stmt s => rfl
  | expr e =>
    cases e with
    | ident name =>
      have h := beq_injective σ.injective name "arguments"
      rw [σ.arguments] at h
      exact h
    | function fn => cases fn; rfl
    | _ => rfl

theorem callsName_relabelAll (name : QualifiedName) (body : List Stmt) :
    callsName (name.relabel σ) (Stmt.relabelAll σ body) = callsName name body := by
  refine Stmt.existsNode_relabelAll (fun node => ?_) .nested body
  cases node with
  | stmt s => rfl
  | expr e =>
    cases e with
    | call callee args =>
      simp only [Node.relabel, Expr.relabel, Expr.qualifiedName?_relabel]
      cases callee.qualifiedName? with
      | none => rfl
      | some other => exact other.beq_relabel name
    | function fn => cases fn; rfl
    | _ => rfl

theorem mentions_relabelAll (name : String) (body : List Stmt) :
    mentions (σ name) (Stmt.relabelAll σ body) = mentions name body := by
  refine Stmt.existsNode_relabelAll (fun node => ?_) .nested body
  cases node with
  | stmt s => rfl
  | expr e =>
    cases e with
    | ident other => exact beq_injective σ.injective other name
    | function fn => cases fn; rfl
    | _ => rfl

theorem Expr.hasFunctionLit_relabel (e : Expr) :
    (e.relabel σ).hasFunctionLit = e.hasFunctionLit := by
  refine Expr.foldNodes_relabel id (fun found node => ?_) e false
  cases node with
  | stmt s => rfl
  | expr e =>
    cases e with
    | function fn => cases fn; rfl
    | _ => rfl

theorem Expr.assignsTo_relabel (names : List String) (e : Expr) :
    (e.relabel σ).assignsTo (names.map σ) = e.assignsTo names := by
  refine Expr.foldNodes_relabel id (fun found node => ?_) e false
  cases node with
  | stmt s => rfl
  | expr e =>
    cases e with
    | assign target op value =>
      cases target with
      | ident name => simp only [Node.relabel, relabel, id, contains_map_injective σ.injective]
      | function fn => cases fn; rfl
      | _ => rfl
    | function fn => cases fn; rfl
    | _ => rfl

theorem Expr.occurrences_relabel (name : String) (e : Expr) :
    (e.relabel σ).occurrences (σ name) = e.occurrences name := by
  refine Expr.foldNodes_relabel id (fun count node => ?_) e 0
  cases node with
  | stmt s => rfl
  | expr e =>
    cases e with
    | ident other => simp only [Node.relabel, relabel, id, beq_injective σ.injective]
    | function fn => cases fn; rfl
    | _ => rfl

theorem returnCount_relabelAll (body : List Stmt) :
    returnCount (Stmt.relabelAll σ body) = returnCount body := by
  refine Stmt.foldNodes_relabelAll id (fun count node => ?_) .ownLayer body 0
  cases node with
  | stmt s =>
    cases s with
    | var _ _ init => cases init <;> rfl
    | ret value => cases value <;> rfl
    | ifElse _ _ elseBranch => cases elseBranch <;> rfl
    | function fn => cases fn; rfl
    | _ => rfl
  | expr e => rfl

end Tests

section Names

mutual

/-- The declared names are relabeled with the tree. -/
theorem Stmt.declarations_relabel : ∀ s : Stmt,
    (s.relabel σ).declarations = s.declarations.map σ
  | .var _ _ none | .var _ _ (some _) | .expr _ | .ret none | .ret (some _) | .breakTo _
  | .continueTo _ | .throw _ => rfl
  | .function ⟨_, name, _, _⟩ => by cases name <;> rfl
  | .ifElse _ body none | .whileDo _ body | .block body | .labeled _ body =>
    Stmt.declarationsAll_relabelAll body
  | .ifElse _ thenBranch (some elseBranch) => by
    simp only [Stmt.relabel, Stmt.declarations, Stmt.declarationsAll_relabelAll thenBranch,
      Stmt.declarationsAll_relabelAll elseBranch, List.map_append]

theorem Stmt.declarationsAll_relabelAll : ∀ stmts : List Stmt,
    Stmt.declarationsAll (Stmt.relabelAll σ stmts) = (Stmt.declarationsAll stmts).map σ
  | [] => rfl
  | s :: rest => by
    simp only [Stmt.relabelAll, Stmt.declarationsAll, s.declarations_relabel,
      Stmt.declarationsAll_relabelAll rest, List.map_append]

end

theorem declaredNames_relabelAll (params : List String) (body : List Stmt) :
    declaredNames (params.map σ) (Stmt.relabelAll σ body) = (declaredNames params body).map σ := by
  rw [declaredNames, declaredNames, Stmt.declarationsAll_relabelAll, ← List.map_append,
    eraseDups_map_injective σ.injective]

theorem repeated_map (seen names : List String) :
    repeated (seen.map σ) (names.map σ) = (repeated seen names).map σ := by
  induction names generalizing seen with
  | nil => rfl
  | cons name rest ih =>
    simp only [List.map_cons, repeated, contains_map_injective σ.injective]
    split
    · rw [ih, List.map_cons]
    · exact ih (name :: seen)

theorem FunctionLit.repeatedParams_relabel (fn : FunctionLit) :
    (fn.relabel σ).repeatedParams = fn.repeatedParams.map σ := by
  have hfilter : ((Stmt.declarationsAll fn.body).map σ).filter ((fn.params.map σ).contains ·) =
      ((Stmt.declarationsAll fn.body).filter (fn.params.contains ·)).map σ := by
    rw [List.filter_map]
    refine congrArg _ (List.filter_congr fun name _ => ?_)
    exact contains_map_injective σ.injective fn.params name
  rw [repeatedParams, repeatedParams, relabel, Stmt.declarationsAll_relabelAll, hfilter,
    ← eraseDups_map_injective σ.injective, List.map_append]
  exact congrArg _ (congrArg (· ++ _) (repeated_map σ [] fn.params))

theorem hoistedNames_relabelAll (body : List Stmt) :
    hoistedNames (Stmt.relabelAll σ body) = (hoistedNames body).map σ := by
  refine Stmt.foldNodes_relabelAll (List.map σ) (fun names node => ?_) .ownLayer body []
  cases node with
  | stmt s =>
    cases s with
    | var kind _ init => cases kind <;> cases init <;> simp [Node.relabel]
    | ret value => cases value <;> rfl
    | ifElse _ _ elseBranch => cases elseBranch <;> rfl
    | function fn =>
      obtain ⟨id, name, params, inner⟩ := fn
      cases name <;> simp [Node.relabel]
    | _ => rfl
  | expr e => rfl

theorem varNames_relabelAll (body : List Stmt) :
    varNames (Stmt.relabelAll σ body) = (varNames body).map σ := by
  rw [varNames, varNames, List.map_reverse]
  refine congrArg List.reverse
    (Stmt.foldNodes_relabelAll (List.map σ) (fun names node => ?_) .ownLayer body [])
  cases node with
  | stmt s =>
    cases s with
    | var kind _ init => cases kind <;> cases init <;> rfl
    | ret value => cases value <;> rfl
    | ifElse _ _ elseBranch => cases elseBranch <;> rfl
    | function fn => cases fn; rfl
    | _ => rfl
  | expr e => rfl

theorem declaredLabels_relabelAll (body : List Stmt) :
    declaredLabels (Stmt.relabelAll σ body) = (declaredLabels body).map σ := by
  rw [declaredLabels, declaredLabels, ← eraseDups_map_injective σ.injective]
  refine congrArg _ (Stmt.foldNodes_relabelAll (List.map σ)
    (fun labels node => ?_) .ownLayer body [])
  cases node with
  | stmt s =>
    cases s with
    | var _ _ init => cases init <;> rfl
    | ret value => cases value <;> rfl
    | ifElse _ _ elseBranch => cases elseBranch <;> rfl
    | function fn => cases fn; rfl
    | labeled label inner => simp [Node.relabel]
    | _ => rfl
  | expr e => rfl

end Names

section FreeNames

/-- The free names of every tree are relabeled with it. -/
theorem byParts_freeNames_relabel : ByParts
    (fun e => ∀ bound, (e.relabel σ).freeNames (bound.map σ) = (e.freeNames bound).map σ)
    (fun s => ∀ bound, (s.relabel σ).freeNames (bound.map σ) = (s.freeNames bound).map σ)
    (fun list => ∀ bound, Stmt.freeNamesAll (bound.map σ) (Stmt.relabelAll σ list) =
      (Stmt.freeNamesAll bound list).map σ) := by
  refine ⟨fun e hlayer ih bound => ?_, fun fn ih bound => ?_, fun fn ih bound => ?_,
    fun s hfn hhead hbodies bound => ?_, fun list ih bound => ?_⟩
  · rcases e.ident_or with ⟨name, rfl⟩ | hname
    · simp only [Expr.relabel, Expr.freeNames, contains_map_injective σ.injective]
      split <;> rfl
    · rw [Expr.freeNames_operation ((e.shape_relabel σ).1.trans hlayer)
        (Expr.relabel_ne_ident σ hname),
        Expr.freeNames_operation hlayer hname, Expr.children_relabel, List.flatMap_map,
        List.map_flatMap]
      exact List.flatMap_congr fun operand hoperand => ih operand hoperand bound
  · rw [Expr.relabel_function, Expr.freeNames_function, Expr.freeNames_function, ← ih]
    simp only [FunctionLit.relabel, declaredNames_relabelAll, List.map_append, Option.toList_map]
  · rw [Stmt.relabel_function, Stmt.freeNames_function, Stmt.freeNames_function, ← ih]
    simp only [FunctionLit.relabel, declaredNames_relabelAll, List.map_append]
  · obtain ⟨hhead', hbodies', hfn', -, -⟩ := s.parts_relabel σ
    rw [Stmt.freeNames_parts (by rw [hfn', hfn]; rfl), Stmt.freeNames_parts hfn, hhead', hbodies',
      Option.toList_map, List.flatMap_map, List.flatMap_map, List.map_append, List.map_flatMap,
      List.map_flatMap]
    rw [List.flatMap_congr fun e he => hhead e (Option.mem_toList.mp he) bound,
      List.flatMap_congr fun body hbody => hbodies body hbody bound]
  · simp only [Stmt.freeNamesAll_eq_flatMap, Stmt.relabelAll_eq_map, List.flatMap_map,
      List.map_flatMap]
    exact List.flatMap_congr fun s hs => ih s hs bound

theorem FunctionLit.mem_freeVariables_relabel (fn : FunctionLit) (name : String) :
    name ∈ (fn.relabel σ).freeVariables ↔ ∃ old ∈ fn.freeVariables, σ old = name := by
  have h := (byParts_freeNames_relabel σ).expr (.function fn) []
  rw [Expr.relabel_function] at h
  simp only [freeVariables, mem_sortedNames]
  rw [show Expr.freeNames [] (.function (fn.relabel σ)) = _ from h, List.mem_map]

/-- If no name is replaced then the sorted list of free variables stays. -/
theorem FunctionLit.freeVariables_relabel (h : σ.KeepsNames) (fn : FunctionLit) :
    (fn.relabel σ).freeVariables = fn.freeVariables := by
  have hfree := (byParts_freeNames_relabel σ).expr (.function fn) []
  rw [Expr.relabel_function, List.map_nil, h.map] at hfree
  exact congrArg sortedNames hfree

theorem capturedNames_relabelAll (h : σ.KeepsNames) (body : List Stmt) :
    capturedNames (Stmt.relabelAll σ body) = capturedNames body := by
  refine congrArg sortedNames
    (Stmt.foldNodes_relabelAll id (fun names node => ?_) .ownLayer body [])
  simp only [id, Node.function?_relabel]
  cases node.function? with
  | none => rfl
  | some fn => simp only [Option.map_some, fn.freeVariables_relabel σ h]

theorem mem_capturedNames {body : List Stmt} {name : String} : name ∈ capturedNames body ↔
    ∃ node ∈ Stmt.nodesAll .ownLayer body, ∃ fn ∈ node.function?, name ∈ fn.freeVariables := by
  rw [capturedNames, mem_sortedNames, Stmt.foldNodes_eq_foldl,
    foldl_collect (fun node => node.function?.toList.flatMap (·.freeVariables)), List.nil_append]
  · simp only [List.mem_flatMap, Option.mem_toList, Option.mem_def]
  · intro names node
    cases node.function? with
    | none => simp
    | some fn => simp

/-- As a set the captured names are relabeled with the tree. -/
theorem mem_capturedNames_relabelAll (body : List Stmt) (name : String) :
    name ∈ capturedNames (Stmt.relabelAll σ body) ↔ ∃ old ∈ capturedNames body, σ old = name := by
  simp only [mem_capturedNames, Stmt.nodesAll_relabelAll, List.mem_map]
  constructor
  · rintro ⟨_, ⟨node, hnode, rfl⟩, fn', hfn', hname⟩
    rw [Node.function?_relabel] at hfn'
    obtain ⟨fn, hfn, rfl⟩ := Option.map_eq_some_iff.mp hfn'
    obtain ⟨old, hold, rfl⟩ := (fn.mem_freeVariables_relabel σ name).mp hname
    exact ⟨old, ⟨node, hnode, fn, hfn, hold⟩, rfl⟩
  · rintro ⟨old, ⟨node, hnode, fn, hfn, hold⟩, rfl⟩
    refine ⟨_, ⟨node, hnode, rfl⟩, fn.relabel σ, ?_,
      (fn.mem_freeVariables_relabel σ _).mpr ⟨old, hold, rfl⟩⟩
    rw [Node.function?_relabel]
    exact Option.mem_map_of_mem _ hfn

end FreeNames

end StaticInliner
