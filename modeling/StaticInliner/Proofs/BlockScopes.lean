import StaticInliner.Proofs.Hygiene
import StaticInliner.Proofs.Meaning.Statement

/-!
Occurrences of names in a body, and where each is declared. A `let` or `const` is in scope in
its own block only, everything else in the whole function. A copy of the body goes by all names
that a function declares, in whatever block. So an occurrence that is declared nowhere around
it is treated as what it is, unless some other block of its function declares the same name:
then it is renamed with that declaration, or is taken for a variable of the function below, and
is not looked up where the call stands.
-/
namespace StaticInliner

/-- An occurrence of a name in a body. -/
structure Use where
  name : String
  /-- A function around it, below the body, declares the name in one of its blocks. -/
  shadowed : Bool
  /-- The name is in scope. -/
  resolved : Bool
  deriving DecidableEq, Repr

/-- What is in scope in the whole body of a function. -/
def scopeNames (params : List String) (body : List Stmt) : List String :=
  params ++ hoistedNames body ++ Meaning.lexicalNames body

mutual

/-- The occurrences in an expression, given what the functions around it declare and what is in
scope. -/
@[simp] def Expr.uses (shadowed visible : List String) : Expr → List Use
  | .ident name => [⟨name, shadowed.contains name, visible.contains name⟩]
  | .undefined | .null | .bool _ | .number _ | .string _ | .this => []
  | .member object _ => object.uses shadowed visible
  | .index object key => object.uses shadowed visible ++ key.uses shadowed visible
  | .call callee args | .new callee args =>
    callee.uses shadowed visible ++ Expr.usesAll shadowed visible args
  | .assign target _ value => target.uses shadowed visible ++ value.uses shadowed visible
  | .binary _ left right | .logical _ left right =>
    left.uses shadowed visible ++ right.uses shadowed visible
  | .unary _ operand => operand.uses shadowed visible
  | .conditional condition thenExpr elseExpr =>
    condition.uses shadowed visible ++ thenExpr.uses shadowed visible ++
      elseExpr.uses shadowed visible
  | .sequence items | .array items => Expr.usesAll shadowed visible items
  | .function ⟨_, name, params, body⟩ =>
    Stmt.usesAll (name.toList ++ declaredNames params body ++ shadowed)
      (name.toList ++ scopeNames params body ++ visible) body

@[simp] def Expr.usesAll (shadowed visible : List String) : List Expr → List Use
  | [] => []
  | e :: rest => e.uses shadowed visible ++ Expr.usesAll shadowed visible rest

@[simp] def Stmt.uses (shadowed visible : List String) : Stmt → List Use
  | .var _ _ none | .ret none | .breakTo _ | .continueTo _ => []
  | .var _ _ (some value) | .ret (some value) | .expr value | .throw value =>
    value.uses shadowed visible
  | .function ⟨_, _, params, body⟩ =>
    Stmt.usesAll (declaredNames params body ++ shadowed) (scopeNames params body ++ visible) body
  | .ifElse condition thenBranch none =>
    condition.uses shadowed visible ++
      Stmt.usesAll shadowed (Meaning.lexicalNames thenBranch ++ visible) thenBranch
  | .ifElse condition thenBranch (some elseBranch) =>
    condition.uses shadowed visible ++
      Stmt.usesAll shadowed (Meaning.lexicalNames thenBranch ++ visible) thenBranch ++
        Stmt.usesAll shadowed (Meaning.lexicalNames elseBranch ++ visible) elseBranch
  | .whileDo condition body =>
    condition.uses shadowed visible ++
      Stmt.usesAll shadowed (Meaning.lexicalNames body ++ visible) body
  | .block body | .labeled _ body =>
    Stmt.usesAll shadowed (Meaning.lexicalNames body ++ visible) body

@[simp] def Stmt.usesAll (shadowed visible : List String) : List Stmt → List Use
  | [] => []
  | s :: rest => s.uses shadowed visible ++ Stmt.usesAll shadowed visible rest

end

/-- The occurrences in the body of a literal, which may refer to itself by its name. -/
def FunctionLit.uses (fn : FunctionLit) : List Use :=
  Stmt.usesAll [] (fn.name.toList ++ scopeNames fn.params fn.body) fn.body

section Parts

variable (shadowed visible : List String)

theorem Expr.usesAll_eq_flatMap (es : List Expr) :
    Expr.usesAll shadowed visible es = es.flatMap (·.uses shadowed visible) := by
  induction es with
  | nil => rfl
  | cons e rest ih => rw [Expr.usesAll, ih, List.flatMap_cons]

theorem Stmt.usesAll_eq_flatMap (stmts : List Stmt) :
    Stmt.usesAll shadowed visible stmts = stmts.flatMap (·.uses shadowed visible) := by
  induction stmts with
  | nil => rfl
  | cons s rest ih => rw [Stmt.usesAll, ih, List.flatMap_cons]

theorem Expr.uses_operation {e : Expr} (hlayer : e.ownsLayer = false)
    (hname : ∀ name, e ≠ .ident name) :
    e.uses shadowed visible = e.children.flatMap (·.uses shadowed visible) := by
  cases e with
  | ident name => exact absurd rfl (hname name)
  | function _ => cases hlayer
  | _ => simp [children, Expr.usesAll_eq_flatMap]

theorem Expr.uses_function (fn : FunctionLit) : (Expr.function fn).uses shadowed visible =
    Stmt.usesAll (fn.name.toList ++ declaredNames fn.params fn.body ++ shadowed)
      (fn.name.toList ++ scopeNames fn.params fn.body ++ visible) fn.body := by
  cases fn
  rfl

theorem Stmt.uses_function (fn : FunctionLit) : (Stmt.function fn).uses shadowed visible =
    Stmt.usesAll (declaredNames fn.params fn.body ++ shadowed)
      (scopeNames fn.params fn.body ++ visible) fn.body := by
  cases fn
  rfl

/-- A statement uses what its parts use, in the scope of each body. -/
theorem Stmt.uses_parts {s : Stmt} (h : s.function? = none) : s.uses shadowed visible =
    s.head?.toList.flatMap (·.uses shadowed visible) ++
      s.bodies.flatMap fun body => Stmt.usesAll shadowed
        (Meaning.lexicalNames body ++ visible) body := by
  cases s with
  | var _ _ init => cases init <;> simp [head?, bodies]
  | ret value => cases value <;> simp [head?, bodies]
  | ifElse _ _ elseBranch => cases elseBranch <;> simp [head?, bodies]
  | function _ => cases h
  | _ => simp [head?, bodies]

end Parts

section Idents

/-- The name, if the node is one. -/
def Node.identName : Node → List String
  | .expr (.ident name) => [name]
  | _ => []

/-- The names that occur in an expression, in their order. -/
def Expr.idents (e : Expr) : List String := (e.nodes .nested).flatMap Node.identName

def Stmt.idents (s : Stmt) : List String := (s.nodes .nested).flatMap Node.identName

theorem Expr.flatMap_nodesAll (es : List Expr) :
    (Expr.nodesAll .nested es).flatMap Node.identName = es.flatMap Expr.idents := by
  rw [Expr.nodesAll_eq_flatMap, List.flatMap_assoc]
  rfl

theorem Stmt.flatMap_nodesAll (stmts : List Stmt) :
    (Stmt.nodesAll .nested stmts).flatMap Node.identName = stmts.flatMap Stmt.idents := by
  rw [Stmt.nodesAll_eq_flatMap, List.flatMap_assoc]
  rfl

theorem Expr.idents_operation {e : Expr} (hlayer : e.ownsLayer = false)
    (hname : ∀ name, e ≠ .ident name) :
    e.idents = e.children.flatMap Expr.idents := by
  have hself : Node.identName (.expr e) = [] := by
    cases e with
    | ident name => exact absurd rfl (hname name)
    | _ => rfl
  rw [idents, Expr.nodes_operation .nested hlayer, List.flatMap_cons, hself, List.nil_append,
    Expr.flatMap_nodesAll]

theorem Expr.idents_function (fn : FunctionLit) :
    (Expr.function fn).idents = fn.body.flatMap Stmt.idents := by
  rw [idents, Expr.nodes_function, List.flatMap_cons, Stmt.flatMap_nodesAll]
  rfl

theorem Stmt.idents_function (fn : FunctionLit) :
    (Stmt.function fn).idents = fn.body.flatMap Stmt.idents := by
  rw [idents, Stmt.nodes_function, List.flatMap_cons, Stmt.flatMap_nodesAll]
  rfl

/-- The identifiers of a tree are gathered from its parts. -/
theorem gathers_idents : Gathers ([·]) Expr.idents Stmt.idents where
  parts s hs := by
    rw [Stmt.idents, Stmt.nodes_parts .nested hs, List.flatMap_cons, List.flatMap_append,
      Expr.flatMap_nodesAll, List.flatMap_assoc, funext Stmt.flatMap_nodesAll]
    rfl
  assign _ _ := rfl

end Idents

section Copies

/-- What an occurrence is called in a copy. -/
def Use.written (names : Renaming) (use : Use) : String :=
  if use.shadowed then use.name else names.apply use.name

theorem Renaming.without_without (names : Renaming) {first second both : List String}
    (h : ∀ name, name ∈ both ↔ name ∈ first ∨ name ∈ second) :
    (names.without first).without second = names.without both := by
  rw [without, without, without, List.filter_filter]
  refine List.filter_congr fun entry _ => ?_
  have hmem := h entry.1
  by_cases hfirst : entry.1 ∈ first <;> by_cases hsecond : entry.1 ∈ second <;> simp_all

/-- Each use of a name in a copy is renamed unless it is shadowed. -/
theorem renames_idents : Renames
    (fun names e e' => ∀ (base : Renaming) shadowed visible, names = base.without shadowed →
      e'.idents = (e.uses shadowed visible).map (·.written base))
    (fun names _ s s' => ∀ (base : Renaming) shadowed visible, names = base.without shadowed →
      s'.idents = (s.uses shadowed visible).map (·.written base)) where
  ident names name base shadowed visible hnames := by
    subst hnames
    simp [Expr.idents, Expr.nodes, Node.identName, Use.written, Renaming.apply_without]
  operation names e next hlayer hname hoperands base shadowed visible hnames := by
    rw [Expr.uses_operation _ _ hlayer hname, List.map_flatMap,
      Expr.idents_operation ((e.ownsLayer_withOperands _).trans hlayer)
        (e.withOperands_ne_ident hname _),
      Expr.children_withOperands hoperands.length_eq.symm]
    exact flatMap_eq_of_forall₂ (hoperands.imp fun _ _ h => h base shadowed visible hnames)
  literal names id name params body next hbody base shadowed visible hnames := by
    rw [Expr.idents_function, Expr.uses_function, Stmt.usesAll_eq_flatMap, List.map_flatMap]
    refine flatMap_eq_of_forall₂ (hbody.imp fun _ _ h => h base _ _ ?_)
    rw [hnames]
    refine base.without_without fun other => ?_
    simp only [List.mem_append]
    tauto
  declaration names labels id name params body next hbody base shadowed visible hnames := by
    rw [Stmt.idents_function, Stmt.uses_function, Stmt.usesAll_eq_flatMap, List.map_flatMap]
    refine flatMap_eq_of_forall₂ (hbody.imp fun _ _ h => h base _ _ ?_)
    rw [hnames]
    exact base.without_without fun other => List.mem_append.trans or_comm
  statement names labels s next hfn hfn' hhead hbodies base shadowed visible hnames := by
    rw [gathers_idents.parts _ hfn', Stmt.uses_parts _ _ hfn, List.map_append, List.map_flatMap,
      List.map_flatMap]
    congr 1
    · exact flatMap_eq_of_forall₂ (hhead.imp fun _ _ h => h base shadowed visible hnames)
    · refine flatMap_eq_of_forall₂ (hbodies.imp fun body _ hbody => ?_)
      rw [Stmt.usesAll_eq_flatMap, List.map_flatMap]
      exact flatMap_eq_of_forall₂ (hbody.imp fun _ _ h => h base shadowed _ hnames)

/-- The occurrences of a copied body. -/
theorem Stmt.idents_renameAll (names labels : Renaming) (visible : List String) (stmts : List Stmt)
    (next : IdCounter) : (Stmt.renameAll names labels stmts next).1.flatMap Stmt.idents =
      (Stmt.usesAll [] visible stmts).map (·.written names) := by
  rw [Stmt.usesAll_eq_flatMap, List.map_flatMap]
  refine flatMap_eq_of_forall₂ ((renames_idents.stmts names labels stmts next).imp fun _ _ h => ?_)
  exact h names [] visible (List.filter_eq_self.mpr fun _ _ => rfl).symm

end Copies

section Free

/-- The occurrence is free, if the given names are bound around the body. -/
def Use.isFree (bound : List String) (use : Use) : Bool := !use.shadowed && !bound.contains use.name

/-- The free names of a tree are those of its free uses. -/
theorem byParts_freeNames_uses : ByParts
    (fun e => ∀ bound shadowed visible, e.freeNames (shadowed ++ bound) =
      ((e.uses shadowed visible).filter (·.isFree bound)).map (·.name))
    (fun s => ∀ bound shadowed visible, s.freeNames (shadowed ++ bound) =
      ((s.uses shadowed visible).filter (·.isFree bound)).map (·.name))
    (fun list => ∀ bound shadowed visible, Stmt.freeNamesAll (shadowed ++ bound) list =
      ((Stmt.usesAll shadowed visible list).filter (·.isFree bound)).map (·.name)) := by
  have hlist {α : Type} {f : α → List Use} {g : α → List String} {bound : List String}
    {list : List α}
      (h : ∀ a ∈ list, g a = ((f a).filter (·.isFree bound)).map (·.name)) :
      list.flatMap g = ((list.flatMap f).filter (·.isFree bound)).map (·.name) := by
    rw [List.filter_flatMap, List.map_flatMap]
    exact List.flatMap_congr h
  refine ⟨fun e hlayer ih bound shadowed visible => ?_, fun fn ih bound shadowed visible => ?_,
    fun fn ih bound shadowed visible => ?_, fun s hfn hhead hbodies bound shadowed visible => ?_,
    fun list ih bound shadowed visible => ?_⟩
  · rcases e.ident_or with ⟨name, rfl⟩ | hname
    · by_cases hshadowed : name ∈ shadowed <;> by_cases hbound : name ∈ bound <;>
        simp [Expr.freeNames, Use.isFree, hshadowed, hbound]
    · rw [Expr.freeNames_operation hlayer hname, Expr.uses_operation _ _ hlayer hname]
      exact hlist fun operand hoperand => ih operand hoperand bound shadowed visible
  · rw [Expr.freeNames_function, Expr.uses_function, ← List.append_assoc]
    exact ih bound _ _
  · rw [Stmt.freeNames_function, Stmt.uses_function, ← List.append_assoc]
    exact ih bound _ _
  · rw [Stmt.freeNames_parts hfn, Stmt.uses_parts _ _ hfn, List.filter_append, List.map_append]
    congr 1
    · exact hlist fun e he => hhead e (Option.mem_toList.mp he) bound shadowed visible
    · exact hlist fun body hbody => hbodies body hbody bound shadowed _
  · rw [Stmt.freeNamesAll_eq_flatMap, Stmt.usesAll_eq_flatMap]
    exact hlist fun s hs => ih s hs bound shadowed visible

theorem Stmt.mem_freeNamesAll_of_use {stmts : List Stmt} {bound visible : List String} {use : Use}
    (huse : use ∈ Stmt.usesAll [] visible stmts) (hshadowed : use.shadowed = false)
    (hbound : use.name ∉ bound) : use.name ∈ Stmt.freeNamesAll bound stmts := by
  have hfree : use.isFree bound = true := by simp [Use.isFree, hshadowed, hbound]
  rw [← List.nil_append bound, byParts_freeNames_uses.stmts stmts bound [] visible]
  exact List.mem_map_of_mem (List.mem_filter.mpr ⟨huse, hfree⟩)

end Free

section Resolved

/-- A use of a visible name is resolved. -/
theorem byParts_resolved : ByParts
    (fun e => ∀ shadowed visible, ∀ use ∈ e.uses shadowed visible, use.name ∈ visible →
      use.resolved = true)
    (fun s => ∀ shadowed visible, ∀ use ∈ s.uses shadowed visible, use.name ∈ visible →
      use.resolved = true)
    (fun list => ∀ shadowed own visible, ∀ use ∈ Stmt.usesAll shadowed (own ++ visible) list,
      use.name ∈ visible → use.resolved = true) := by
  refine ⟨fun e hlayer ih shadowed visible use huse hname => ?_,
    fun fn ih shadowed visible use huse hname => ?_,
    fun fn ih shadowed visible use huse hname => ?_,
    fun s hfn hhead hbodies shadowed visible use huse hname => ?_,
    fun list ih shadowed own visible use huse hname => ?_⟩
  · rcases e.ident_or with ⟨name, rfl⟩ | hident
    · obtain rfl := List.mem_singleton.mp huse
      exact List.contains_iff_mem.mpr hname
    · rw [Expr.uses_operation _ _ hlayer hident, List.mem_flatMap] at huse
      obtain ⟨operand, hoperand, huse⟩ := huse
      exact ih operand hoperand _ _ use huse hname
  · rw [Expr.uses_function] at huse
    exact ih _ _ visible use huse hname
  · rw [Stmt.uses_function] at huse
    exact ih _ _ visible use huse hname
  · rw [Stmt.uses_parts _ _ hfn, List.mem_append, List.mem_flatMap, List.mem_flatMap] at huse
    rcases huse with ⟨e, he, huse⟩ | ⟨body, hbody, huse⟩
    · exact hhead e (Option.mem_toList.mp he) _ _ use huse hname
    · exact hbodies body hbody _ _ visible use huse hname
  · rw [Stmt.usesAll_eq_flatMap, List.mem_flatMap] at huse
    obtain ⟨s, hs, huse⟩ := huse
    exact ih s hs _ _ use huse (List.mem_append_right own hname)

/-- What is in scope in the whole body is in scope at every occurrence. -/
theorem FunctionLit.notMem_scopeNames {fn : FunctionLit} {use : Use} (huse : use ∈ fn.uses)
    (hresolved : use.resolved = false) :
    use.name ∉ fn.name.toList ++ scopeNames fn.params fn.body := by
  intro hname
  rw [uses, Stmt.usesAll_eq_flatMap, List.mem_flatMap] at huse
  obtain ⟨s, -, huse⟩ := huse
  rw [byParts_resolved.stmt s _ _ use huse hname] at hresolved
  cases hresolved

end Resolved

section Expansions

/-- What becomes of an occurrence in the body that nothing inside the function declares. -/
inductive Definition.Treats (definition : Definition) (site : CallSite) (ctx ctx' : Context)
    (names : Renaming) (use : Use) : Prop
  /-- It is kept, and means at the call what it means at the definition. -/
  | checked {scope : Nat} : use.name ∈ definition.function.freeVariables →
    use.written names = use.name → ctx.scopes.functionScope? definition.function.id = some scope →
    ctx.scopes.isBoundInFunction scope use.name = false →
    ctx.scopes.isBoundInFunction site.scope use.name = false →
      Treats definition site ctx ctx' names use
  /-- It is kept and not looked up, since a function below declares the name in another block. -/
  | unchecked : use.name ∉ definition.function.freeVariables → use.shadowed = true →
    use.written names = use.name → Treats definition site ctx ctx' names use
  /-- It is renamed and not looked up, since the function declares the name in another block. -/
  | renamed : use.name ∉ definition.function.freeVariables → use.shadowed = false →
    use.name ∈ Stmt.declarationsAll definition.function.body →
    use.name ∉ scopeNames definition.function.params definition.function.body →
    ctx.Draws ctx' (use.written names) → Treats definition site ctx ctx' names use

/-- A block has the occurrences of the arguments, then those of the body one by one, and among
them only names drawn for it. What nothing inside the function declares is treated in one of
three ways. -/
structure Definition.CopiesUses (definition : Definition) (args : List Expr) (site : CallSite)
    (ctx ctx' : Context) (expansion : Expansion) (names : Renaming) (copied : List String) :
    Prop where
  keys : names.map (·.1) = declaredNames definition.function.params definition.function.body
  drawn : ∀ entry ∈ names, ctx.Draws ctx' entry.2
  prelude : expansion.prelude.flatMap Stmt.idents =
    (definition.function.passed args).flatMap Expr.idents ++ copied
  body : Inserted (ctx.Draws ctx') (definition.function.uses.map (·.written names)) copied
  outside : ∀ use ∈ definition.function.uses, use.resolved = false →
    definition.Treats site ctx ctx' names use

/-- An occurrence in the body that nothing inside the function declares keeps its name in the
block and is looked up at the call, unless another block of its function declares the same
name. -/
theorem Definition.uses_expandCall {definition : Definition} {args : List Expr} {site : CallSite}
    {ctx ctx' : Context} {expansion : Expansion}
    (h : definition.expandCall args site ctx = .ok (.expanded expansion, ctx'))
    (hshape : expansion.shape = .block) :
    ∃ names copied, definition.CopiesUses args site ctx ctx' expansion names copied := by
  let fn := definition.function
  obtain ⟨helig, ⟨expr, -, hfinish⟩ | ⟨-, -, hfinish⟩⟩ := expandCall_cases h
  · obtain rfl := CallOutcome.expanded.inj (Prod.ext_iff.mp hfinish).1
    cases hshape
  · obtain ⟨hexpansion, rfl⟩ := Prod.mk.inj hfinish
    obtain rfl := CallOutcome.expanded.inj hexpansion
    let drawn := Block.draw fn site.scope ctx
    have hkeys : drawn.names.map (·.1) = declaredNames fn.params fn.body :=
      Block.map_fst_names_draw fn site.scope ctx
    have hdraws {name : String} (hname : name ∈ drawn.all) :
        ctx.Draws (finish site (Block.inline fn args site.scope ctx)).2 name :=
      Block.draws_inline fn args site.scope ctx hname
    have hrenamed {name : String} (hname : name ∈ declaredNames fn.params fn.body) :
        ctx.Draws (finish site (Block.inline fn args site.scope ctx)).2 (drawn.names.apply name) :=
      hdraws (Block.apply_mem_all fn site.scope ctx hname)
    obtain ⟨scope, hscope, hunbound⟩ := helig.free
    refine ⟨drawn.names, (drawn.lowered fn).flatMap Stmt.idents, hkeys,
      fun entry hentry => hdraws ?_, drawn.gathered_prelude fn gathers_idents args, ?_,
      fun use huse hresolved => ?_⟩
    · simp only [Block.Drawn.all, List.mem_append]
      exact .inl (.inr (List.mem_map_of_mem hentry))
    · rw [FunctionLit.uses,
        ← Stmt.idents_renameAll drawn.names drawn.labels _ fn.body drawn.ctx.nextNodeId]
      refine (drawn.inserted_lowered fn gathers_idents).mono fun name hname => ?_
      rcases List.mem_cons.mp hname with rfl | hname
      · exact hdraws List.mem_cons_self
      · obtain ⟨old, hold, rfl⟩ := List.mem_map.mp hname
        exact hrenamed (mem_declaredNames.mpr (.inr hold))
    · have houtside := FunctionLit.notMem_scopeNames huse hresolved
      rw [List.mem_append, not_or, Option.mem_toList] at houtside
      by_cases hfree : use.name ∈ fn.freeVariables
      · have hopen := FunctionLit.mem_openNames.mp (FunctionLit.mem_freeVariables_iff.mp hfree).1
        have hwritten : use.written drawn.names = use.name := by
          rw [Use.written, Renaming.apply_of_notMem (hkeys ▸ hopen.2), ite_self]
        exact .checked hfree hwritten hscope (hunbound _ hfree).1 (hunbound _ hfree).2
      · cases hshadowed : use.shadowed with
        | true => exact .unchecked hfree hshadowed (if_pos hshadowed)
        | false =>
          have hdeclared : use.name ∈ declaredNames fn.params fn.body := by
            by_contra hdeclared
            have hopen : use.name ∈ fn.openNames :=
              Stmt.mem_freeNamesAll_of_use huse hshadowed hdeclared
            exact hfree (FunctionLit.mem_freeVariables_iff.mpr ⟨hopen, houtside.1⟩)
          have hwritten : use.written drawn.names = drawn.names.apply use.name := by
            rw [Use.written, if_neg (Bool.eq_false_iff.mp hshadowed)]
          have hbody : use.name ∈ Stmt.declarationsAll fn.body :=
            (mem_declaredNames.mp hdeclared).resolve_left fun hparam =>
              houtside.2 (List.mem_append_left _ (List.mem_append_left _ hparam))
          exact .renamed hfree hshadowed hbody houtside.2 (hwritten ▸ hrenamed hdeclared)

end Expansions

section Settling

/-- `function(a) { if (a) { let b = a; total = b; } return total; }`, with a local of an inner
block and a global. -/
def Definition.settling : Definition :=
  { Definition.tallying with
    function := ⟨0, none, ["a"],
      [.ifElse (.ident "a")
        [.var .letVar "b" (some (.ident "a")),
          .expr (.assign (.ident "total") none (.ident "b"))] none,
        .ret (some (.ident "total"))]⟩ }

/-- A function that calls it for its own parameter, which has the name of the local. -/
def Program.settled : Program :=
  ⟨[⟨0, "host.js",
      [.expr
        (.assign (.member (.ident "A") "tally") none (.function Definition.settling.function))]⟩,
    ⟨1, "main.js",
      [.function ⟨1, some "main", ["b"],
        [.ret (some (.call (.member (.ident "A") "tally") [.ident "b"]))]⟩]⟩]⟩

theorem Definition.uses_expandCall_settling :
    let ctx := Context.ofProgram Program.settled .counter
    let site : CallSite := ⟨4, true⟩
    settling.function.uses.map (fun use => (use.name, use.resolved)) =
      [("a", true), ("a", true), ("total", false), ("b", true), ("total", false)] ∧
    ∃ expansion ctx', settling.expandCall [.ident "b"] site ctx = .ok (.expanded expansion, ctx') ∧
      expansion.shape = .block ∧
      ∃ names copied, settling.CopiesUses [.ident "b"] site ctx ctx' expansion names copied := by
  intro ctx site
  have helig : settling.ineligible? site ctx.scopes = .ok none := by decide +kernel
  have hblock : settling.unblockable? site = none := by decide +kernel
  have h := Definition.expandCall_block helig rfl hblock [.ident "b"]
  exact ⟨by decide +kernel, _, _, h, rfl, uses_expandCall h rfl⟩

end Settling

section Straying

/-- `A.last = function(a) { { let x = a; log(x); } return x; }`, where the last `x` is a global,
and a function with a parameter `x` that calls it. -/
def Program.straying : Program :=
  ⟨[⟨0, "host.js",
      [.expr (.assign (.member (.ident "A") "last") none
        (.function ⟨0, none, ["a"],
          [.block [.var .letVar "x" (some (.ident "a")), .expr (.call (.ident "log") [.ident "x"])],
            .ret (some (.ident "x"))]⟩))]⟩,
    ⟨1, "main.js",
      [.function ⟨1, some "main", ["x"],
        [.ret (some (.call (.member (.ident "A") "last") [.bool true]))]⟩]⟩]⟩

/-- The global is renamed with the local of the block, and is not looked up at the call, where
it is hidden by the parameter. -/
theorem Program.straying_renamed :
    let program := Program.straying
    let table := (program.collect "host.js" ["last"] .lastWins).table
    let ctx := Context.ofProgram program .counter
    ∃ i ∈ program.inlinings table ctx, i.expansion.shape = .block ∧
      ∃ use ∈ i.definition.function.uses, use.resolved = false ∧
        use.name ∉ i.expansion.prelude.flatMap Stmt.idents ∧
        use.name ∉ i.definition.function.freeVariables ∧
        i.before.scopes.isBoundInFunction i.site.scope use.name = true := by
  decide +kernel

end Straying

end StaticInliner
