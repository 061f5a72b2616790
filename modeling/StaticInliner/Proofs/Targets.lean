import StaticInliner.Proofs.Counts
import StaticInliner.Proofs.FreeNames

/-!
Callees that can be resolved. Ids stay different during a run, so that the callees decide
whether the result would be accepted again. Copying a body keeps its callees. Only a direct
substitution can spoil one: by a constant in the place of a parameter that is called, or by a
constant in the place of a call that is called itself.
-/
namespace StaticInliner

theorem Node.lasting_unresolved : Node.Lasting Node.unresolved where
  stmt _ _ := rfl
  ident _ := rfl
  assign _ _ _ := rfl

section Places

theorem Expr.callable_operation {e : Expr} (h : e.ownsLayer = false) :
    Callable (e.nodes .nested) ↔ (Node.expr e).unresolved = [] ∧
      ∀ operand ∈ e.children, Callable (operand.nodes .nested) := by
  rw [nodes_operation .nested h, callable_cons, nodesAll_eq_flatMap, callable_flatMap]

theorem Expr.target?_withOperands {e : Expr} (h : (Node.expr e).target? = none)
    (operands : List Expr) :
    (Node.expr (e.withOperands operands)).target? = none := by
  unfold withOperands
  split
  all_goals first | rfl | cases h | exact h

/-- What is left out is what the operation calls. -/
def Frame.isCallee (frame : Frame) : Bool :=
  frame.before.isEmpty && (Node.expr frame.node).target?.isSome

/-- The operation accesses a property of what is left out. -/
def Frame.isAccess (frame : Frame) : Bool :=
  match frame.node with
  | .member _ _ => true
  | _ => false

/-- What is left out is called, or a property of it is. -/
def called : List Frame → Bool
  | [] => false
  | frame :: outer => frame.isCallee || frame.isAccess && called outer

theorem Frame.unresolved_fill (frame : Frame) : ∃ own : Prop, ∀ e,
    (Node.expr (frame.fill e)).unresolved = [] ↔ own ∧
      (frame.isCallee = true → e.isResolvable = true) := by
  obtain ⟨node, before, after, fits⟩ := frame
  simp only [Node.unresolved_eq_nil, Frame.fill, Frame.isCallee]
  cases htarget : (Node.expr node).target? with
  | none =>
    refine ⟨True, fun e => ?_⟩
    rw [Expr.target?_withOperands htarget]
    simp
  | some callee =>
    cases node with
    | call _ _ | new _ _ =>
      cases before with
      | nil => exact ⟨True, fun e => by simp [Expr.withOperands, Node.target?]⟩
      | cons first before =>
        exact ⟨first.isResolvable = true, fun e => by simp [Expr.withOperands, Node.target?]⟩
    | _ => cases htarget

theorem Frame.isResolvable_fill (frame : Frame) : ∃ own : Prop, ∀ e,
    (frame.fill e).isResolvable = true ↔ own ∧ (frame.isAccess = true → e.isResolvable = true) := by
  obtain ⟨node, before, after, fits⟩ := frame
  cases node with
  | member object property =>
    have hnil : before = [] ∧ after = [] := by
      simp only [Expr.children, List.length_singleton] at fits
      exact ⟨List.length_eq_zero_iff.mp (by omega), List.length_eq_zero_iff.mp (by omega)⟩
    obtain ⟨rfl, rfl⟩ := hnil
    exact ⟨property ≠ "",
      fun e => by simp [Frame.fill, Expr.withOperands, Frame.isAccess, Expr.isResolvable]⟩
  | undefined | null | bool _ | number _ | string _ | ident _ | this | function _ =>
    simp [Expr.children] at fits
  | _ =>
    refine ⟨True, fun e => ?_⟩
    simp only [Frame.fill, Frame.isAccess]
    unfold Expr.withOperands
    split <;> simp_all [Expr.isResolvable]

/-- An expression at the end of a path spoils nothing if its own callees can be resolved, and
it can be resolved itself in case it is called. -/
theorem callable_fillPath (path : List Frame) : ∃ own : Prop, ∀ e,
    Callable ((fillPath path e).nodes .nested) ↔
      own ∧ Callable (e.nodes .nested) ∧ (called path = true → e.isResolvable = true) := by
  induction path with
  | nil => exact ⟨True, fun e => by simp [fillPath, called]⟩
  | cons frame outer ih =>
    obtain ⟨own, ih⟩ := ih
    obtain ⟨node, hnode⟩ := frame.unresolved_fill
    obtain ⟨access, haccess⟩ := frame.isResolvable_fill
    refine ⟨own ∧ node ∧
      (∀ operand ∈ frame.before ++ frame.after, Callable (operand.nodes .nested)) ∧
      (called outer = true → access), fun e => ?_⟩
    rw [fillPath, ih,
      Expr.callable_operation (Expr.ownsLayer_of_mem_children (frame.mem_children_fill e)), hnode,
      frame.children_fill, haccess, called]
    simp only [List.mem_append, List.mem_cons, Bool.or_eq_true, Bool.and_eq_true]
    grind

theorem Nest.callable_fill (nest : Nest) : ∃ own : Prop, ∀ piece,
    Callable ((nest.fill piece).nodes .nested) ↔ own ∧ Callable (Stmt.nodesAll .nested piece) := by
  have hstmt (s : Stmt) : (Node.stmt s).unresolved = [] := rfl
  cases nest with
  | thenOf condition elseBranch =>
    cases elseBranch with
    | none =>
      exact ⟨Callable (condition.nodes .nested), fun piece => by
        simp [Nest.fill, Stmt.nodes, callable_cons, hstmt]⟩
    | some body =>
      refine ⟨Callable (condition.nodes .nested) ∧ Callable (Stmt.nodesAll .nested body),
        fun piece => ?_⟩
      simp only [Nest.fill, Stmt.nodes, callable_cons, hstmt, true_and, callable_append]
      exact and_right_comm
  | elseOf condition body =>
    exact ⟨Callable (condition.nodes .nested) ∧ Callable (Stmt.nodesAll .nested body),
      fun piece => by
      simp [Nest.fill, Stmt.nodes, callable_cons, hstmt, and_assoc]⟩
  | whileOf condition =>
    exact ⟨Callable (condition.nodes .nested), fun piece => by
      simp [Nest.fill, Stmt.nodes, callable_cons, hstmt]⟩
  | block | labeled label | function id name params =>
    exact ⟨True, fun piece => by simp [Nest.fill, Stmt.nodes, callable_cons, hstmt]⟩

theorem Stmt.callable_withHead {s : Stmt} (h : s.head?.isSome = true) : ∃ own : Prop, ∀ e,
    Callable ((s.withHead e).nodes .nested) ↔ own ∧ Callable (e.nodes .nested) := by
  refine ⟨Callable (s.bodies.flatMap (Stmt.nodesAll .nested)), fun e => ?_⟩
  have hfn := (Stmt.function?_withHead s e).trans (Stmt.function?_of_head? h)
  rw [Stmt.nodes_parts .nested hfn, Stmt.head?_withHead h, Stmt.bodies_withHead, callable_cons,
    callable_append]
  simp only [Option.toList_some, Expr.nodesAll, List.append_nil]
  exact ⟨fun h => ⟨h.2.2, h.2.1⟩, fun h => ⟨rfl, h.2, h.1⟩⟩

theorem Place.callable_plug (place : Place) : ∃ own : Prop, ∀ piece,
    Callable (place.plug piece).nodes ↔ own ∧ Callable (Stmt.nodesAll .nested piece) := by
  induction place with
  | unit before id name after =>
    refine ⟨Callable (Program.nodes ⟨before⟩) ∧ Callable (Program.nodes ⟨after⟩), fun piece => ?_⟩
    have hnodes : ((Place.unit before id name after).plug piece).nodes =
        Program.nodes ⟨before⟩ ++ Program.nodes ⟨⟨id, name, piece⟩ :: after⟩ := List.flatMap_append
    rw [hnodes, Program.nodes_cons, callable_append, callable_append]
    exact iff_of_eq (by ac_rfl)
  | body outer done nest rest ih =>
    obtain ⟨own, ih⟩ := ih
    obtain ⟨inner, h⟩ := nest.callable_fill
    refine ⟨own ∧ Callable (Stmt.nodesAll .nested done) ∧ inner ∧
      Callable (Stmt.nodesAll .nested rest),
      fun piece => ?_⟩
    rw [plug, ih, Stmt.nodesAll_append, Stmt.nodesAll, callable_append, callable_append, h]
    exact iff_of_eq (by ac_rfl)
  | literal outer done stmt hasHead path id name params rest ih =>
    obtain ⟨own, ih⟩ := ih
    obtain ⟨head, h⟩ := Stmt.callable_withHead hasHead
    obtain ⟨inner, hpath⟩ := callable_fillPath path
    refine ⟨own ∧ Callable (Stmt.nodesAll .nested done) ∧ head ∧ inner ∧
      Callable (Stmt.nodesAll .nested rest), fun piece => ?_⟩
    have hliteral : Callable ((Expr.function ⟨id, name, params, piece⟩).nodes .nested) ↔
        Callable (Stmt.nodesAll .nested piece) := by
      rw [Expr.nodes_function, callable_cons]
      exact and_iff_right rfl
    rw [plug, ih, Stmt.nodesAll_append, Stmt.nodesAll, callable_append, callable_append, h, hpath,
      hliteral]
    -- a function literal may be called
    simp only [Expr.isResolvable, implies_true, and_true]
    exact iff_of_eq (by ac_rfl)

theorem Spot.callable_plug (spot : Spot) : ∃ own : Prop, ∀ prelude e,
    Callable (spot.plug prelude e).nodes ↔ own ∧ Callable (Stmt.nodesAll .nested prelude) ∧
      Callable (e.nodes .nested) ∧ (called spot.path = true → e.isResolvable = true) := by
  obtain ⟨own, hplace⟩ := spot.place.callable_plug
  obtain ⟨head, hhead⟩ := Stmt.callable_withHead spot.hasHead
  obtain ⟨inner, hpath⟩ := callable_fillPath spot.path
  refine ⟨own ∧ Callable (Stmt.nodesAll .nested spot.done) ∧ head ∧ inner ∧
    Callable (Stmt.nodesAll .nested spot.rest), fun prelude e => ?_⟩
  rw [plug, hplace, Stmt.nodesAll_append, Stmt.nodesAll_append, Stmt.nodesAll, callable_append,
    callable_append, callable_append, hhead, hpath]
  exact iff_of_eq (by ac_rfl)

end Places

section Copies

theorem Renaming.apply_ne_empty {names : Renaming} (hnames : ∀ entry ∈ names, entry.2 ≠ "")
    {name : String} (h : name ≠ "") : names.apply name ≠ "" := by
  rcases names.apply_eq_or_mem name with heq | hmem
  · rwa [heq]
  · exact hnames _ hmem

theorem Expr.isResolvable_rename {names : Renaming} (hnames : ∀ entry ∈ names, entry.2 ≠ "") :
    ∀ (e : Expr) (next : IdCounter), e.isResolvable = true →
      (e.rename names next).1.isResolvable = true
  | .ident name, _, h => by
    simp only [isResolvable, bne_iff_ne] at h
    simpa [rename, isResolvable] using Renaming.apply_ne_empty hnames h
  | .member object property, next, h => by
    simp only [isResolvable, Bool.and_eq_true] at h
    simp [rename, isResolvable, h.1, object.isResolvable_rename hnames next h.2]
  | .undefined, _, h | .null, _, h | .bool _, _, h | .number _, _, h => h
  | .string _, _, _ | .this, _, _ | .index _ _, _, _ | .call _ _, _, _ | .new _ _, _, _
  | .assign _ _ _, _, _ | .binary _ _ _, _, _ | .logical _ _ _, _, _ | .unary _ _, _, _
  | .conditional _ _ _, _, _ | .sequence _, _, _ | .array _, _, _
  | .function ⟨_, _, _, _⟩, _, _ => rfl

theorem Stmt.callable_renameAll {names : Renaming} (hnames : ∀ entry ∈ names, entry.2 ≠ "")
    (labels : Renaming) {stmts : List Stmt} (h : Callable (Stmt.nodesAll .nested stmts))
    (next : IdCounter) :
    Callable (Stmt.nodesAll .nested (Stmt.renameAll names labels stmts next).1) := by
  have hcopied : Traced (fun node node' => (∀ entry ∈ names, entry.2 ≠ "") → node.unresolved = [] →
      node'.unresolved = []) (Stmt.nodesAll .nested stmts)
      (Stmt.nodesAll .nested (Stmt.renameAll names labels stmts next).1) := by
    refine .of_forall₂ (Stmt.forall₂_nodesAll_rename (R := fun names _ node node' =>
        (∀ entry ∈ names, entry.2 ≠ "") → node.unresolved = [] → node'.unresolved = [])
      (fun names _ e next hnames hnode => ?_) (fun _ _ _ _ _ _ => rfl)
      (fun _ names _ shadowed _ _ h hnames => ?_) names labels stmts next)
    · rw [Node.unresolved_eq_nil] at hnode ⊢
      cases e with
      | call callee _ | new callee _ =>
        rintro _ ⟨⟩
        exact Expr.isResolvable_rename hnames callee next (hnode callee rfl)
      | function fn =>
        cases fn
        rintro _ ⟨⟩
      | _ => rintro _ ⟨⟩
    · exact h fun entry hentry => hnames entry (names.without_subset shadowed hentry)
  rw [Callable, List.flatMap_eq_nil_iff] at h ⊢
  intro node' hnode'
  obtain ⟨node, hnode, hR⟩ := hcopied node' hnode'
  exact hR hnames (h node hnode)

open Block in
theorem Block.callable_parameters {names : Renaming} (params : List String) {args : List Expr}
    (hargs : ∀ arg ∈ args, Callable (arg.nodes .nested)) :
    Callable (Stmt.nodesAll .nested (parameters names params args)) := by
  induction params generalizing args with
  | nil => exact callable_nil
  | cons param params ih =>
    cases args with
    | nil =>
      rw [parameters, Stmt.nodesAll, callable_append]
      exact ⟨rfl, ih hargs⟩
    | cons arg args =>
      obtain ⟨hfirst, hrest⟩ := List.forall_mem_cons.mp hargs
      rw [parameters, Stmt.nodesAll, callable_append, Stmt.nodes, callable_cons]
      exact ⟨⟨rfl, hfirst⟩, ih hrest⟩

theorem Stmt.callable_map_var (kind : VarKind) (names : List String) :
    Callable (Stmt.nodesAll .nested (names.map (.var kind · none))) := by
  induction names with
  | nil => exact callable_nil
  | cons name rest ih =>
    rw [List.map_cons, Stmt.nodesAll, callable_append]
    exact ⟨rfl, ih⟩

theorem Stmt.callable_map_expr {es : List Expr} (h : ∀ e ∈ es, Callable (e.nodes .nested)) :
    Callable (Stmt.nodesAll .nested (es.map .expr)) := by
  rw [Stmt.nodesAll_eq_flatMap, List.flatMap_map, callable_flatMap]
  intro e he
  rw [Stmt.nodes, callable_cons]
  exact ⟨rfl, h e he⟩

/-- A block calls what the body and the arguments call. -/
theorem Block.callable_prelude (fn : FunctionLit) {args : List Expr} (scope : Nat) (ctx : Context)
    (hbody : Callable (Stmt.nodesAll .nested fn.body))
    (hargs : ∀ arg ∈ args, Callable (arg.nodes .nested)) :
    Callable (Stmt.nodesAll .nested ((draw fn scope ctx).prelude fn args)) := by
  have hnames : ∀ entry ∈ (draw fn scope ctx).names, entry.2 ≠ "" := by
    intro entry hentry
    obtain ⟨id, heq⟩ := Context.exists_freshNames_eq _ _ _ entry hentry
    rw [heq]
    exact freshName_ne_empty _ _
  generalize draw fn scope ctx = drawn at hnames ⊢
  have hcopy : Callable (Stmt.nodesAll .nested (drawn.copy fn).1) :=
    Stmt.callable_renameAll hnames drawn.labels hbody _
  have hlowered : Callable (Stmt.nodesAll .nested (drawn.lowered fn)) := by
    have hfewer := drawn.fewer_lowered fn Node.lasting_unresolved
    rw [Fewer, show List.flatMap _ _ = [] from hcopy] at hfewer
    exact List.sublist_nil.mp hfewer
  have hexcess : Callable (Stmt.nodesAll .nested (excess fn.params args)) :=
    Stmt.callable_map_expr fun e he => hargs e (List.mem_of_mem_drop (List.mem_of_mem_filter he))
  have hblock : Callable (Stmt.nodesAll .nested (drawn.block fn args)) := by
    rw [Drawn.block_eq, Drawn.prologue, Stmt.nodesAll_append, Stmt.nodesAll_append,
      Stmt.nodesAll_append, callable_append, callable_append, callable_append]
    exact ⟨⟨⟨callable_parameters fn.params hargs, hexcess⟩, Stmt.callable_map_var .letVar _⟩,
      hlowered⟩
  unfold Drawn.prelude Drawn.wrapped
  cases drawn.label with
  | none | some _ =>
    simp only [Stmt.nodesAll, Stmt.nodes, List.append_nil, List.cons_append, List.nil_append,
      callable_cons]
    exact ⟨rfl, rfl, hblock⟩

end Copies

section Substitution

theorem Expr.chainRoot_mem_nodes (e : Expr) : Node.expr e.chainRoot ∈ e.nodes .nested := by
  induction e using chainRoot.induct with
  | case1 object property ih => exact List.mem_cons_of_mem _ ih
  | case2 e hmember =>
    rw [chainRoot.eq_2 e hmember]
    exact self_mem_nodes .nested e

/-- A callee stays one that can be resolved unless what stands for its root cannot be. -/
theorem Expr.isResolvable_substitute (bindings : Bindings) {callee : Expr}
    (h : callee.isResolvable = true) :
    (callee.substitute bindings).isResolvable = true ↔
      ∀ name, callee.chainRoot = .ident name → ∀ value ∈ bindings.lookup name,
        value.isResolvable = true := by
  induction callee using chainRoot.induct with
  | case1 object property ih =>
    simp only [isResolvable, Bool.and_eq_true] at h
    simp only [substitute, isResolvable, Bool.and_eq_true, h.1, true_and, ih h.2, chainRoot]
  | case2 e hmember =>
    cases e with
    | ident name =>
      simp only [substitute, chainRoot, ident.injEq, forall_eq']
      cases bindings.lookup name with
      | none => simpa using h
      | some value => simp
    | member object property => exact absurd rfl (hmember object property)
    | _ => simp_all [substitute, chainRoot, isResolvable]

/-- A substitution calls what the expression calls, with the same replacements. -/
theorem Expr.callable_substitute {bindings : Bindings}
    (hbindings : ∀ binding ∈ bindings, Callable (binding.2.nodes .nested)) {e : Expr}
    (h : e.hasFunctionLit = false) : Callable ((e.substitute bindings).nodes .nested) ↔
      ∀ node ∈ e.nodes .nested, ∀ callee ∈ node.target?,
        (callee.substitute bindings).isResolvable = true := by
  refine Expr.induction_of_hasFunctionLit h fun e hlayer ih => ?_
  rcases e.ident_or with ⟨name, rfl⟩ | hname
  · have hvalue : Callable (((bindings.lookup name).getD (.ident name)).nodes .nested) := by
      cases hlookup : bindings.lookup name with
      | none => rfl
      | some value =>
        obtain ⟨first, second, rfl, -⟩ := List.lookup_eq_some_iff.mp hlookup
        exact hbindings (name, value) (by simp)
    simp [Expr.substitute, hvalue, Expr.nodes, Node.target?]
  · have hlayer' : (e.substitute bindings).ownsLayer = false := by
      cases e with
      | ident name => exact absurd rfl (hname name)
      | function _ => cases hlayer
      | _ => rfl
    have htarget : (Node.expr (e.substitute bindings)).target? =
        (Node.expr e).target?.map (·.substitute bindings) := by
      cases e with
      | ident name => exact absurd rfl (hname name)
      | _ => rfl
    have hchildren : (e.substitute bindings).children = e.children.map (·.substitute bindings) := by
      rw [Expr.substitute_withOperands bindings hlayer hname,
        Expr.children_withOperands (List.length_map _)]
    rw [Expr.callable_operation hlayer', Expr.nodes_operation .nested hlayer, List.forall_mem_cons,
      Node.unresolved_eq_nil, htarget, hchildren]
    refine and_congr (by simp) ?_
    simp only [List.forall_mem_map, Expr.mem_nodesAll, forall_exists_index, and_imp]
    exact ⟨fun h node operand hmem => (ih operand hmem).mp (h operand hmem) node,
      fun h operand hmem => (ih operand hmem).mpr fun node => h node operand hmem⟩

namespace Direct

/-- The argument for the last parameter of a name, and the arguments after it. A missing
argument is `undefined`. -/
def argumentFor? (name : String) : List String → List Expr → Option (Expr × List Expr)
  | [], _ => none
  | param :: params, args =>
    argumentFor? name params args.tail <|>
      if param = name then some (args.headD .undefined, args.tail) else none

/-- An argument that cannot be called stands for the parameters of a name itself. -/
def Target.Uncallable (target : Target) (params : List String) (args : List Expr) (name : String) :
    Prop :=
  ∃ arg later, argumentFor? name params args = some (arg, later) ∧
    target.mayDuplicate name arg later = true ∧ arg.isResolvable = false

/-- What stands for a name can be called. -/
def Build.Calls (build : Build) (name : String) : Prop :=
  ∀ value ∈ build.bindings.lookup name, value.isResolvable = true

theorem calls_bindParam {target : Target} {name : String} (hname : target.expr.occurrences name ≠ 0)
    (param : String) (arg : Expr) (later : List Expr) (build : Build) :
    (bindParam target param arg later build).Calls name ↔
      if param = name then target.mayDuplicate name arg later = true → arg.isResolvable = true
      else build.Calls name := by
  by_cases heq : param = name
  · subst heq
    rw [if_pos rfl, bindParam, if_neg hname]
    split
    · next hdup => simp [Build.Calls, hdup]
    · next hdup =>
      obtain ⟨id, htemp⟩ := Context.exists_freshName_eq build.ctx param target.scope
      simp [Build.Calls, hdup, Expr.isResolvable, htemp, freshName_ne_empty]
  · have hne : (name == param) = false := beq_eq_false_iff_ne.mpr (Ne.symm heq)
    rw [if_neg heq, bindParam]
    split
    · split <;> rfl
    · split <;> simp only [Build.Calls, List.lookup_cons, hne]

/-- What a name calls after all parameters are bound. -/
theorem calls_bindParams {target : Target} {name : String}
    (hname : target.expr.occurrences name ≠ 0) (params : List String) (args : List Expr)
    (build : Build) :
    (bindParams target params args build).Calls name ↔ ¬ target.Uncallable params args name ∧
      (argumentFor? name params args = none → build.Calls name) := by
  obtain ⟨extras, last, hlast, hdone⟩ := bindParams_run target
    (fun left rest build' => ¬ target.Uncallable left rest name ∧
        (argumentFor? name left rest = none → build'.Calls name) ↔
      ¬ target.Uncallable params args name ∧
        (argumentFor? name params args = none → build.Calls name))
    (fun param left rest build' h => by
      rw [← h, calls_bindParam hname]
      simp only [Target.Uncallable, argumentFor?]
      cases argumentFor? name left rest.tail with
      | some found => simp
      | none => by_cases heq : param = name <;> simp [heq])
    params args build Iff.rfl
  rw [hdone, ← hlast]
  simp [Build.withExcess, Target.Uncallable, argumentFor?, Build.Calls]

/-- A substitution in the making whose parts call only what can be resolved. -/
structure Build.Resolved (build : Build) : Prop where
  prelude : Callable (Stmt.nodesAll .nested build.prelude)
  sequence : ∀ e ∈ build.sequence, Callable (e.nodes .nested)
  bindings : ∀ binding ∈ build.bindings, Callable (binding.2.nodes .nested)

theorem Build.Resolved.bindParam {build : Build} (h : build.Resolved) (target : Target)
    (param : String) {arg : Expr} (harg : Callable (arg.nodes .nested)) (later : List Expr) :
    (bindParam target param arg later build).Resolved := by
  unfold Direct.bindParam
  split
  · split
    · refine { h with sequence := List.forall_mem_append.mpr ⟨h.sequence, ?_⟩ }
      exact List.forall_mem_singleton.mpr harg
    · exact h
  · split
    · exact { h with bindings := List.forall_mem_cons.mpr ⟨harg, h.bindings⟩ }
    · refine ⟨?_, ?_, List.forall_mem_cons.mpr ⟨rfl, h.bindings⟩⟩
      · rw [Stmt.nodesAll_append, callable_append]
        exact ⟨h.prelude, rfl⟩
      · refine List.forall_mem_append.mpr ⟨h.sequence, List.forall_mem_singleton.mpr ?_⟩
        rw [Expr.nodes, callable_cons, callable_append]
        exact ⟨rfl, rfl, harg⟩

theorem Build.Resolved.bindParams {build : Build} (h : build.Resolved) (target : Target)
    (params : List String) {args : List Expr} (hargs : ∀ arg ∈ args, Callable (arg.nodes .nested)) :
    (bindParams target params args build).Resolved := by
  refine bindParams_keeps target (Q := fun arg => Callable (arg.nodes .nested)) rfl
    (fun param _ later _ harg h => h.bindParam target param harg later)
    (fun extras build hextras h => ?_) params hargs h
  refine { h with sequence := List.forall_mem_append.mpr ⟨h.sequence, fun e he => ?_⟩ }
  exact hextras e (List.mem_of_mem_filter he)

/-- The target of a direct substitution. -/
def Target.ofCall (fn : FunctionLit) (expr : Expr) (scope : Nat) : Target :=
  ⟨expr, (expr.lateReads fn.params {}).late, scope⟩

/-- What is called by the name of a parameter, or as one of its properties. -/
def CallsParam (expr : Expr) (name : String) : Prop :=
  ∃ node ∈ expr.nodes .nested, ∃ callee ∈ node.target?, callee.chainRoot = .ident name

theorem occurrences_of_callsParam {expr : Expr} {name : String} (h : CallsParam expr name) :
    expr.occurrences name ≠ 0 := by
  obtain ⟨node, hnode, callee, hcallee, hroot⟩ := h
  have hmem : Node.expr callee ∈ node.nodes .nested := by
    unfold Node.target? at hcallee
    split at hcallee
    · cases hcallee
      exact List.mem_cons_of_mem _ (List.mem_append_left _ (Expr.self_mem_nodes .nested _))
    · cases hcallee
      exact List.mem_cons_of_mem _ (List.mem_append_left _ (Expr.self_mem_nodes .nested _))
    · cases hcallee
  rw [ne_eq, Expr.occurrences_eq_zero, not_not, ← hroot]
  exact Expr.closed_nodes expr _ (Expr.closed_nodes expr node hnode hmem) callee.chainRoot_mem_nodes

/-- A direct substitution spoils a callee only by what stands for a parameter. -/
theorem callable_inline {fn : FunctionLit} {expr : Expr} (hlit : expr.hasFunctionLit = false)
    (hexpr : Callable (expr.nodes .nested)) {args : List Expr}
    (hargs : ∀ arg ∈ args, Callable (arg.nodes .nested)) (scope : Nat) (ctx : Context) :
    let done := (inline fn expr args scope ctx).1
    Callable (Stmt.nodesAll .nested done.prelude) ∧
      (Callable (done.value.nodes .nested) ↔ ∀ name, CallsParam expr name →
        ¬ (Target.ofCall fn expr scope).Uncallable fn.params args name) := by
  let target := Target.ofCall fn expr scope
  let build := bindParams target fn.params args ⟨[], [], [], ctx⟩
  have hstart : Build.Resolved ⟨[], [], [], ctx⟩ :=
    ⟨callable_nil, List.forall_mem_nil _, List.forall_mem_nil _⟩
  have hbuild : build.Resolved := hstart.bindParams target fn.params hargs
  have hcalls (name : String) (hname : CallsParam expr name) :
      build.Calls name ↔ ¬ target.Uncallable fn.params args name := by
    rw [calls_bindParams (occurrences_of_callsParam hname)]
    simp [Build.Calls]
  have hvalue : Callable ((expr.substitute build.bindings).nodes .nested) ↔
      ∀ name, CallsParam expr name → ¬ target.Uncallable fn.params args name := by
    have hcallees : ∀ node ∈ expr.nodes .nested, ∀ callee ∈ node.target?,
        callee.isResolvable = true :=
      fun node hnode => Node.unresolved_eq_nil.mp (List.flatMap_eq_nil_iff.mp hexpr node hnode)
    rw [Expr.callable_substitute hbuild.bindings hlit]
    constructor
    · intro h name hname
      rw [← hcalls name hname]
      obtain ⟨node, hnode, callee, hcallee, hroot⟩ := hname
      exact (Expr.isResolvable_substitute _ (hcallees node hnode callee hcallee)).mp
        (h node hnode callee hcallee) name hroot
    · intro h node hnode callee hcallee
      refine (Expr.isResolvable_substitute _ (hcallees node hnode callee hcallee)).mpr
        fun name hroot => ?_
      have hname : CallsParam expr name := ⟨node, hnode, callee, hcallee, hroot⟩
      exact (hcalls name hname).mpr (h name hname)
  refine ⟨hbuild.prelude, ?_⟩
  change Callable ((if build.sequence.isEmpty then expr.substitute build.bindings
      else .sequence (build.sequence ++ [expr.substitute build.bindings])).nodes .nested) ↔ _
  rw [← hvalue]
  split
  · exact Iff.rfl
  · rw [Expr.nodes, callable_cons, Expr.nodesAll_eq_flatMap, callable_flatMap,
      List.forall_mem_append, List.forall_mem_singleton]
    exact ⟨fun h => h.2.2, fun h => ⟨rfl, hbuild.sequence, h⟩⟩

end Direct

end Substitution

section Steps

theorem FunctionLit.callable_of_returned? {fn : FunctionLit} {e : Expr} (h : fn.returned? = some e)
    (hbody : Callable (Stmt.nodesAll .nested fn.body)) : Callable (e.nodes .nested) := by
  unfold FunctionLit.returned? at h
  split at h
  · cases h
    rfl
  · cases h
    rfl
  · next value heq =>
    cases h
    rw [heq] at hbody
    refine hbody.subset fun node hnode => ?_
    simp only [Stmt.nodesAll, Stmt.nodes, List.append_nil]
    exact List.mem_cons_of_mem _ hnode
  · cases h

/-- The function returns an expression without function literals, and what takes the place of
the call spoils a callee: an argument in the place of a parameter that is called, or the value
itself, if the call was called. -/
def Inlining.Spoils (i : Inlining) : Prop :=
  ∃ expr ∈ i.definition.function.substitutable?,
    (∃ name, Direct.CallsParam expr name ∧
      (Direct.Target.ofCall i.definition.function expr i.site.scope).Uncallable
        i.definition.function.params i.args name) ∨
    called i.spot.path = true ∧ i.expansion.value.isResolvable = false

/-- What an inlining puts into the program can be resolved unless it spoils a callee. -/
theorem Inlining.Performed.callable_expansion {i : Inlining} (h : i.Performed)
    (hbody : Callable (Stmt.nodesAll .nested i.definition.function.body))
    (hargs : ∀ arg ∈ i.args, Callable (arg.nodes .nested)) :
    Callable (Stmt.nodesAll .nested i.expansion.prelude) ∧
      (Callable (i.expansion.value.nodes .nested) ∧
        (called i.spot.path = true → i.expansion.value.isResolvable = true) ↔ ¬ i.Spoils) := by
  obtain ⟨-, ⟨expr, hexpr, hexpansion⟩ | ⟨hnone, -, hexpansion⟩⟩ := h.expansion_cases
  · obtain ⟨hreturned, hlit, -⟩ := FunctionLit.substitutable?_eq_some_iff.mp hexpr
    have hcallable := FunctionLit.callable_of_returned? hreturned hbody
    obtain ⟨hprelude, hvalue⟩ := Direct.callable_inline hlit hcallable hargs i.site.scope i.before
    rw [← hexpansion] at hprelude hvalue
    refine ⟨hprelude, ?_⟩
    rw [hvalue, Spoils, hexpr]
    simp only [Option.mem_some_iff, exists_eq_left', not_or, not_exists, not_and, Bool.not_eq_false]
  · rw [Block.inline_eq] at hexpansion
    rw [hexpansion, Spoils, hnone]
    refine ⟨Block.callable_prelude _ _ _ hbody hargs, ?_⟩
    -- the value is the result variable
    obtain ⟨id, hresult⟩ := Context.exists_freshName_eq i.before Block.resultStem i.site.scope
    have hvalue :
      (Expr.ident (Block.draw i.definition.function i.site.scope i.before).result).isResolvable =
        true := by
      rw [Expr.isResolvable, bne_iff_ne]
      exact fun heq => freshName_ne_empty _ id (hresult.symm.trans heq)
    refine ⟨?_, fun _ => ⟨rfl, fun _ => hvalue⟩⟩
    rintro - ⟨expr, hexpr, -⟩
    cases hexpr

/-- An inlining keeps a program valid unless it spoils a callee. -/
theorem Inlining.Performed.callable_after {i : Inlining} (h : i.Performed)
    (hbody : Callable (Stmt.nodesAll .nested i.definition.function.body))
    (hbefore : Callable i.programBefore.nodes) : Callable i.programAfter.nodes ↔ ¬ i.Spoils := by
  obtain ⟨own, hplug⟩ := i.spot.callable_plug
  rw [programBefore, hplug] at hbefore
  obtain ⟨hown, hwaiting, hcall, -⟩ := hbefore
  rw [Expr.callable_operation rfl] at hcall
  have hargs : ∀ arg ∈ i.args, Callable (arg.nodes .nested) :=
    fun arg harg => hcall.2 arg (List.mem_cons_of_mem _ harg)
  obtain ⟨hprelude, hvalue⟩ := h.callable_expansion hbody hargs
  rw [programAfter, hplug, Stmt.nodesAll_append, callable_append, ← hvalue]
  exact ⟨fun h => h.2.2, fun h => ⟨hown, ⟨hwaiting, hprelude⟩, h⟩⟩

/-- The inlinings up to a moment kept the program valid if none spoiled a callee. -/
theorem Reaches.callable {start m : Moment} {history : List Inlining} (h : Reaches start history m)
    (hstart : Callable start.program.nodes)
    (hbodies : ∀ i ∈ history, Callable (Stmt.nodesAll .nested i.definition.function.body)) :
    ((∀ i ∈ history, Callable i.programAfter.nodes) ↔ ∀ i ∈ history, ¬ i.Spoils) ∧
      ((∀ i ∈ history, ¬ i.Spoils) → Callable m.program.nodes) := by
  induction h with
  | start =>
    exact ⟨⟨fun _ => List.forall_mem_nil _, fun _ => List.forall_mem_nil _⟩, fun _ => hstart⟩
  | count _ _ ih => exact ih hbodies
  | drop place done rest name _ _ ih =>
    obtain ⟨hsteps, hnow⟩ := ih hbodies
    refine ⟨hsteps, fun hnone => ?_⟩
    obtain ⟨own, hplug⟩ := place.callable_plug
    have hbefore := (hplug _).mp (hnow hnone)
    refine (hplug _).mpr ⟨hbefore.1, ?_⟩
    simp only [Stmt.nodesAll_append, Stmt.nodesAll, callable_append] at hbefore ⊢
    exact ⟨hbefore.2.1, hbefore.2.2.2⟩
  | inline i _ _ hperformed _ ih =>
    rw [List.forall_mem_append, List.forall_mem_singleton] at hbodies
    obtain ⟨hsteps, hnow⟩ := ih hbodies.1
    simp only [List.forall_mem_append, List.forall_mem_singleton, hsteps]
    have hlast (hnone : ∀ j ∈ _, ¬ Inlining.Spoils j) :=
      hperformed.callable_after hbodies.2 (hnow hnone)
    exact ⟨and_congr_right hlast, fun hnone => (hlast hnone.1).mpr hnone.2⟩

namespace Run

variable {policy : DuplicatePolicy} {run : Run} (hgoing : run.fault = none)
  (h : run.moment.Grounded) (hcallable : Callable run.program.nodes)

include hgoing h hcallable

/-- The callees stay resolvable through a target if none is spoiled. -/
theorem callable_target (target : Target) :
    let history := run.inlinings policy target
    let after := run.target policy target
    ((∀ i ∈ history, Callable i.programAfter.nodes) ↔ ∀ i ∈ history, ¬ i.Spoils) ∧
      ((∀ i ∈ history, ¬ i.Spoils) → after.fault = none → Callable after.program.nodes) := by
  obtain ⟨⟨reached, hreaches, hsame, -⟩, htable, -⟩ := Run.led_target policy hgoing h target
  obtain ⟨hsteps, hresult⟩ := hreaches.callable hcallable fun i hi => by
    have hperformed : i.Performed := by
      obtain ⟨first, last, heq⟩ := List.append_of_mem hi
      exact (hreaches.at_inlining heq).2.2.1
    have hmem := hperformed.definition_mem
    rw [htable i hi] at hmem
    have hliteral := Program.literal_of_mem_collect hmem
    refine hcallable.subset fun node hnode => run.program.closed_nodes _ hliteral ?_
    rw [Node.nodes, Expr.nodes_function]
    exact List.mem_cons_of_mem _ hnode
  refine ⟨hsteps, fun hnone hfault => ?_⟩
  have hcallable := hresult hnone
  rwa [hsame hfault] at hcallable

theorem callable_foldl (targets : List Target) :
    let history := run.history policy targets
    let after := targets.foldl (Run.target policy) run
    ((∀ i ∈ history, Callable i.programAfter.nodes) ↔ ∀ i ∈ history, ¬ i.Spoils) ∧
      ((∀ i ∈ history, ¬ i.Spoils) → after.fault = none → Callable after.program.nodes) := by
  induction targets generalizing run with
  | nil =>
    exact ⟨⟨fun _ => List.forall_mem_nil _, fun _ => List.forall_mem_nil _⟩, fun _ _ => hcallable⟩
  | cons target rest ih =>
    obtain ⟨hled, -, -⟩ := Run.led_target policy hgoing h target
    obtain ⟨hfirst, hnow⟩ := callable_target hgoing h hcallable target
    rw [Run.history, List.foldl_cons]
    by_cases hfault : (run.target policy target).fault = none
    · have hrest (hnone : ∀ i ∈ run.inlinings policy target, ¬ i.Spoils) :=
        ih hfault (hled.grounded h) (hnow hnone hfault)
      simp only [List.forall_mem_append]
      refine ⟨(and_congr_left' hfirst).trans (and_congr_right fun hnone => (hrest hnone).1), ?_⟩
      exact fun hnone => (hrest hnone.1).2 hnone.2
    · obtain ⟨hsame, hnil⟩ := foldl_stopped policy (Option.ne_none_iff_isSome.mp hfault) rest
      rw [hsame, hnil, List.append_nil]
      exact ⟨hfirst, hnow⟩

end Run

end Steps

/-- While a run goes on every callee can be resolved if and only if no inlining spoils one,
and then so it is in the result. As long as the new ids fit, the program is valid then. -/
theorem Config.valid_unless_spoiled (config : Config) {program : Program}
    (h : program.validate = .ok ()) (supply : IdSupply) :
    let history := config.inlinings program supply
    let run := config.run program supply
    ((∀ i ∈ history, Callable i.programAfter.nodes) ↔ ∀ i ∈ history, ¬ i.Spoils) ∧
    ((∀ i ∈ history, ¬ i.Spoils) → run.fault = none → Callable run.program.nodes) ∧
    (config.IdsFit program supply →
      ((∀ i ∈ history, i.programAfter.validate = .ok ()) ↔ ∀ i ∈ history, ¬ i.Spoils) ∧
        ((∀ i ∈ history, ¬ i.Spoils) → run.fault = none ∧ run.program.validate = .ok ())) := by
  intro history run
  obtain ⟨hsteps, hresult⟩ := Run.callable_foldl rfl (Run.grounded_start program supply)
    (Program.validate_iff.mp h).2 config.targets
  rw [← config.inlinings_eq_history h supply] at hsteps hresult
  rw [← config.run_eq_foldl h supply] at hresult
  refine ⟨hsteps, hresult, fun hfits => ⟨?_, fun hnone => ?_⟩⟩
  · rw [← hsteps]
    refine forall₂_congr fun i hi => ?_
    obtain ⟨next, hbefore, hcopies⟩ := Config.consistent_inlining hfits hi
    obtain ⟨-, hcovered, hperformed, hsited⟩ := Config.at_inlining hi
    have hdistinct := (hperformed.consistent hsited hbefore hcovered hcopies).distinct
    rw [Program.validate_iff]
    exact and_iff_right hdistinct
  · have hgoing := Config.going_run h hfits
    exact ⟨hgoing, Program.validate_iff.mpr
      ⟨(Config.consistent_run h hfits).distinct, hresult hnone hgoing⟩⟩

theorem Config.valid_unless_spoiled_doubling :
    let history := Config.oneByOne.inlinings .doubling .counter
    let run := Config.oneByOne.run .doubling .counter
    history.length = 3 ∧ (∀ i ∈ history, ¬ i.Spoils) ∧ Callable run.program.nodes ∧
      run.program.validate = .ok () := by
  intro history run
  have hfits : Config.oneByOne.IdsFit .doubling .counter := by decide +kernel
  obtain ⟨-, hcallable, hvalid⟩ :=
    Config.valid_unless_spoiled Config.oneByOne Program.validate_doubling .counter
  obtain ⟨hsteps, hresult⟩ := hvalid hfits
  have hnone := hsteps.mp (by decide +kernel)
  obtain ⟨hgoing, hvalid⟩ := hresult hnone
  exact ⟨by decide +kernel, hnone, hcallable hnone hgoing, hvalid⟩

/-- `A.call = function(g) { return g(); }`, and a function that hands a constant to it. -/
def Program.spoiled : Program :=
  ⟨[⟨0, "host.js",
      [.expr (.assign (.member (.ident "A") "call") none
        (.function ⟨0, none, ["g"], [.ret (some (.call (.ident "g") []))]⟩))]⟩,
    ⟨1, "main.js",
      [.function ⟨1, some "main", [],
        [.ret (some (.call (.member (.ident "A") "call") [.number 5]))]⟩]⟩]⟩

/-- The constant is called, and the result would not be accepted. -/
theorem Program.spoiled_result :
    let run := Config.run ⟨[⟨"host.js", ["call"]⟩], .lastWins⟩ Program.spoiled .counter
    Program.spoiled.validate = .ok () ∧ run.fault = none ∧
      run.program.validate = .error (.unresolvableCallee "main.js") := by
  decide +kernel

end StaticInliner
