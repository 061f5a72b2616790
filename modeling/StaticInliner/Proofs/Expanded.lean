import Mathlib.Data.List.Flatten
import StaticInliner.Proofs.Copies
import StaticInliner.Proofs.Expansion
import StaticInliner.Proofs.Layers

/-!
What an expansion puts into the caller. Function literals of the arguments are taken
over at most once and those of the body are copied under new ids; every name that is
declared in the caller's own layer was drawn for the purpose, and every other name
comes from an argument or from the body.
-/
namespace StaticInliner

section Spelled

/-- The names spelled at some nodes. -/
def spelled (nodes : List Node) : List String := nodes.flatMap Node.written

@[simp] theorem spelled_nil : spelled [] = [] := rfl

@[simp] theorem spelled_append (first second : List Node) :
    spelled (first ++ second) = spelled first ++ spelled second := List.flatMap_append

theorem spelled_cons (node : Node) (nodes : List Node) :
    spelled (node :: nodes) = node.written ++ spelled nodes := List.flatMap_cons

theorem spelled_flatMap {α : Type} (f : α → List Node) (list : List α) :
    spelled (list.flatMap f) = list.flatMap fun a => spelled (f a) := List.flatMap_assoc

theorem mem_writtenNames_iff_spelled {body : List Stmt} {name : String} :
    name ∈ writtenNames body ↔ name ∈ spelled (Stmt.nodesAll .nested body) := by
  rw [mem_writtenNames, spelled, List.mem_flatMap]

/-- The spelled names are those of variables and of labels. -/
theorem mem_spelled_iff_marks {nodes : List Node} {name : String} :
    name ∈ spelled nodes ↔ .name name ∈ marksOf nodes ∨ .label name ∈ marksOf nodes := by
  simp only [spelled, marksOf, List.mem_flatMap, Node.mem_written, and_or_left, exists_or]

def Expr.spelled (e : Expr) : List String := StaticInliner.spelled (e.nodes .nested)

def Expr.spelledAll (es : List Expr) : List String :=
  StaticInliner.spelled (Expr.nodesAll .nested es)

def Stmt.spelledAll (stmts : List Stmt) : List String :=
  StaticInliner.spelled (Stmt.nodesAll .nested stmts)

theorem Expr.spelledAll_eq_flatMap (es : List Expr) :
    Expr.spelledAll es = es.flatMap Expr.spelled := by
  rw [Expr.spelledAll, Expr.nodesAll_eq_flatMap, spelled_flatMap]
  rfl

@[simp] theorem Stmt.spelledAll_append (first second : List Stmt) :
    Stmt.spelledAll (first ++ second) = Stmt.spelledAll first ++ Stmt.spelledAll second := by
  rw [Stmt.spelledAll, Stmt.nodesAll_append, spelled_append]
  rfl

theorem Stmt.spelledAll_cons (s : Stmt) (rest : List Stmt) :
    Stmt.spelledAll (s :: rest) = StaticInliner.spelled (s.nodes .nested) ++ Stmt.spelledAll rest :=
  List.flatMap_append

/-- An operation spells what its operands spell. -/
theorem Expr.spelled_children {e : Expr} (h : e.children ≠ []) :
    e.spelled = e.children.flatMap Expr.spelled := by
  obtain ⟨operand, hoperand⟩ := List.exists_mem_of_ne_nil _ h
  have hwritten : (Node.expr e).written = [] := by
    cases e with
    | ident _ | function _ => cases hoperand
    | _ => rfl
  rw [Expr.spelled, Expr.nodes_operation .nested (Expr.ownsLayer_of_mem_children hoperand),
    spelled_cons, hwritten, List.nil_append, ← Expr.spelledAll, Expr.spelledAll_eq_flatMap]

theorem Expr.layers_children (owner : ChangedBody) {e : Expr} (h : e.children ≠ []) :
    e.layers owner = e.children.flatMap (·.layers owner) := by
  obtain ⟨operand, hoperand⟩ := List.exists_mem_of_ne_nil _ h
  exact Expr.layers_operation owner (Expr.ownsLayer_of_mem_children hoperand)

end Spelled

namespace Context

/-- Names were drawn that mean nothing as seen from a scope. -/
structure DrewAt (ctx : Context) (scope : Nat) (new : List String) (ctx' : Context) : Prop
    extends ctx.Drew new ctx' where
  unbound : ∀ name ∈ new, ctx.scopes.isBound scope name = false

namespace DrewAt

theorem refl (ctx : Context) (scope : Nat) : ctx.DrewAt scope [] ctx := ⟨.refl ctx, nofun⟩

theorem scopes_eq {ctx ctx' : Context} {scope : Nat} {new : List String}
    (h : ctx.DrewAt scope new ctx') : ctx'.scopes = ctx.scopes := by rw [h.others]

/-- Names drawn one after another. -/
theorem trans {ctx ctx' ctx'' : Context} {scope : Nat} {new new' : List String}
    (h : ctx.DrewAt scope new ctx') (h' : ctx'.DrewAt scope new' ctx'') :
    ctx.DrewAt scope (new ++ new') ctx'' := by
  refine ⟨h.toDrew.trans h'.toDrew, fun name hname => ?_⟩
  rcases List.mem_append.mp hname with hname | hname
  · exact h.unbound name hname
  · exact h.scopes_eq ▸ h'.unbound name hname

end DrewAt

theorem drewAt_freshName (ctx : Context) (base : String) (scope : Nat) :
    ctx.DrewAt scope [(ctx.freshName base scope).1] (ctx.freshName base scope).2 :=
  ⟨ctx.drew_freshName base scope,
    List.forall_mem_singleton.mpr (ctx.isBound_freshName base scope)⟩

/-- The run over the names to be replaced. -/
theorem drewAt_freshNames (ctx : Context) (bases : List String) (scope : Nat) :
    ctx.DrewAt scope ((ctx.freshNames bases scope).1.map (·.2)) (ctx.freshNames bases scope).2 := by
  induction bases generalizing ctx with
  | nil => exact .refl ctx scope
  | cons base rest ih => exact (ctx.drewAt_freshName base scope).trans (ih _)

end Context

/-- The names drawn for a block mean nothing as seen from the scope. -/
theorem Block.drewAt_draw (fn : FunctionLit) (scope : Nat) (ctx : Context) :
    ctx.DrewAt scope (Block.draw fn scope ctx).all (Block.draw fn scope ctx).ctx := by
  have hlabel (ctx : Context) : ctx.DrewAt scope (freshLabel fn.body scope ctx).1.toList
      (freshLabel fn.body scope ctx).2 := by
    unfold freshLabel
    split
    · exact ctx.drewAt_freshName labelStem scope
    · exact .refl ctx scope
  exact (((ctx.drewAt_freshName resultStem scope).trans (hlabel _)).trans
    (Context.drewAt_freshNames _ _ scope)).trans (Context.drewAt_freshNames _ _ scope)

/-- How many function literals an expansion copies. -/
def Expansion.copies (expansion : Expansion) (fn : FunctionLit) : Nat :=
  match expansion.shape with
  | .direct => 0
  | .block => (functionIds (Stmt.nodesAll .nested fn.body)).length

/-- What an expansion consists of, and what it takes from the context: the literals come
from the arguments, each at most once, or from a copy with new ids; the names come from
the arguments, from the body, or were drawn. -/
structure Expansion.Sound (fn : FunctionLit) (args : List Expr) (site : Nat) (ctx : Context)
    (expansion : Expansion) (ctx' : Context) (copy : List Stmt) (drawn : List String) : Prop where
  scopes : ctx'.scopes = Stmt.declareAll site expansion.prelude ctx.scopes
  counter : ctx'.nextNodeId = ctx.nextNodeId.advance (expansion.copies fn)
  ids : (functionIds (Stmt.nodesAll .nested copy)).Sublist
    (ctx.nextNodeId.drawn (expansion.copies fn))
  layers : ∀ owner, ∃ kept, Stmt.layersAll owner expansion.prelude =
      kept ++ Stmt.layersAll owner copy ∧
    (kept ++ expansion.value.layers owner).Sublist (args.flatMap (·.layers owner))
  nodup : drawn.Nodup
  fresh : ∀ name ∈ drawn, name ∉ ctx.names.reserved
  unbound : ∀ name ∈ drawn, ctx.scopes.isBound site name = false
  reserved : ctx'.names.reserved = drawn.reverse ++ ctx.names.reserved
  declared : Stmt.declarationsAll expansion.prelude ++ declaredLabels expansion.prelude ⊆ drawn
  spelled : Stmt.spelledAll expansion.prelude ++ expansion.value.spelled ⊆
    drawn ++ (Stmt.spelledAll fn.body ++ args.flatMap Expr.spelled)

section Direct

open Direct

/-- A substitution in the making after some arguments have been dealt with. -/
structure Direct.Build.Extends (scope : Nat) (args : List Expr) (drawn : List String)
    (build build' : Build) : Prop where
  prelude : build'.prelude = build.prelude ++ drawn.map (.var .var · none)
  drew : build.ctx.DrewAt scope drawn build'.ctx
  sequence : ∃ more, build'.sequence = build.sequence ++ more ∧
    (∀ owner, (more.flatMap (·.layers owner)).Sublist (args.flatMap (·.layers owner))) ∧
    more.flatMap Expr.spelled ⊆ drawn ++ args.flatMap Expr.spelled
  bindings : ∃ more, build'.bindings = more ++ build.bindings ∧
    ∀ binding ∈ more, (∀ owner, binding.2.layers owner = []) ∧
      binding.2.spelled ⊆ drawn ++ args.flatMap Expr.spelled

namespace Direct.Build.Extends

variable {scope : Nat} {args args' : List Expr} {drawn drawn' : List String}
  {build build' build'' : Build}

theorem refl (scope : Nat) (args : List Expr) (build : Build) :
    Extends scope args [] build build where
  prelude := (List.append_nil _).symm
  drew := .refl _ scope
  sequence := ⟨[], (List.append_nil _).symm, fun _ => List.nil_sublist _, List.nil_subset _⟩
  bindings := ⟨[], rfl, nofun⟩

theorem trans (h : Extends scope args drawn build build')
    (h' : Extends scope args' drawn' build' build'') :
    Extends scope (args ++ args') (drawn ++ drawn') build build'' where
  prelude := by rw [h'.prelude, h.prelude, List.map_append, List.append_assoc]
  drew := h.drew.trans h'.drew
  sequence := by
    obtain ⟨more, heq, hlayers, hspelled⟩ := h.sequence
    obtain ⟨more', heq', hlayers', hspelled'⟩ := h'.sequence
    refine ⟨more ++ more', by rw [heq', heq, List.append_assoc], fun owner => ?_, ?_⟩
    · rw [List.flatMap_append, List.flatMap_append]
      exact (hlayers owner).append (hlayers' owner)
    · rw [List.flatMap_append, List.flatMap_append]
      grind
  bindings := by
    obtain ⟨more, heq, hmore⟩ := h.bindings
    obtain ⟨more', heq', hmore'⟩ := h'.bindings
    refine ⟨more' ++ more, by rw [heq', heq, List.append_assoc], fun binding hbinding => ?_⟩
    rw [List.flatMap_append]
    rcases List.mem_append.mp hbinding with hbinding | hbinding
    · exact ⟨(hmore' binding hbinding).1, by have := (hmore' binding hbinding).2; grind⟩
    · exact ⟨(hmore binding hbinding).1, by have := (hmore binding hbinding).2; grind⟩

end Direct.Build.Extends

/-- An argument that may be duplicated is a constant or a variable. -/
theorem Direct.Target.layers_of_mayDuplicate {target : Target} {param : String} {arg : Expr}
    {later : List Expr} (h : target.mayDuplicate param arg later = true) (owner : ChangedBody) :
    arg.layers owner = [] := by
  cases arg with
  | undefined | null | bool _ | number _ | string _ | ident _ => rfl
  | _ => cases h

/-- One parameter extends the substitution by at most one temporary. -/
theorem Direct.extends_bindParam (target : Target) (param : String) (arg : Expr)
    (later : List Expr) (build : Build) :
    ∃ drawn, build.Extends target.scope [arg] drawn (bindParam target param arg later build) := by
  have hspelled : arg.spelled ⊆ [] ++ [arg].flatMap Expr.spelled := by simp
  have hassign (temp : String) :
      (Expr.assign (.ident temp) none arg).spelled = [temp] ++ arg.spelled := rfl
  unfold bindParam
  split
  · split
    · exact ⟨[], { Build.Extends.refl target.scope [arg] build with
        sequence := ⟨[arg], rfl, fun _ => .refl _, List.Subset.refl _⟩ }⟩
    · exact ⟨[], .refl target.scope [arg] build⟩
  · split
    · next hdup =>
      exact ⟨[], { Build.Extends.refl target.scope [arg] build with
        bindings := ⟨[(param, arg)], rfl, List.forall_mem_singleton.mpr
          ⟨Target.layers_of_mayDuplicate hdup, hspelled⟩⟩ }⟩
    · refine ⟨[(build.ctx.freshName param target.scope).1], rfl, build.ctx.drewAt_freshName _ _,
        ⟨[.assign (.ident (build.ctx.freshName param target.scope).1) none arg], rfl, ?_, ?_⟩,
        ⟨[(param, .ident (build.ctx.freshName param target.scope).1)], rfl, ?_⟩⟩
      · intro owner
        simp [Expr.layers]
      · rw [List.flatMap_singleton, List.flatMap_singleton, hassign]
        exact List.Subset.refl _
      · exact List.forall_mem_singleton.mpr
          ⟨fun _ => rfl, List.subset_append_of_subset_left _ (List.Subset.refl _)⟩

/-- The run over the parameters. -/
theorem Direct.extends_bindParams (target : Target) (params : List String) (args : List Expr)
    (build : Build) : ∃ drawn,
      build.Extends target.scope args drawn (bindParams target params args build) := by
  induction params generalizing args build with
  | nil =>
    refine ⟨[], { Build.Extends.refl target.scope args build with
      sequence := ⟨_, rfl, fun owner => ?_, ?_⟩ }⟩
    · exact List.filter_sublist.flatMap _
    · exact (List.filter_sublist.flatMap _).subset
  | cons param params ih =>
    cases args with
    | nil =>
      obtain ⟨drawn, h⟩ := extends_bindParam target param .undefined [] build
      obtain ⟨drawn', h'⟩ := ih [] (bindParam target param .undefined [] build)
      obtain ⟨hprelude, hdrew, hsequence, hbindings⟩ := h.trans h'
      exact ⟨drawn ++ drawn', hprelude, hdrew, hsequence, hbindings⟩
    | cons arg args =>
      obtain ⟨drawn, h⟩ := extends_bindParam target param arg args build
      obtain ⟨drawn', h'⟩ := ih args (bindParam target param arg args build)
      exact ⟨drawn ++ drawn', h.trans h'⟩

theorem Expr.substitute_operation (bindings : Bindings) {e : Expr} (h : e.children ≠ []) :
    e.substitute bindings = e.withOperands (e.children.map (·.substitute bindings)) := by
  have hall (es : List Expr) :
      Expr.substituteAll bindings es = es.map (·.substitute bindings) := by
    induction es with
    | nil => rfl
    | cons e rest ih => rw [Expr.substituteAll, ih, List.map_cons]
  cases e with
  | undefined | null | bool _ | number _ | string _ | ident _ | this | function _ =>
    exact absurd rfl h
  | _ => simp [Expr.substitute, Expr.children, Expr.withOperands, hall]

/-- What is found at the leaves of a substituted expression was found at its leaves
before or in what was substituted. -/
theorem Expr.subset_substitute {α : Type} (found : Expr → List α) (bindings : Bindings)
    (hfound : ∀ e : Expr, e.children ≠ [] → found e = e.children.flatMap found) (e : Expr) :
    found (e.substitute bindings) ⊆ found e ++ bindings.flatMap
      (fun binding => found binding.2) := by
  induction e using Expr.byOperands with
  | literal fn => exact List.subset_append_left _ _
  | operation e _ ih =>
    by_cases hchildren : e.children = []
    · cases e with
      | ident name =>
        rw [Expr.substitute]
        cases hlookup : bindings.lookup name with
        | none => exact List.subset_append_left _ _
        | some value =>
          obtain ⟨first, second, rfl, -⟩ := List.lookup_eq_some_iff.mp hlookup
          refine List.subset_append_of_subset_right _ fun a ha => ?_
          exact List.mem_flatMap.mpr ⟨(name, value), by simp, ha⟩
      | undefined | null | bool _ | number _ | string _ | this | function _ =>
        exact List.subset_append_left _ _
      | sequence items | array items =>
        obtain rfl : items = [] := hchildren
        exact List.subset_append_left _ _
      | _ => cases hchildren
    · have hlength : (e.children.map (·.substitute bindings)).length = e.children.length :=
        List.length_map _
      have hoperands := Expr.children_withOperands hlength
      have hne : (e.withOperands (e.children.map (·.substitute bindings))).children ≠ [] := by
        rwa [hoperands, ne_eq, List.map_eq_nil_iff]
      rw [Expr.substitute_operation bindings hchildren, hfound _ hne, hoperands, hfound e hchildren,
        List.flatMap_map]
      intro a ha
      obtain ⟨operand, hoperand, ha⟩ := List.mem_flatMap.mp ha
      rcases List.mem_append.mp (ih operand hoperand ha) with ha | ha
      · exact List.mem_append_left _ (List.mem_flatMap.mpr ⟨operand, hoperand, ha⟩)
      · exact List.mem_append_right _ ha

/-- An expression without function literals has no layers. -/
theorem Expr.layers_eq_nil {e : Expr} (h : e.hasFunctionLit = false) (owner : ChangedBody) :
    e.layers owner = [] := by
  rw [Expr.hasFunctionLit_eq_false] at h
  induction e using Expr.byOperands with
  | operation e hlayer ih =>
    rw [Expr.layers_operation owner hlayer, List.flatMap_eq_nil_iff]
    refine fun operand hoperand => ih operand hoperand fun fn hmem => h fn ?_
    rw [Expr.nodes_operation .nested hlayer]
    exact List.mem_cons_of_mem _ (Expr.mem_nodesAll.mpr ⟨operand, hoperand, hmem⟩)
  | literal fn => exact absurd (Expr.self_mem_nodes .nested (.function fn)) (h fn)

/-- The returned expression spells what the body spells. -/
theorem FunctionLit.spelled_of_returned? {fn : FunctionLit} {e : Expr} (h : fn.returned? = some e) :
    e.spelled ⊆ Stmt.spelledAll fn.body := by
  unfold FunctionLit.returned? at h
  split at h
  · cases h
    exact List.nil_subset _
  · cases h
    exact List.nil_subset _
  · next value hbody =>
    cases h
    rw [hbody, Stmt.spelledAll, Stmt.nodesAll, Stmt.nodes, Stmt.nodesAll, List.append_nil,
      spelled_cons]
    exact List.subset_append_right _ _
  · cases h

theorem Stmt.layersAll_vars (owner : ChangedBody) (kind : VarKind) (names : List String) :
    Stmt.layersAll owner (names.map (.var kind · none)) = [] := by
  rw [Stmt.layersAll_eq_flatMap, List.flatMap_eq_nil_iff]
  intro s hs
  obtain ⟨name, -, rfl⟩ := List.mem_map.mp hs
  rfl

theorem Stmt.spelledAll_vars (kind : VarKind) (names : List String) :
    Stmt.spelledAll (names.map (.var kind · none)) = names := by
  induction names with
  | nil => rfl
  | cons name rest ih => exact congrArg (name :: ·) ih

theorem Stmt.declarationsAll_vars (kind : VarKind) (names : List String) :
    Stmt.declarationsAll (names.map (.var kind · none)) = names := by
  induction names with
  | nil => rfl
  | cons name rest ih => exact congrArg (name :: ·) ih

theorem declaredLabels_vars (kind : VarKind) (names : List String) :
    declaredLabels (names.map (.var kind · none)) = [] := by
  rw [List.eq_nil_iff_forall_not_mem]
  intro label hlabel
  obtain ⟨inner, hnode⟩ := mem_declaredLabels.mp hlabel
  obtain ⟨s, hs, hnode⟩ := Stmt.mem_nodesAll.mp hnode
  obtain ⟨name, -, rfl⟩ := List.mem_map.mp hs
  cases List.mem_singleton.mp hnode

/-- What is found in a value that comes after some expressions. -/
theorem Expr.found_sequence {α : Type} (found : Expr → List α)
    (hfound : ∀ e : Expr, e.children ≠ [] → found e = e.children.flatMap found) (items : List Expr)
    (value : Expr) : found (if items.isEmpty then value else .sequence (items ++ [value])) =
      items.flatMap found ++ found value := by
  cases items with
  | nil => rfl
  | cons item rest =>
    have hne : (Expr.sequence (item :: rest ++ [value])).children ≠ [] := List.cons_ne_nil _ _
    rw [List.isEmpty_cons, if_neg Bool.false_ne_true, hfound _ hne, Expr.children,
      List.flatMap_append, List.flatMap_singleton]

/-- What is substituted holds no function literal. -/
theorem Direct.Build.Extends.layers_substitute {expr : Expr} {args : List Expr} {site : Nat}
    {ctx : Context} {drawn : List String} {build : Build}
    (h : Build.Extends site args drawn ⟨[], [], [], ctx⟩ build)
    (hlayers : ∀ owner, expr.layers owner = []) (owner : ChangedBody) :
    (expr.substitute build.bindings).layers owner = [] := by
  obtain ⟨more, hbindings, hbound⟩ := h.bindings
  rw [List.append_nil] at hbindings
  have hsub := Expr.subset_substitute (·.layers owner) build.bindings
    (fun e => Expr.layers_children owner) expr
  rw [hlayers, hbindings, List.flatMap_eq_nil_iff.mpr fun b hb => (hbound b hb).1 owner] at hsub
  rw [hbindings]
  exact List.subset_nil.mp hsub

/-- A substitution declares its temporaries and takes over the rest. -/
theorem Direct.Build.Extends.sound {fn : FunctionLit} {expr : Expr} {args : List Expr} {site : Nat}
    {ctx : Context} {drawn : List String} {build : Build}
    (h : Build.Extends site args drawn ⟨[], [], [], ctx⟩ build)
    (hlayers : ∀ owner, expr.layers owner = [])
    (hspelled : expr.spelled ⊆ Stmt.spelledAll fn.body) :
    Expansion.Sound fn args site ctx
      ⟨.direct, build.prelude, if build.sequence.isEmpty then expr.substitute build.bindings
        else .sequence (build.sequence ++ [expr.substitute build.bindings]), none⟩
      { build.ctx with scopes := Stmt.declareAll site build.prelude build.ctx.scopes }
        [] drawn := by
  have hvalue := h.layers_substitute hlayers
  obtain ⟨prelude, items, bindings, ctx'⟩ := build
  obtain ⟨hprelude, hdrew, ⟨_, hitems, hkept, hitemsSpelled⟩, ⟨_, hbindings, hbound⟩⟩ := h
  simp only [List.nil_append, List.append_nil] at hprelude hitems hbindings hdrew
  subst hprelude hitems hbindings
  have hvalueSpelled : (expr.substitute bindings).spelled ⊆
      drawn ++ (Stmt.spelledAll fn.body ++ args.flatMap Expr.spelled) := by
    intro name hname
    rcases List.mem_append.mp
      (Expr.subset_substitute Expr.spelled bindings (fun e => Expr.spelled_children)
      expr hname) with hname | hname
    · exact List.mem_append_right _ (List.mem_append_left _ (hspelled hname))
    · obtain ⟨binding, hbinding, hname⟩ := List.mem_flatMap.mp hname
      rcases List.mem_append.mp ((hbound binding hbinding).2 hname) with hname | hname
      · exact List.mem_append_left _ hname
      · exact List.mem_append_right _ (List.mem_append_right _ hname)
  refine ⟨?_, ?_, List.nil_sublist _, fun owner => ⟨[], ?_, ?_⟩, hdrew.nodup, hdrew.fresh,
    hdrew.unbound, hdrew.reserved, ?_, ?_⟩
  · exact congrArg _ hdrew.scopes_eq
  · exact (congrArg Context.nextNodeId hdrew.others).trans ctx.nextNodeId.advance_zero.symm
  · exact Stmt.layersAll_vars owner .var drawn
  · rw [Expr.found_sequence (·.layers owner) (fun e => Expr.layers_children owner),
      hvalue, List.append_nil, List.nil_append]
    exact hkept owner
  · rw [Stmt.declarationsAll_vars, declaredLabels_vars, List.append_nil]
    exact List.Subset.refl _
  · rw [Expr.found_sequence Expr.spelled (fun e => Expr.spelled_children), Stmt.spelledAll_vars]
    refine List.append_subset.mpr ⟨List.subset_append_left _ _, List.append_subset.mpr
      ⟨fun name hname => ?_, hvalueSpelled⟩⟩
    rcases List.mem_append.mp (hitemsSpelled hname) with hname | hname
    · exact List.mem_append_left _ hname
    · exact List.mem_append_right _ (List.mem_append_right _ hname)

/-- A substitution is sound. -/
theorem Direct.sound_inline {fn : FunctionLit} {expr : Expr} (h : fn.substitutable? = some expr)
    (args : List Expr) (site : CallSite) (ctx : Context) {expansion : Expansion} {ctx' : Context}
    (hdone : (.expanded expansion, ctx') =
      Definition.finish site (Direct.inline fn expr args site.scope ctx)) :
    (ctx'.changes = ctx.changes ∧ ctx'.stats = ctx.stats) ∧
      ∃ copy drawn, expansion.Sound fn args site.scope ctx ctx' copy drawn := by
  obtain ⟨hreturned, hlit, -⟩ := FunctionLit.substitutable?_eq_some_iff.mp h
  obtain ⟨drawn, hextends⟩ := extends_bindParams
    ⟨expr, (expr.lateReads fn.params {}).late, site.scope⟩ fn.params args ⟨[], [], [], ctx⟩
  simp only [Definition.finish, Direct.inline, Prod.mk.injEq, CallOutcome.expanded.injEq] at hdone
  obtain ⟨rfl, rfl⟩ := hdone
  exact ⟨⟨(congrArg Context.changes hextends.drew.others :),
    (congrArg Context.stats hextends.drew.others :)⟩, [], drawn,
    hextends.sound (Expr.layers_eq_nil hlit) (FunctionLit.spelled_of_returned? hreturned)⟩

end Direct

section Block

open Block

theorem Stmt.layersAll_map_expr (owner : ChangedBody) (es : List Expr) :
    Stmt.layersAll owner (es.map .expr) = es.flatMap (·.layers owner) := by
  rw [Stmt.layersAll_eq_flatMap, List.flatMap_map]
  rfl

theorem Stmt.spelledAll_map_expr (es : List Expr) :
    Stmt.spelledAll (es.map .expr) = es.flatMap Expr.spelled := by
  induction es with
  | nil => rfl
  | cons e rest ih =>
    rw [List.flatMap_cons, ← ih, Expr.spelled, Stmt.spelledAll, Stmt.spelledAll, ← spelled_append]
    rfl

/-- The literals of the arguments come along with the parameters. -/
theorem Block.layersAll_parameters (owner : ChangedBody) (names : Renaming) (params : List String)
    (args : List Expr) : Stmt.layersAll owner (parameters names params args) =
      (args.take params.length).flatMap (·.layers owner) := by
  induction params generalizing args with
  | nil => rfl
  | cons param params ih =>
    cases args with
    | nil => rw [parameters, Stmt.layersAll, ih, List.take_nil]; rfl
    | cons arg args => rw [parameters, Stmt.layersAll, ih]; rfl

theorem Block.declarationsAll_parameters (names : Renaming) (params : List String)
    (args : List Expr) :
    Stmt.declarationsAll (parameters names params args) = params.map names.apply := by
  induction params generalizing args with
  | nil => rfl
  | cons param params ih =>
    cases args with
    | nil => exact congrArg (_ :: ·) (ih [])
    | cons arg args => exact congrArg (_ :: ·) (ih args)

theorem Block.spelledAll_parameters (names : Renaming) (params : List String) (args : List Expr) :
    Stmt.spelledAll (parameters names params args) ⊆
      params.map names.apply ++ args.flatMap Expr.spelled := by
  induction params generalizing args with
  | nil => exact List.nil_subset _
  | cons param params ih =>
    cases args with
    | nil =>
      have hcons : Stmt.spelledAll (parameters names (param :: params) []) =
          names.apply param :: Stmt.spelledAll (parameters names params []) := rfl
      rw [hcons]
      exact List.cons_subset_cons _ (ih [])
    | cons arg args =>
      have hcons : Stmt.spelledAll (parameters names (param :: params) (arg :: args)) =
          names.apply param :: (arg.spelled ++ Stmt.spelledAll (parameters names params args)) := by
        rw [parameters, Stmt.spelledAll, Stmt.nodesAll, spelled_append]
        rfl
      rw [hcons, List.flatMap_cons, List.map_cons]
      have := ih args
      grind

/-- The labels declared in the own layer of statements. -/
def ownLabels (stmts : List Stmt) : List String :=
  (Stmt.nodesAll .ownLayer stmts).flatMap Node.labelName

theorem ownLabels_append (first second : List Stmt) :
    ownLabels (first ++ second) = ownLabels first ++ ownLabels second := by
  rw [ownLabels, Stmt.nodesAll_append, List.flatMap_append]
  rfl

theorem ownLabels_cons (s : Stmt) (rest : List Stmt) :
    ownLabels (s :: rest) = (s.nodes .ownLayer).flatMap Node.labelName ++ ownLabels rest :=
  List.flatMap_append

theorem mem_ownLabels {stmts : List Stmt} {label : String} :
    label ∈ ownLabels stmts ↔ .label label ∈ marksOf (Stmt.nodesAll .ownLayer stmts) := by
  have hnode (node : Node) : label ∈ node.labelName ↔ .label label ∈ node.marks := by
    cases node with
    | expr e => cases e <;> simp [Node.labelName, Node.marks]
    | stmt s =>
      cases s with
      | breakTo target | continueTo target => cases target <;> simp [Node.labelName, Node.marks]
      | _ => simp [Node.labelName, Node.marks]
  simp only [ownLabels, marksOf, List.mem_flatMap, hnode]

/-- The traversal for labels finds those of the own layer. -/
theorem mem_declaredLabels_iff {stmts : List Stmt} {label : String} :
    label ∈ declaredLabels stmts ↔ label ∈ ownLabels stmts := by
  rw [mem_declaredLabels, ownLabels, List.mem_flatMap]
  constructor
  · rintro ⟨inner, hnode⟩
    exact ⟨_, hnode, List.mem_cons_self⟩
  · rintro ⟨node, hnode, hlabel⟩
    unfold Node.labelName at hlabel
    split at hlabel
    · next inner => exact ⟨inner, List.mem_singleton.mp hlabel ▸ hnode⟩
    · cases hlabel

/-- Statements without labels. -/
theorem ownLabels_eq_nil {stmts : List Stmt}
    (h : ∀ s ∈ stmts, (∃ e, s = .expr e) ∨ ∃ kind name init, s = .var kind name init) :
    ownLabels stmts = [] := by
  induction stmts with
  | nil => rfl
  | cons s rest ih =>
    obtain ⟨hs, hrest⟩ := List.forall_mem_cons.mp h
    have hexpr (e : Expr) : (e.nodes .ownLayer).flatMap Node.labelName = [] :=
      Expr.flatMap_eq_nil (fun _ => rfl) e
    rw [ownLabels_cons, ih hrest, List.append_nil]
    rcases hs with ⟨e, rfl⟩ | ⟨kind, name, init, rfl⟩
    · simp [Stmt.nodes, hexpr, Node.labelName]
    · cases init <;> simp [Stmt.nodes, hexpr, Node.labelName]

theorem Block.exists_var_of_mem_parameters {names : Renaming} {params : List String}
    {args : List Expr} {s : Stmt} (h : s ∈ parameters names params args) :
    ∃ kind name init, s = .var kind name init := by
  induction params generalizing args with
  | nil => cases h
  | cons param params ih =>
    cases args with
    | nil =>
      rcases List.mem_cons.mp h with rfl | h
      · exact ⟨_, _, _, rfl⟩
      · exact ih h
    | cons arg args =>
      rcases List.mem_cons.mp h with rfl | h
      · exact ⟨_, _, _, rfl⟩
      · exact ih h

variable (drawn : Drawn) (fn : FunctionLit) (args : List Expr)

/-- The copied body in its final form. -/
def Block.Drawn.lowered : List Stmt :=
  lower drawn.result drawn.label (endsWithReturn fn.body) (rebind (drawn.copy fn).1).body

/-- What stands in the block before the copied body. -/
def Block.Drawn.prologue : List Stmt :=
  parameters drawn.names fn.params args ++ excess fn.params args ++
    (rebind (drawn.copy fn).1).declarations

theorem Block.Drawn.block_eq : drawn.block fn args = drawn.prologue fn args ++ drawn.lowered fn :=
  rfl

namespace Block.Drawn

theorem layersAll_prelude (owner : ChangedBody) :
    Stmt.layersAll owner (drawn.prelude fn args) = Stmt.layersAll owner (drawn.block fn args) := by
  unfold prelude wrapped
  cases drawn.label <;> simp [Stmt.layersAll, Stmt.layers]

theorem declarationsAll_prelude : Stmt.declarationsAll (drawn.prelude fn args) =
    drawn.result :: Stmt.declarationsAll (drawn.block fn args) := by
  unfold prelude wrapped
  cases drawn.label <;> simp [Stmt.declarationsAll, Stmt.declarations]

theorem ownLabels_prelude : ownLabels (drawn.prelude fn args) =
    drawn.label.toList ++ ownLabels (drawn.block fn args) := by
  unfold prelude wrapped
  cases drawn.label <;> simp [ownLabels, Stmt.nodesAll, Stmt.nodes, Node.labelName]

theorem spelledAll_prelude : Stmt.spelledAll (drawn.prelude fn args) =
    drawn.result :: (drawn.label.toList ++ Stmt.spelledAll (drawn.block fn args)) := by
  unfold prelude wrapped
  cases drawn.label <;>
    simp [Stmt.spelledAll, Stmt.nodesAll, Stmt.nodes, spelled_cons, Node.written]

/-- Literals before the copied body come from the arguments. -/
theorem layersAll_prologue (owner : ChangedBody) :
    (Stmt.layersAll owner (drawn.prologue fn args)).Sublist (args.flatMap (·.layers owner)) := by
  have hdeclarations : Stmt.layersAll owner (rebind (drawn.copy fn).1).declarations = [] :=
    Stmt.layersAll_vars owner .letVar _
  rw [prologue, Stmt.layersAll_append, Stmt.layersAll_append, hdeclarations, List.append_nil,
    layersAll_parameters, excess, Stmt.layersAll_map_expr]
  conv_rhs => rw [← List.take_append_drop fn.params.length args, List.flatMap_append]
  exact (List.Sublist.refl _).append (List.filter_sublist.flatMap _)

theorem mem_prologue {s : Stmt} (hs : s ∈ drawn.prologue fn args) :
    (∃ e, s = .expr e) ∨ ∃ kind name init, s = .var kind name init := by
  rcases List.mem_append.mp hs with hs | hs
  · rcases List.mem_append.mp hs with hs | hs
    · exact .inr (exists_var_of_mem_parameters hs)
    · obtain ⟨e, -, rfl⟩ := List.mem_map.mp hs
      exact .inl ⟨e, rfl⟩
  · obtain ⟨name, -, rfl⟩ := List.mem_map.mp hs
    exact .inr ⟨_, _, _, rfl⟩

theorem ownLabels_prologue : ownLabels (drawn.prologue fn args) = [] :=
  ownLabels_eq_nil fun _ hs => drawn.mem_prologue fn args hs

/-- Rebinding declares variables of the body. -/
theorem rebound_subset : ∃ hoisted,
    (rebind (drawn.copy fn).1).declarations = hoisted.map (.var .letVar · none) ∧
      hoisted ⊆ (Stmt.declarationsAll fn.body).map drawn.names.apply := by
  refine ⟨_, rfl, fun name hname => ?_⟩
  have hname : name ∈ varNames (drawn.copy fn).1 :=
    List.mem_eraseDups.mp (List.mem_of_mem_filter hname)
  rw [copy, varNames_renameAll] at hname
  obtain ⟨old, hold, rfl⟩ := List.mem_map.mp hname
  obtain ⟨init, hnode⟩ := mem_varNames.mp hold
  exact List.mem_map_of_mem (Stmt.mem_declarationsAll_of_var _ hnode)

/-- A block only declares new names for the names of the function. -/
theorem declarationsAll_block : Stmt.declarationsAll (drawn.block fn args) ⊆
    (fn.params ++ Stmt.declarationsAll fn.body).map drawn.names.apply := by
  obtain ⟨hoisted, hdeclarations, hhoisted⟩ := drawn.rebound_subset fn
  have hexcess : Stmt.declarationsAll (excess fn.params args) = [] := by
    rw [List.eq_nil_iff_forall_not_mem]
    intro name hname
    obtain ⟨s, hs, hname⟩ := Stmt.mem_declarationsAll.mp hname
    obtain ⟨e, -, rfl⟩ := List.mem_map.mp hs
    cases hname
  have hlowered : Stmt.declarationsAll (drawn.lowered fn) ⊆
      (Stmt.declarationsAll fn.body).map drawn.names.apply := by
    rw [← Stmt.declarationsAll_renameAll drawn.names drawn.labels fn.body drawn.ctx.nextNodeId]
    exact List.Subset.trans (declarationsAll_lower _ _ _ _) (Stmt.declarationsAll_rebind _ _ _)
  rw [block_eq, prologue, hdeclarations, Stmt.declarationsAll_append, Stmt.declarationsAll_append,
    Stmt.declarationsAll_append, declarationsAll_parameters, hexcess, Stmt.declarationsAll_vars,
    List.map_append, List.append_nil, List.append_assoc]
  exact append_subset_append (List.Subset.refl _) (List.append_subset.mpr ⟨hhoisted, hlowered⟩)

theorem spelledAll_prologue : Stmt.spelledAll (drawn.prologue fn args) ⊆
    (fn.params ++ Stmt.declarationsAll fn.body).map drawn.names.apply ++
      args.flatMap Expr.spelled := by
  obtain ⟨hoisted, hdeclarations, hhoisted⟩ := drawn.rebound_subset fn
  have hexcess : Stmt.spelledAll (excess fn.params args) ⊆ args.flatMap Expr.spelled := by
    rw [excess, Stmt.spelledAll_map_expr]
    exact ((List.filter_sublist.trans (List.drop_sublist _ _)).flatMap _).subset
  have hparams := spelledAll_parameters drawn.names fn.params args
  rw [prologue, hdeclarations, Stmt.spelledAll_append, Stmt.spelledAll_append, Stmt.spelledAll_vars,
    List.map_append]
  grind

theorem fewer_lowered {α : Type} {found : Node → List α} (hfound : Node.Lasting found) :
    Fewer found (Stmt.nodesAll .nested (drawn.lowered fn))
      (Stmt.nodesAll .nested (drawn.copy fn).1) :=
  (fewer_lower hfound _ _ _ _).trans (Stmt.fewer_rebind hfound _ _ _)

/-- Rebinding and lowering add the result variable and jumps to its label. -/
theorem marks_lowered {reach : Reach} {mark : Mark}
    (h : mark ∈ marksOf (Stmt.nodesAll reach (drawn.lowered fn))) :
    mark = .name drawn.result ∨ (∃ label, mark = .target label) ∨
      mark ∈ marksOf (Stmt.nodesAll reach (drawn.copy fn).1) := by
  obtain ⟨old, hold, hlowers⟩ := (traced_lower reach _ _ _ _).marks mark h
  cases hlowers with
  | kept => exact .inr (.inr (marks_rebind reach _ _ _ hold))
  | result => exact .inl rfl
  | jump => exact .inr (.inl ⟨_, rfl⟩)

/-- The copied body only declares new labels. -/
theorem ownLabels_lowered :
    ownLabels (drawn.lowered fn) ⊆ (ownLabels fn.body).map drawn.labels.apply := by
  intro label hlabel
  have hcopy : ownLabels (drawn.copy fn).1 = (ownLabels fn.body).map drawn.labels.apply := by
    refine Stmt.flatMap_renameAll (fun _ => rfl) (fun s next => ?_) fn.body _
    cases s with
    | var kind name init => cases init <;> rfl
    | function fn => cases fn; rfl
    | ret value => cases value <;> rfl
    | ifElse condition thenBranch elseBranch => cases elseBranch <;> rfl
    | _ => rfl
  rw [← hcopy, mem_ownLabels]
  rcases drawn.marks_lowered fn (mem_ownLabels.mp hlabel) with h | ⟨_, h⟩ | h
  · cases h
  · cases h
  · exact h

/-- The names of the copied body are new, or the function spells them. -/
theorem spelledAll_lowered : Stmt.spelledAll (drawn.lowered fn) ⊆
    drawn.result ::
      (drawn.names.map (·.2) ++ drawn.labels.map (·.2) ++ Stmt.spelledAll fn.body) := by
  have hcopy {mark : Mark} (h : mark ∈ marksOf (Stmt.nodesAll .nested (drawn.copy fn).1)) :
      ∃ old ∈ marksOf (Stmt.nodesAll .nested fn.body),
        Mark.Renames drawn.names drawn.labels old mark :=
    (Stmt.traced_renameAll .nested drawn.names drawn.labels fn.body _).marks mark h
  intro name hname
  rw [Stmt.spelledAll, mem_spelled_iff_marks] at hname
  simp only [List.mem_cons, List.mem_append, Stmt.spelledAll, mem_spelled_iff_marks]
  rcases hname with hname | hname
  · rcases drawn.marks_lowered fn hname with h | ⟨_, h⟩ | h
    · exact .inl (Mark.name.inj h)
    · cases h
    · obtain ⟨old, hold, hrenames⟩ := hcopy h
      cases hrenames with
      | kept => exact .inr (.inr (.inl hold))
      | name h => exact .inr (.inl (.inl (List.mem_map_of_mem h)))
  · rcases drawn.marks_lowered fn hname with h | ⟨_, h⟩ | h
    · cases h
    · cases h
    · obtain ⟨old, hold, hrenames⟩ := hcopy h
      cases hrenames with
      | kept => exact .inr (.inr (.inr hold))
      | label h => exact .inr (.inl (.inr (List.mem_map_of_mem h)))

end Block.Drawn

/-- A block declares what was drawn for it and copies the body under new ids. -/
theorem Block.sound_inline (fn : FunctionLit) (args : List Expr) (site : CallSite) (ctx : Context)
    {expansion : Expansion} {ctx' : Context}
    (hdone : (.expanded expansion, ctx') =
      Definition.finish site (Block.inline fn args site.scope ctx)) :
    (ctx'.changes = ctx.changes ∧ ctx'.stats = ctx.stats) ∧
      ∃ copy drawn, expansion.Sound fn args site.scope ctx ctx' copy drawn := by
  have hdrew := drewAt_draw fn site.scope ctx
  have hnames := map_fst_names_draw fn site.scope ctx
  have hlabels := map_fst_labels_draw fn site.scope ctx
  rw [Block.inline_eq] at hdone
  simp only [Definition.finish, Prod.mk.injEq, CallOutcome.expanded.injEq] at hdone
  obtain ⟨rfl, rfl⟩ := hdone
  generalize draw fn site.scope ctx = drawn at *
  have hnext : drawn.ctx.nextNodeId = ctx.nextNodeId :=
    (congrArg Context.nextNodeId hdrew.others :)
  have hcopy := Stmt.numbered_renameAll drawn.names drawn.labels fn.body drawn.ctx.nextNodeId
  have hlength := Stmt.length_functionIds_renameAll drawn.names drawn.labels fn.body
    drawn.ctx.nextNodeId
  -- what is declared in the body was given a new name
  have hnew : (fn.params ++ Stmt.declarationsAll fn.body).map drawn.names.apply ⊆
      drawn.names.map (·.2) := by
    intro name hname
    obtain ⟨old, hold, rfl⟩ := List.mem_map.mp hname
    refine Renaming.apply_mem ?_
    rw [hnames, mem_declaredNames]
    exact List.mem_append.mp hold
  have hnewLabels : (ownLabels fn.body).map drawn.labels.apply ⊆ drawn.labels.map (·.2) := by
    intro name hname
    obtain ⟨old, hold, rfl⟩ := List.mem_map.mp hname
    refine Renaming.apply_mem ?_
    rw [hlabels, mem_declaredLabels_iff]
    exact hold
  refine ⟨⟨(congrArg Context.changes hdrew.others :), (congrArg Context.stats hdrew.others :)⟩,
    drawn.lowered fn, drawn.all,
    congrArg (Stmt.declareAll _ _) hdrew.scopes_eq, ?_, ?_,
    fun owner => ⟨Stmt.layersAll owner (drawn.prologue fn args), ?_, ?_⟩, hdrew.nodup, hdrew.fresh,
    hdrew.unbound, hdrew.reserved, List.append_subset.mpr ⟨?_, fun label hlabel => ?_⟩, ?_⟩
  · rw [← hnext]
    exact hcopy.counter.trans (congrArg _ hlength)
  · have hfewer : Fewer Node.functionIds (Stmt.nodesAll .nested (drawn.lowered fn))
        (Stmt.nodesAll .nested (drawn.copy fn).1) := drawn.fewer_lowered fn Node.lasting_functionIds
    rw [Fewer, Drawn.copy, ← functionIds, ← functionIds, hcopy.ids, hlength] at hfewer
    rw [← hnext]
    exact hfewer
  · rw [← Stmt.layersAll_append, ← Drawn.block_eq]
    exact drawn.layersAll_prelude fn args owner
  · exact (List.append_nil _).symm ▸ drawn.layersAll_prologue fn args owner
  · have := List.Subset.trans (drawn.declarationsAll_block fn args) hnew
    simp only [Drawn.expansion, Drawn.declarationsAll_prelude, Drawn.all]
    grind
  · have hlabel := mem_declaredLabels_iff.mp hlabel
    have := List.Subset.trans (drawn.ownLabels_lowered fn) hnewLabels
    simp only [Drawn.expansion, Drawn.ownLabels_prelude, Drawn.block_eq, ownLabels_append,
      Drawn.ownLabels_prologue, List.nil_append] at hlabel
    simp only [Drawn.all]
    grind
  · have hprologue := drawn.spelledAll_prologue fn args
    have hlowered := drawn.spelledAll_lowered fn
    have hvalue : (Expr.ident drawn.result).spelled = [drawn.result] := rfl
    simp only [Drawn.expansion, Drawn.spelledAll_prelude, Drawn.block_eq, Stmt.spelledAll_append,
      Drawn.all, hvalue]
    grind

end Block

/-- Whatever an expansion is, it is composed of the call's parts and of drawn names. -/
theorem Definition.sound_expandCall {definition : Definition} {args : List Expr} {site : CallSite}
    {ctx ctx' : Context} {expansion : Expansion}
    (h : definition.expandCall args site ctx = .ok (.expanded expansion, ctx')) :
    (ctx'.changes = ctx.changes ∧ ctx'.stats = ctx.stats) ∧
      ∃ copy drawn, expansion.Sound definition.function args site.scope ctx ctx' copy drawn := by
  obtain ⟨-, ⟨expr, hexpr, hdone⟩ | ⟨-, -, hdone⟩⟩ := Definition.expandCall_cases h
  · exact Direct.sound_inline hexpr args site ctx hdone
  · exact Block.sound_inline definition.function args site ctx hdone

end StaticInliner
