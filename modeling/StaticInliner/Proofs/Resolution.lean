import StaticInliner.Proofs.Scopes

/-!
Resolved layers. A layer is resolved in a scope tree if its owner has a scope there
that binds just what the layer declares and stands below the scope of the body
around it. Declaring statements resolves all layers in them, provided that no two
belong to the same literal and that those with a scope are resolved already; the
layers of other bodies stay resolved.
-/
namespace StaticInliner

/-- The scope that the scope of a layer stands in. -/
def ScopeTree.enclosing? (tree : ScopeTree) (layer : Layer) : Option Nat :=
  match layer.encloser with
  | some encloser => tree.scopeOf? encloser
  | none => some globalId

/-- The tree has a scope for the layer, in its place and with its bindings. -/
def Layer.Resolved (tree : ScopeTree) (layer : Layer) : Prop :=
  ∃ i scope parent, tree.scopeOf? layer.owner = some i ∧ tree.get? i = some scope ∧
    scope.parent = some parent ∧ tree.enclosing? layer = some parent ∧
    ∀ name, scope.bindings.lookup name = layer.bindings.lookup name

namespace ScopeTree

/-- The body has a scope. -/
def Knows (tree : ScopeTree) (owner : ChangedBody) : Prop := (tree.scopeOf? owner).isSome = true

theorem Grown.knows {site : Nat} {new : List (String × BindingKind)} {opened : List Nat}
    {tree tree' : ScopeTree} (h : Grown site new opened tree tree') {owner : ChangedBody}
    (howner : tree.Knows owner) : tree'.Knows owner := by
  obtain ⟨i, hi⟩ := Option.isSome_iff_exists.mp howner
  rw [Knows, h.owners owner i hi]
  rfl

theorem Knows.of_resolved {tree : ScopeTree} {layer : Layer} (h : layer.Resolved tree) :
    tree.Knows layer.owner := by
  obtain ⟨i, -, -, hi, -⟩ := h
  rw [Knows, hi]
  rfl

end ScopeTree

open ScopeTree

section Growth

variable {site : Nat} {new : List (String × BindingKind)} {opened : List Nat}
  {tree tree' : ScopeTree} {owner : ChangedBody} {layer layer' : Layer}

theorem ScopeTree.enclosing?_of_owners {parent : Nat}
    (howners : ∀ owner i, tree.scopeOf? owner = some i → tree'.scopeOf? owner = some i)
    (h : tree.enclosing? layer = some parent) : tree'.enclosing? layer = some parent := by
  unfold enclosing? at h ⊢
  split
  · next encloser heq =>
    rw [heq] at h
    exact howners encloser parent h
  · next heq => rwa [heq] at h

/-- Growing a tree adds what was declared to the layer of the site, and nothing to others. -/
theorem Layer.Resolved.grown (h : layer.Resolved tree) (hgrown : Grown site new opened tree tree')
    (hwf : tree.WellFormed) (hsite : tree.scopeOf? owner = some site)
    (howner : layer'.owner = layer.owner) (hencloser : layer'.encloser = layer.encloser)
    (hbindings : ∀ name, layer'.bindings.lookup name =
      (layer.bindings.lookup name).or (if layer.owner = owner then new.lookup name else none)) :
    layer'.Resolved tree' := by
  obtain ⟨i, scope, parent, hi, hscope, hparent, henclosing, hlookup⟩ := h
  refine ⟨i, _, parent, ?_, hgrown.kept i scope hscope, ?_, ?_, fun name => ?_⟩
  · rw [howner]
    exact hgrown.owners layer.owner i hi
  · rw [Scope.parent_bindAll, hparent]
  · refine enclosing?_of_owners hgrown.owners ?_
    rwa [enclosing?, hencloser]
  · have hiff : i = site ↔ layer.owner = owner := by
      refine ⟨fun heq => hwf.owner_unique hi (heq ▸ hsite), fun heq => ?_⟩
      rw [heq, hsite] at hi
      exact (Option.some.inj hi).symm
    rw [Scope.lookup_bindAll, hlookup, hbindings]
    by_cases heq : layer.owner = owner
    · rw [if_pos heq, if_pos (hiff.mpr heq)]
    · rw [if_neg heq, if_neg (fun hi => heq (hiff.mp hi)), List.lookup_nil]

theorem Layer.Resolved.grown_of_ne (h : layer.Resolved tree)
    (hgrown : Grown site new opened tree tree') (hwf : tree.WellFormed)
    (hsite : tree.scopeOf? owner = some site) (hne : layer.owner ≠ owner) : layer.Resolved tree' :=
  h.grown hgrown hwf hsite rfl rfl fun name => by rw [if_neg hne, Option.or_none]

theorem Layer.Resolved.push (h : layer.Resolved tree) (hnew : tree.scopeOf? owner = none)
    (parent : Nat) : layer.Resolved (tree.push parent owner.kind) := by
  obtain ⟨i, scope, above, hi, hscope, hparent, henclosing, hlookup⟩ := h
  have howners (other : ChangedBody) (i : Nat) (hi : tree.scopeOf? other = some i) :
      (tree.push parent owner.kind).scopeOf? other = some i := by
    have hne : other ≠ owner := by
      rintro rfl
      rw [hnew] at hi
      cases hi
    rw [scopeOf?_push, if_neg hne, hi]
  have hlt := lt_size_of_get? hscope
  refine ⟨i, scope, above, howners _ i hi, ?_, hparent, enclosing?_of_owners howners henclosing,
    hlookup⟩
  rw [get?_push, if_neg (by omega), hscope]

end Growth

section Declaring

/-- Layers below a body belong to different literals, and those that have a scope
are resolved, with all layers below them. -/
structure Declarable (tree : ScopeTree) (owner : ChangedBody) (layers : List Layer) : Prop where
  nodup : (owner :: layers.map (·.owner)).Nodup
  known : ∀ layer ∈ layers, tree.Knows layer.owner → layer.Resolved tree
  closed : ∀ layer ∈ layers, ∀ encloser, layer.encloser = some encloser → encloser ≠ owner →
    tree.Knows encloser → tree.Knows layer.owner

/-- A step that declares the layers below a body whose scope is the site. -/
structure Declares (owner : ChangedBody) (site : Nat) (layers : List Layer)
    (step : ScopeTree → ScopeTree) : Prop where
  grown : ∀ tree, ∃ new opened, Grown site new opened tree (step tree) ∧
    ∀ id ∈ opened, .function id ∈ layers.map (·.owner)
  resolved : ∀ tree, tree.WellFormed → tree.scopeOf? owner = some site →
    Declarable tree owner layers → ∀ layer ∈ layers, layer.Resolved (step tree)

variable {owner : ChangedBody} {site : Nat} {tree : ScopeTree}

theorem Declarable.left {first second : List Layer} (h : Declarable tree owner (first ++ second)) :
    Declarable tree owner first where
  nodup := by
    have hnodup := h.nodup
    rw [List.map_append, ← List.cons_append] at hnodup
    exact hnodup.of_append_left
  known layer hlayer := h.known layer (List.mem_append_left _ hlayer)
  closed layer hlayer := h.closed layer (List.mem_append_left _ hlayer)

theorem Declarable.ne_owner {layers : List Layer} (h : Declarable tree owner layers) {layer : Layer}
    (hlayer : layer ∈ layers) : layer.owner ≠ owner := fun heq =>
  (List.nodup_cons.mp h.nodup).1 (List.mem_map.mpr ⟨layer, hlayer, heq⟩)

/-- What the second part needs after the first one was declared. -/
theorem Declarable.right {first second : List Layer} (h : Declarable tree owner (first ++ second))
    (hwf : tree.WellFormed) (hsite : tree.scopeOf? owner = some site) {tree' : ScopeTree}
    {new : List (String × BindingKind)} {opened : List Nat}
    (hgrown : Grown site new opened tree tree')
    (hopened : ∀ id ∈ opened, .function id ∈ first.map (·.owner))
    (henclosed : Enclosed [owner] second) : Declarable tree' owner second := by
  have hnodup := h.nodup
  rw [List.map_append, List.nodup_cons, List.mem_append, List.nodup_append] at hnodup
  obtain ⟨hfresh, -, hsecond, hapart⟩ := hnodup
  -- no literal of the second part got its scope with the first one
  have hold {other : ChangedBody} (hother : other ∈ second.map (·.owner))
      (hknows : tree'.Knows other) : tree.Knows other := by
    rcases hgrown.only other hknows with hknows | ⟨id, hid, rfl⟩
    · exact hknows
    · exact absurd rfl (hapart _ (hopened id hid) _ hother)
  refine ⟨?_, fun layer hlayer hknows => ?_, fun layer hlayer encloser hencloser hne hknows => ?_⟩
  · exact List.nodup_cons.mpr ⟨fun hmem => hfresh (.inr hmem), hsecond⟩
  · have hmem : layer ∈ first ++ second := List.mem_append_right _ hlayer
    exact (h.known layer hmem (hold (List.mem_map_of_mem hlayer) hknows)).grown_of_ne hgrown hwf
      hsite (h.ne_owner hmem)
  · obtain ⟨encloser', hencloser', hcases⟩ := henclosed.exists_encloser hlayer
    rw [hencloser] at hencloser'
    cases hencloser'
    have hinner := hcases.resolve_left fun hmem => hne (List.mem_singleton.mp hmem)
    exact hgrown.knows (h.closed layer (List.mem_append_right _ hlayer) encloser hencloser hne
      (hold hinner hknows))

theorem Declares.skip (owner : ChangedBody) (site : Nat) :
    Declares owner site [] fun tree => tree where
  grown tree := ⟨[], [], .refl site tree, nofun⟩
  resolved _ _ _ _ := nofun

theorem Declares.bindAll (owner : ChangedBody) (site : Nat) (new : List (String × BindingKind)) :
    Declares owner site [] fun tree => tree.bindAll site new where
  grown tree := ⟨new, [], grown_bindAll site new tree, nofun⟩
  resolved _ _ _ _ := nofun

theorem Declares.comp {first second : List Layer} {step step' : ScopeTree → ScopeTree}
    (h : Declares owner site first step) (h' : Declares owner site second step')
    (henclosed : Enclosed [owner] second) :
    Declares owner site (first ++ second) fun tree => step' (step tree) where
  grown tree := by
    obtain ⟨new, opened, hgrown, hopened⟩ := h.grown tree
    obtain ⟨new', opened', hgrown', hopened'⟩ := h'.grown (step tree)
    refine ⟨_, _, hgrown.trans hgrown', fun id hid => ?_⟩
    rw [List.map_append, List.mem_append]
    exact (List.mem_append.mp hid).imp (hopened id) (hopened' id)
  resolved tree hwf hsite hdecl layer hlayer := by
    obtain ⟨new, opened, hgrown, hopened⟩ := h.grown tree
    obtain ⟨new', opened', hgrown', -⟩ := h'.grown (step tree)
    have hwf' := hgrown.wellFormed hwf (hwf.lt_size hsite)
    have hsite' := hgrown.owners owner site hsite
    rcases List.mem_append.mp hlayer with hfirst | hsecond
    · exact (h.resolved tree hwf hsite hdecl.left layer hfirst).grown_of_ne hgrown' hwf' hsite'
        (hdecl.ne_owner hlayer)
    · exact h'.resolved (step tree) hwf' hsite'
        (hdecl.right hwf hsite hgrown hopened henclosed) layer hsecond

theorem Declares.foldl {α : Type} {list : List α} {layers : α → List Layer}
    {step : ScopeTree → α → ScopeTree}
    (h : ∀ a ∈ list, Declares owner site (layers a) fun tree => step tree a)
    (henclosed : ∀ a ∈ list, Enclosed [owner] (layers a)) :
    Declares owner site (list.flatMap layers) fun tree => list.foldl step tree := by
  induction list with
  | nil => exact .skip owner site
  | cons a rest ih =>
    obtain ⟨hfirst, hrest⟩ := List.forall_mem_cons.mp h
    have henclosed' := (List.forall_mem_cons.mp henclosed).2
    exact hfirst.comp (ih hrest henclosed') (.flatMap henclosed')

/-- Below a literal that has a scope all literals have one. -/
theorem Declarable.knows_below {layers : List Layer} (h : Declarable tree owner layers)
    {below : List Layer} (hsub : below ⊆ layers) {outer : List ChangedBody}
    (henclosed : Enclosed outer below)
    (houter : ∀ other ∈ outer, other ≠ owner ∧ tree.Knows other) :
    ∀ layer ∈ below, tree.Knows layer.owner := by
  induction below generalizing outer with
  | nil => exact nofun
  | cons layer rest ih =>
    obtain ⟨⟨encloser, hmem, hencloser⟩, hrest⟩ := henclosed
    obtain ⟨hlayer, hsub⟩ := List.cons_subset.mp hsub
    obtain ⟨hne, hknows⟩ := houter encloser hmem
    have hfirst := h.closed layer hlayer encloser hencloser hne hknows
    exact List.forall_mem_cons.mpr ⟨hfirst,
      ih hsub hrest (List.forall_mem_cons.mpr ⟨⟨h.ne_owner hlayer, hfirst⟩, houter⟩)⟩

section Opening

variable {fn : FunctionLit} {isExpression : Bool}

theorem ScopeTree.scopeOf?_opening (tree : ScopeTree) (site : Nat) (fn : FunctionLit)
    (new : List (String × BindingKind)) (other : ChangedBody) :
    (tree.opening site fn new).scopeOf? other =
      if other = .function fn.id then some tree.size else tree.scopeOf? other := by
  rw [opening, scopeOf?_bindAll]
  exact scopeOf?_push tree site (.function fn.id) other

theorem ScopeTree.grown_opening (tree : ScopeTree) (site : Nat) (fn : FunctionLit)
    (new : List (String × BindingKind)) :
    Grown tree.size new [] (tree.push site (.function fn.id)) (tree.opening site fn new) :=
  grown_bindAll tree.size new _

theorem ScopeTree.WellFormed.opening (hwf : tree.WellFormed) (hsite : site < tree.size)
    (fn : FunctionLit) (new : List (String × BindingKind)) :
    (tree.opening site fn new).WellFormed :=
  (grown_opening tree site fn new).wellFormed (hwf.push hsite (.function fn.id))
    (by rw [size_push]; exact Nat.lt_succ_self _)

/-- The new scope binds what the head binds, then what the body declares. -/
theorem FunctionLit.resolved_layer (hsite : tree.scopeOf? owner = some site)
    (hnew : tree.functionScope? fn.id = none) :
    (fn.layer owner isExpression).Resolved (Stmt.declareAll tree.size fn.body
      (tree.opening site fn (fn.headBindings isExpression))) := by
  have hgrown := Stmt.grown_declareAll fn.body tree.size
    (tree.opening site fn (fn.headBindings isExpression))
  have hscope := get?_push tree site (.function fn.id) tree.size
  rw [if_pos rfl] at hscope
  have hne : owner ≠ .function fn.id := by
    rintro rfl
    rw [scopeOf?, hnew] at hsite
    cases hsite
  refine ⟨tree.size, _, site, ?_, ((grown_opening tree site fn _).trans hgrown).kept _ _ hscope,
    ?_, ?_, fun name => ?_⟩
  · exact hgrown.owners _ _ ((scopeOf?_opening _ _ _ _ _).trans (if_pos rfl))
  · rw [Scope.parent_bindAll]
  · exact hgrown.owners owner site (by rw [scopeOf?_opening, if_neg hne, hsite])
  · rw [if_pos rfl, Scope.lookup_bindAll, FunctionLit.bindings_layer]
    exact Option.none_or

/-- The body of a literal can be declared in the scope opened for it. -/
theorem Declarable.opening (h : Declarable tree owner
      (fn.layer owner isExpression :: Stmt.layersAll (.function fn.id) fn.body))
    (hwf : tree.WellFormed) (hsite : tree.scopeOf? owner = some site)
    (hnew : tree.functionScope? fn.id = none) (new : List (String × BindingKind)) :
    Declarable (tree.opening site fn new) (.function fn.id)
      (Stmt.layersAll (.function fn.id) fn.body) := by
  have hnodup : (.function fn.id :: (Stmt.layersAll (.function fn.id) fn.body).map
      (·.owner)).Nodup := (List.nodup_cons.mp h.nodup).2
  have hne {layer : Layer} (hlayer : layer ∈ Stmt.layersAll (.function fn.id) fn.body) :
      layer.owner ≠ .function fn.id := fun heq =>
    (List.nodup_cons.mp hnodup).1 (List.mem_map.mpr ⟨layer, hlayer, heq⟩)
  have hknows {other : ChangedBody} (hother : other ≠ .function fn.id) :
      (tree.opening site fn new).Knows other ↔ tree.Knows other := by
    rw [Knows, scopeOf?_opening, if_neg hother, Knows]
  refine ⟨hnodup, fun layer hlayer hlayer' => ?_,
    fun layer hlayer encloser hencloser hother h' => ?_⟩
  · have hresolved := h.known layer (List.mem_cons_of_mem _ hlayer)
      ((hknows (hne hlayer)).mp hlayer')
    have hnone : tree.scopeOf? (.function fn.id) = none := hnew
    exact (hresolved.push hnone site).grown_of_ne
      (grown_opening tree site fn new) (hwf.push (hwf.lt_size hsite) (.function fn.id))
      ((scopeOf?_push _ _ (.function fn.id) _).trans (if_pos rfl)) (hne hlayer)
  · obtain ⟨encloser', hencloser', hcases⟩ :=
      (Stmt.enclosed_layersAll (.function fn.id) fn.body).exists_encloser hlayer
    rw [hencloser] at hencloser'
    cases hencloser'
    have hinner := hcases.resolve_left fun hmem => hother (List.mem_singleton.mp hmem)
    obtain ⟨outer, houter, rfl⟩ := List.mem_map.mp hinner
    exact (hknows (hne hlayer)).mpr (h.closed layer (List.mem_cons_of_mem _ hlayer) outer.owner
      hencloser (h.ne_owner (List.mem_cons_of_mem _ houter)) ((hknows hother).mp h'))

/-- A function literal opens its scope and declares its body there. -/
theorem Declares.enter (hbody : ∀ owner site, Declares owner site (Stmt.layersAll owner fn.body)
      (Stmt.declareAll site fn.body)) (owner : ChangedBody) (site : Nat) (isExpression : Bool) :
    Declares owner site (fn.layer owner isExpression :: Stmt.layersAll (.function fn.id) fn.body)
      fun tree => tree.enter site fn (fn.headBindings isExpression) where
  grown tree := by
    refine ⟨_, _, grown_enter (Stmt.grown_declareAll fn.body) site _ tree, fun id hid => ?_⟩
    rw [List.map_cons, Stmt.map_owner_layersAll]
    exact List.mem_map_of_mem (f := ChangedBody.function) hid
  resolved tree hwf hsite hdecl layer hlayer := by
    rw [ScopeTree.enter]
    cases hscope : tree.functionScope? fn.id with
    | some i =>
      have hfn : tree.Knows (.function fn.id) := by rw [Knows, scopeOf?, hscope]; rfl
      refine hdecl.known layer hlayer ?_
      rcases List.mem_cons.mp hlayer with rfl | hbelow
      · exact hfn
      · refine hdecl.knows_below (List.subset_cons_self _ _)
          (Stmt.enclosed_layersAll (.function fn.id) fn.body) ?_ layer hbelow
        exact List.forall_mem_singleton.mpr ⟨hdecl.ne_owner List.mem_cons_self, hfn⟩
    | none =>
      rcases List.mem_cons.mp hlayer with rfl | hbelow
      · exact FunctionLit.resolved_layer hsite hscope
      · exact (hbody (.function fn.id) tree.size).resolved _ (hwf.opening (hwf.lt_size hsite) fn _)
          ((scopeOf?_opening _ _ _ _ _).trans (if_pos rfl)) (hdecl.opening hwf hsite hscope _)
          layer hbelow

end Opening

theorem byParts_declares : ByParts
    (fun e => ∀ owner site, Declares owner site (e.layers owner) (e.declare site))
    (fun s => ∀ owner site, Declares owner site (s.layers owner) (s.declare site))
    (fun list => ∀ owner site,
      Declares owner site (Stmt.layersAll owner list) (Stmt.declareAll site list)) := by
  have hexprs {es : List Expr}
      (ih : ∀ e ∈ es, ∀ owner site, Declares owner site (e.layers owner) (e.declare site))
      (owner : ChangedBody) (site : Nat) : Declares owner site (es.flatMap (·.layers owner))
        fun tree => es.foldl (fun tree e => e.declare site tree) tree :=
    .foldl (fun e he => ih e he owner site) fun e _ => byParts_enclosed.expr e owner
  refine ⟨fun e he ih owner site => ?_, fun fn ih owner site => ?_, fun fn ih owner site => ?_,
    fun s hfn hhead hbodies owner site => ?_, fun list ih owner site => ?_⟩
  · rw [Expr.layers_operation owner he, funext (Expr.declare_operation site he)]
    exact hexprs ih owner site
  · rw [Expr.layers_literal, funext (Expr.declare_literal site fn)]
    exact .enter ih owner site true
  · have henclosed := byParts_enclosed.stmt (.function fn) owner
    rw [Stmt.layers_function] at henclosed ⊢
    rw [funext (Stmt.declare_function site fn)]
    exact (Declares.bindAll owner site (Stmt.function fn).ownBindings).comp
      (.enter ih owner site false) henclosed
  · rw [Stmt.layers_parts owner hfn, funext (Stmt.declare_parts site hfn)]
    refine ((Declares.bindAll owner site s.ownBindings).comp
      (hexprs (fun e he => hhead e (Option.mem_toList.mp he)) owner site) ?_).comp
      (.foldl (fun body hbody => hbodies body hbody owner site) ?_) ?_
    · exact .flatMap fun e _ => byParts_enclosed.expr e owner
    · exact fun body _ => Stmt.enclosed_layersAll owner body
    · exact .flatMap fun body _ => Stmt.enclosed_layersAll owner body
  · simp only [funext (Stmt.declareAll_eq_foldl site list), Stmt.layersAll_eq_flatMap]
    exact .foldl (fun s hs => ih s hs owner site) fun s _ => byParts_enclosed.stmt s owner

/-- Declaring statements below a body resolves the layers in them. -/
theorem Stmt.declares_declareAll (stmts : List Stmt) (owner : ChangedBody) (site : Nat) :
    Declares owner site (Stmt.layersAll owner stmts) (Stmt.declareAll site stmts) :=
  byParts_declares.stmts stmts owner site

end Declaring

end StaticInliner
