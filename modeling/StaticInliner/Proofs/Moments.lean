import StaticInliner.Proofs.Inlinings

/-!
Moments of a run. At each moment the names in use are reserved. As long as new ids fit
into their 32 bits, the context also fits the program otherwise: every layer is resolved
in the scopes, and the ids in use are below the counter. An inlining at the scope of the
body it stands in keeps this up, and so does dropping a statement that only reads a
variable.
-/
namespace StaticInliner

open ScopeTree

/-- A program and the context that goes with it. -/
structure Moment where
  program : Program
  ctx : Context

/-- The scopes are well-formed, and the names of the program are reserved. -/
structure Moment.Grounded (m : Moment) : Prop where
  wellFormed : m.ctx.scopes.WellFormed
  reserved : ∀ name ∈ spelled m.program.nodes, name ∈ m.ctx.names.reserved

/-- The context fits the program, in which the ids below `next` may be in use. -/
structure Moment.Consistent (m : Moment) (next : Nat) : Prop extends m.Grounded where
  distinct : m.program.Distinct
  resolved : ∀ layer ∈ m.program.layers, layer.Resolved m.ctx.scopes
  counter : m.ctx.nextNodeId = .ofNat next
  known : ∀ id, m.ctx.scopes.Knows (.function id) → id < next

/-- The names of the literals in the table are reserved. -/
def DefinitionTable.Covered (table : DefinitionTable) (ctx : Context) : Prop :=
  ∀ definition ∈ table.definitions,
    ∀ name ∈ (Expr.function definition.function).spelled, name ∈ ctx.names.reserved

namespace Inlining

def momentBefore (i : Inlining) : Moment := ⟨i.programBefore, i.before⟩

def momentAfter (i : Inlining) : Moment := ⟨i.programAfter, i.after⟩

/-- The record is of a call that the walk expands. -/
structure Performed (i : Inlining) : Prop where
  callee : ∃ name, CallWalk.qualifiedCallee? i.callee = some name ∧
    i.table.get? name = some i.definition ∧
    i.before.scopes.isBoundInFunction i.site.scope name.root = false
  expanded : ∃ ctx, i.definition.expandCall i.args i.site i.before =
    .ok (.expanded i.expansion, ctx) ∧
    i.after = { ctx with
      stats := CallWalk.countExpansion i.expansion.shape ctx.stats
      changes := CallWalk.markChanged ctx i.site.scope }

/-- The call stands in the body whose scope is the site. -/
def Sited (i : Inlining) : Prop := i.before.scopes.scopeOf? i.owner = some i.site.scope

/-- The names that were reserved for an inlining. -/
def drawn (i : Inlining) : List String :=
  (i.after.names.reserved.take
    (i.after.names.reserved.length - i.before.names.reserved.length)).reverse

/-- How many function literals an inlining copies. -/
def copies (i : Inlining) : Nat := i.expansion.copies i.definition.function

/-- The expansion is sound, with the body copied as given. -/
def Sound (i : Inlining) (copy : List Stmt) : Prop :=
  i.expansion.Sound i.definition.function i.args i.site.scope i.before i.after copy i.drawn

theorem Performed.sound {i : Inlining} (h : i.Performed) : ∃ copy, i.Sound copy := by
  obtain ⟨ctx, hexpand, hafter⟩ := h.expanded
  obtain ⟨-, copy, drawn, hsound⟩ := Definition.sound_expandCall hexpand
  have hreserved : i.after.names.reserved = drawn.reverse ++ i.before.names.reserved := by
    rw [hafter]
    exact hsound.reserved
  have hdrawn : i.drawn = drawn := by
    rw [Inlining.drawn, hreserved, List.length_append, Nat.add_sub_cancel, List.take_left,
      List.reverse_reverse]
  refine ⟨copy, ?_⟩
  rw [Inlining.Sound, hdrawn, hafter]
  exact { hsound with }

/-- The function is eligible, and either its expression or a block takes the place of the
call. -/
theorem Performed.expansion_cases {i : Inlining} (h : i.Performed) :
    i.definition.Eligible i.site i.before.scopes ∧
    ((∃ expr, i.definition.function.substitutable? = some expr ∧ i.expansion =
        (Direct.inline i.definition.function expr i.args i.site.scope i.before).1) ∨
      (i.definition.function.substitutable? = none ∧ i.definition.unblockable? i.site = none ∧
        i.expansion =
          (Block.inline i.definition.function i.args i.site.scope i.before).1)) := by
  obtain ⟨ctx, hexpand, -⟩ := h.expanded
  obtain ⟨helig, ⟨expr, hexpr, hdone⟩ | ⟨hnone, hblock, hdone⟩⟩ :=
    Definition.expandCall_cases hexpand
  · exact ⟨helig, .inl ⟨expr, hexpr, CallOutcome.expanded.inj (Prod.mk.inj hdone).1⟩⟩
  · exact ⟨helig, .inr ⟨hnone, hblock, CallOutcome.expanded.inj (Prod.mk.inj hdone).1⟩⟩

/-- A function that is inlined has a scope. -/
theorem Performed.knows_definition {i : Inlining} (h : i.Performed) :
    i.before.scopes.Knows (.function i.definition.function.id) := by
  obtain ⟨inner, hinner, -⟩ := h.expansion_cases.1.free
  exact Option.isSome_of_mem hinner

theorem Performed.definition_mem {i : Inlining} (h : i.Performed) :
    i.definition ∈ i.table.definitions := by
  obtain ⟨name, -, hget, -⟩ := h.callee
  exact List.mem_of_find?_eq_some hget

end Inlining

section Marks

theorem ChangedBodies.mem_insertBody {body other : ChangedBody} {bodies : List ChangedBody} :
    other ∈ insertBody body bodies ↔ other = body ∨ other ∈ bodies := by
  induction bodies with
  | nil => simp [insertBody]
  | cons first rest ih =>
    rw [insertBody]
    split
    · next h => simp [h]
    · split
      · simp
      · rw [List.mem_cons, ih, List.mem_cons, or_left_comm]

theorem ChangedBodies.contains_mark (changes : ChangedBodies) (owner other : ChangedBody) :
    (changes.mark owner.kind).contains other = true ↔
      other = owner ∨ changes.contains other = true := by
  have hmark : changes.mark owner.kind = ⟨insertBody owner changes.bodies⟩ := by
    cases owner <;> rfl
  rw [hmark, contains, List.contains_iff_mem, mem_insertBody, contains, List.contains_iff_mem]

/-- At the scope of a body that body is marked. -/
theorem CallWalk.markChanged_eq {ctx : Context} (hwf : ctx.scopes.WellFormed) {owner : ChangedBody}
    {scope : Nat} (h : ctx.scopes.scopeOf? owner = some scope) :
    markChanged ctx scope = ctx.changes.mark owner.kind := by
  obtain ⟨changed, hget, hkind⟩ := hwf.owners owner scope h
  rw [markChanged, hwf.bodyScope_eq h, hget, ← hkind]

end Marks

namespace Inlining

variable {i : Inlining}

theorem grown {copy : List Stmt} (h : i.Sound copy) :
    Grown i.site.scope (Stmt.bindingsAll i.expansion.prelude)
      (functionIds (Stmt.nodesAll .nested i.expansion.prelude)) i.before.scopes i.after.scopes := by
  rw [h.scopes]
  exact Stmt.grown_declareAll i.expansion.prelude i.site.scope i.before.scopes

/-- The layer of the call before and after. -/
def layerBefore (i : Inlining) : Layer := i.spot.layer i.waiting (.call i.callee i.args)

def layerAfter (i : Inlining) : Layer :=
  i.spot.layer (i.waiting ++ i.expansion.prelude) i.expansion.value

theorem layerBefore_mem (i : Inlining) : i.layerBefore ∈ i.programBefore.layers := by
  obtain ⟨others, hplug⟩ := i.spot.layers_plug
  exact (hplug _ _).mem_iff.mpr List.mem_cons_self

theorem owner_layerBefore (i : Inlining) : i.layerBefore.owner = i.owner :=
  i.spot.place.owner_layer _

theorem owner_layerAfter (i : Inlining) : i.layerAfter.owner = i.owner :=
  i.spot.place.owner_layer _

/-- The names in the arguments of a call are reserved. -/
theorem reserved_args (hbefore : i.momentBefore.Grounded) :
    ∀ name ∈ i.args.flatMap Expr.spelled, name ∈ i.before.names.reserved := by
  intro name hname
  obtain ⟨outside, hspelled⟩ := i.spot.spelled_plug
  refine hbefore.reserved name ((hspelled _ _ _).mpr (.inr (.inr ?_)))
  have hchildren : (Expr.call i.callee i.args).children = i.callee :: i.args := rfl
  rw [Expr.spelled_children (hchildren ▸ List.cons_ne_nil _ _), hchildren, List.flatMap_cons]
  exact List.mem_append_right _ hname

variable {copy : List Stmt} (hsound : i.Sound copy)

include hsound

/-- An inlining changes the layer it is made in, drops some layers of the call, and adds
those of the copy. -/
theorem exists_layers : ∃ same removed kept,
    i.programBefore.layers.Perm (i.layerBefore :: (same ++ removed)) ∧
    i.programAfter.layers.Perm (i.layerAfter :: (same ++ Stmt.layersAll i.owner copy)) ∧
    Stmt.layersAll i.owner i.expansion.prelude = kept ++ Stmt.layersAll i.owner copy ∧
    kept.Sublist same := by
  obtain ⟨others, hplug⟩ := i.spot.layers_plug
  obtain ⟨kept, hprelude, hsub⟩ := hsound.layers i.owner
  obtain ⟨dropped, hargs⟩ := hsub.exists_perm_append
  refine ⟨others ++
    (Stmt.layersAll i.owner i.waiting ++ (kept ++ i.expansion.value.layers i.owner)),
    i.callee.layers i.owner ++ dropped, kept, (hplug _ _).trans ?_, (hplug _ _).trans ?_,
    hprelude, ?_⟩
  · have hcall : (Expr.call i.callee i.args).layers i.owner =
        i.callee.layers i.owner ++ i.args.flatMap (·.layers i.owner) := by
      rw [Expr.layers, Expr.layersAll_eq_flatMap]
    change List.Perm (i.layerBefore :: (others ++ (Stmt.layersAll i.owner i.waiting ++
      (Expr.call i.callee i.args).layers i.owner))) _
    rw [hcall]
    classical
    have hcount := List.perm_iff_count.mp hargs
    refine List.perm_iff_count.mpr fun layer => ?_
    have := hcount layer
    simp only [List.count_append, List.count_cons] at this ⊢
    omega
  · change List.Perm (i.layerAfter :: (others ++ (Stmt.layersAll i.owner
      (i.waiting ++ i.expansion.prelude) ++ i.expansion.value.layers i.owner))) _
    rw [Stmt.layersAll_append, hprelude]
    classical
    refine List.perm_iff_count.mpr fun layer => ?_
    simp only [List.count_append, List.count_cons]
    omega
  · exact (List.sublist_append_left _ _).trans
      ((List.sublist_append_right _ _).trans (List.sublist_append_right _ _))

/-- The literals of a copy have the ids that were drawn. -/
theorem drawn_of_mem_copy {layer : Layer} (h : layer ∈ Stmt.layersAll i.owner copy) :
    ∃ id ∈ i.before.nextNodeId.drawn i.copies, layer.owner = .function id := by
  have howner : layer.owner ∈ (Stmt.layersAll i.owner copy).map (·.owner) :=
    List.mem_map_of_mem h
  rw [Stmt.map_owner_layersAll] at howner
  obtain ⟨id, hid, heq⟩ := List.mem_map.mp howner
  exact ⟨id, hsound.ids.subset hid, heq.symm⟩

section Consistent

variable {next : Nat} (hbefore : i.momentBefore.Consistent next)
  (hfits : IdCounter.Fits next i.copies)

include hbefore hfits

omit hsound in
theorem drawn_eq_range' : i.before.nextNodeId.drawn i.copies = List.range' next i.copies := by
  rw [show i.before.nextNodeId = .ofNat next from hbefore.counter, IdCounter.drawn_ofNat hfits]

/-- These are new. -/
theorem le_of_mem_copy {layer : Layer} (h : layer ∈ Stmt.layersAll i.owner copy) :
    ∃ id, layer.owner = .function id ∧ next ≤ id ∧ id < next + i.copies := by
  obtain ⟨id, hid, heq⟩ := drawn_of_mem_copy hsound h
  rw [drawn_eq_range' hbefore hfits, List.mem_range'_1] at hid
  exact ⟨id, heq, hid⟩

theorem unknown_of_mem_copy {layer : Layer} (h : layer ∈ Stmt.layersAll i.owner copy) :
    ¬ i.before.scopes.Knows layer.owner := by
  obtain ⟨id, heq, hle, -⟩ := le_of_mem_copy hsound hbefore hfits h
  rw [heq]
  exact fun hknows => absurd (hbefore.known id hknows) (Nat.not_lt.mpr hle)

theorem distinct_after : i.programAfter.Distinct := by
  obtain ⟨same, removed, kept, hold, hnew, -, -⟩ := exists_layers hsound
  have hnodup : i.programBefore.Distinct := hbefore.distinct
  rw [Program.Distinct, (hold.map _).nodup_iff, List.map_cons, List.map_append, List.nodup_cons,
    owner_layerBefore, List.mem_append, List.nodup_append] at hnodup
  obtain ⟨howner, hsame, -, -⟩ := hnodup
  have hcopy : ((Stmt.layersAll i.owner copy).map (·.owner)).Nodup := by
    have hids : (i.before.nextNodeId.drawn i.copies).Nodup :=
      drawn_eq_range' hbefore hfits ▸ List.nodup_range'
    rw [Stmt.map_owner_layersAll]
    exact (hsound.ids.nodup hids).map fun _ _ => ChangedBody.function.inj
  -- whatever was there has a scope, which no literal of the copy has
  have hknown {owner : ChangedBody} (h : owner = i.owner ∨ owner ∈ same.map (·.owner)) :
      owner ∉ (Stmt.layersAll i.owner copy).map (·.owner) := by
    intro hmem
    obtain ⟨layer, hlayer, rfl⟩ := List.mem_map.mp hmem
    refine unknown_of_mem_copy hsound hbefore hfits hlayer ?_
    rcases h with h | h
    · rw [h, ← owner_layerBefore]
      exact Knows.of_resolved (hbefore.resolved _ (hold.mem_iff.mpr List.mem_cons_self))
    · obtain ⟨old, hmem, heq⟩ := List.mem_map.mp h
      rw [← heq]
      exact Knows.of_resolved (hbefore.resolved old
        (hold.mem_iff.mpr (List.mem_cons_of_mem _ (List.mem_append_left _ hmem))))
  rw [Program.Distinct, (hnew.map _).nodup_iff, List.map_cons, List.map_append, List.nodup_cons,
    owner_layerAfter, List.mem_append, List.nodup_append]
  refine ⟨fun h => h.elim (fun h => howner (.inl h)) (hknown (.inl rfl)), hsame, hcopy, ?_⟩
  rintro a ha b hb rfl
  exact hknown (.inr ha) hb

variable (hsited : i.Sited)

include hsited

omit hfits in
/-- The names that an inlining declares are new in the layer of the call. -/
theorem lookup_bindings_layerAfter (name : String) : i.layerAfter.bindings.lookup name =
    (i.layerBefore.bindings.lookup name).or
      ((Stmt.bindingsAll i.expansion.prelude).lookup name) := by
  obtain ⟨pre, post, hbindings⟩ := i.spot.bindings_layer
  rw [layerBefore, layerAfter, hbindings, hbindings, Stmt.bindingsAll_append]
  simp only [List.lookup_append]
  cases hnew : (Stmt.bindingsAll i.expansion.prelude).lookup name with
  | none => simp only [Option.or_none]
  | some kind =>
    have hdrawn : name ∈ i.drawn := by
      refine hsound.declared (List.mem_append_left _ ?_)
      rw [← Stmt.map_fst_bindingsAll]
      obtain ⟨first, second, heq, -⟩ := List.lookup_eq_some_iff.mp hnew
      rw [heq]
      simp
    have hold : i.layerBefore.bindings.lookup name = none := by
      obtain ⟨j, scope, -, hj, hscope, -, -, hlookup⟩ := hbefore.resolved i.layerBefore
        i.layerBefore_mem
      rw [owner_layerBefore] at hj
      obtain rfl := Option.some.inj (hj.symm.trans hsited)
      have hwf : i.before.scopes.WellFormed := hbefore.wellFormed
      have hunbound := hsound.unbound name hdrawn
      rw [isBound, hwf.lookup_eq hscope] at hunbound
      split at hunbound
      · cases hunbound
      · next hbinds =>
        rwa [Scope.binds_eq, Bool.not_eq_true, Option.isSome_eq_false_iff,
          Option.isNone_iff_eq_none, hlookup] at hbinds
    rw [layerBefore, hbindings] at hold
    simp only [List.lookup_append, Option.or_eq_none_iff] at hold
    obtain ⟨⟨hpre, hwaiting⟩, hpost⟩ := hold
    rw [hpre, hwaiting, hpost]
    rfl

theorem resolved_after : ∀ layer ∈ i.programAfter.layers, layer.Resolved i.after.scopes := by
  obtain ⟨same, removed, kept, hold, hnew, hprelude, hkept⟩ := exists_layers hsound
  have hgrown := Inlining.grown hsound
  have hwf := hbefore.wellFormed
  have hdistinct := distinct_after hsound hbefore hfits
  rw [Program.Distinct, (hnew.map _).nodup_iff, List.map_cons, owner_layerAfter] at hdistinct
  have hsame {layer : Layer} (h : layer ∈ same) : layer.Resolved i.before.scopes :=
    hbefore.resolved layer (hold.mem_iff.mpr (List.mem_cons_of_mem _ (List.mem_append_left _ h)))
  intro layer hlayer
  rcases List.mem_cons.mp (hnew.mem_iff.mp hlayer) with rfl | hlayer
  · refine (hbefore.resolved i.layerBefore i.layerBefore_mem).grown hgrown hwf hsited
      (i.owner_layerAfter.trans i.owner_layerBefore.symm)
        (i.spot.place.encloser_layer _ _) fun name => ?_
    rw [if_pos i.owner_layerBefore]
    exact lookup_bindings_layerAfter hsound hbefore hsited name
  rcases List.mem_append.mp hlayer with hlayer | hlayer
  · refine (hsame hlayer).grown_of_ne hgrown hwf hsited fun heq => ?_
    refine (List.nodup_cons.mp hdistinct).1 (heq ▸ List.mem_map_of_mem ?_)
    exact List.mem_append_left _ hlayer
  · have hdecl :
        Declarable i.before.scopes i.owner (Stmt.layersAll i.owner i.expansion.prelude) := by
      rw [hprelude]
      refine ⟨hdistinct.sublist (((hkept.append_right _).map _).cons_cons _),
        fun layer hlayer hknows => ?_, fun layer hlayer encloser hencloser hne hknows => ?_⟩
      · rcases List.mem_append.mp hlayer with hlayer | hlayer
        · exact hsame (hkept.subset hlayer)
        · exact absurd hknows (unknown_of_mem_copy hsound hbefore hfits hlayer)
      · rcases List.mem_append.mp hlayer with hlayer | hlayer
        · exact Knows.of_resolved (hsame (hkept.subset hlayer))
        · obtain ⟨encloser', hencloser', hcases⟩ :=
            (Stmt.enclosed_layersAll i.owner copy).exists_encloser hlayer
          rw [hencloser] at hencloser'
          cases hencloser'
          have hinner := hcases.resolve_left fun hmem => hne (List.mem_singleton.mp hmem)
          obtain ⟨outer, houter, rfl⟩ := List.mem_map.mp hinner
          exact absurd hknows (unknown_of_mem_copy hsound hbefore hfits houter)
    rw [hsound.scopes]
    refine (Stmt.declares_declareAll i.expansion.prelude i.owner i.site.scope).resolved _ hwf hsited
      hdecl layer ?_
    rw [hprelude]
    exact List.mem_append_right _ hlayer

omit hsited

/-- Scopes are opened for the copied literals only. -/
theorem known_after {id : Nat} (h : i.after.scopes.Knows (.function id)) :
    i.before.scopes.Knows (.function id) ∨ next ≤ id ∧ id < next + i.copies := by
  obtain ⟨same, removed, kept, hold, hnew, hprelude, hkept⟩ := exists_layers hsound
  rcases (Inlining.grown hsound).only _ h with h | ⟨_, hid, ⟨⟩⟩
  · exact .inl h
  · have howner : .function id ∈ (Stmt.layersAll i.owner i.expansion.prelude).map (·.owner) := by
      rw [Stmt.map_owner_layersAll]
      exact List.mem_map_of_mem hid
    obtain ⟨layer, hlayer, heq⟩ := List.mem_map.mp howner
    rw [hprelude, List.mem_append] at hlayer
    rcases hlayer with hlayer | hlayer
    · refine .inl (heq ▸ Knows.of_resolved (hbefore.resolved layer ?_))
      exact hold.mem_iff.mpr (List.mem_cons_of_mem _ (List.mem_append_left _ (hkept.subset hlayer)))
    · obtain ⟨_, hid, hrange⟩ := le_of_mem_copy hsound hbefore hfits hlayer
      cases heq.symm.trans hid
      exact .inr hrange

end Consistent

theorem reserved_after (hbefore : i.momentBefore.Grounded)
    (hcovered : ∀ name ∈ (Expr.function i.definition.function).spelled,
      name ∈ i.before.names.reserved) :
    ∀ name ∈ spelled i.programAfter.nodes, name ∈ i.after.names.reserved := by
  obtain ⟨outside, hspelled⟩ := i.spot.spelled_plug
  have hold {name : String} (h : name ∈ outside ∨ name ∈ Stmt.spelledAll i.waiting ∨
      name ∈ (Expr.call i.callee i.args).spelled) : name ∈ i.before.names.reserved :=
    hbefore.reserved name ((hspelled _ _ _).mpr h)
  intro name hname
  rw [hsound.reserved, List.mem_append, List.mem_reverse]
  rcases (hspelled _ _ _).mp hname with hname | hname
  · exact .inr (hold (.inl hname))
  rw [Stmt.spelledAll_append, List.mem_append, or_assoc, ← List.mem_append] at hname
  rcases hname with hname | hname
  · exact .inr (hold (.inr (.inl hname)))
  · rcases List.mem_append.mp (hsound.spelled hname) with hname | hname
    · exact .inl hname
    rcases List.mem_append.mp hname with hname | hname
    · refine .inr (hcovered name ?_)
      rw [Expr.spelled, Expr.nodes_function, spelled_cons]
      exact List.mem_append_right _ hname
    · exact .inr (reserved_args hbefore name hname)

end Inlining

theorem Inlining.reserved_subset {i : Inlining} {copy : List Stmt} (h : i.Sound copy) :
    i.before.names.reserved ⊆ i.after.names.reserved := by
  rw [h.reserved]
  exact List.subset_append_right _ _

/-- After an inlining the names in use are reserved. -/
theorem Inlining.Performed.grounded {i : Inlining} (h : i.Performed) (hsited : i.Sited)
    (hbefore : i.momentBefore.Grounded) (hcovered : i.table.Covered i.before) :
    i.momentAfter.Grounded ∧ i.table.Covered i.after := by
  obtain ⟨copy, hsound⟩ := h.sound
  refine ⟨⟨?_, ?_⟩, fun definition hmem name hname => ?_⟩
  · exact (Inlining.grown hsound).wellFormed hbefore.wellFormed (hbefore.wellFormed.lt_size hsited)
  · exact reserved_after hsound hbefore (hcovered i.definition h.definition_mem)
  · exact reserved_subset hsound (hcovered definition hmem name hname)

/-- If its new ids fit, an inlining leaves a context that fits the program. -/
theorem Inlining.Performed.consistent {i : Inlining} (h : i.Performed) (hsited : i.Sited)
    {next : Nat} (hbefore : i.momentBefore.Consistent next) (hcovered : i.table.Covered i.before)
    (hfits : IdCounter.Fits next i.copies) : i.momentAfter.Consistent (next + i.copies) := by
  obtain ⟨copy, hsound⟩ := h.sound
  refine { (h.grounded hsited hbefore.toGrounded hcovered).1 with
    distinct := distinct_after hsound hbefore hfits
    resolved := resolved_after hsound hbefore hfits hsited
    counter := ?_
    known := fun id hid => ?_ }
  · have hcounter : i.before.nextNodeId = .ofNat next := hbefore.counter
    have hadvance : i.after.nextNodeId = i.before.nextNodeId.advance i.copies := hsound.counter
    rw [momentAfter, hadvance, hcounter, IdCounter.advance_ofNat]
  · rcases known_after hsound hbefore hfits hid with hid | hid
    · exact Nat.lt_of_lt_of_le (hbefore.known id hid) (Nat.le_add_right _ _)
    · exact hid.2

section Dropping

variable (place : Place) (done rest : List Stmt) (name : String)

/-- Dropping a statement that only reads a variable changes one layer, and in it no binding. -/
theorem Place.layers_drop : ∃ others,
    (place.plug (done ++ Stmt.expr (.ident name) :: rest)).layers.Perm
      (place.layer (done ++ Stmt.expr (.ident name) :: rest) :: others) ∧
    (place.plug (done ++ rest)).layers.Perm (place.layer (done ++ rest) :: others) := by
  obtain ⟨others, hplug⟩ := place.layers_plug
  refine ⟨_, hplug _, ?_⟩
  have hsame : Stmt.layersAll place.owner (done ++ Stmt.expr (.ident name) :: rest) =
      Stmt.layersAll place.owner (done ++ rest) := by
    rw [Stmt.layersAll_append, Stmt.layersAll_append]
    rfl
  rw [hsame]
  exact hplug _

theorem Moment.Grounded.drop {ctx : Context}
    (h : Grounded ⟨place.plug (done ++ Stmt.expr (.ident name) :: rest), ctx⟩) :
    Grounded ⟨place.plug (done ++ rest), ctx⟩ := by
  refine { h with reserved := fun other hother => ?_ }
  obtain ⟨outside, hspelled⟩ := place.spelled_plug
  refine h.reserved other
    ((hspelled _ _).mpr (((hspelled _ _).mp hother).imp_right fun hother => ?_))
  rw [Stmt.spelledAll_append, List.mem_append] at hother ⊢
  refine hother.imp_right fun hother => ?_
  rw [Stmt.spelledAll_cons]
  exact List.mem_append_right _ hother

theorem Moment.Consistent.drop {ctx : Context} {next : Nat}
    (h : Consistent ⟨place.plug (done ++ Stmt.expr (.ident name) :: rest), ctx⟩ next) :
    Consistent ⟨place.plug (done ++ rest), ctx⟩ next := by
  obtain ⟨others, hold, hnew⟩ := place.layers_drop done rest name
  refine { h.toGrounded.drop, h with distinct := ?_, resolved := fun layer hlayer => ?_ }
  · have hdistinct := h.distinct
    rw [Program.Distinct, (hold.map _).nodup_iff, List.map_cons, place.owner_layer] at hdistinct
    rwa [Program.Distinct, (hnew.map _).nodup_iff, List.map_cons, place.owner_layer]
  · rcases List.mem_cons.mp (hnew.mem_iff.mp hlayer) with rfl | hlayer
    · obtain ⟨i, scope, parent, hi, hscope, hparent, henclosing, hlookup⟩ :=
        h.resolved _ (hold.mem_iff.mpr List.mem_cons_self)
      obtain ⟨pre, post, hbindings⟩ := place.bindings_layer
      rw [place.owner_layer] at hi
      refine ⟨i, scope, parent, by rwa [place.owner_layer], hscope, hparent, ?_, fun name => ?_⟩
      · rwa [enclosing?, place.encloser_layer _ (done ++ Stmt.expr (.ident name) :: rest)]
      · rw [hlookup, hbindings, hbindings, Stmt.bindingsAll_append, Stmt.bindingsAll_append]
        rfl
    · exact h.resolved layer (hold.mem_iff.mpr (List.mem_cons_of_mem _ hlayer))

end Dropping

end StaticInliner
