import StaticInliner.Proofs.Moments

/-!
Histories. From a moment another one is reached by inlinings, by dropping statements
that only read a variable of a layer changed already, and by counting. So whatever an
inlining keeps up holds at every moment reached, and what a layer, a mark or a name has
become is explained by the inlinings. A walk that had to stop has lost the statements
that were waiting, but its context is that of a moment reached.
-/
namespace StaticInliner

open ScopeTree

/-- A moment is reached from another one by some inlinings, the last one at the end. -/
inductive Reaches (start : Moment) : List Inlining → Moment → Prop
  | start : Reaches start [] start
  | count {history : List Inlining} {program : Program} {ctx : Context} (stats : Stats) :
    Reaches start history ⟨program, ctx⟩ → Reaches start history ⟨program, { ctx with stats }⟩
  | drop {history : List Inlining} {ctx : Context} (place : Place) (done rest : List Stmt)
    (name : String) :
    Reaches start history ⟨place.plug (done ++ .expr (.ident name) :: rest), ctx⟩ →
    (∃ i ∈ history, i.owner = place.owner) →
    Reaches start history ⟨place.plug (done ++ rest), ctx⟩
  | inline {history : List Inlining} (i : Inlining) :
    Reaches start history i.momentBefore → i.table.Covered i.before → i.Performed → i.Sited →
    Reaches start (history ++ [i]) i.momentAfter

/-- A well-formed tree in which every body still has the scope that it had, and every name
that was bound by a function still is, as seen from a scope that was there. -/
structure ScopeTree.Keeps (tree tree' : ScopeTree) : Prop where
  wellFormed : tree'.WellFormed
  size : tree.size ≤ tree'.size
  owners : ∀ owner i, tree.scopeOf? owner = some i → tree'.scopeOf? owner = some i
  bound : ∀ id name, tree.isBoundInFunction id name = true → tree'.isBoundInFunction id name = true

/-- What a context keeps while it goes on. -/
structure Moment.Extends (m m' : Moment) : Prop where
  reserved : m.ctx.names.reserved ⊆ m'.ctx.names.reserved
  scopes : m.ctx.scopes.Keeps m'.ctx.scopes

theorem ScopeTree.Keeps.refl {tree : ScopeTree} (hwf : tree.WellFormed) : tree.Keeps tree :=
  ⟨hwf, Nat.le_refl _, fun _ _ h => h, fun _ _ h => h⟩

theorem ScopeTree.Keeps.trans {tree tree' tree'' : ScopeTree} (h : tree.Keeps tree')
    (h' : tree'.Keeps tree'') : tree.Keeps tree'' where
  wellFormed := h'.wellFormed
  size := Nat.le_trans h.size h'.size
  owners owner i hi := h'.owners owner i (h.owners owner i hi)
  bound id name hname := h'.bound id name (h.bound id name hname)

theorem Moment.Extends.trans {m m' m'' : Moment} (h : m.Extends m') (h' : m'.Extends m'') :
    m.Extends m'' where
  reserved := List.Subset.trans h.reserved h'.reserved
  scopes := h.scopes.trans h'.scopes

theorem ScopeTree.isBound_of_isBoundInFunction {tree : ScopeTree} {id : Nat} {name : String}
    (h : tree.isBoundInFunction id name = true) : tree.isBound id name = true := by
  rw [isBoundInFunction] at h
  rw [isBound]
  cases hlookup : tree.lookup id name with
  | none => rw [hlookup] at h; cases h
  | some _ => rfl

theorem ScopeTree.lt_size_of_isBound {tree : ScopeTree} {id : Nat} {name : String}
    (h : tree.isBound id name = true) : id < tree.size := by
  by_contra hge
  have hnone : tree.get? id = none := List.getElem?_eq_none (Nat.le_of_not_lt hge)
  have hancestors : tree.ancestors id = [] := by
    rw [ancestors]
    cases tree.size with
    | zero => rfl
    | succ limit => rw [chain, hnone]
  rw [isBound, lookup, hancestors] at h
  cases h

namespace Inlining

variable {i : Inlining}

/-- What a name means after an inlining, if it means something before. -/
theorem lookup_after {copy : List Stmt} (hsound : i.Sound copy)
    (hwf : i.before.scopes.WellFormed) (hsite : i.site.scope < i.before.scopes.size) {id : Nat}
    (hid : id < i.before.scopes.size) {name : String}
    (hname : name ∉ Stmt.declarationsAll i.expansion.prelude ∨
      i.before.scopes.isBound id name = true) :
    (i.after.scopes.lookup id name).map Scope.frame =
      (i.before.scopes.lookup id name).map Scope.frame := by
  refine (Inlining.grown hsound).lookup_frame hwf hsite hid ?_
  rw [Stmt.map_fst_bindingsAll]
  by_cases hnew : name ∈ Stmt.declarationsAll i.expansion.prelude
  · exact .inr ⟨hsound.unbound name (hsound.declared (List.mem_append_left _ hnew)),
      hname.resolve_left fun h => h hnew⟩
  · exact .inl hnew

/-- An inlining keeps the scopes of the tree that it declares its names in. -/
theorem Performed.keeps (h : i.Performed) (hwf : i.before.scopes.WellFormed)
    (hsite : i.site.scope < i.before.scopes.size) : i.before.scopes.Keeps i.after.scopes := by
  obtain ⟨copy, hsound⟩ := h.sound
  have hgrown := Inlining.grown hsound
  refine ⟨hgrown.wellFormed hwf hsite, hgrown.size, hgrown.owners, fun id name hname => ?_⟩
  have hbound := isBound_of_isBoundInFunction hname
  have hlookup := lookup_after hsound hwf hsite (lt_size_of_isBound hbound) (.inr hbound)
  rw [isBoundInFunction_eq] at hname ⊢
  exact hlookup ▸ hname

/-- One inlining extends the moment before it. -/
theorem Performed.extended (h : i.Performed) (hsited : i.Sited)
    (hwf : i.before.scopes.WellFormed) : i.momentBefore.Extends i.momentAfter := by
  obtain ⟨copy, hsound⟩ := h.sound
  exact ⟨reserved_subset hsound, h.keeps hwf (hwf.lt_size hsited)⟩

/-- An inlining marks the body it is made in. -/
theorem Performed.contains_changes (h : i.Performed) (hsited : i.Sited)
    (hwf : i.before.scopes.WellFormed) (body : ChangedBody) :
    i.after.changes.contains body = true ↔
      body = i.owner ∨ i.before.changes.contains body = true := by
  obtain ⟨ctx, hexpand, hafter⟩ := h.expanded
  obtain ⟨⟨hchanges, -⟩, copy, drawn, hsound⟩ := Definition.sound_expandCall hexpand
  have hgrown : Grown i.site.scope _ _ i.before.scopes ctx.scopes :=
    hsound.scopes ▸ Stmt.grown_declareAll i.expansion.prelude i.site.scope i.before.scopes
  rw [hafter]
  rw [CallWalk.markChanged_eq (hgrown.wellFormed hwf (hwf.lt_size hsited))
    (hgrown.owners i.owner i.site.scope hsited), hchanges, ChangedBodies.contains_mark]

end Inlining

/-- How many function literals some inlinings copy. -/
def copyCount : List Inlining → Nat
  | [] => 0
  | i :: rest => i.copies + copyCount rest

theorem copyCount_append (first second : List Inlining) :
    copyCount (first ++ second) = copyCount first + copyCount second := by
  induction first with
  | nil => rw [List.nil_append, copyCount, Nat.zero_add]
  | cons i rest ih => rw [List.cons_append, copyCount, copyCount, ih, Nat.add_assoc]

theorem copyCount_snoc (history : List Inlining) (i : Inlining) :
    copyCount (history ++ [i]) = copyCount history + i.copies := by
  rw [copyCount_append, copyCount, copyCount, Nat.add_zero]

/-- An element of a list with one more at its end is the last one or was there before. -/
theorem snoc_eq_append_cons {α : Type} {list first last : List α} {a b : α}
    (h : list ++ [a] = first ++ b :: last) :
    (first = list ∧ b = a) ∨ ∃ last', list = first ++ b :: last' := by
  rcases List.eq_nil_or_concat last with rfl | ⟨last', other, rfl⟩
  · obtain ⟨rfl, ⟨⟩⟩ := List.append_inj' h rfl
    exact .inl ⟨rfl, rfl⟩
  · rw [List.concat_eq_append, ← List.cons_append, ← List.append_assoc] at h
    exact .inr ⟨last', List.append_inj_left' h rfl⟩

namespace Reaches

variable {start m m' : Moment} {history history' : List Inlining}

/-- Histories are put one after another. -/
theorem trans (h : Reaches start history m) (h' : Reaches m history' m') :
    Reaches start (history ++ history') m' := by
  induction h' with
  | start => rwa [List.append_nil]
  | count stats _ ih => exact .count stats ih
  | drop place done rest name _ howner ih =>
    obtain ⟨i, hi, howner⟩ := howner
    exact .drop place done rest name ih ⟨i, List.mem_append_right _ hi, howner⟩
  | inline i _ hcovered hperformed hsited ih =>
    rw [← List.append_assoc]
    exact .inline i ih hcovered hperformed hsited

/-- At every moment the names in use are reserved. -/
theorem grounded (h : Reaches start history m) (hstart : start.Grounded) : m.Grounded := by
  induction h with
  | start => exact hstart
  | count stats _ ih => exact { ih with }
  | drop place done rest name _ _ ih => exact ih.drop
  | inline i _ hcovered hperformed hsited ih => exact (hperformed.grounded hsited ih hcovered).1

/-- As long as the new ids fit, the context fits the program at every moment. -/
theorem consistent (h : Reaches start history m) {next : Nat} (hstart : start.Consistent next)
    (hfits : IdCounter.Fits next (copyCount history)) :
    m.Consistent (next + copyCount history) := by
  induction h with
  | start => exact hstart
  | count stats _ ih => exact { ih hfits with }
  | drop place done rest name _ _ ih => exact (ih hfits).drop
  | inline i _ hcovered hperformed hsited ih =>
    rw [copyCount_snoc] at hfits ⊢
    rw [← Nat.add_assoc]
    exact hperformed.consistent hsited (ih hfits.split.1) hcovered hfits.split.2

/-- Every id that was drawn went to a copy. -/
theorem counter_eq (h : Reaches start history m) :
    m.ctx.nextNodeId = start.ctx.nextNodeId.advance (copyCount history) := by
  induction h with
  | start => exact start.ctx.nextNodeId.advance_zero.symm
  | count _ _ ih | drop _ _ _ _ _ _ ih => exact ih
  | inline i _ _ hperformed _ ih =>
    obtain ⟨copy, hsound⟩ := hperformed.sound
    have hstep : i.momentAfter.ctx.nextNodeId = i.momentBefore.ctx.nextNodeId.advance i.copies :=
      hsound.counter
    rw [hstep, ih, IdCounter.advance_advance, copyCount_snoc]

/-- A history extends the moment that it starts with. -/
theorem extended (h : Reaches start history m) (hstart : start.Grounded) : start.Extends m := by
  induction h with
  | start => exact ⟨List.Subset.refl _, .refl hstart.wellFormed⟩
  | count stats _ ih => exact { ih with }
  | drop place done rest name _ _ ih => exact { ih with }
  | inline i hbefore _ hperformed hsited ih =>
    exact ih.trans (hperformed.extended hsited (hbefore.grounded hstart).wellFormed)

/-- Each inlining of a history was made at a moment reached by those before it. -/
theorem at_inlining (h : Reaches start history m) {first last : List Inlining} {i : Inlining}
    (heq : history = first ++ i :: last) :
    Reaches start first i.momentBefore ∧ i.table.Covered i.before ∧ i.Performed ∧ i.Sited := by
  induction h generalizing last with
  | start => simp at heq
  | count _ _ ih | drop _ _ _ _ _ _ ih => exact ih heq
  | inline j hbefore hcovered hperformed hsited ih =>
    rcases snoc_eq_append_cons heq with ⟨rfl, rfl⟩ | ⟨last', heq⟩
    · exact ⟨hbefore, hcovered, hperformed, hsited⟩
    · exact ih heq

/-- At each of its inlinings the context fits the program, and so do the ids that are drawn. -/
theorem consistent_at (h : Reaches start history m) {next : Nat} (hstart : start.Consistent next)
    (hfits : IdCounter.Fits next (copyCount history)) {first last : List Inlining} {i : Inlining}
    (heq : history = first ++ i :: last) :
    i.momentBefore.Consistent (next + copyCount first) ∧
      IdCounter.Fits (next + copyCount first) i.copies := by
  rw [heq, List.append_cons, copyCount_append, copyCount_snoc] at hfits
  have hfits := hfits.split.1.split
  exact ⟨(h.at_inlining heq).1.consistent hstart hfits.1, hfits.2⟩

/-- A body is marked once something was inlined in it. -/
theorem contains_changes (h : Reaches start history m) (hstart : start.Grounded)
    (body : ChangedBody) : m.ctx.changes.contains body = true ↔
      start.ctx.changes.contains body = true ∨ ∃ i ∈ history, i.owner = body := by
  induction h with
  | start => simp
  | count _ _ ih | drop _ _ _ _ _ _ ih => exact ih
  | inline i hbefore _ hperformed hsited ih =>
    have hmarks := hperformed.contains_changes hsited (hbefore.grounded hstart).wellFormed body
    simp only [List.mem_append, List.mem_singleton, or_and_right, exists_or, exists_eq_left]
    refine (hmarks.trans (or_congr_right ih)).trans ?_
    rw [or_comm, or_assoc, eq_comm (a := body)]

/-- A layer in which nothing was inlined is as it was, unless it is new. -/
theorem layer_mem (h : Reaches start history m) {next : Nat} (hstart : start.Consistent next)
    (hfits : IdCounter.Fits next (copyCount history)) {layer : Layer}
    (hlayer : layer ∈ m.program.layers) (hnone : ∀ i ∈ history, i.owner ≠ layer.owner)
    (hold : ∀ id, layer.owner = .function id → id < next) : layer ∈ start.program.layers := by
  induction h with
  | start => exact hlayer
  | count _ _ ih => exact ih hfits hlayer hnone
  | drop place done rest name _ howner ih =>
    obtain ⟨others, hbefore, hafter⟩ := place.layers_drop done rest name
    rcases List.mem_cons.mp (hafter.mem_iff.mp hlayer) with rfl | hlayer
    · obtain ⟨i, hi, howner⟩ := howner
      exact absurd (howner.trans (place.owner_layer _).symm) (hnone i hi)
    · exact ih hfits (hbefore.mem_iff.mpr (List.mem_cons_of_mem _ hlayer)) hnone
  | inline i hbefore _ hperformed _ ih =>
    obtain ⟨copy, hsound⟩ := hperformed.sound
    obtain ⟨same, removed, kept, hbefore', hafter, -, -⟩ := Inlining.exists_layers hsound
    rw [List.forall_mem_append, List.forall_mem_singleton] at hnone
    rw [copyCount_snoc] at hfits
    rcases List.mem_cons.mp (hafter.mem_iff.mp hlayer) with rfl | hlayer
    · exact absurd i.owner_layerAfter.symm hnone.2
    rcases List.mem_append.mp hlayer with hlayer | hlayer
    · refine ih hfits.split.1 (hbefore'.mem_iff.mpr ?_) hnone.1
      exact List.mem_cons_of_mem _ (List.mem_append_left _ hlayer)
    · obtain ⟨id, hid, hle, -⟩ := Inlining.le_of_mem_copy hsound
        (hbefore.consistent hstart hfits.split.1) hfits.split.2 hlayer
      exact absurd (hold id hid) (Nat.not_lt.mpr (Nat.le_of_add_right_le hle))

/-- Without inlinings nothing changes. -/
theorem unchanged (h : Reaches start [] m) :
    m.program = start.program ∧ m.ctx.scopes = start.ctx.scopes := by
  generalize hnil : [] = history at h
  induction h with
  | start => exact ⟨rfl, rfl⟩
  | count _ _ ih => exact ih hnil
  | drop _ _ _ _ _ howner _ =>
    obtain ⟨i, hi, -⟩ := howner
    exact absurd hi (hnil ▸ List.not_mem_nil)
  | inline _ _ _ _ _ _ => simp at hnil

/-- Layers are old or belong to literals with new ids. -/
theorem owner_mem_or_le (h : Reaches start history m) {next : Nat} (hstart : start.Consistent next)
    (hfits : IdCounter.Fits next (copyCount history)) {layer : Layer}
    (hlayer : layer ∈ m.program.layers) : layer.owner ∈ start.program.layers.map (·.owner) ∨
      ∃ id, layer.owner = .function id ∧ next ≤ id := by
  induction h generalizing layer with
  | start => exact .inl (List.mem_map_of_mem hlayer)
  | count _ _ ih => exact ih hfits hlayer
  | drop place done rest name _ _ ih =>
    obtain ⟨others, hbefore, hafter⟩ := place.layers_drop done rest name
    rcases List.mem_cons.mp (hafter.mem_iff.mp hlayer) with rfl | hlayer
    · have h := ih hfits (hbefore.mem_iff.mpr List.mem_cons_self)
      rwa [place.owner_layer] at h ⊢
    · exact ih hfits (hbefore.mem_iff.mpr (List.mem_cons_of_mem _ hlayer))
  | inline i hbefore _ hperformed _ ih =>
    obtain ⟨copy, hsound⟩ := hperformed.sound
    obtain ⟨same, removed, kept, hbefore', hafter, -, -⟩ := Inlining.exists_layers hsound
    rw [copyCount_snoc] at hfits
    rcases List.mem_cons.mp (hafter.mem_iff.mp hlayer) with rfl | hlayer
    · rw [i.owner_layerAfter, ← i.owner_layerBefore]
      exact ih hfits.split.1 i.layerBefore_mem
    rcases List.mem_append.mp hlayer with hlayer | hlayer
    · exact ih hfits.split.1
        (hbefore'.mem_iff.mpr (List.mem_cons_of_mem _ (List.mem_append_left _ hlayer)))
    · obtain ⟨id, hid, hle, -⟩ := Inlining.le_of_mem_copy hsound
        (hbefore.consistent hstart hfits.split.1) hfits.split.2 hlayer
      exact .inr ⟨id, hid, Nat.le_of_add_right_le hle⟩

/-- The names drawn for all inlinings are new and different, and stay reserved. -/
theorem reserved_eq (h : Reaches start history m) :
    m.ctx.names.reserved = (history.flatMap Inlining.drawn).reverse ++ start.ctx.names.reserved ∧
      (history.flatMap Inlining.drawn).Nodup ∧
      ∀ name ∈ history.flatMap Inlining.drawn, name ∉ start.ctx.names.reserved := by
  induction h with
  | start => exact ⟨rfl, .nil, nofun⟩
  | count _ _ ih | drop _ _ _ _ _ _ ih => exact ih
  | inline i _ _ hperformed _ ih =>
    obtain ⟨copy, hsound⟩ := hperformed.sound
    obtain ⟨hreserved, hnodup, hnew⟩ := ih
    have hfresh : ∀ name ∈ i.drawn, name ∉ i.momentBefore.ctx.names.reserved := hsound.fresh
    rw [hreserved] at hfresh
    simp only [List.mem_append, List.mem_reverse, not_or] at hfresh
    rw [List.flatMap_append, List.flatMap_singleton]
    refine ⟨?_, ?_, ?_⟩
    · rw [List.reverse_append, List.append_assoc, ← hreserved]
      exact hsound.reserved
    · refine List.nodup_append.mpr ⟨hnodup, hsound.nodup, fun a ha b hb hab => ?_⟩
      exact (hfresh b hb).1 (hab ▸ ha)
    · exact List.forall_mem_append.mpr ⟨hnew, fun name hname => (hfresh name hname).2⟩

end Reaches

/-- A walk has come to a moment by some inlinings. If it had to stop then the statements that
were waiting are lost; the program that the inlinings lead to has them. -/
def Led (start : Moment) (history : List Inlining) (m : Moment) (fault : Option InlineFault) :
    Prop :=
  ∃ program, Reaches start history ⟨program, m.ctx⟩ ∧ (fault = none → program = m.program) ∧
    spelled m.program.nodes ⊆ spelled program.nodes

namespace Led

variable {start middle m : Moment} {history history' : List Inlining} {fault : Option InlineFault}

theorem of_reaches (h : Reaches start history m) (fault : Option InlineFault) :
    Led start history m fault := ⟨m.program, h, fun _ => rfl, List.Subset.refl _⟩

/-- A walk that goes on has reached the moment that it is at. -/
theorem reaches (h : Led start history m fault) (hgoing : fault = none) :
    Reaches start history m := by
  obtain ⟨program, hreaches, hprogram, -⟩ := h
  rwa [hprogram hgoing] at hreaches

/-- A walk may go on from a moment that was reached. -/
theorem trans (h : Reaches start history middle) (h' : Led middle history' m fault) :
    Led start (history ++ history') m fault := by
  obtain ⟨program, hreaches, hprogram⟩ := h'
  exact ⟨program, h.trans hreaches, hprogram⟩

/-- A walk leads from a grounded moment to a grounded one, even if it had to stop. -/
theorem grounded (h : Led start history m fault) (hstart : start.Grounded) : m.Grounded := by
  obtain ⟨program, hreaches, -, hspelled⟩ := h
  have hgrounded := hreaches.grounded hstart
  exact { hgrounded with reserved := fun name hname => hgrounded.reserved name (hspelled hname) }

theorem extended (h : Led start history m fault) (hstart : start.Grounded) : start.Extends m := by
  obtain ⟨program, hreaches, -⟩ := h
  exact { hreaches.extended hstart with }

end Led

end StaticInliner
