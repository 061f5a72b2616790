import StaticInliner.Proofs.Expanded
import StaticInliner.Proofs.Gathering

/-!
Free names of trees. They are those of the parts, except that a function literal takes out
what it binds. So a renaming changes the free names and nothing else about them, and
rebinding and lowering a body add only the names they assign to.
-/
namespace StaticInliner

section Bound

theorem mem_flatMap_and_iff {α β : Type} {f g : α → List β} {b : β} {p : Prop} {list : List α}
    (h : ∀ a ∈ list, (b ∈ f a ↔ b ∈ g a ∧ p)) : b ∈ list.flatMap f ↔ b ∈ list.flatMap g ∧ p := by
  simp only [List.mem_flatMap]
  constructor
  · rintro ⟨a, ha, hb⟩
    exact ⟨⟨a, ha, ((h a ha).mp hb).1⟩, ((h a ha).mp hb).2⟩
  · rintro ⟨⟨a, ha, hb⟩, hp⟩
    exact ⟨a, ha, (h a ha).mpr ⟨hb, hp⟩⟩

theorem byParts_mem_freeNames (name : String) : ByParts
    (fun e => ∀ bound, name ∈ e.freeNames bound ↔ name ∈ e.freeNames [] ∧ name ∉ bound)
    (fun s => ∀ bound, name ∈ s.freeNames bound ↔ name ∈ s.freeNames [] ∧ name ∉ bound)
    (fun list => ∀ bound, name ∈ Stmt.freeNamesAll bound list ↔
      name ∈ Stmt.freeNamesAll [] list ∧ name ∉ bound) := by
  -- what a literal binds is added to what was bound before
  have hinner {list : List Stmt} (ih : ∀ bound, name ∈ Stmt.freeNamesAll bound list ↔
      name ∈ Stmt.freeNamesAll [] list ∧ name ∉ bound) (own bound : List String) :
      name ∈ Stmt.freeNamesAll (own ++ bound) list ↔
        name ∈ Stmt.freeNamesAll (own ++ []) list ∧ name ∉ bound := by
    rw [ih, ih (own ++ []), List.append_nil, List.mem_append, not_or, and_assoc]
  refine ⟨fun e hlayer ih bound => ?_, fun fn ih bound => ?_, fun fn ih bound => ?_,
    fun s hfn hhead hbodies bound => ?_, fun list ih bound => ?_⟩
  · rcases e.ident_or with ⟨other, rfl⟩ | hname
    · simp only [Expr.freeNames, List.contains_eq_mem]
      grind
    · rw [Expr.freeNames_operation hlayer hname, Expr.freeNames_operation hlayer hname]
      exact mem_flatMap_and_iff fun operand hoperand => ih operand hoperand bound
  · rw [Expr.freeNames_function, Expr.freeNames_function]
    exact hinner ih _ bound
  · rw [Stmt.freeNames_function, Stmt.freeNames_function]
    exact hinner ih _ bound
  · rw [Stmt.freeNames_parts hfn, Stmt.freeNames_parts hfn, List.mem_append, List.mem_append,
      mem_flatMap_and_iff fun e he => hhead e (Option.mem_toList.mp he) bound,
      mem_flatMap_and_iff fun body hbody => hbodies body hbody bound, ← or_and_right]
  · rw [Stmt.freeNamesAll_eq_flatMap, Stmt.freeNamesAll_eq_flatMap]
    exact mem_flatMap_and_iff fun s hs => ih s hs bound

/-- Names that are bound around a body are not free in it, and no others are taken out. -/
theorem Stmt.mem_freeNamesAll_iff {name : String} {bound : List String} {stmts : List Stmt} :
    name ∈ Stmt.freeNamesAll bound stmts ↔ name ∈ Stmt.freeNamesAll [] stmts ∧ name ∉ bound :=
  (byParts_mem_freeNames name).stmts stmts bound

end Bound

section Renaming

/-- Free names before and after a renaming: what is there comes from an old name, and what
is not renamed is kept. -/
structure RenamesFree (names : Renaming) (old new : List String) : Prop where
  traced : Traced (fun name name' => name' = names.apply name) old new
  kept : ∀ name ∈ old, name ∉ names.map (·.1) → name ∈ new

namespace RenamesFree

variable {names : Renaming} {old old' new new' : List String}

theorem append (h : RenamesFree names old new) (h' : RenamesFree names old' new') :
    RenamesFree names (old ++ old') (new ++ new') where
  traced := h.traced.append h'.traced
  kept name hname hnames := by
    rcases List.mem_append.mp hname with hname | hname
    · exact List.mem_append_left _ (h.kept name hname hnames)
    · exact List.mem_append_right _ (h'.kept name hname hnames)

theorem flatMap {α : Type} {free : α → List String} {list list' : List α}
    (h : List.Forall₂ (fun a a' => RenamesFree names (free a) (free a')) list list') :
    RenamesFree names (list.flatMap free) (list'.flatMap free) := by
  induction h with
  | nil => exact ⟨.nil, nofun⟩
  | cons hfirst _ ih =>
    rw [List.flatMap_cons, List.flatMap_cons]
    exact hfirst.append ih

theorem body {stmts stmts' : List Stmt}
    (h : List.Forall₂ (fun s s' => RenamesFree names (s.freeNames []) (s'.freeNames []))
      stmts stmts') :
    RenamesFree names (Stmt.freeNamesAll [] stmts) (Stmt.freeNamesAll [] stmts') := by
  rw [Stmt.freeNamesAll_eq_flatMap, Stmt.freeNamesAll_eq_flatMap]
  exact .flatMap h

end RenamesFree

theorem Renaming.apply_without (names : Renaming) (shadowed : List String) (name : String) :
    (names.without shadowed).apply name = if name ∈ shadowed then name else names.apply name := by
  by_cases h : name ∈ shadowed
  · rw [if_pos h]
    refine Renaming.apply_of_notMem fun hmem => ?_
    obtain ⟨entry, hentry, rfl⟩ := List.mem_map.mp hmem
    have := (List.mem_filter.mp hentry).2
    simp [h] at this
  · rw [if_neg h, apply, apply]
    congr 1
    induction names with
    | nil => rfl
    | cons entry rest ih =>
      obtain ⟨old, new⟩ := entry
      by_cases heq : name = old
      · subst heq
        simp [without, h]
      · have hne := beq_eq_false_iff_ne.mpr heq
        by_cases hold : old ∈ shadowed <;>
          simpa [without, hold, List.lookup_cons, hne] using ih

theorem Renaming.keys_without (names : Renaming) (shadowed : List String) :
    (names.without shadowed).map (·.1) ⊆ names.map (·.1) :=
  List.map_subset _ (names.without_subset shadowed)

/-- A literal around a renamed body, in which its own names are left alone. -/
theorem RenamesFree.inner {names : Renaming} {shadowed own : List String} {body body' : List Stmt}
    (hown : ∀ name, name ∈ shadowed ↔ name ∈ own)
    (h : RenamesFree (names.without shadowed) (Stmt.freeNamesAll [] body)
      (Stmt.freeNamesAll [] body')) :
    RenamesFree names (Stmt.freeNamesAll own body) (Stmt.freeNamesAll own body') where
  traced name hname := by
    rw [Stmt.mem_freeNamesAll_iff] at hname
    obtain ⟨old, hold, heq⟩ := h.traced name hname.1
    rw [Renaming.apply_without] at heq
    by_cases hmem : old ∈ shadowed
    · rw [if_pos hmem] at heq
      exact absurd ((hown name).mp (heq ▸ hmem)) hname.2
    · rw [if_neg hmem] at heq
      exact ⟨old, Stmt.mem_freeNamesAll_iff.mpr ⟨hold, fun hown' => hmem ((hown old).mpr hown')⟩,
        heq⟩
  kept name hname hnames := by
    rw [Stmt.mem_freeNamesAll_iff] at hname ⊢
    exact ⟨h.kept name hname.1 fun hmem => hnames (names.keys_without shadowed hmem), hname.2⟩

/-- What a nested function declares is not renamed in its body. -/
theorem declaredNames_rename {names : Renaming} {shadowed params : List String} {body : List Stmt}
    (h : declaredNames params body ⊆ shadowed) (next : IdCounter) :
    declaredNames params (Stmt.renameAll (names.without shadowed) [] body next).1 =
      declaredNames params body := by
  rw [declaredNames, declaredNames, Stmt.declarationsAll_renameAll]
  congr 2
  refine (List.map_congr_left fun name hname => ?_).trans (List.map_id _)
  rw [Renaming.apply_without, if_pos, id]
  exact h (mem_declaredNames.mpr (.inr hname))

theorem renames_freeNames : Renames
    (fun names e e' => RenamesFree names (e.freeNames []) (e'.freeNames []))
    (fun names _ s s' => RenamesFree names (s.freeNames []) (s'.freeNames [])) where
  ident names name := by
    refine ⟨.cons rfl .nil, fun old hold hnames => ?_⟩
    obtain rfl := List.mem_singleton.mp hold
    rw [Renaming.apply_of_notMem hnames]
    exact hold
  operation names e next hlayer hname hoperands := by
    rw [Expr.freeNames_operation hlayer hname,
      Expr.freeNames_withOperands hlayer hname hoperands.length_eq.symm]
    exact .flatMap hoperands
  literal names id name params body next hbody := by
    rw [Expr.freeNames_function, Expr.freeNames_function, List.append_nil, List.append_nil,
      declaredNames_rename (List.subset_append_left _ _)]
    refine .inner (fun other => ?_) (.body hbody)
    rw [List.mem_append, List.mem_append, or_comm]
  declaration names labels id name params body next hbody := by
    rw [Stmt.freeNames_function, Stmt.freeNames_function, List.append_nil, List.append_nil,
      declaredNames_rename (List.Subset.refl _)]
    exact .inner (fun _ => Iff.rfl) (.body hbody)
  statement names labels s next hfn hfn' hhead hbodies := by
    rw [Stmt.freeNames_parts hfn, Stmt.freeNames_parts hfn']
    exact .append (.flatMap hhead) (.flatMap (hbodies.imp fun _ _ => .body))

theorem Stmt.renamesFree_renameAll (names labels : Renaming) (stmts : List Stmt)
    (next : IdCounter) :
    RenamesFree names (Stmt.freeNamesAll [] stmts)
      (Stmt.freeNamesAll [] (Stmt.renameAll names labels stmts next).1) :=
  .body (renames_freeNames.stmts names labels stmts next)

end Renaming

section Substitution

theorem Expr.substitute_withOperands (bindings : Bindings) {e : Expr} (hlayer : e.ownsLayer = false)
    (hname : ∀ name, e ≠ .ident name) :
    e.substitute bindings = e.withOperands (e.children.map (·.substitute bindings)) := by
  by_cases hchildren : e.children = []
  · rw [hchildren, List.map_nil]
    cases e with
    | ident name => exact absurd rfl (hname name)
    | function _ => cases hlayer
    | undefined | null | bool _ | number _ | string _ | this => rfl
    | sequence items | array items =>
      obtain rfl : items = [] := hchildren
      rfl
    | _ => cases hchildren
  · exact Expr.substitute_operation bindings hchildren

/-- Induction over an expression without function literals. -/
@[elab_as_elim]
theorem Expr.induction_of_hasFunctionLit {motive : Expr → Prop} {e : Expr}
    (h : e.hasFunctionLit = false)
    (operation : ∀ e : Expr, e.ownsLayer = false → (∀ operand ∈ e.children, motive operand) →
      motive e) :
    motive e := by
  rw [Expr.hasFunctionLit_eq_false] at h
  induction e using Expr.byOperands with
  | operation e hlayer ih =>
    refine operation e hlayer fun operand hoperand => ih operand hoperand fun fn hmem => h fn ?_
    rw [Expr.nodes_operation .nested hlayer]
    exact List.mem_cons_of_mem _ (Expr.mem_nodesAll.mpr ⟨operand, hoperand, hmem⟩)
  | literal fn => exact absurd (Expr.self_mem_nodes .nested (.function fn)) (h fn)

/-- Each free name is replaced by those of what stands for it. -/
theorem Expr.mem_freeNames_substitute {bindings : Bindings} {e : Expr}
    (h : e.hasFunctionLit = false) {name : String} :
    name ∈ (e.substitute bindings).freeNames [] ↔
      ∃ old ∈ e.freeNames [], name ∈ ((bindings.lookup old).getD (.ident old)).freeNames [] := by
  refine Expr.induction_of_hasFunctionLit h fun e hlayer ih => ?_
  rcases e.ident_or with ⟨other, rfl⟩ | hname
  · simp [Expr.substitute, Expr.freeNames]
  · rw [Expr.substitute_withOperands bindings hlayer hname,
      Expr.freeNames_withOperands hlayer hname (List.length_map _),
      Expr.freeNames_operation hlayer hname]
    simp only [List.mem_flatMap, List.mem_map]
    constructor
    · rintro ⟨_, ⟨operand, hmem, rfl⟩, hfree⟩
      obtain ⟨old, hold, hfree⟩ := (ih operand hmem).mp hfree
      exact ⟨old, ⟨operand, hmem, hold⟩, hfree⟩
    · rintro ⟨old, ⟨operand, hmem, hold⟩, hfree⟩
      exact ⟨_, ⟨operand, hmem, rfl⟩, (ih operand hmem).mpr ⟨old, hold, hfree⟩⟩

/-- A free name occurs. -/
theorem Expr.occurrences_ne_zero {e : Expr} (h : e.hasFunctionLit = false) {name : String}
    (hname : name ∈ e.freeNames []) : e.occurrences name ≠ 0 := by
  rw [ne_eq, Expr.occurrences_eq_zero, not_not]
  revert hname
  refine Expr.induction_of_hasFunctionLit h fun e hlayer ih hname => ?_
  rcases e.ident_or with ⟨other, rfl⟩ | hident
  · obtain rfl := List.mem_singleton.mp hname
    exact Expr.self_mem_nodes .nested _
  · rw [Expr.freeNames_operation hlayer hident] at hname
    obtain ⟨operand, hoperand, hname⟩ := List.mem_flatMap.mp hname
    rw [Expr.nodes_operation .nested hlayer]
    exact List.mem_cons_of_mem _ (Expr.mem_nodesAll.mpr
      ⟨operand, hoperand, ih operand hoperand hname⟩)

end Substitution

/-- Rebinding and lowering a body add only the names that they assign to. -/
theorem gathers_freeNames : Gathers ([·]) (·.freeNames []) (·.freeNames []) where
  parts s hs := by
    rw [Stmt.freeNames_parts hs, funext (Stmt.freeNamesAll_eq_flatMap [])]
  assign _ _ := rfl

end StaticInliner
