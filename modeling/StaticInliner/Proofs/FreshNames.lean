import Mathlib.Data.List.Nodup
import Mathlib.Data.Nat.Find
import StaticInliner.Inline.Context

/-!
Fresh names are fresh. The number of draws a supply is allowed suffices: once it
has settled, every refused name is another one of the reserved or bound names. So
the limit on the draws is never felt, each name drawn is neither reserved nor bound,
is reserved afterwards, and drawing changes nothing else.
-/
namespace StaticInliner

theorem freshName_injective (base : String) {a b : String}
    (h : freshName base a = freshName base b) : a = b := by
  simpa [freshName] using h

theorem freshName_ne_empty (base id : String) : freshName base id ≠ "" := by
  intro h
  have hlength := congrArg String.length h
  simp [freshName, freshMarker] at hlength

namespace ScopeTree

/-- All names bound in the chain of a scope. -/
def boundNames (tree : ScopeTree) (scope : Nat) : List String :=
  (tree.ancestors scope).flatMap fun s => s.bindings.map (·.1)

theorem isBound_iff_mem_boundNames {tree : ScopeTree} {scope : Nat} {name : String} :
    tree.isBound scope name = true ↔ name ∈ tree.boundNames scope := by
  rw [isBound, lookup, List.find?_isSome]
  simp only [Scope.binds, List.any_eq_true, beq_iff_eq, boundNames, List.mem_flatMap, List.mem_map]

theorem length_boundNames (tree : ScopeTree) (scope : Nat) :
    (tree.boundNames scope).length =
      (tree.ancestors scope).foldr (fun s n => s.bindings.length + n) 0 := by
  rw [boundNames]
  induction tree.ancestors scope with
  | nil => rfl
  | cons s rest ih => simp [ih]

end ScopeTree

namespace NameSupply

/-- The name made of the base and the id that comes after `i` others. -/
def candidate (names : NameSupply) (base : String) (i : Nat) : String :=
  freshName base (names.supply.ids (names.supply.drawn + i))

/-- The supply when that name has been taken. -/
def taking (names : NameSupply) (base : String) (i : Nat) : NameSupply :=
  ⟨{ names.supply with drawn := names.supply.drawn + i + 1 },
    names.candidate base i :: names.reserved⟩

/-- After one draw the candidates are those from the second on. -/
theorem candidate_advance (names : NameSupply) (base : String) (i : Nat) :
    candidate ⟨names.supply.advance, names.reserved⟩ base i = names.candidate base (i + 1) := by
  simp [candidate, IdSupply.advance, Nat.add_assoc, Nat.add_comm 1 i]

theorem taking_advance (names : NameSupply) (base : String) (i : Nat) :
    taking ⟨names.supply.advance, names.reserved⟩ base i = names.taking base (i + 1) := by
  rw [taking, taking, candidate_advance]
  simp [IdSupply.advance, Nat.add_assoc, Nat.add_comm 1 i]

/-- The name is reserved or taken otherwise. -/
def refuses (names : NameSupply) (taken : String → Bool) (name : String) : Bool :=
  names.isReserved name || taken name

theorem refuses_eq_false {names : NameSupply} {taken : String → Bool} {name : String} :
    names.refuses taken name = false ↔ name ∉ names.reserved ∧ taken name = false := by
  rw [refuses, Bool.or_eq_false_iff, isReserved, ← Bool.not_eq_true, List.contains_iff_mem]

/-- The search for a name without any limit: after a draw that is refused comes another
one. The number counts the draws. -/
inductive Draws (base : String) (taken : String → Bool) :
    NameSupply → Nat → String × NameSupply → Prop
  | accept {names : NameSupply}
    (h : names.refuses taken (freshName base names.supply.current) = false) :
    Draws base taken names 1 (freshName base names.supply.current,
      ⟨names.supply.advance, freshName base names.supply.current :: names.reserved⟩)
  | refuse {names : NameSupply} {n : Nat} {result : String × NameSupply}
    (h : names.refuses taken (freshName base names.supply.current) = true)
    (hrest : Draws base taken ⟨names.supply.advance, names.reserved⟩ n result) :
    Draws base taken names (n + 1) result

section Draws

variable {base : String} {taken : String → Bool} {names : NameSupply} {n n' : Nat}
  {result result' : String × NameSupply}

theorem Draws.pos (h : Draws base taken names n result) : 0 < n := by
  cases h <;> exact Nat.succ_pos _

theorem Draws.unique (h : Draws base taken names n result)
    (h' : Draws base taken names n' result') :
    n = n' ∧ result = result' := by
  induction h generalizing n' with
  | accept hfree =>
    cases h' with
    | accept _ => exact ⟨rfl, rfl⟩
    | refuse hrefused _ => rw [hfree] at hrefused; cases hrefused
  | refuse hrefused _ ih =>
    cases h' with
    | accept hfree => rw [hfree] at hrefused; cases hrefused
    | refuse _ hrest =>
      obtain ⟨rfl, rfl⟩ := ih hrest
      exact ⟨rfl, rfl⟩

/-- A limit that the search keeps to does not change its result. -/
theorem Draws.draw_eq (h : Draws base taken names n result) {draws : Nat} (hn : n ≤ draws + 1) :
    draw base taken draws names = result := by
  induction h generalizing draws with
  | @accept names hfree =>
    have hreserved := (refuses_eq_false.mp hfree).1
    have hreserve :
      reserve ⟨names.supply.advance, names.reserved⟩ (freshName base names.supply.current) =
        ⟨names.supply.advance, freshName base names.supply.current :: names.reserved⟩ := by
      simp [reserve, isReserved, hreserved]
    cases draws with
    | zero => exact congrArg (Prod.mk _) hreserve
    | succ draws =>
      rw [draw]
      exact (if_neg (ne_true_of_eq_false hfree)).trans (congrArg (Prod.mk _) hreserve)
  | @refuse names n result hrefused hrest ih =>
    have hpos := hrest.pos
    obtain ⟨draws, rfl⟩ : ∃ k, draws = k + 1 := ⟨draws - 1, by omega⟩
    rw [draw]
    exact (if_pos hrefused).trans (ih (by omega))

/-- The search ends with the first candidate that is not refused. -/
theorem draws_candidate {i : Nat} (hfree : names.refuses taken (names.candidate base i) = false)
    (hrefused : ∀ j < i, names.refuses taken (names.candidate base j) = true) :
    Draws base taken names (i + 1) (names.candidate base i, names.taking base i) := by
  induction i generalizing names with
  | zero => exact .accept hfree
  | succ i ih =>
    refine .refuse (hrefused 0 (Nat.succ_pos i)) ?_
    rw [← candidate_advance, ← taking_advance]
    refine ih ?_ fun j hj => ?_
    · rw [candidate_advance]
      exact hfree
    · rw [candidate_advance]
      exact hrefused (j + 1) (Nat.succ_lt_succ hj)

end Draws

/-- Of as many candidates as there are draws, one is free. -/
theorem exists_free (names : NameSupply) (base : String) (scopes : ScopeTree) (scope : Nat) :
    ∃ i ≤ names.refusals scopes scope, names.candidate base i ∉ names.reserved ∧
      scopes.isBound scope (names.candidate base i) = false := by
  apply Classical.byContradiction
  intro hnone
  let refused := names.reserved ++ scopes.boundNames scope
  let start := names.supply.settled - names.supply.drawn
  have hlen : names.refusals scopes scope = start + refused.length := by
    simp only [refusals, refused, start, List.length_append, ScopeTree.length_boundNames]
    omega
  let settledNames :=
    (List.range (refused.length + 1)).map fun i => names.candidate base (start + i)
  have hsub : settledNames ⊆ refused := by
    intro name hname
    obtain ⟨i, hi, rfl⟩ := List.mem_map.mp hname
    rw [List.mem_range] at hi
    apply Classical.byContradiction
    intro hnot
    simp only [refused, List.mem_append, not_or] at hnot
    refine hnone ⟨start + i, by omega, hnot.1, ?_⟩
    rw [← Bool.not_eq_true]
    exact fun hb => hnot.2 (ScopeTree.isBound_iff_mem_boundNames.mp hb)
  have hnodup : settledNames.Nodup := by
    refine List.Nodup.map_on ?_ List.nodup_range
    intro i _ j _ h
    have hid := freshName_injective base h
    have := names.supply.distinct _ _ (by omega) (by omega) hid
    omega
  have := hnodup.length_le_of_subset hsub
  simp only [settledNames, List.length_map, List.length_range] at this
  omega

/-- A fresh name is what the search without a limit finds: the first candidate that is
neither reserved nor bound. -/
theorem draws_fresh (names : NameSupply) (base : String) (scopes : ScopeTree) (scope : Nat) :
    ∃ i ≤ names.refusals scopes scope,
      names.fresh base scopes scope = (names.candidate base i, names.taking base i) ∧
      names.Draws base (scopes.isBound scope) (i + 1)
        (names.candidate base i, names.taking base i) ∧
      names.refuses (scopes.isBound scope) (names.candidate base i) = false ∧
      ∀ j < i, names.refuses (scopes.isBound scope) (names.candidate base j) = true := by
  obtain ⟨free, hle, hfree⟩ := names.exists_free base scopes scope
  have hexists : ∃ i, names.refuses (scopes.isBound scope) (names.candidate base i) = false :=
    ⟨free, refuses_eq_false.mpr hfree⟩
  let i := Nat.find hexists
  have hi : i ≤ names.refusals scopes scope :=
    Nat.le_trans (Nat.find_min' hexists (refuses_eq_false.mpr hfree)) hle
  have hfirst := Nat.find_spec hexists
  have hrefused : ∀ j < i, names.refuses (scopes.isBound scope) (names.candidate base j) = true :=
    fun j hj => Bool.not_eq_false _ ▸ Nat.find_min hexists hj
  have hdraws := draws_candidate hfirst hrefused
  exact ⟨i, hi, hdraws.draw_eq (Nat.succ_le_succ hi), hdraws, hfirst, hrefused⟩

/-- A fresh name is new in every respect, and taking it is all that happens. -/
theorem fresh_eq_taking (names : NameSupply) (base : String) (scopes : ScopeTree) (scope : Nat) :
    ∃ k ≤ names.refusals scopes scope,
      names.fresh base scopes scope = (names.candidate base k, names.taking base k) ∧
      names.candidate base k ∉ names.reserved ∧
      scopes.isBound scope (names.candidate base k) = false := by
  obtain ⟨k, hk, hfresh, -, hfree, -⟩ := names.draws_fresh base scopes scope
  exact ⟨k, hk, hfresh, refuses_eq_false.mp hfree⟩

end NameSupply

namespace Context

/-- Every name the statements spell is reserved. -/
def Reserves (ctx : Context) (stmts : List Stmt) : Prop :=
  ∀ name ∈ writtenNames stmts, name ∈ ctx.names.reserved

variable (ctx : Context) (base : String) (bases : List String) (scope : Nat)

theorem freshName_notMem_reserved :
    (ctx.freshName base scope).1 ∉ ctx.names.reserved := by
  obtain ⟨k, -, h, hr, -⟩ := ctx.names.fresh_eq_taking base ctx.scopes scope
  simpa [freshName, h] using hr

theorem isBound_freshName : ctx.scopes.isBound scope (ctx.freshName base scope).1 = false := by
  obtain ⟨k, -, h, -, hb⟩ := ctx.names.fresh_eq_taking base ctx.scopes scope
  simpa [freshName, h] using hb

@[simp] theorem reserved_freshName : (ctx.freshName base scope).2.names.reserved =
    (ctx.freshName base scope).1 :: ctx.names.reserved := by
  obtain ⟨k, -, h, -, -⟩ := ctx.names.fresh_eq_taking base ctx.scopes scope
  simp [freshName, h, NameSupply.taking]

/-- A fresh name is made of its base and some id. -/
theorem exists_freshName_eq :
    ∃ id, (ctx.freshName base scope).1 = StaticInliner.freshName base id := by
  obtain ⟨k, -, h, -, -⟩ := ctx.names.fresh_eq_taking base ctx.scopes scope
  exact ⟨_, congrArg Prod.fst h⟩

theorem exists_freshNames_eq : ∀ entry ∈ (ctx.freshNames bases scope).1,
    ∃ id, entry.2 = StaticInliner.freshName entry.1 id := by
  induction bases generalizing ctx with
  | nil => exact List.forall_mem_nil _
  | cons base rest ih =>
    exact List.forall_mem_cons.mpr ⟨ctx.exists_freshName_eq base scope, ih _⟩

theorem map_fst_freshNames : (ctx.freshNames bases scope).1.map (·.1) = bases := by
  induction bases generalizing ctx with
  | nil => rfl
  | cons base rest ih => simp [freshNames, ih]

/-- The names were drawn one after another: they are new, and drawing them is all
that happened. -/
structure Drew (ctx : Context) (new : List String) (ctx' : Context) : Prop where
  nodup : new.Nodup
  fresh : ∀ name ∈ new, name ∉ ctx.names.reserved
  reserved : ctx'.names.reserved = new.reverse ++ ctx.names.reserved
  others : ctx' = { ctx with names := ctx'.names }

theorem Drew.refl : ctx.Drew [] ctx := ⟨.nil, nofun, rfl, rfl⟩

theorem Drew.trans {ctx ctx' ctx'' : Context} {new new' : List String} (h : ctx.Drew new ctx')
    (h' : ctx'.Drew new' ctx'') : ctx.Drew (new ++ new') ctx'' where
  nodup := by
    refine List.nodup_append.mpr ⟨h.nodup, h'.nodup, fun a ha b hb hab => ?_⟩
    refine h'.fresh b hb ?_
    rw [h.reserved, ← hab]
    exact List.mem_append_left _ (List.mem_reverse.mpr ha)
  fresh name hname := by
    rcases List.mem_append.mp hname with hname | hname
    · exact h.fresh name hname
    · intro hmem
      refine h'.fresh name hname ?_
      rw [h.reserved]
      exact List.mem_append_right _ hmem
  reserved := by rw [h'.reserved, h.reserved, List.reverse_append, List.append_assoc]
  others := by rw [h'.others, h.others]

theorem drew_freshName :
    ctx.Drew [(ctx.freshName base scope).1] (ctx.freshName base scope).2 where
  nodup := List.nodup_singleton _
  fresh _ hname := List.mem_singleton.mp hname ▸ ctx.freshName_notMem_reserved base scope
  reserved := ctx.reserved_freshName base scope
  others := rfl

theorem drew_freshNames :
    ctx.Drew ((ctx.freshNames bases scope).1.map (·.2)) (ctx.freshNames bases scope).2 := by
  induction bases generalizing ctx with
  | nil => exact .refl ctx
  | cons base rest ih => exact (ctx.drew_freshName base scope).trans (ih _)

end Context

end StaticInliner
