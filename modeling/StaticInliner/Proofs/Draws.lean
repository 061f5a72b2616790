import Mathlib.Data.List.Dedup
import StaticInliner.Proofs.FreshNames
import StaticInliner.Proofs.ScopeChains

/-!
How many draws a fresh name takes. If no id comes twice, the names refused are all
different, because the id can be read off the end of a name made with a given base. Each
of them is reserved or bound, so there are at most as many of them as there are such names.
-/
namespace StaticInliner

/-- No id that is still to come occurs twice. -/
def IdSupply.NeverRepeats (supply : IdSupply) : Prop :=
  ∀ i j, supply.drawn ≤ i → supply.drawn ≤ j → supply.ids i = supply.ids j → i = j

namespace NameSupply

variable {names : NameSupply} {base : String} {tree : ScopeTree} {scope : Nat}

theorem candidate_injective (h : names.supply.NeverRepeats) {i j : Nat}
    (heq : names.candidate base i = names.candidate base j) : i = j := by
  have hid := freshName_injective base heq
  have := h _ _ (Nat.le_add_right _ i) (Nat.le_add_right _ j) hid
  omega

/-- Names that were refused one after another are so many different names, each of them
reserved or bound. -/
theorem le_of_refused (h : names.supply.NeverRepeats) {refused : Nat}
    (hrefused : ∀ i < refused, names.refuses (tree.isBound scope) (names.candidate base i) = true) :
    refused ≤ names.reserved.dedup.length + (tree.boundNames scope).dedup.length := by
  let candidates := (List.range refused).map (names.candidate base)
  have hnodup : candidates.Nodup :=
    List.nodup_range.map fun i j heq => candidate_injective h heq
  have hsub : candidates ⊆ names.reserved.dedup ++ (tree.boundNames scope).dedup := by
    intro name hname
    obtain ⟨i, hi, rfl⟩ := List.mem_map.mp hname
    have hname := hrefused i (List.mem_range.mp hi)
    rw [refuses, Bool.or_eq_true, isReserved, List.contains_iff_mem,
      ScopeTree.isBound_iff_mem_boundNames] at hname
    rwa [List.mem_append, List.mem_dedup, List.mem_dedup]
  calc refused = candidates.length := by rw [List.length_map, List.length_range]
    _ ≤ (names.reserved.dedup ++ (tree.boundNames scope).dedup).length :=
      hnodup.length_le_of_subset hsub
    _ = names.reserved.dedup.length + (tree.boundNames scope).dedup.length := List.length_append

/-- From a supply that never repeats itself, a name as seen from a scope is found after at
most one draw more than there are names reserved and names bound in the chain of the scope.
It is made of the base and the last id drawn, was neither reserved nor bound, and is the
one name that is reserved in addition. -/
theorem draws_bounded (names : NameSupply) (hids : names.supply.NeverRepeats) (base : String)
    {tree : ScopeTree} (hbuilt : tree.Built) (scope : Nat) :
    let found := names.fresh base tree scope
    tree.Climbs (some scope) (tree.ancestors scope) ∧
    ∃ draws ≤ names.reserved.dedup.length + (tree.boundNames scope).dedup.length + 1,
      (∀ n result, names.Draws base (tree.isBound scope) n result ↔ n = draws ∧ result = found) ∧
      found.2.supply = { names.supply with drawn := names.supply.drawn + draws } ∧
      found.1 = base ++ "$inline_" ++ names.supply.ids (names.supply.drawn + (draws - 1)) ∧
      found.1 ∉ names.reserved ∧ found.1 ∉ tree.boundNames scope ∧
      ∀ name, name ∈ found.2.reserved ↔ name = found.1 ∨ name ∈ names.reserved := by
  intro found
  obtain ⟨refused, -, hfound, hdraws, hfree, hrefused⟩ := names.draws_fresh base tree scope
  rw [refuses_eq_false, ← Bool.not_eq_true, ScopeTree.isBound_iff_mem_boundNames] at hfree
  have hfound : found = (names.candidate base refused, names.taking base refused) := hfound
  refine ⟨hbuilt.rooted.climbs_iff.mpr rfl, refused + 1, ?_, fun n result => ⟨fun h => ?_, ?_⟩, ?_⟩
  · exact Nat.succ_le_succ (le_of_refused hids hrefused)
  · rw [hfound]
    exact h.unique hdraws
  · rintro ⟨rfl, rfl⟩
    rw [hfound]
    exact hdraws
  · rw [hfound]
    exact ⟨rfl, rfl, hfree.1, hfree.2, fun name => List.mem_cons⟩

/-- A base that has the marker in it, for which the first name is reserved and the second
one is bound further up. -/
theorem draws_bounded_grafted :
    let names : NameSupply := ⟨.counter, ["t", "t$inline_0$inline_0"]⟩
    let tree := ScopeTree.grafted.declare 2 "t$inline_0$inline_1" .var
    let found := names.fresh "t$inline_0" tree 5
    names.supply.NeverRepeats ∧ tree.Built ∧ 5 < tree.size ∧
    names.reserved.dedup.length = 2 ∧
      tree.boundNames 5 = ["p", "t", "f", "x", "t$inline_0$inline_1"] ∧
    found.1 = "t$inline_0$inline_2" ∧ found.1 ∉ tree.boundNames 5 ∧
    ∃ draws ≤ 8, names.Draws "t$inline_0" (tree.isBound 5) draws found := by
  intro names tree found
  have hids : names.supply.NeverRepeats :=
    fun i j _ _ => IdSupply.counter.distinct i j i.zero_le j.zero_le
  have hbuilt : tree.Built := ScopeTree.built_grafted.declare 2 "t$inline_0$inline_1" .var
  have hreserved : names.reserved.dedup.length = 2 := by decide +kernel
  have hbound : tree.boundNames 5 = ["p", "t", "f", "x", "t$inline_0$inline_1"] := by decide +kernel
  obtain ⟨-, draws, hle, hdraws, -, -, -, hfree, -⟩ :=
    names.draws_bounded hids "t$inline_0" hbuilt 5
  have hcount : (tree.boundNames 5).dedup.length = 5 := by
    rw [hbound]
    decide +kernel
  rw [hreserved, hcount] at hle
  exact ⟨hids, hbuilt, by decide +kernel, hreserved, hbound, by decide +kernel, hfree, draws, hle,
    (hdraws draws found).mpr ⟨rfl, rfl⟩⟩

end NameSupply

end StaticInliner
