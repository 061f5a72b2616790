import StaticInliner.Analysis.Declared
import StaticInliner.Scope.Tree

/-!
Fresh names. A fresh name is a base, a marker and an id drawn from a supply; ids
are drawn until the name is neither reserved nor bound as seen from a scope, and
the name found is reserved. Once the ids of a supply no longer repeat, each
refused draw accounts for a reserved or bound name of its own, which bounds the
number of draws.
-/
namespace StaticInliner

/-- An endless sequence of ids and how many of them have been drawn. -/
structure IdSupply where
  ids : Nat → String
  drawn : Nat
  settled : Nat
  /-- From the settled position on no id occurs twice. -/
  distinct : ∀ i j, settled ≤ i → settled ≤ j → ids i = ids j → i = j

theorem toString_injective {m n : Nat} (h : toString m = toString n) : m = n := by
  have hd : Nat.toDigits 10 m = Nat.toDigits 10 n := by
    simpa only [Nat.toString_eq_repr, Nat.toList_repr] using congrArg String.toList h
  rw [← Nat.ofDigitChars_ten_toDigits (n := m), hd, Nat.ofDigitChars_ten_toDigits]

namespace IdSupply

/-- `0`, `1`, `2` and so on. -/
def counter : IdSupply := ⟨toString, 0, 0, fun _ _ _ _ h => toString_injective h⟩

/-- The given ids, then `r0`, `r1` and so on. -/
def listed (ids : List String) : IdSupply where
  ids i := (ids[i]?).getD ("r" ++ toString (i - ids.length))
  drawn := 0
  settled := ids.length
  distinct i j hi hj h := by
    rw [List.getElem?_eq_none hi, List.getElem?_eq_none hj, Option.getD_none, Option.getD_none,
      String.append_right_inj] at h
    have := toString_injective h
    omega

def current (supply : IdSupply) : String := supply.ids supply.drawn

def advance (supply : IdSupply) : IdSupply := { supply with drawn := supply.drawn + 1 }

end IdSupply

def freshMarker : String := "$inline_"

def freshName (base id : String) : String := base ++ freshMarker ++ id

/-- A supply of ids and the names that must not be produced. -/
structure NameSupply where
  supply : IdSupply
  reserved : List String

namespace NameSupply

def isReserved (names : NameSupply) (name : String) : Bool := names.reserved.contains name

def reserve (names : NameSupply) (name : String) : NameSupply :=
  if names.isReserved name then names else { names with reserved := name :: names.reserved }

/-- Reserve every name spelled in a program. -/
def reserveAll (names : NameSupply) (program : Program) : NameSupply :=
  program.units.foldl (fun names unit => (writtenNames unit.body).foldl reserve names) names

/-- Draw ids until the name is free, at most `draws` more times after the first. -/
def draw (base : String) (taken : String → Bool) : Nat → NameSupply → String × NameSupply
  | draws, names =>
    let name := freshName base names.supply.current
    let names := { names with supply := names.supply.advance }
    match draws with
    | 0 => (name, names.reserve name)
    | draws + 1 =>
      if names.isReserved name || taken name then draw base taken draws names
      else (name, names.reserve name)

/-- How many draws can fail: ids before the supply settles, and one for each
reserved name and each name bound in the chain of the scope. -/
def refusals (names : NameSupply) (scopes : ScopeTree) (scope : Nat) : Nat :=
  (names.supply.settled - names.supply.drawn) + names.reserved.length +
    (scopes.ancestors scope).foldr (fun s n => s.bindings.length + n) 0

/-- A name for `base` that is not reserved and not bound as seen from `scope`. -/
def fresh (names : NameSupply) (base : String) (scopes : ScopeTree) (scope : Nat) :
    String × NameSupply :=
  draw base (scopes.isBound scope) (names.refusals scopes scope) names

end NameSupply

end StaticInliner
