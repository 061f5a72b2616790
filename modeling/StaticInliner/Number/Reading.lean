import StaticInliner.Number.Rounding

/-!
Reading a decimal numeral as a double, in one of two ways. The nearest double is
exact. The scaled one is faster: the leading digits that fit in 64 bits are
taken as a whole number, later ones only count as places, and the result is that
number scaled by a power of ten in double arithmetic; a long numeral may come
out one unit in the last place off.
-/
namespace StaticInliner

/-- A numeral taken apart: `negative`, the digits before and after the point,
and the power of ten written after them. -/
structure Numeral where
  negative : Bool
  whole : List Nat
  /-- Absent when no point is written. -/
  fraction : Option (List Nat)
  /-- Absent when no exponent is written. -/
  power : Option Int

/-- How a numeral becomes a double. -/
inductive NumberReading where
  | nearest | scaled
  deriving DecidableEq, Repr

namespace Numeral

/-- The greatest whole number the significand can hold. -/
def maxSignificand : Nat := 0xFFFFFFFFFFFFFFFF

/-- Append digits to a significand while it fits; also how many did. -/
def absorb (significand : Nat) : List Nat → Nat × Nat
  | [] => (significand, 0)
  | digit :: rest =>
    let next := significand * 10 + digit
    if next ≤ maxSignificand then
      let more := absorb next rest
      (more.1, more.2 + 1)
    else (significand, 0)

/-- The double nearest to a power of ten; the greatest that has one is 308. -/
def powerOfTen (n : Nat) : Float := (Binary64.nearest? (Nat.pow 10 n) 1).getD 0

/-- `x * 10 ^ exponent`, absent when too large. Exponents below every power of
ten that is a double are reached in steps, of which `steps` are allowed; three
bring any significand to zero. -/
def scale : Nat → Float → Int → Option Float
  | 0, x, _ => some x
  | steps + 1, x, exponent =>
    if exponent.natAbs ≤ 308 then
      if 0 ≤ exponent then
        let product := x * powerOfTen exponent.natAbs
        if (Float.isInf product) then none else some product
      else some (x / powerOfTen exponent.natAbs)
    else if x == 0 then some x
    else if 0 ≤ exponent then none
    else scale steps (x / powerOfTen 308) (exponent + 308)

/-- The whole number a numeral without point and exponent spells, if its digits
fit in the significand. Minus zero is not a whole number. -/
def whole? (numeral : Numeral) : Option Int :=
  match numeral.fraction, numeral.power with
  | none, none =>
    let taken := absorb 0 numeral.whole
    if taken.2 < numeral.whole.length then none
    else if numeral.negative then
      if taken.1 = 0 then none else some (-taken.1)
    else some taken.1
  | _, _ => none

/-- The magnitude in double arithmetic, absent when it is too large. -/
def scaledMagnitude? (numeral : Numeral) : Option Float :=
  let whole := absorb 0 numeral.whole
  let fraction := absorb whole.1 (numeral.fraction.getD [])
  let exponent : Int :=
    (numeral.whole.length - whole.2 : Nat) - fraction.2 + numeral.power.getD 0
  scale 4 fraction.1.toUInt64.toFloat exponent

/-- A numeral whose first digit stands further than this from the point is too
large for a double, or rounds to zero. -/
def powerLimit : Int := 400

/-- The double nearest to the magnitude, absent when it is too large. -/
def nearestMagnitude? (numeral : Numeral) : Option Float :=
  let fraction := numeral.fraction.getD []
  let digits := (numeral.whole ++ fraction).dropWhile (· = 0)
  let significand := digits.foldl (fun n d => n * 10 + d) 0
  let exponent : Int := numeral.power.getD 0 - fraction.length
  if significand = 0 ∨ digits.length + exponent < -powerLimit then some 0
  else if powerLimit < digits.length + exponent then none
  else if 0 ≤ exponent then Binary64.nearest? (significand * Nat.pow 10 exponent.toNat) 1
  else Binary64.nearest? significand (Nat.pow 10 (-exponent).toNat)

/-- The double a numeral spells, absent when it is too large for one. -/
def float? (numeral : Numeral) (reading : NumberReading) : Option Float :=
  let magnitude := match reading with
    | .nearest => numeral.nearestMagnitude?
    | .scaled => numeral.scaledMagnitude?
  magnitude.map fun x => if numeral.negative then -x else x

end Numeral

end StaticInliner
