import StaticInliner.Number.Binary

/-!
The double nearest to a quotient of natural numbers. Of two equally near ones
the one with the even mantissa is taken; a quotient too large for a double has
none.
-/
namespace StaticInliner

/-- The whole number nearest to a quotient, the even one of two. -/
def roundDiv (n d : Nat) : Nat :=
  let below := n / d
  let twice := 2 * (n % d)
  if twice < d then below
  else if d < twice then below + 1
  else if below % 2 = 0 then below
  else below + 1

namespace Binary64

/-- `n / (d * 2 ^ exponent)` as numerator and denominator. -/
def unscale (n d : Nat) (exponent : Int) : Nat × Nat :=
  if 0 ≤ exponent then (n, d * Nat.pow 2 exponent.toNat) else (n * Nat.pow 2 (-exponent).toNat, d)

/-- The exponent at which the mantissa of `n / d` has fifty-three bits, or the
least one if that is greater. The guess leaves fifty-three or fifty-four. -/
def exponentOf (n d : Nat) : Int :=
  let guess : Int := n.log2 - d.log2 - 53
  let parts := unscale n d guess
  max minExponent (if parts.1 / parts.2 < 2 * fractions then guess else guess + 1)

/-- Bits of the infinities without sign. All smaller patterns are finite. -/
def infinityBits : Nat := 0x7FF0000000000000

/-- The double nearest to a positive quotient. Mantissa and exponent are adjacent
in its bits, so that a mantissa rounded up to the next power of two carries over
into the exponent. -/
def nearestPos? (n d : Nat) : Option Float :=
  let exponent := exponentOf n d
  let parts := unscale n d exponent
  let bits := (exponent - minExponent).toNat * fractions + roundDiv parts.1 parts.2
  if bits < infinityBits then some (Float.ofBits (UInt64.ofNat bits)) else none

/-- The double nearest to a quotient. -/
def nearest? (n d : Nat) : Option Float := if n = 0 then some 0 else nearestPos? n d

end Binary64

end StaticInliner
