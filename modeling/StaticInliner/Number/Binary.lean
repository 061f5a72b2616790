/-!
A double as sign, mantissa and power of two, read off its 64 bits. Texts of
numbers are computed from this view in natural arithmetic.
-/
namespace StaticInliner

/-- The value of a double: `finite negative m q` is `m * 2 ^ q`, negated if
`negative`. -/
inductive Binary64 where
  | nan
  | infinite (negative : Bool)
  | finite (negative : Bool) (mantissa : Nat) (exponent : Int)
  deriving DecidableEq, Repr

namespace Binary64

/-- The least exponent, shared by the subnormal and the smallest normal numbers. -/
def minExponent : Int := -1074

/-- How many fractions there are; the implicit leading bit stands for as much. -/
def fractions : Nat := 0x10000000000000

/-- One sign bit, eleven bits of biased exponent, fifty-two bits of fraction.
A biased exponent of zero marks the subnormal numbers, which have no implicit
leading bit. -/
def ofBits (bits : UInt64) : Binary64 :=
  let n := bits.toNat
  let negative := 0x8000000000000000 ≤ n
  let biased := n / fractions % 2048
  let fraction := n % fractions
  if biased = 2047 then
    if fraction = 0 then .infinite negative else .nan
  else if biased = 0 then .finite negative fraction minExponent
  else .finite negative (fractions + fraction) (minExponent + (biased - 1 : Nat))

def ofFloat (x : Float) : Binary64 := ofBits x.toBits

/-- Strictly below zero: neither zero is, nor is the number that is none. -/
def isNegative : Binary64 → Bool
  | .nan => false
  | .infinite negative => negative
  | .finite negative mantissa _ => negative && mantissa != 0

def isFinite : Binary64 → Bool
  | .finite _ _ _ => true
  | .nan | .infinite _ => false

end Binary64

end StaticInliner
