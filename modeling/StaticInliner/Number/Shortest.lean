import StaticInliner.Number.Binary

/-!
The fewest decimal digits that read back as a given double. Every number that
rounds to the double lies in an interval around it; the digits are those of
the coarsest decimal grid with a point inside that interval. If both neighbours
of the value on that grid lie inside, the nearer one is taken, and a tie rule
decides when they are equally near.
-/
namespace StaticInliner

/-- The number `digits * 10 ^ exponent`. -/
structure Decimal where
  digits : Nat
  exponent : Int
  deriving DecidableEq, Repr

/-- Which of two equally near neighbours is taken. -/
inductive TieRule where
  | up | even
  deriving DecidableEq, Repr

/-- What rounds to `value`, all three bounds being multiples of `10 ^ scale`. -/
structure RoundingInterval where
  low : Nat
  value : Nat
  high : Nat
  /-- The ends themselves round to the value. -/
  closed : Bool
  scale : Int

namespace RoundingInterval

/-- The interval of `mantissa * 2 ^ exponent` reaches half way to both
neighbours. Below a power of two the neighbour is half as far. The ends belong
to it when the mantissa is even. -/
def ofBinary (mantissa : Nat) (exponent : Int) : RoundingInterval :=
  let gap := if mantissa = Binary64.fractions ∧ Binary64.minExponent < exponent then 1 else 2
  let quarter := exponent - 2
  let factor := if 0 ≤ quarter then Nat.pow 2 quarter.toNat else Nat.pow 5 (-quarter).toNat
  { low := (4 * mantissa - gap) * factor
    value := 4 * mantissa * factor
    high := (4 * mantissa + 2) * factor
    closed := mantissa % 2 == 0
    scale := min quarter 0 }

def contains (interval : RoundingInterval) (n : Nat) : Bool :=
  if interval.closed then interval.low ≤ n && n ≤ interval.high
  else interval.low < n && n < interval.high

/-- The neighbour of the value on the grid of step `unit`, as a multiple of the
step, when both neighbours are admissible. -/
def nearer (interval : RoundingInterval) (tie : TieRule) (unit : Nat) : Nat :=
  let below := interval.value / unit
  let down := interval.value - below * unit
  let up := (below + 1) * unit - interval.value
  if down < up then below
  else if up < down then below + 1
  else
    match tie with
    | .up => below + 1
    | .even => if below % 2 = 0 then below else below + 1

/-- Search from the grid of step `10 ^ places` down to the exact value. -/
def search (interval : RoundingInterval) (tie : TieRule) : Nat → Decimal
  | 0 => ⟨interval.value, interval.scale⟩
  | places + 1 =>
    let unit := Nat.pow 10 (places + 1)
    let below := interval.value / unit
    let exponent := interval.scale + (places + 1 : Nat)
    match interval.contains (below * unit), interval.contains ((below + 1) * unit) with
    | true, true => ⟨interval.nearer tie unit, exponent⟩
    | true, false => ⟨below, exponent⟩
    | false, true => ⟨below + 1, exponent⟩
    | false, false => interval.search tie places

end RoundingInterval

namespace Decimal

/-- The same number without trailing zeros, of which at most `limit` are cut. -/
def trim (limit : Nat) (d : Decimal) : Decimal :=
  match limit with
  | 0 => d
  | limit + 1 => if d.digits % 10 = 0 then trim limit ⟨d.digits / 10, d.exponent + 1⟩ else d

/-- Shortest digits of `mantissa * 2 ^ exponent`, for a positive mantissa. -/
def shortest (tie : TieRule) (mantissa : Nat) (exponent : Int) : Decimal :=
  let interval := RoundingInterval.ofBinary mantissa exponent
  let size := (Nat.toDigits 10 interval.value).length
  trim size (interval.search tie (size - 1))

end Decimal

end StaticInliner
