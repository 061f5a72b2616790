import StaticInliner.Number.Shortest

/-!
Two texts of a double. Source text writes every number positionally, whatever
its size, and lets ties go up. Data text keeps a fraction digit, uses an
exponent outside `1e-5 ≤ x < 1e16`, and lets ties go to the even digit; it has
no spelling for numbers that are not finite.
-/
namespace StaticInliner

namespace Decimal

def chars (d : Decimal) : List Char := Nat.toDigits 10 d.digits

/-- How many digits stand before the point; not positive below one tenth. -/
def pointPosition (d : Decimal) : Int := d.chars.length + d.exponent

/-- Without exponent, and without a point for a whole number. -/
def positional (d : Decimal) : List Char :=
  let chars := d.chars
  let point := d.pointPosition
  if 0 ≤ d.exponent then chars ++ List.replicate d.exponent.toNat '0'
  else if 0 < point then chars.take point.toNat ++ '.' :: chars.drop point.toNat
  else '0' :: '.' :: (List.replicate (-point).toNat '0' ++ chars)

/-- One digit before the point, and the exponent always with its sign. -/
def scientific (d : Decimal) : List Char :=
  let power := d.pointPosition - 1
  let digits :=
    match d.chars with
    | [] => []
    | [c] => [c]
    | c :: rest => c :: '.' :: rest
  let sign := if 0 ≤ power then '+' else '-'
  digits ++ 'e' :: sign :: Nat.toDigits 10 power.natAbs

/-- Positional with at least one fraction digit inside the range, else
scientific. -/
def dataChars (d : Decimal) : List Char :=
  let point := d.pointPosition
  if -5 < point ∧ point ≤ 16 then
    if 0 ≤ d.exponent then d.positional ++ ['.', '0'] else d.positional
  else d.scientific

end Decimal

def signed (negative : Bool) (chars : List Char) : List Char :=
  if negative then '-' :: chars else chars

/-- The number without its sign, as source text writes it. -/
def Binary64.magnitude : Binary64 → String
  | .nan => "NaN"
  | .infinite _ => "Infinity"
  | .finite _ mantissa exponent =>
    if mantissa = 0 then "0" else .ofList (Decimal.shortest .up mantissa exponent).positional

/-- The number as source text writes it. Both zeros are `0`. -/
def numberSource (x : Float) : String :=
  let value := Binary64.ofFloat x
  if value.isNegative then "-" ++ value.magnitude else value.magnitude

/-- The number as data, where one that is not finite has no spelling. -/
def numberData? (x : Float) : Option String :=
  match Binary64.ofFloat x with
  | .nan | .infinite _ => none
  | .finite negative mantissa exponent =>
    some <| .ofList <| signed negative <|
      if mantissa = 0 then ['0', '.', '0']
      else (Decimal.shortest .even mantissa exponent).dataChars

end StaticInliner
