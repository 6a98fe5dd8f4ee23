import Reckoner.Decimal.Basic
import Reckoner.Numeric.Rounding

namespace Reckoner.Decimal

open Text Numeric

def scientificDigits : Nat := 8

/-- The leading digits that scientific notation shows, as a number of at most that many digits, and
the exponent of the first of them. A longer mantissa is rounded, a half going to the even
neighbour; where that carries into one more digit, the exponent grows instead. -/
def leadingDigits (x : Decimal) : Nat × Int :=
  let m := x.mantissa.natAbs
  let count := x.digitCount
  let exponent : Int := count - 1 - x.scale
  if count ≤ scientificDigits then (m, exponent)
  else
    let rounded := halfEven m (pow10 (count - scientificDigits))
    if rounded = pow10 scientificDigits then (pow10 (scientificDigits - 1), exponent + 1)
    else (rounded, exponent)

def dropTrailingZeros (cs : List Char) : List Char :=
  (cs.reverse.dropWhile (· == '0')).reverse

def integerChars (n : Int) : List Char :=
  signed (n < 0) (digits n.natAbs)

/-- Scientific notation: one digit, the others behind a point unless all are zeros, and the power
of ten by which they are multiplied. -/
def scientificChars (x : Decimal) : List Char :=
  if x.isZero then ['0']
  else
    let (n, exponent) := x.leadingDigits
    let whole := (digits n).take 1
    let fraction := dropTrailingZeros ((digits n).drop 1)
    signed x.isNegative
      ((if fraction = [] then whole else whole ++ '.' :: fraction) ++ 'e' :: integerChars exponent)

def scientific (x : Decimal) : String :=
  String.ofList x.scientificChars

end Reckoner.Decimal
