import Reckoner.Numeric.Powers
import Reckoner.Numeric.Rounding

namespace Reckoner.Numeric

/-- The exponent e with 2 ^ e ≤ n / d < 2 ^ (e + 1), for positive n and d. -/
def binaryOrder (n d : Nat) : Int :=
  let e : Int := (n.log2 : Int) - d.log2
  if d * pow2 e.toNat ≤ n * pow2 (-e).toNat then e else e - 1

/-- The nearest value with the given number of binary digits, a half going to the even neighbour.
The exponent has no bounds, so nothing overflows and nothing vanishes. -/
def roundBinary (bits : Nat) (r : Rat) : Rat :=
  let n := r.num.natAbs
  let e := binaryOrder n r.den - bits + 1
  let q := halfEven (n * pow2 (-e).toNat) (r.den * pow2 e.toNat)
  mkRat (r.num.sign * (q * pow2 e.toNat : Nat)) (pow2 (-e).toNat)

/-- A value with the 53 binary digits of the widest common hardware format. -/
def toBinary64 (r : Rat) : Rat :=
  roundBinary 53 r

end Reckoner.Numeric
