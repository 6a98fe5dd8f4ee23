import Reckoner.FixedPoint.Constants
import Reckoner.Decimal.Rounding

namespace Reckoner.FixedPoint

open Numeric

/-- The largest power of two, of either sign, that is still written out: 2^34000 is beyond
10^10000. -/
def maxBinaryExponent : Int := 34000

def exponentialTerms (r : Int) (p : Nat) : Series :=
  .ofRatio (unit p) fun t k => (t * r).tdiv (unit p * (k + 1))

/-- s times 2^n with p digits; a negative power of two is a power of five behind the point. -/
def scaleBinary (s : Int) (p : Nat) (n : Int) : Decimal :=
  if 0 ≤ n then ⟨s * pow2 n.toNat, p⟩
  else ⟨s * pow5 (-n).toNat, toWord (p + (-n).toNat)⟩

/-- The exponential of y, given with p digits, rounded to significant digits. With y = n ln 2 + r
it is 2^n exp r. There is none where it is too large to be written out; where it is too small, it
is zero. -/
def exp? (y : Int) (p digits : Nat) : Option Decimal :=
  let n := y.fdiv (ln2 p)
  let r := y - n * ln2 p
  if maxBinaryExponent < n then none
  else if n < -maxBinaryExponent then some .zero
  else some ((scaleBinary ((exponentialTerms r p).sum p) p n).roundSignificant digits)

end Reckoner.FixedPoint
