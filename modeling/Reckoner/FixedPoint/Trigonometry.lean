import Reckoner.FixedPoint.Constants
import Reckoner.Decimal.Basic

namespace Reckoner.FixedPoint

/-- An angle in degrees, in radians with p digits. Whole turns are taken off exactly first. -/
def radians (degrees : Decimal) (p : Nat) : Int :=
  ((degrees.residue 360).toFixed p * pi p).tdiv (unit p * 180)

def square (x : Int) (p : Nat) : Int :=
  (x * x).tdiv (unit p)

/-- Taylor's terms of the sine: (-1)^k x^(2k+1) / (2k+1)!. The products of two factors are not cut
to a word: those of the first thirty thousand terms fit one, and ten thousand digits need far fewer.
-/
def sineTerms (x : Int) (p : Nat) : Series :=
  .ofRatio x fun t k => (-(t * square x p)).tdiv (unit p * ((2 * k + 2) * (2 * k + 3)))

/-- Taylor's terms of the cosine: (-1)^k x^(2k) / (2k)!. -/
def cosineTerms (x : Int) (p : Nat) : Series :=
  .ofRatio (unit p) fun t k => (-(t * square x p)).tdiv (unit p * ((2 * k + 1) * (2 * k + 2)))

def sin (x : Int) (p : Nat) : Int :=
  (sineTerms x p).sum p

def cos (x : Int) (p : Nat) : Int :=
  (cosineTerms x p).sum p

end Reckoner.FixedPoint
