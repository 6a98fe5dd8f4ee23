import Reckoner.FixedPoint.Logarithm
import Reckoner.FixedPoint.Exponential
import Reckoner.FixedPoint.Trigonometry
import Reckoner.Numeric.SquareRoot

namespace Reckoner.Decimal

open FixedPoint Numeric

def pi (scale : Nat) : Decimal :=
  let w := withGuard scale
  (mk (FixedPoint.pi w) w).round scale

def euler (scale : Nat) : Decimal :=
  let w := withGuard scale
  (mk (FixedPoint.euler w) w).round scale

def sinDegrees (x : Decimal) (scale : Nat) : Decimal :=
  let w := withGuard scale
  (mk (sin (radians x w) w) w).round scale

def cosDegrees (x : Decimal) (scale : Nat) : Decimal :=
  let w := withGuard scale
  (mk (cos (radians x w) w) w).round scale

/-- The tangent of an angle in degrees, rounded to a scale. It has a pole where the cosine rounds
to zero at that scale. -/
def tanDegrees? (x : Decimal) (scale : Nat) : Option Decimal :=
  let w := withGuard scale
  let c := mk (cos (radians x w) w) w
  if (c.round scale).isZero then none
  else (mk (sin (radians x w) w) w).divide? c scale

def ln (x : Decimal) (scale : Nat) : Decimal :=
  let w := withGuard scale
  (mk (FixedPoint.ln x w) w).round scale

/-- The square root of |x| with k significant digits. The mantissa is first extended to twice as
many places as the root is given, and the root then has more digits than asked for. -/
def sqrt (x : Decimal) (k : Nat) : Decimal :=
  if x.isZero then zero
  else
    let places := (max (k + 2 - x.order.fdiv 2) ((x.scale + 1) / 2 : Nat)).toNat
    (mk (floorSqrt (x.mantissa.natAbs * pow10 (2 * places - x.scale))) places).roundSignificant k

/-- |base| ^ exponent with k significant digits, as the exponential of exponent ln |base|, for a
base other than zero. The larger the exponent, the more digits the logarithm is given. -/
def realPow? (base exponent : Decimal) (k : Nat) : Option Decimal :=
  let p := toWord (k + guardDigits + 6 + exponent.order.toNat)
  let y := (exponent.mantissa * FixedPoint.ln base p).tdiv (pow10 exponent.scale)
  exp? y p k

end Reckoner.Decimal
