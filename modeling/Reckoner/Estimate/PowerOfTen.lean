import Reckoner.Estimate.Logarithm
import Reckoner.FixedPoint.Exponential

namespace Reckoner.Estimate

open Numeric

def ln10High : Rat :=
  toBinary64 ln10

def ln10Low : Rat :=
  toBinary64 (ln10 - ln10High)

/-- How many equal steps, by ratio, lead from a power of two to the next. -/
def stepsPerDoubling : Nat := 128

/-- The natural logarithm of a step, cut to 37 binary digits: a multiple of it by a count of steps
is exact. -/
def stepHigh : Rat :=
  roundBinary 37 (ln2 / stepsPerDoubling)

def stepLow : Rat :=
  toBinary64 (ln2 / stepsPerDoubling - stepHigh)

def stepsPerUnit : Rat :=
  toBinary64 (stepsPerDoubling / ln2)

def nearestStep (x : Rat) : Int :=
  let y := toBinary64 (x * stepsPerUnit)
  y.num.sign * halfEven y.num.natAbs y.den

/-- The factor that j steps make, for j below the steps of a doubling. -/
def stepFactor (j : Nat) : Rat :=
  let y := (ln2 * j / stepsPerDoubling * pow10 workingDigits).floor
  ((FixedPoint.exp? y workingDigits 50).map Decimal.toRat).getD 1

def scale (r : Rat) (n : Int) : Rat :=
  r * pow2 n.toNat / pow2 (-n).toNat

/-- The value of exp r - 1 + tail for |r| at most half a step and a far smaller tail, by a
polynomial of degree five whose coefficients are fitted to that range. -/
def expSmall (r tail : Rat) : Rat :=
  let c2 := mkRat 0x1ffffffffffdbd (pow2 54)
  let c3 := mkRat 0x1555555555543c (pow2 55)
  let c4 := mkRat 0x155555cf172b91 (pow2 57)
  let c5 := mkRat 0x11111167a4d017 (pow2 59)
  let square := toBinary64 (r * r)
  let low := toBinary64 (toBinary64 (c3 * r + c2) * square + toBinary64 (tail + r))
  toBinary64 (toBinary64 (square * square) * toBinary64 (c5 * r + c4) + low)

/-- The exponential of x + rest, where rest is far smaller than x, in 53 binary digits. The nearest
whole number of steps gives a factor, and what it leaves is below half a step; a product and the
sum it goes into are rounded once. -/
def exp (x rest : Rat) : Rat :=
  let n := nearestStep x
  let r := toBinary64 (toBinary64 (x - n * stepHigh - n * stepLow) + rest)
  let factor := stepFactor (n % stepsPerDoubling).toNat
  let head := toBinary64 factor
  let tail := toBinary64 (factor / head - 1)
  scale (toBinary64 (head * expSmall r tail + head)) (n / stepsPerDoubling)

/-- Ten to the power of r in 53 binary digits, of which the last may differ as that of a logarithm
does. -/
def tenToThe (r : Rat) : Rat :=
  let head := toBinary64 (r * ln10High)
  exp head (toBinary64 (r * ln10Low + (r * ln10High - head)))

end Reckoner.Estimate
