import Reckoner.FixedPoint.Constants
import Reckoner.Decimal.Basic

namespace Reckoner.FixedPoint

open Numeric

/-- The terms z^(2k+1) / (2k+1). What is carried is the power of z. -/
def oddPowers (z : Int) (p : Nat) : Series where
  start := z
  term power k := power.tdiv (oddFactor k)
  next power _ := (power * (z * z).tdiv (unit p)).tdiv (unit p)

def artanh (z : Int) (p : Nat) : Int :=
  (oddPowers z p).sum p

/-- Halves m until it is below 3/2 of the unit, and counts the steps. -/
def halve (unit m : Nat) : Nat × Nat :=
  if 0 < m ∧ 3 * unit ≤ 2 * m then
    let (m', steps) := halve unit (m / 2)
    (m', steps + 1)
  else (m, 0)
termination_by m

/-- The leading digits of |x|, with the point behind the first one and p digits after it. -/
def leading (x : Decimal) (p : Nat) : Nat :=
  let shift := (p : Int) - x.scale - x.order
  if 0 ≤ shift then x.mantissa.natAbs * pow10 shift.toNat
  else x.mantissa.natAbs / pow10 (-shift).toNat

/-- The logarithm of |x| with p digits, for x other than zero. With |x| = m 10^k = m' 2^j 10^k and
m' between 3/4 and 3/2, it is 2 artanh ((m' - 1) / (m' + 1)) + j ln 2 + k ln 10. -/
def ln (x : Decimal) (p : Nat) : Int :=
  let w := withGuard p
  let (m, j) := halve (pow10 w) (leading x w)
  let z := ((m - unit w) * unit w).tdiv (m + unit w)
  dropGuard (2 * artanh z w + ln2 w * j + ln10 w * x.order)

end Reckoner.FixedPoint
