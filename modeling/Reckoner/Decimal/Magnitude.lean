import Reckoner.Estimate.PowerOfTen

namespace Reckoner.Decimal

open Text Numeric

def leadDigits : Nat := 17

/-- The number that the first digits of the mantissa write with a point behind the first of them,
in 53 binary digits: a value from 1 to 10. -/
def lead (x : Decimal) : Rat :=
  let head := (digits x.mantissa.natAbs).take leadDigits
  toBinary64 (toBinary64 (digitsValue head) / pow10 (head.length - 1))

/-- The decimal logarithm of |x| for x other than zero, in 53 binary digits: that of the leading
digits plus the order. It estimates sizes; two ways to write one number may differ in the last
binary digit. -/
def log10Estimate (x : Decimal) : Rat :=
  toBinary64 (Estimate.log10 x.lead + x.order)

/-- Beyond this decimal logarithm an estimate need not grow further to decide a comparison. -/
def estimateBound : Rat := 400

def clampEstimate (r : Rat) : Rat :=
  if r < -estimateBound then -estimateBound
  else if estimateBound < r then estimateBound
  else r

def pow10Estimate (r : Rat) : Rat :=
  Estimate.tenToThe (clampEstimate r)

/-- A number in 53 binary digits by way of its estimated logarithm. -/
def estimate (x : Decimal) : Rat :=
  if x.isZero then 0
  else
    let r := pow10Estimate x.log10Estimate
    if x.isNegative then -r else r

/-- The decimal logarithm of |base| ^ exponent in 53 binary digits. -/
def powerOrderEstimate (base exponent : Decimal) : Rat :=
  toBinary64 (exponent.estimate * base.log10Estimate)

end Reckoner.Decimal
