import Reckoner.Fault
import Reckoner.Decimal.Elementary
import Reckoner.Decimal.Magnitude

namespace Reckoner.Decimal

/-- The scale of quotients, of sines, cosines, tangents and logarithms, and of the constants. -/
def resultScale : Nat := 30

/-- The significant digits of square roots and of powers that are not exact. -/
def resultDigits : Nat := 30

/-- No exponent may be larger, whatever the base. -/
def maxExponent : Decimal := ofInt 2147483637

def maxFactorial : Nat := 10000

/-- Powers are refused above 10 to this power and are zero below its reciprocal. -/
def maxPowerOrder : Rat := 10000

/-- A power is multiplied out while the digits of the base, times the exponent, are no more. -/
def maxExactDigits : Nat := 20000

def quotient (x y : Decimal) : Except Fault Decimal :=
  match x.divide? y resultScale with
  | some q => .ok q
  | none => .error .divisionByZero

def withSignOf (base : Decimal) (n : Int) (v : Decimal) : Decimal :=
  if base.isNegative ∧ n % 2 ≠ 0 then -v else v

/-- base ^ n multiplied out for an integer n; for a negative one, the reciprocal to significant
digits. -/
def exactPower (base : Decimal) (n : Int) : Except Fault Decimal :=
  let p := base.natPow n.natAbs
  if 0 ≤ n then .ok p
  else match one.divideSignificant? p resultDigits with
    | some q => .ok q
    | none => .error .divisionByZero

def realPower (base exponent : Decimal) : Except Fault Decimal :=
  match base.realPow? exponent resultDigits with
  | some v => .ok (withSignOf base exponent.truncate v)
  | none => .error .powerOutOfRange

/-- base ^ exponent for a base other than 0, 1 and -1 and an exponent other than zero: refused or
zero where its order is out of bounds, multiplied out where that is cheap, else by logarithm. -/
def boundedPower (base exponent : Decimal) : Except Fault Decimal :=
  let order := powerOrderEstimate base exponent
  let n := exponent.truncate
  if maxPowerOrder < order then .error .powerOutOfRange
  else if order < -maxPowerOrder then .ok zero
  else if exponent.isInteger ∧ base.digitCount * n.natAbs ≤ maxExactDigits then exactPower base n
  else realPower base exponent

/-- base ^ exponent. The bases 1 and 0 have their powers whatever the exponent is. -/
def power (base exponent : Decimal) : Except Fault Decimal :=
  if base.isOne then .ok one
  else if base.isZero then .ok zero
  else if exponent.compare maxExponent == .gt then .error .exponentTooLarge
  else if base.isNegative ∧ !exponent.isInteger then .error .powerNotReal
  else if exponent.isZero then .ok one
  else if base.abs.isOne then .ok (withSignOf base exponent.truncate one)
  else boundedPower base exponent

def factorialNat : Nat → Nat
  | 0 => 1
  | n + 1 => (n + 1) * factorialNat n

def factorial (x : Decimal) : Except Fault Decimal :=
  if x.isNegative then .error .factorialOfNegative
  else if !x.isInteger then .error .factorialOfFraction
  else if maxFactorial < x.truncate.toNat then .error .factorialTooLarge
  else .ok (ofInt (factorialNat x.truncate.toNat))

def squareRoot (x : Decimal) : Except Fault Decimal :=
  if x.isNegative then .error .squareRootOfNegative else .ok (x.sqrt resultDigits)

def tangent (x : Decimal) : Except Fault Decimal :=
  match x.tanDegrees? resultScale with
  | some t => .ok t
  | none => .error .tangentPole

/-- The logarithm of a positive number, exactly 1 for the constant that stands for Euler's number.
-/
def logarithm (x : Decimal) : Except Fault Decimal :=
  if x.isNegative then .error .logarithmOfNegative
  else if x.isZero then .error .logarithmOfZero
  else if x.isOne then .ok zero
  else if x.sameValue (euler resultScale) then .ok one
  else .ok (x.ln resultScale)

end Reckoner.Decimal
