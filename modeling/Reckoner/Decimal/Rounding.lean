import Reckoner.Decimal.Basic
import Reckoner.Numeric.Rounding

namespace Reckoner.Decimal

open Numeric

/-- The number at a given scale: padded with zeros or rounded, a half going away from zero. -/
def round (x : Decimal) (scale : Nat) : Decimal :=
  if x.scale ≤ scale then ⟨x.mantissaAt scale, scale⟩
  else ⟨halfAway x.mantissa (pow10 (x.scale - scale)), scale⟩

/-- The number with at most k significant digits, a half going away from zero. Digits dropped in
front of the point become zeros. -/
def roundSignificant (x : Decimal) (k : Nat) : Decimal :=
  if x.isZero ∨ x.digitCount ≤ k then x
  else
    let dropped := x.digitCount - k
    let m := halfAway x.mantissa (pow10 dropped)
    if dropped ≤ x.scale then ⟨m, x.scale - dropped⟩
    else ⟨m * pow10 (dropped - x.scale), 0⟩

def ofRat (r : Rat) (scale : Nat) : Decimal :=
  ⟨halfAway (r.num * pow10 scale) r.den, scale⟩

def divide? (x y : Decimal) (scale : Nat) : Option Decimal :=
  if y.isZero then none else some (ofRat (x.toRat / y.toRat) scale)

/-- The quotient with k significant digits; there is none by zero. It is first rounded two or three
digits further to the right, at a place that follows from the orders of the operands. -/
def divideSignificant? (x y : Decimal) (k : Nat) : Option Decimal :=
  if y.isZero then none
  else if x.isZero then some zero
  else (x.divide? y (toWord (k + 2 - (x.order - y.order)).toNat)).map (·.roundSignificant k)

end Reckoner.Decimal
