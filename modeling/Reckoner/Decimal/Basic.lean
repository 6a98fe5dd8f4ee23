import Reckoner.Numeric.Word
import Reckoner.Text.Digits

namespace Reckoner

/-- The number mantissa / 10 ^ scale. Two pairs may denote one number: 1.5 and 1.50 differ in their
scale, and each operation says which scale its result has. -/
@[ext] structure Decimal where
  mantissa : Int
  scale : Nat
  deriving DecidableEq, Inhabited, Repr

namespace Decimal

open Numeric

def zero : Decimal := ⟨0, 0⟩

def one : Decimal := ⟨1, 0⟩

def ofInt (n : Int) : Decimal := ⟨n, 0⟩

def toRat (x : Decimal) : Rat :=
  mkRat x.mantissa (pow10 x.scale)

/-- The mantissa at a scale that is not below the number's own. -/
def mantissaAt (x : Decimal) (scale : Nat) : Int :=
  x.mantissa * pow10 (scale - x.scale)

def isZero (x : Decimal) : Bool := x.mantissa == 0

def isNegative (x : Decimal) : Bool := decide (x.mantissa < 0)

def abs (x : Decimal) : Decimal := ⟨x.mantissa.natAbs, x.scale⟩

def neg (x : Decimal) : Decimal := ⟨-x.mantissa, x.scale⟩

def add (x y : Decimal) : Decimal :=
  let scale := max x.scale y.scale
  ⟨x.mantissaAt scale + y.mantissaAt scale, scale⟩

def sub (x y : Decimal) : Decimal :=
  let scale := max x.scale y.scale
  ⟨x.mantissaAt scale - y.mantissaAt scale, scale⟩

/-- The product. It is exact while the sum of the scales fits a word. -/
def mul (x y : Decimal) : Decimal :=
  ⟨x.mantissa * y.mantissa, toWord (x.scale + y.scale)⟩

/-- The power, as exact as the product. -/
def natPow (x : Decimal) (n : Nat) : Decimal :=
  ⟨x.mantissa.pow n, toWord (x.scale * n)⟩

instance : Neg Decimal := ⟨neg⟩
instance : Add Decimal := ⟨add⟩
instance : Sub Decimal := ⟨sub⟩
instance : Mul Decimal := ⟨mul⟩

@[simp] theorem neg_mantissa (x : Decimal) : (-x).mantissa = -x.mantissa := rfl

@[simp] theorem neg_scale (x : Decimal) : (-x).scale = x.scale := rfl

@[simp] theorem add_scale (x y : Decimal) : (x + y).scale = max x.scale y.scale := rfl

@[simp] theorem sub_scale (x y : Decimal) : (x - y).scale = max x.scale y.scale := rfl

@[simp] theorem mantissaAt_self (x : Decimal) : x.mantissaAt x.scale = x.mantissa := by
  simp [mantissaAt]

/-- Order by value: trailing zeros do not count. -/
def compare (x y : Decimal) : Ordering :=
  let scale := max x.scale y.scale
  Ord.compare (x.mantissaAt scale) (y.mantissaAt scale)

def sameValue (x y : Decimal) : Bool :=
  x.compare y == .eq

/-- Two numbers are equal when their mantissas agree at the larger of their scales. -/
theorem sameValue_iff {x y : Decimal} :
    x.sameValue y ↔
      x.mantissaAt (max x.scale y.scale) = y.mantissaAt (max x.scale y.scale) := by
  simp [sameValue, compare]

@[simp] theorem sameValue_refl (x : Decimal) : x.sameValue x :=
  sameValue_iff.2 rfl

def isOne (x : Decimal) : Bool := x.sameValue one

def truncate (x : Decimal) : Int :=
  x.mantissa.tdiv (pow10 x.scale)

def isInteger (x : Decimal) : Bool :=
  x.mantissa.tmod (pow10 x.scale) == 0

/-- The mantissa at scale p; digits that do not fit are cut off toward zero. -/
def toFixed (x : Decimal) (p : Nat) : Int :=
  if x.scale ≤ p then x.mantissaAt p else x.mantissa.tdiv (pow10 (x.scale - p))

/-- The remainder of the division by an integer, moved up by one divisor when it is negative. -/
def residue (x : Decimal) (divisor : Int) : Decimal :=
  let m := divisor * pow10 x.scale
  let r := x.mantissa.tmod m
  ⟨if r < 0 then r + m else r, x.scale⟩

def digitCount (x : Decimal) : Nat :=
  Text.digitCount x.mantissa.natAbs

/-- The exponent of the leading digit: the floor of the decimal logarithm of a number other than
zero. -/
def order (x : Decimal) : Int :=
  (x.digitCount : Int) - 1 - x.scale

def dropZeros (m : Int) : Nat → Decimal
  | 0 => ⟨m, 0⟩
  | scale + 1 => if m % 10 = 0 then dropZeros (m / 10) scale else ⟨m, scale + 1⟩

/-- The same value without trailing zeros behind the point. -/
def normalize (x : Decimal) : Decimal :=
  if x.mantissa = 0 then zero else dropZeros x.mantissa x.scale

end Decimal

end Reckoner
