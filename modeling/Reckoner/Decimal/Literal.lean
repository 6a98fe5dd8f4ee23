import Reckoner.Decimal.Basic

namespace Reckoner

open Text

/-- The parts of a written decimal: a sign, digits before and behind the point, and a power of ten.
-/
structure Literal where
  negative : Bool
  whole : List Char
  fraction : List Char
  exponent : Int
  deriving DecidableEq

namespace Literal

/-- The largest exponent, of either sign, that may be written. -/
def maxExponent : Nat := 10000

def splitSign : List Char → Bool × List Char
  | '-' :: cs => (true, cs)
  | '+' :: cs => (false, cs)
  | cs => (false, cs)

/-- The text before the first character of a class, and what follows that character if there is
one. -/
def splitFirst (p : Char → Bool) (cs : List Char) : List Char × Option (List Char) :=
  match cs.span (!p ·) with
  | (before, _ :: behind) => (before, some behind)
  | (before, []) => (before, none)

def readInteger (cs : List Char) : Option Int :=
  let (negative, ds) := splitSign cs
  if ds ≠ [] ∧ allDigits ds then
    some (if negative then -(digitsValue ds) else digitsValue ds)
  else none

def readExponent (cs : List Char) : Option Int := do
  let n ← readInteger cs
  if n.natAbs ≤ maxExponent then some n else none

/-- Reads a sign, digits with at most one point among them, and an optional exponent. At least one
digit stands before or behind the point. -/
def read (cs : List Char) : Option Literal := do
  let (negative, unsigned) := splitSign cs
  let (body, exponent?) := splitFirst (fun c => c == 'e' || c == 'E') unsigned
  let (whole, fraction?) := splitFirst (· == '.') body
  let fraction := fraction?.getD []
  if (whole = [] ∧ fraction = []) ∨ !allDigits whole ∨ !allDigits fraction then none
  else
    let exponent ← match exponent? with
      | some e => readExponent e
      | none => some 0
    some ⟨negative, whole, fraction, exponent⟩

/-- The pair that a literal denotes. Its scale counts the digits behind the point less the
exponent; an exponent that moves the point beyond the last digit writes zeros. -/
def toDecimal (l : Literal) : Decimal :=
  let n : Int := digitsValue (l.whole ++ l.fraction)
  let m := if l.negative then -n else n
  let scale := l.fraction.length - l.exponent
  ⟨m * Numeric.pow10 (-scale).toNat, scale.toNat⟩

end Literal

namespace Decimal

def ofChars? (cs : List Char) : Option Decimal :=
  (Literal.read cs).map Literal.toDecimal

def ofLiteral? (s : String) : Option Decimal :=
  ofChars? s.toList

end Decimal

end Reckoner
