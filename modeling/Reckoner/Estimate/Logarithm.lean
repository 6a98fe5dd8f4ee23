import Reckoner.FixedPoint.Logarithm
import Reckoner.Numeric.Binary

namespace Reckoner.Estimate

open Numeric

def workingDigits : Nat := 60

/-- The value of an integer that counts the last one of the working digits. -/
def ofWorking (n : Int) : Rat :=
  mkRat n (pow10 workingDigits)

def ln2 : Rat := ofWorking (FixedPoint.ln2 workingDigits)

def ln10 : Rat := ofWorking (FixedPoint.ln10 workingDigits)

/-- The decimal logarithm of 2, cut behind 41 binary digits: a small multiple of it is exact. -/
def log10TwoHigh : Rat :=
  mkRat (ln2 / ln10 * pow2 41).floor (pow2 41)

def log10TwoLow : Rat :=
  toBinary64 (ln2 / ln10 - log10TwoHigh)

def log10Euler : Rat :=
  toBinary64 (1 / ln10)

/-- A number with 52 binary digits behind the point, as a decimal of the same value. -/
def ofBinary64 (r : Rat) : Decimal :=
  ⟨(r * pow10 52).floor, 52⟩

/-- The natural logarithm of v ≥ 1. Implementations may differ in its last binary digit. The laws of
powers use no more than its error; only a power at the very limit falls on one side or the other by
that digit. -/
def ln (v : Rat) : Rat :=
  toBinary64 (ofWorking (FixedPoint.ln (ofBinary64 v) workingDigits))

/-- The decimal logarithm of v ≥ 1, with a last binary digit that may differ as well. With v = m 2^k
and m from 1 to 2 it is ln m log10 e + k log10 2, every step in 53 binary digits and the largest
part added last. -/
def log10 (v : Rat) : Rat :=
  let k := v.floor.toNat.log2
  let m := v / pow2 k
  let low := toBinary64 (toBinary64 (k * log10TwoLow) + toBinary64 (log10Euler * ln m))
  toBinary64 (low + k * log10TwoHigh)

end Reckoner.Estimate
