import Reckoner.Decimal.Basic

namespace Reckoner.Decimal

open Text

def padDigits (width : Nat) (cs : List Char) : List Char :=
  List.replicate (width - cs.length) '0' ++ cs

/-- The positional text of a pair: all its digits, never an exponent, and the point in front of as
many digits as the scale says. -/
def plainChars (x : Decimal) : List Char :=
  let cs := padDigits (x.scale + 1) (digits x.mantissa.natAbs)
  let whole := cs.take (cs.length - x.scale)
  let fraction := cs.drop (cs.length - x.scale)
  signed x.isNegative (if x.scale = 0 then whole else whole ++ '.' :: fraction)

def plain (x : Decimal) : String :=
  String.ofList x.plainChars

instance : ToString Decimal := ⟨plain⟩

end Reckoner.Decimal
