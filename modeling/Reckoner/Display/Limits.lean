import Reckoner.Decimal.Plain
import Reckoner.Decimal.Rounding
import Reckoner.Decimal.Scientific
import Reckoner.Decimal.Literal
import Reckoner.Text.Blank
import Reckoner.Fault

namespace Reckoner

/-- How much the display shows: the digits kept behind the point when a number is rounded, and the
length of the text. -/
structure Limits where
  maxScale : Nat := 12
  maxLength : Nat := 13
  deriving DecidableEq, Repr, Inhabited

namespace Limits

def fits (l : Limits) (cs : List Char) : Bool :=
  cs.length ≤ l.maxLength

/-- The text of a number too long for the display that has at least as many digits behind the point
as the display keeps. Its trailing zeros go only if that makes it fit. -/
def roundedChars (l : Limits) (x : Decimal) : List Char :=
  let rounded := x.round l.maxScale
  let short := rounded.normalize.plainChars
  if l.fits short then short else rounded.plainChars

/-- The text of a number: in full if it fits, else rounded if it has at least as many digits behind
the point as the display keeps, else in scientific notation. At least as many, and not more: so a
number that was rounded once is rounded again, to the same text. -/
def formatChars (l : Limits) (x : Decimal) : List Char :=
  let full := x.plainChars
  if l.fits full then full
  else if l.maxScale ≤ x.scale then l.roundedChars x
  else x.scientificChars

def format (l : Limits) (x : Decimal) : String :=
  String.ofList (l.formatChars x)

end Limits

/-- Reads a displayed number back, blanks around it apart. -/
def readDisplayed (s : String) : Except Fault Decimal :=
  let cs := Text.trim s.toList
  match Decimal.ofChars? cs with
  | some x => .ok x
  | none => .error (.unrecognisedWord (String.ofList cs))

end Reckoner
