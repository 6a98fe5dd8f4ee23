import Reckoner.Slate.Line
import Reckoner.Display.Limits
import Reckoner.Expression.Evaluate

namespace Reckoner

/-- What the calculator holds between two buttons: the line being typed, what the display shows,
the last result and the limits of the display. -/
structure Slate where
  line : String := ""
  display : String := ""
  last : Option Decimal := none
  limits : Limits := {}
  deriving Inhabited

namespace Slate

def new (limits : Limits) : Slate :=
  ⟨"", "", none, limits⟩

def shownLine (s : Slate) : String :=
  String.ofList (Line.shown s.line.toList)

def insert (s : Slate) (text : String) (spacing : Spacing) : Slate :=
  { s with line := String.ofList (Line.insert s.line.toList text.toList spacing) }

def delete (s : Slate) : Slate :=
  { s with line := String.ofList (Line.delete s.line.toList) }

/-- The last result stays. -/
def clear (s : Slate) : Slate :=
  { s with line := "", display := "" }

def insertLast (s : Slate) : Slate :=
  match s.last with
  | some x => s.insert x.plain .word
  | none => s

def showResult (s : Slate) (x : Decimal) : Slate :=
  { s with display := s.limits.format x, last := some x }

/-- Shows a label in place of a result; the last result stays. -/
def showLabel (s : Slate) (label : String) : Slate :=
  { s with display := label }

/-- Evaluates the line, which stays as it is. -/
def equals (s : Slate) : Slate :=
  match evaluate s.line with
  | .ok x => s.showResult x
  | .error fault => s.showLabel fault.label

def apply (s : Slate) : Button → Slate
  | .insert text spacing => s.insert text spacing
  | .delete => s.delete
  | .clear => s.clear
  | .answer => s.insertLast
  | .equals => s.equals

def press? (s : Slate) (label : String) : Option Slate :=
  (Button.ofLabel? label).map s.apply

/-- The slate after a label; one that no button carries changes nothing. -/
def press (s : Slate) (label : String) : Slate :=
  (s.press? label).getD s

end Slate

end Reckoner
