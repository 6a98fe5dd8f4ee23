import Reckoner.Slate.Button
import Reckoner.Text.Blank

namespace Reckoner.Line

open Text

def dropSpaces (line : List Char) : List Char :=
  (line.reverse.dropWhile (· == ' ')).reverse

/-- The line with a space at its end, unless it is empty. -/
def spaced (line : List Char) : List Char :=
  if line = [] then [] else line ++ [' ']

/-- Whether the last character satisfies a test; an empty line has none to fail it. -/
def lastSatisfies (p : Char → Bool) (line : List Char) : Bool :=
  line.getLast?.all p

/-- Whether a digit goes directly behind a character, to begin a number or to go on with one. -/
def takesDigit (c : Char) : Bool :=
  isBlank c || c.isDigit || c == '.'

/-- The line with a text typed at its end, spaced as the kind of insertion asks. -/
def insert (line text : List Char) : Spacing → List Char
  | .digit => (if lastSatisfies takesDigit line then line else spaced line) ++ text
  | .word => (if lastSatisfies isBlank line then line else spaced line) ++ text
  | .function => (if lastSatisfies isBlank line then line else spaced line) ++ text ++ [' ']
  | .operator => spaced (dropSpaces line) ++ text ++ [' ']

def blocks : List (List Char) :=
  ["sin (".toList, "cos (".toList, "tan (".toList, "ln (".toList]

def deletedCount (line : List Char) : Nat :=
  match blocks.find? (·.isSuffixOf line) with
  | some block => block.length
  | none => 1

/-- The line without its last block or character. Spaces at the end do not count. -/
def delete (line : List Char) : List Char :=
  let kept := dropSpaces line
  dropSpaces (kept.take (kept.length - deletedCount kept))

def shown (line : List Char) : List Char :=
  line.filter (!isBlank ·)

end Reckoner.Line
