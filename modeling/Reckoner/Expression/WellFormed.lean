import Reckoner.Expression.Token

namespace Reckoner.Token

/-- How many parentheses are open after some tokens, if none was closed too early. -/
def depth? (opened : Nat) : List Token → Option Nat
  | [] => some opened
  | openParen :: ts => depth? (opened + 1) ts
  | closeParen :: ts => if opened = 0 then none else depth? (opened - 1) ts
  | _ :: ts => depth? opened ts

/-- Every parenthesis is opened before it is closed, and closed in the end. -/
def balanced (ts : List Token) : Bool :=
  depth? 0 ts == some 0

/-- What may stand at a place of an expression: the start of an operand, or what goes on behind a
complete one. -/
inductive Place
  | operandDue
  | operandComplete
  deriving DecidableEq, Repr

/-- The place behind a token, if the token may stand where it does. -/
def Place.after? : Place → Token → Option Place
  | .operandDue, num _ => some .operandComplete
  | .operandDue, openParen | .operandDue, unary .negate | .operandDue, unary .root
  | .operandDue, function _ => some .operandDue
  | .operandComplete, unary .factorial | .operandComplete, closeParen => some .operandComplete
  | .operandComplete, binary _ => some .operandDue
  | _, _ => none

/-- Operands and operators alternate, from the start of an operand to a complete one. -/
def alternates (ts : List Token) : Bool :=
  ts.foldlM Place.after? .operandDue == some .operandComplete

def wellFormed (ts : List Token) : Bool :=
  balanced ts && alternates ts

end Reckoner.Token
