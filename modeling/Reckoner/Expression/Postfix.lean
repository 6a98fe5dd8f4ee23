import Reckoner.Expression.Token
import Reckoner.Fault

namespace Reckoner.Token

/-- Whether a waiting token takes its operands before an incoming operator does: the tighter one
goes first, and of two that bind equally the waiting one if the incoming one groups to the left. An
open parenthesis always waits. -/
def precedes (incoming waiting : Token) : Bool :=
  !waiting.isOpenParen &&
    (incoming.rank < waiting.rank ||
      (waiting.rank == incoming.rank && incoming.associativity == .left))

/-- Postfix order of the tokens that remain, given those that wait for their operands, the latest
first. Operators before their operand wait; an operator behind one first releases those that
precede it; a closing parenthesis releases all down to the one that it closes, and both vanish. A
parenthesis that is never closed stays. -/
def arrange (waiting : List Token) : List Token → Except Fault (List Token)
  | [] => .ok waiting
  | t :: ts =>
    match t with
    | num _ => (t :: ·) <$> arrange waiting ts
    | openParen | function _ | unary .negate | unary .root => arrange (t :: waiting) ts
    | closeParen =>
      match waiting.dropWhile (!·.isOpenParen) with
      | [] => .error .unopenedParenthesis
      | _ :: outer => (waiting.takeWhile (!·.isOpenParen) ++ ·) <$> arrange outer ts
    | binary _ | unary .factorial =>
      (waiting.takeWhile (precedes t) ++ ·) <$> arrange (t :: waiting.dropWhile (precedes t)) ts

def toPostfix (ts : List Token) : Except Fault (List Token) :=
  arrange [] ts

end Reckoner.Token
