import Reckoner.Expression.Words
import Reckoner.Expression.Postfix
import Reckoner.Decimal.Operations

namespace Reckoner

def BinaryOp.apply (op : BinaryOp) (x y : Decimal) : Except Fault Decimal :=
  match op with
  | .add => .ok (x + y)
  | .sub => .ok (x - y)
  | .mul => .ok (x * y)
  | .div => x.quotient y
  | .pow => x.power y

def UnaryOp.apply (op : UnaryOp) (x : Decimal) : Except Fault Decimal :=
  match op with
  | .negate => .ok (-x)
  | .factorial => x.factorial
  | .root => x.squareRoot

/-- Angles are in degrees. -/
def Function.apply (f : Function) (x : Decimal) : Except Fault Decimal :=
  match f with
  | .sin => .ok (x.sinDegrees Decimal.resultScale)
  | .cos => .ok (x.cosDegrees Decimal.resultScale)
  | .tan => x.tangent
  | .ln => x.logarithm
  | .sqrt => x.squareRoot

namespace Token

/-- What one token of a postfix list does to the values computed so far, the latest first. A
parenthesis is met only if it was never closed, and is a fault whatever lies below it. -/
def step (values : List Decimal) : Token → Except Fault (List Decimal)
  | num x => .ok (x :: values)
  | openParen => .error .unclosedParenthesis
  | closeParen =>
    match values with
    | _ :: _ :: _ => .error .unopenedParenthesis
    | _ => .error (.missingOperand closeParen.text)
  | binary op =>
    match values with
    | y :: x :: rest => (· :: rest) <$> op.apply x y
    | _ => .error (.missingOperand op.symbol)
  | unary op =>
    match values with
    | x :: rest => (· :: rest) <$> op.apply x
    | [] => .error (.missingUnaryOperand op.symbol)
  | function f =>
    match values with
    | x :: rest => (· :: rest) <$> f.apply x
    | [] => .error (.missingArgument f.symbol)

/-- The value of a postfix list, if it leaves one; two values that no operator joins are a fault.
-/
def evaluatePostfix (ts : List Token) : Except Fault (Option Decimal) := do
  match ← ts.foldlM step [] with
  | [] => return none
  | [x] => return some x
  | _ => throw .missingOperator

end Token

/-- The value of an expression, without trailing zeros behind the point. -/
def evaluate (expression : String) : Except Fault Decimal := do
  let ts ← tokens expression
  match ← Token.evaluatePostfix (← Token.toPostfix ts) with
  | some x => return x.normalize
  | none => throw .emptyExpression

/-- The tokens of an expression as text, as written and in postfix order. -/
structure Trace where
  infixText : String
  postfixText : String
  deriving DecidableEq, Repr

/-- How an expression is read, without computing anything. -/
def trace (expression : String) : Except Fault Trace := do
  let ts ← tokens expression
  let arranged ← Token.toPostfix ts
  return ⟨Token.textOfList ts, Token.textOfList arranged⟩

end Reckoner
