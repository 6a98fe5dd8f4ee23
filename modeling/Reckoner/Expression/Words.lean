import Reckoner.Text.Blank
import Reckoner.Decimal.Literal
import Reckoner.Decimal.Operations
import Reckoner.Expression.Token
import Reckoner.Fault

namespace Reckoner

def BinaryOp.ofSymbol? (s : String) : Option BinaryOp :=
  [add, sub, mul, div, pow].find? (·.symbol == s)

def Function.ofSymbol? (s : String) : Option Function :=
  [sin, cos, tan, ln, sqrt].find? (·.symbol == s)

@[simp] theorem BinaryOp.ofSymbol?_symbol (op : BinaryOp) : ofSymbol? op.symbol = some op := by
  cases op <;> rfl

@[simp] theorem Function.ofSymbol?_symbol (f : Function) : ofSymbol? f.symbol = some f := by
  cases f <;> rfl

theorem BinaryOp.symbol_of_ofSymbol? {s : String} {op : BinaryOp} (h : ofSymbol? s = some op) :
    op.symbol = s := by
  simpa using List.find?_some h

theorem Function.symbol_of_ofSymbol? {s : String} {f : Function} (h : ofSymbol? s = some f) :
    f.symbol = s := by
  simpa using List.find?_some h

namespace Token

/-- The words that stand for one token wherever they occur. -/
def ofFixedWord? : String → Option Token
  | "e" => some (num (Decimal.euler Decimal.resultScale))
  | "π" => some (num (Decimal.pi Decimal.resultScale))
  | "(" => some openParen
  | ")" => some closeParen
  | "!" => some (unary .factorial)
  | "minus" => some (unary .negate)
  | _ => none

/-- Whether an operand, and no binary operator, may follow the word before: at the start, after an
opening parenthesis and after a binary operator. -/
def operandDue : Option String → Bool
  | none => true
  | some w => w == "(" || (BinaryOp.ofSymbol? w).isSome

/-- A binary operator, or the sign that a minus is where an operand is due. -/
def ofOperator (previous : Option String) (op : BinaryOp) : Except Fault Token :=
  if !operandDue previous then .ok (binary op)
  else if op = .sub then .ok (unary .negate)
  else .error (.misplacedOperator op.symbol)

/-- The token that a word stands for, given the word before it. Literals come first, so -3 is a
number and not a sign and a number. -/
def ofWord (previous : Option String) (word : String) : Except Fault Token :=
  match Decimal.ofLiteral? word with
  | some x => .ok (num x)
  | none =>
  match ofFixedWord? word with
  | some t => .ok t
  | none =>
  match BinaryOp.ofSymbol? word with
  | some op => ofOperator previous op
  | none =>
  match Function.ofSymbol? word with
  | some f => .ok (function f)
  | none => .error (.unrecognisedWord word)

/-- The tokens of words in order; the first word without a token is the fault. -/
def ofWords (previous : Option String) : List String → Except Fault (List Token)
  | [] => .ok []
  | word :: rest => do
    let t ← ofWord previous word
    let ts ← ofWords (some word) rest
    return t :: ts

end Token

def tokens (expression : String) : Except Fault (List Token) :=
  Token.ofWords none ((Text.words expression.toList).map String.ofList)

end Reckoner
