import Reckoner.Decimal.Plain
import Reckoner.Decimal.Basic

namespace Reckoner

inductive BinaryOp
  | add | sub | mul | div | pow
  deriving DecidableEq, Repr

/-- Operators on one operand: the minus sign and the root stand before it, the factorial behind. -/
inductive UnaryOp
  | negate | factorial | root
  deriving DecidableEq, Repr

inductive Function
  | sin | cos | tan | ln | sqrt
  deriving DecidableEq, Repr

inductive Token
  | num (value : Decimal)
  | openParen
  | closeParen
  | binary (op : BinaryOp)
  | unary (op : UnaryOp)
  | function (f : Function)
  deriving DecidableEq, Repr

inductive Associativity
  | left | right
  deriving DecidableEq, Repr

def BinaryOp.symbol : BinaryOp → String
  | .add => "+"
  | .sub => "-"
  | .mul => "×"
  | .div => "÷"
  | .pow => "^"

def UnaryOp.symbol : UnaryOp → String
  | .negate => "minus"
  | .factorial => "!"
  | .root => "√"

def Function.symbol : Function → String
  | .sin => "sin"
  | .cos => "cos"
  | .tan => "tan"
  | .ln => "ln"
  | .sqrt => "√"

namespace Token

def isOpenParen : Token → Bool
  | openParen => true
  | _ => false

/-- How tightly a token binds. A sign binds its operand less tightly than a power does, and more
tightly than a product. -/
def rank : Token → Nat
  | num _ | openParen | closeParen => 0
  | binary .add | binary .sub => 1
  | binary .mul | binary .div => 2
  | unary .negate => 3
  | binary .pow => 4
  | unary .factorial | unary .root | function _ => 5

def associativity : Token → Associativity
  | binary .pow | unary _ | function _ => .right
  | _ => .left

/-- Numbers are shown without trailing zeros, all else by its symbol. -/
def text : Token → String
  | num x => x.normalize.plain
  | openParen => "("
  | closeParen => ")"
  | binary op => op.symbol
  | unary op => op.symbol
  | function f => f.symbol

instance : ToString Token := ⟨text⟩

def textOfList (ts : List Token) : String :=
  " ".intercalate (ts.map text)

end Token

end Reckoner
