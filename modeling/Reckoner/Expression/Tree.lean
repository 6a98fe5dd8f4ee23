import Reckoner.Expression.Evaluate

namespace Reckoner

/-- An expression without its notation: what is applied to what. -/
inductive Tree
  | num (x : Decimal)
  | binary (op : BinaryOp) (left right : Tree)
  | unary (op : UnaryOp) (operand : Tree)
  | function (f : Function) (argument : Tree)
  deriving DecidableEq, Repr

namespace Tree

/-- The tokens of a tree, each behind its operands. -/
def traverse : Tree → List Token
  | num x => [.num x]
  | binary op l r => l.traverse ++ r.traverse ++ [.binary op]
  | unary op t => t.traverse ++ [.unary op]
  | function f t => t.traverse ++ [.function f]

/-- The value of a tree. The left operand is computed before the right one, so its fault comes
first. -/
def value : Tree → Except Fault Decimal
  | num x => .ok x
  | binary op l r => do op.apply (← l.value) (← r.value)
  | unary op t => do op.apply (← t.value)
  | function f t => do f.apply (← t.value)

end Tree

end Reckoner
