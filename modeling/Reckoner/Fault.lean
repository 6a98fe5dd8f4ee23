namespace Reckoner

/-- Whether an expression is badly formed, or well formed and without a value. -/
inductive FaultKind
  | syntactic
  | mathematical
  deriving DecidableEq, Repr

/-- What the display shows in place of a result. -/
def FaultKind.label : FaultKind → String
  | .syntactic => "Syntax ERROR"
  | .mathematical => "Math ERROR"

structure Report where
  kind : FaultKind
  reason : String
  deriving DecidableEq, Repr

namespace Report

def label (r : Report) : String := r.kind.label

def isSyntactic (r : Report) : Bool := r.kind == .syntactic

def isMathematical (r : Report) : Bool := r.kind == .mathematical

def text (r : Report) : String := r.label ++ ": " ++ r.reason

instance : ToString Report := ⟨text⟩

end Report

inductive Fault
  | unrecognisedWord (word : String)
  | misplacedOperator (symbol : String)
  | unopenedParenthesis
  | unclosedParenthesis
  | emptyExpression
  | missingOperator
  | missingOperand (symbol : String)
  | missingUnaryOperand (symbol : String)
  | missingArgument (function : String)
  | tangentPole
  | divisionByZero
  | exponentTooLarge
  | powerNotReal
  | powerOutOfRange
  | factorialOfNegative
  | factorialOfFraction
  | factorialTooLarge
  | squareRootOfNegative
  | logarithmOfNegative
  | logarithmOfZero
  deriving DecidableEq, Repr

namespace Fault

/-- A pole of the tangent counts as bad form, unlike a division by zero. -/
def kind : Fault → FaultKind
  | unrecognisedWord _ | misplacedOperator _ | unopenedParenthesis | unclosedParenthesis
  | emptyExpression | missingOperator | missingOperand _ | missingUnaryOperand _
  | missingArgument _ | tangentPole => .syntactic
  | divisionByZero | exponentTooLarge | powerNotReal | powerOutOfRange | factorialOfNegative
  | factorialOfFraction | factorialTooLarge | squareRootOfNegative | logarithmOfNegative
  | logarithmOfZero => .mathematical

def reason : Fault → String
  | unrecognisedWord word => "unrecognised token: '" ++ word ++ "'"
  | misplacedOperator symbol => "misplaced operator: '" ++ symbol ++ "'"
  | unopenedParenthesis => "unopened parenthesis"
  | unclosedParenthesis => "unclosed parenthesis"
  | emptyExpression => "empty expression"
  | missingOperator => "missing operator"
  | missingOperand symbol => "bad operand type for operator: '" ++ symbol ++ "'"
  | missingUnaryOperand symbol => "no operand found for unary operator: '" ++ symbol ++ "'"
  | missingArgument function => "bad operand type for function: '" ++ function ++ "'"
  | tangentPole | divisionByZero => "division by zero"
  | exponentTooLarge => "exceeded maximum exponent size"
  | powerNotReal => "non-real result"
  | powerOutOfRange => "result out of range"
  | factorialOfNegative => "factorial of a negative number"
  | factorialOfFraction => "factorial of a non-integer"
  | factorialTooLarge => "exceeded maximum factorial size"
  | squareRootOfNegative => "square root of a negative number"
  | logarithmOfNegative => "logarithm of a negative number"
  | logarithmOfZero => "logarithm of zero"

def report (f : Fault) : Report := ⟨f.kind, f.reason⟩

def label (f : Fault) : String := f.kind.label

end Fault

end Reckoner
