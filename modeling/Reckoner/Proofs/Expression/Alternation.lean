import Reckoner.Expression.WellFormed
import Reckoner.Proofs.Decimal.Faults
import Reckoner.Proofs.Expression.Arrangement
import Reckoner.Proofs.Expression.Traversal

namespace Reckoner

namespace Token

def isBinary : Token → Bool
  | binary _ => true
  | _ => false

/-- How many of the tokens join two operands to one. -/
def joins (ts : List Token) : Nat := ts.countP isBinary

/-- How many of the tokens are open parentheses. -/
def opens (ts : List Token) : Nat := ts.countP isOpenParen

theorem opens_append (a b : List Token) : opens (a ++ b) = opens a + opens b :=
  List.countP_append

theorem joins_cons (x : Token) (ts : List Token) :
    joins (x :: ts) = joins ts + if x.isBinary then 1 else 0 := by
  rw [joins, List.countP_cons, joins]

theorem opens_cons (x : Token) (ts : List Token) :
    opens (x :: ts) = opens ts + if x.isOpenParen then 1 else 0 := by
  rw [opens, List.countP_cons, opens]

theorem opens_dropWhile (waiting : List Token) (t : Token) :
    opens (waiting.dropWhile (releases t)) = opens waiting := by
  have none : opens (waiting.takeWhile (releases t)) = 0 := by
    apply List.countP_eq_zero.2
    intro x hx ho
    have released : releases t x = true := List.all_eq_true.1 List.all_takeWhile _ hx
    cases x with
    | openParen => simp at released
    | _ => contradiction
  have split := opens_append (waiting.takeWhile (releases t)) (waiting.dropWhile (releases t))
  rw [List.takeWhile_append_dropWhile, none, Nat.zero_add] at split
  exact split.symm

/-- The values that stand behind what was released so far: one for each operator that waits for its
right operand, and the operand that is complete. -/
def Place.height (place : Place) (waiting : List Token) : Nat :=
  match place with
  | .operandDue => joins waiting
  | .operandComplete => joins waiting + 1

end Token

open Token

end Reckoner
