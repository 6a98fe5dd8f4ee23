import Reckoner.Expression.Tree

namespace Reckoner

/-- The levels of the infix grammar, the loosest first. -/
inductive Level
  | sum | product | signed | power | applied | closed
  deriving DecidableEq, Repr

/-- The tokens are an expression of the level, and the tree is how they group. Sums and products
group to the left, powers to the right. A sign takes a power with it, and so does the exponent of a
power take a sign. Factorials bind a closed expression before a function or a root does. -/
inductive Derives : Level → List Token → Tree → Prop
  | sum {a b : List Token} {l r : Tree} {op : BinaryOp} (hop : op = .add ∨ op = .sub)
      (hl : Derives .sum a l) (hr : Derives .product b r) :
      Derives .sum (a ++ .binary op :: b) (.binary op l r)
  | ofProduct {a : List Token} {t : Tree} (h : Derives .product a t) : Derives .sum a t
  | product {a b : List Token} {l r : Tree} {op : BinaryOp} (hop : op = .mul ∨ op = .div)
      (hl : Derives .product a l) (hr : Derives .signed b r) :
      Derives .product (a ++ .binary op :: b) (.binary op l r)
  | ofSigned {a : List Token} {t : Tree} (h : Derives .signed a t) : Derives .product a t
  | negate {a : List Token} {t : Tree} (h : Derives .signed a t) :
      Derives .signed (.unary .negate :: a) (.unary .negate t)
  | ofPower {a : List Token} {t : Tree} (h : Derives .power a t) : Derives .signed a t
  | power {a b : List Token} {l r : Tree} (hl : Derives .applied a l) (hr : Derives .signed b r) :
      Derives .power (a ++ .binary .pow :: b) (.binary .pow l r)
  | ofApplied {a : List Token} {t : Tree} (h : Derives .applied a t) : Derives .power a t
  | function {a : List Token} {t : Tree} (f : Function) (h : Derives .applied a t) :
      Derives .applied (.function f :: a) (.function f t)
  | root {a : List Token} {t : Tree} (h : Derives .applied a t) :
      Derives .applied (.unary .root :: a) (.unary .root t)
  | ofClosed {a : List Token} {t : Tree} (h : Derives .closed a t) : Derives .applied a t
  | factorial {a : List Token} {t : Tree} (h : Derives .closed a t) :
      Derives .closed (a ++ [.unary .factorial]) (.unary .factorial t)
  | num (x : Decimal) : Derives .closed [.num x] (.num x)
  | parens {a : List Token} {t : Tree} (h : Derives .sum a t) :
      Derives .closed (.openParen :: (a ++ [.closeParen])) t

end Reckoner
