import Reckoner.FixedPoint.Series

namespace Reckoner.FixedPoint

/-- The terms 1 / ((2k+1) q^(2k+1)), with alternating signs for the arc tangent of 1 / q. What is
carried is the power of q. -/
def inverseOddPowers (alternating : Bool) (q : Int) (p : Nat) : Series where
  start := q
  term power k :=
    let t := (unit p).tdiv (power * oddFactor k)
    if alternating && k % 2 == 1 then -t else t
  next power _ := power * (q * q)

def arctanInverse (q : Int) (p : Nat) : Int :=
  (inverseOddPowers true q p).sum p

def artanhInverse (q : Int) (p : Nat) : Int :=
  (inverseOddPowers false q p).sum p

def dropGuard (n : Int) : Int :=
  n.tdiv (unit guardDigits)

/-- π with p digits by Machin's formula: π = 16 arctan (1/5) - 4 arctan (1/239). -/
def pi (p : Nat) : Int :=
  let w := withGuard p
  dropGuard (16 * arctanInverse 5 w - 4 * arctanInverse 239 w)

def inverseFactorials (p : Nat) : Series :=
  .ofRatio (unit p) fun t k => t.tdiv (k + 1)

def euler (p : Nat) : Int :=
  let w := withGuard p
  dropGuard ((inverseFactorials w).sum w)

def ln2 (p : Nat) : Int :=
  dropGuard (2 * artanhInverse 3 (withGuard p))

/-- The logarithm of 10 with p digits: three times that of 2 and that of 5/4, which is 2 artanh
(1/9). -/
def ln10 (p : Nat) : Int :=
  let w := withGuard p
  dropGuard (3 * (2 * artanhInverse 3 w) + 2 * artanhInverse 9 w)

end Reckoner.FixedPoint
