import Reckoner.Numeric.Powers
import Reckoner.Numeric.Word

namespace Reckoner.FixedPoint

/-- Digits that a computation carries beyond those asked for. They are cut off at the end and take
the error of the cut quotients with them. -/
def guardDigits : Nat := 10

/-- The digits asked for and the guard digits. They are counted in a word, which has no room for the
guard digits of the largest counts. -/
def withGuard (p : Nat) : Nat := Numeric.toWord (p + guardDigits)

theorem withGuard_of_lt {p : Nat} (h : p + guardDigits < Numeric.wordSize) :
    withGuard p = p + guardDigits :=
  Numeric.toWord_of_lt h

/-- The odd number 2k + 1. It is counted in a word too, and is odd even where it has started over,
so that it is never zero. -/
def oddFactor (k : Nat) : Nat := Numeric.toWord (2 * k + 1)

theorem oddFactor_of_lt {k : Nat} (h : 2 * k + 1 < Numeric.wordSize) : oddFactor k = 2 * k + 1 :=
  Numeric.toWord_of_lt h

theorem cast_oddFactor {k : Nat} (h : 2 * k + 1 < Numeric.wordSize) :
    (oddFactor k : Int) = 2 * k + 1 := by
  rw [oddFactor_of_lt h]
  rfl

theorem oddFactor_pos (k : Nat) : 0 < oddFactor k := by
  rw [oddFactor, Numeric.toWord, Numeric.wordSize]
  omega

/-- The fixed-point form of 1 with p digits behind the point. -/
def unit (p : Nat) : Int := Numeric.pow10 p

/-- A series by recurrence: an integer is carried from term to term, and each term is read off it.
-/
structure Series where
  start : Int
  term : Int → Nat → Int
  next : Int → Nat → Int

namespace Series

def carried (s : Series) : Nat → Int
  | 0 => s.start
  | k + 1 => s.next (s.carried k) k

/-- The terms from index k on, up to the first that is zero and at most as many as the limit. -/
def termsFrom (s : Series) : (limit : Nat) → (carry : Int) → (k : Nat) → List Int
  | 0, _, _ => []
  | limit + 1, carry, k =>
    let t := s.term carry k
    if t = 0 then [] else t :: s.termsFrom limit (s.next carry k) (k + 1)

/-- The terms that count in fixed point with p digits. All series here vanish at p digits long
before the limit is reached. -/
def terms (s : Series) (p : Nat) : List Int :=
  s.termsFrom (2 * p + 64) s.start 0

def sum (s : Series) (p : Nat) : Int :=
  (s.terms p).foldr (· + ·) 0

end Series

/-- A series whose terms are themselves carried: each is a cut multiple of the one before. -/
def Series.ofRatio (first : Int) (next : Int → Nat → Int) : Series :=
  ⟨first, fun t _ => t, next⟩

end Reckoner.FixedPoint
