import Mathlib.Data.Nat.Sqrt
import Mathlib.Tactic.Ring
import Reckoner.Decimal.Elementary
import Reckoner.Proofs.Decimal.Value

namespace Reckoner

namespace Numeric

theorem lowerGuess_eq_iter (n guess : Nat) : lowerGuess n guess = Nat.sqrt.iter n guess := by
  induction guess using Nat.strongRecOn with
  | ind guess ih =>
    rw [lowerGuess, Nat.sqrt.iter]
    split
    · rename_i smaller
      exact ih _ smaller
    · rfl

theorem floorSqrt_eq_sqrt (n : Nat) : floorSqrt n = n.sqrt := by
  rw [floorSqrt, Nat.sqrt, lowerGuess_eq_iter, Nat.one_shiftLeft]
  rfl

theorem le_floorSqrt_iff (m n : Nat) : m ≤ floorSqrt n ↔ m * m ≤ n := by
  rw [floorSqrt_eq_sqrt]
  exact Nat.le_sqrt

end Numeric

namespace Decimal

open Numeric Text

/-- The number whose floored root has the digits of the root, at a number of places. -/
def radicand (x : Decimal) (places : Nat) : Nat :=
  x.mantissa.natAbs * pow10 (2 * places - x.scale)

/-- How many places a root is given before it is rounded to significant digits. -/
def rootPlaces (x : Decimal) (k : Nat) : Nat :=
  (max (k + 2 - x.order.fdiv 2) ((x.scale + 1) / 2 : Nat)).toNat

theorem sqrt_eq_of_ne_zero (x : Decimal) (k : Nat) (hx : x.mantissa ≠ 0) :
    x.sqrt k =
      (mk (floorSqrt (x.radicand (x.rootPlaces k))) (x.rootPlaces k)).roundSignificant k := by
  have nonzero : ¬x.isZero := by rwa [isZero, beq_iff_eq]
  rw [sqrt, if_neg nonzero]
  rfl

theorem le_rootPlaces (x : Decimal) (k : Nat) :
    k + 2 - x.order / 2 ≤ x.rootPlaces k ∧ x.scale ≤ 2 * x.rootPlaces k := by
  rw [rootPlaces, Int.fdiv_eq_ediv_of_nonneg x.order (by decide)]
  omega

end Decimal

end Reckoner
