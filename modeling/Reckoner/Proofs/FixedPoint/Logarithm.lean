import Reckoner.FixedPoint.Logarithm
import Reckoner.Proofs.Decimal.Value

namespace Reckoner.FixedPoint

open Numeric

/-- The leading digits by the number of places that the point is moved. -/
theorem leading_eq (x : Decimal) (p : Nat) (shift : Int) (h : p - x.scale - x.order = shift) :
    leading x p = if 0 ≤ shift then x.mantissa.natAbs * pow10 shift.toNat
      else x.mantissa.natAbs / pow10 (-shift).toNat := by
  subst h
  rfl

variable (x : Decimal) (k : Nat) (hx : x.mantissa ≠ 0)

include hx

theorem leading_pad (p : Nat) : leading (x.pad k) p = leading x p := by
  let shift : Int := p - x.scale - x.order
  have moved : (p : Int) - (x.pad k).scale - (x.pad k).order = shift - k := by
    rw [x.order_pad k hx, Decimal.pad_scale]
    omega
  rw [leading_eq (x.pad k) p _ moved, leading_eq x p shift rfl, x.natAbs_pad]
  -- The zeros are digits to be kept, to be dropped, or first the one and then the other.
  by_cases kept : 0 ≤ shift - k
  · have split : shift.toNat = k + (shift - k).toNat := by omega
    rw [if_pos kept, if_pos (by omega), split, pow10_add, Nat.mul_assoc]
  · rw [if_neg kept]
    by_cases some : 0 ≤ shift
    · have split : k = shift.toNat + (-(shift - k)).toNat := by omega
      have digits : pow10 k = pow10 shift.toNat * pow10 (-(shift - k)).toNat := by
        rw [← pow10_add, ← split]
      rw [if_pos some, digits, ← Nat.mul_assoc, Nat.mul_div_cancel _ (pow10_pos _)]
    · have split : (-(shift - k)).toNat = (-shift).toNat + k := by omega
      rw [if_neg some, split, pow10_add, Nat.mul_div_mul_right _ _ (pow10_pos k)]

theorem ln_pad (p : Nat) : ln (x.pad k) p = ln x p := by
  rw [ln, ln, leading_pad x k hx, x.order_pad k hx]

end Reckoner.FixedPoint
