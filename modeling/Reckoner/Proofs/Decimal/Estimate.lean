import Mathlib.Algebra.Field.Rat
import Reckoner.Decimal.Magnitude
import Reckoner.Proofs.Decimal.Value

namespace Reckoner

namespace Numeric

theorem binaryOrder_one (n : Nat) (hn : 0 < n) : binaryOrder n 1 = n.log2 := by
  have order : (n.log2 : Int) - Nat.log2 1 = n.log2 := Int.sub_zero _
  have zero : (-(n.log2 : Int)).toNat = 0 := by omega
  have low : 1 * pow2 n.log2 ≤ n * pow2 0 := by
    simpa [pow2] using Nat.log2_self_le (Nat.ne_of_gt hn)
  rw [binaryOrder, order, zero, Int.toNat_natCast, if_pos low]

/-- A natural number that has few enough binary digits is not rounded. -/
theorem roundBinary_natCast (bits n : Nat) (h : n < pow2 bits) :
    roundBinary bits (n : Rat) = n := by
  rcases Nat.eq_zero_or_pos n with rfl | hn
  · simp [roundBinary]
  have few : n.log2 < bits := (Nat.log2_lt (Nat.ne_of_gt hn)).2 h
  let spare := bits - 1 - n.log2
  have place : (n.log2 : Int) - bits + 1 = -(spare : Int) := by omega
  have sign : (n : Int).sign = 1 := Int.sign_eq_one_of_pos (by omega)
  have zero : (-(spare : Int)).toNat = 0 := by omega
  have exact : halfEven (n * pow2 spare) (1 * pow2 0) = n * pow2 spare := by
    simp [halfEven, pow2, Nat.mod_one]
  simp only [roundBinary, Rat.num_natCast, Rat.den_natCast, Int.natAbs_natCast,
    binaryOrder_one n hn, place, Int.neg_neg, zero, Int.toNat_natCast, sign, exact, Int.one_mul]
  rw [show pow2 0 = 1 from rfl, Nat.mul_one, Int.natCast_mul]
  have scaled := Rat.mkRat_mul_right (n := n) (d := 1) (Nat.ne_of_gt (pow2_pos spare))
  rw [Nat.one_mul, Rat.mkRat_one] at scaled
  exact scaled

end Numeric

namespace Decimal

open Numeric Text

theorem lead_of_short (x : Decimal) (h : x.mantissa.natAbs < pow2 53) :
    x.lead = toBinary64 (x.mantissa.natAbs / pow10 (x.digitCount - 1)) := by
  have few : (digits x.mantissa.natAbs).length ≤ leadDigits := by
    apply (digitCount_le_iff (by decide)).2
    exact Nat.lt_trans h (by decide)
  have whole : toBinary64 x.mantissa.natAbs = x.mantissa.natAbs := roundBinary_natCast 53 _ h
  rw [lead, List.take_of_length_le few, digitsValue_digits, whole]
  rfl

section Pad

variable (x : Decimal) (k : Nat) (hx : x.mantissa ≠ 0)

include hx

/-- Zeros do not change the leading digits if they stand behind all that are looked at, or if the
digits with them are still one number of 53 binary digits. -/
theorem lead_pad (h : leadDigits ≤ x.digitCount ∨ (x.pad k).mantissa.natAbs < pow2 53) :
    (x.pad k).lead = x.lead := by
  have pos : 0 < x.mantissa.natAbs := Int.natAbs_pos.2 hx
  rcases h with long | short
  · have head : (digits (x.pad k).mantissa.natAbs).take leadDigits =
        (digits x.mantissa.natAbs).take leadDigits := by
      rw [natAbs_pad, digits_mul_pow10 _ k pos, List.take_append_of_le_length long]
    rw [lead, lead, head]
  · have grown : x.mantissa.natAbs ≤ (x.pad k).mantissa.natAbs := by
      rw [natAbs_pad]
      exact Nat.le_mul_of_pos_right _ (pow10_pos k)
    have first : 0 < x.digitCount := digitCount_pos _
    have count : x.digitCount + k - 1 = x.digitCount - 1 + k := by omega
    have nonzero : (pow10 k : Rat) ≠ 0 := by exact_mod_cast Nat.ne_of_gt (pow10_pos k)
    rw [lead_of_short _ short, x.lead_of_short (Nat.lt_of_le_of_lt grown short), natAbs_pad,
      x.digitCount_pad k hx, count, pow10_add, Rat.natCast_mul, Rat.natCast_mul,
      mul_div_mul_right _ _ nonzero]

end Pad

/-- Two mantissas that both have as many digits as are looked at, or are both numbers of 53 binary
digits. -/
def LeadsAlike (x y : Decimal) : Prop :=
  leadDigits ≤ x.digitCount ∧ leadDigits ≤ y.digitCount ∨
    x.mantissa.natAbs < pow2 53 ∧ y.mantissa.natAbs < pow2 53

instance : DecidableRel LeadsAlike := fun _ _ => inferInstanceAs (Decidable (_ ∨ _))

section SameValue

variable {x y : Decimal} (h : x.sameValue y) (hx : x.mantissa ≠ 0) (alike : LeadsAlike x y)

include h hx alike

theorem lead_congr : x.lead = y.lead := by
  rcases Nat.le_total x.scale y.scale with hs | hs
  · rw [pad_of_scale_le h hs] at alike ⊢
    exact (x.lead_pad _ hx (alike.imp And.left And.right)).symm
  · have hy : y.mantissa ≠ 0 := by
      rw [pad_of_scale_le (sameValue_symm h) hs, pad_mantissa] at hx
      exact fun zero => hx ((mul_pow10_eq_zero _ _).2 zero)
    rw [pad_of_scale_le (sameValue_symm h) hs] at alike ⊢
    exact y.lead_pad _ hy (alike.imp And.right And.left)

theorem log10Estimate_congr : x.log10Estimate = y.log10Estimate := by
  have order := eq_of_pad_of_ne_zero h hx order fun x k hx => x.order_pad k hx
  rw [log10Estimate, log10Estimate, lead_congr h hx alike, order]

theorem estimate_congr : x.estimate = y.estimate := by
  rw [estimate, estimate, eq_of_pad h isZero isZero_pad, eq_of_pad h isNegative isNegative_pad,
    log10Estimate_congr h hx alike]

end SameValue

end Decimal

end Reckoner
