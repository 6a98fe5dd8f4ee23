import Mathlib.Data.Rat.Cast.Order
import Mathlib.Tactic.FieldSimp
import Mathlib.Tactic.Positivity
import Mathlib.Tactic.Ring
import Reckoner.Proofs.Decimal.Value
import Reckoner.Proofs.Numeric.Rounding

namespace Reckoner

namespace Decimal

open Numeric

theorem toRat_eq_div (x : Decimal) : x.toRat = x.mantissa / 10 ^ x.scale := by
  rw [toRat, Rat.mkRat_eq_div, cast_pow10]

/-- At a scale that is not below its own, a number is its mantissa less the places. -/
theorem mantissaAt_eq (x : Decimal) (scale : Nat) (hs : x.scale ≤ scale) :
    (x.mantissaAt scale : Rat) = x.toRat * 10 ^ scale := by
  have split : (10 : Rat) ^ scale = 10 ^ (scale - x.scale) * 10 ^ x.scale := by
    rw [← pow_add, Nat.sub_add_cancel hs]
  rw [mantissaAt, toRat_eq_div, split]
  push_cast
  rw [cast_pow10]
  field_simp

theorem toRat_neg (x : Decimal) : (-x).toRat = -x.toRat := by
  rw [toRat_eq_div, toRat_eq_div, neg_mantissa, neg_scale, Int.cast_neg, neg_div]

theorem toRat_add (x y : Decimal) : (x + y).toRat = x.toRat + y.toRat := by
  let scale := max x.scale y.scale
  have left := x.mantissaAt_eq scale (Nat.le_max_left _ _)
  have right := y.mantissaAt_eq scale (Nat.le_max_right _ _)
  have sum : (x + y).toRat = (x.mantissaAt scale + y.mantissaAt scale : Int) / 10 ^ scale :=
    toRat_eq_div (x + y)
  rw [sum, Int.cast_add, left, right, ← add_mul, mul_div_cancel_right₀ _ (by positivity)]

theorem toRat_natPow (x : Decimal) (n : Nat) (room : x.scale * n < wordSize) :
    (x.natPow n).toRat = x.toRat ^ n := by
  have scale : (x.natPow n).scale = x.scale * n := toWord_of_lt room
  have power : (x.natPow n).mantissa = x.mantissa ^ n := rfl
  have value : (x.natPow n).toRat = (x.mantissa ^ n : Int) / 10 ^ (x.scale * n) := by
    rw [toRat_eq_div, scale, power]
  rw [value, toRat_eq_div, Int.cast_pow, pow_mul, div_pow]

theorem compare_gt_iff {x y : Decimal} : x.compare y = .gt ↔ y.toRat < x.toRat := by
  let scale := max x.scale y.scale
  have left := x.mantissaAt_eq scale (Nat.le_max_left _ _)
  have right := y.mantissaAt_eq scale (Nat.le_max_right _ _)
  have places : (0 : Rat) < 10 ^ scale := by positivity
  have order : x.compare y = .gt ↔ y.mantissaAt scale < x.mantissaAt scale := compare_gt_iff_gt
  rw [order, ← mul_lt_mul_iff_left₀ places, ← left, ← right, Int.cast_lt]

theorem sameValue_iff_toRat {x y : Decimal} : x.sameValue y ↔ x.toRat = y.toRat := by
  let scale := max x.scale y.scale
  have left := x.mantissaAt_eq scale (Nat.le_max_left _ _)
  have right := y.mantissaAt_eq scale (Nat.le_max_right _ _)
  have places : (10 : Rat) ^ scale ≠ 0 := by positivity
  rw [sameValue_iff]
  change x.mantissaAt scale = y.mantissaAt scale ↔ _
  rw [← mul_left_inj' places, ← left, ← right, Int.cast_inj]

theorem isOne_iff {x : Decimal} : x.isOne ↔ x.toRat = 1 := by
  have one : Decimal.one.toRat = 1 := by
    rw [toRat_eq_div]
    norm_num [Decimal.one]
  rw [isOne, sameValue_iff_toRat, one]

theorem isZero_iff {x : Decimal} : x.isZero ↔ x.toRat = 0 := by
  have places : (10 : Rat) ^ x.scale ≠ 0 := by positivity
  rw [toRat_eq_div, div_eq_zero_iff, or_iff_left places, isZero, beq_iff_eq]
  exact Int.cast_eq_zero.symm

theorem isNegative_iff {x : Decimal} : x.isNegative ↔ x.toRat < 0 := by
  have places : (0 : Rat) < 10 ^ x.scale := by positivity
  rw [toRat_eq_div, div_lt_iff₀ places, zero_mul, isNegative, decide_eq_true_iff]
  exact Int.cast_lt_zero.symm

section Integral

variable (x : Decimal) (n : Int) (hn : x.toRat = n)

include hn

/-- A number that is an integer has it as its mantissa, but for the places behind the point. -/
theorem mantissa_of_integral : x.mantissa = n * pow10 x.scale := by
  have places : (10 : Rat) ^ x.scale ≠ 0 := by positivity
  rw [toRat_eq_div, div_eq_iff places] at hn
  have cast : (x.mantissa : Rat) = ((n * pow10 x.scale : Int) : Rat) := by
    push_cast
    rw [cast_pow10, hn]
  exact_mod_cast cast

theorem isInteger_of_integral : x.isInteger = true := by
  rw [isInteger, mantissa_of_integral x n hn, Int.mul_tmod_left]
  rfl

theorem truncate_of_integral : x.truncate = n := by
  have positive : (pow10 x.scale : Int) ≠ 0 := (pow10_cast_pos x.scale).ne'
  rw [truncate, mantissa_of_integral x n hn, Int.mul_tdiv_cancel _ positive]

end Integral

theorem toRat_of_isInteger (x : Decimal) (h : x.isInteger) : x.toRat = x.truncate := by
  have whole : x.mantissa = x.truncate * pow10 x.scale :=
    (Int.tdiv_mul_cancel (Int.dvd_of_tmod_eq_zero (beq_iff_eq.1 h))).symm
  have places : (10 : Rat) ^ x.scale ≠ 0 := by positivity
  rw [toRat_eq_div, div_eq_iff places, whole]
  push_cast
  rw [cast_pow10]

section Residue

variable (x : Decimal) (divisor : Int) (hd : 0 < divisor)

include hd

/-- Moving a negative remainder up by one divisor gives the remainder that is never negative. -/
theorem residue_mantissa :
    (x.residue divisor).mantissa = x.mantissa % (divisor * pow10 x.scale) := by
  have pos : 0 < divisor * pow10 x.scale := Int.mul_pos hd (pow10_cast_pos _)
  have range := Int.emod_nonneg x.mantissa pos.ne'
  have below := Int.emod_lt_of_pos x.mantissa pos
  rw [residue]
  dsimp only
  rw [Int.tmod_eq_emod]
  split <;> split <;> omega

/-- What is taken off is a whole number of divisors. -/
theorem exists_eq_residue_add :
    ∃ turns : Int, x.toRat = (x.residue divisor).toRat + divisor * turns := by
  obtain ⟨turns, hturns⟩ : ∃ turns, turns = x.mantissa / (divisor * pow10 x.scale) := ⟨_, rfl⟩
  have split := Int.emod_add_mul_ediv x.mantissa (divisor * pow10 x.scale)
  rw [← x.residue_mantissa divisor hd, ← hturns] at split
  have places : (x.residue divisor).scale = x.scale := rfl
  refine ⟨turns, ?_⟩
  rw [toRat_eq_div, toRat_eq_div, places, ← split]
  push_cast
  rw [cast_pow10]
  field_simp

theorem residue_bounds : 0 ≤ (x.residue divisor).toRat ∧ (x.residue divisor).toRat < divisor := by
  have pos : 0 < divisor * pow10 x.scale := Int.mul_pos hd (pow10_cast_pos _)
  have low := Int.emod_nonneg x.mantissa pos.ne'
  have high := Int.emod_lt_of_pos x.mantissa pos
  rw [← x.residue_mantissa divisor hd] at low high
  have places : (x.residue divisor).scale = x.scale := rfl
  have least : (0 : Rat) ≤ (x.residue divisor).mantissa := by exact_mod_cast low
  have most : ((x.residue divisor).mantissa : Rat) < divisor * 10 ^ x.scale := by
    rw [← cast_pow10]
    exact_mod_cast high
  rw [toRat_eq_div, places]
  constructor
  · positivity
  · rwa [div_lt_iff₀ (by positivity)]

/-- Numbers that differ by whole divisors have one remainder. -/
theorem toRat_residue_of_multiple (y : Decimal) (times : Int)
    (h : y.toRat = x.toRat + divisor * times) :
    (y.residue divisor).toRat = (x.residue divisor).toRat := by
  obtain ⟨i, hi⟩ := x.exists_eq_residue_add divisor hd
  obtain ⟨j, hj⟩ := y.exists_eq_residue_add divisor hd
  obtain ⟨low, high⟩ := x.residue_bounds divisor hd
  obtain ⟨low', high'⟩ := y.residue_bounds divisor hd
  have pos : (0 : Rat) < divisor := Int.cast_pos.2 hd
  have apart : (y.residue divisor).toRat - (x.residue divisor).toRat =
      ((i + times - j : Int) : Rat) * divisor := by
    push_cast
    linarith
  -- The two lie less than one divisor apart, so there is no multiple of it between them.
  have none : i + times - j = 0 := by
    have below : ((i + times - j : Int) : Rat) * divisor < 1 * divisor := by linarith
    have above : -1 * divisor < ((i + times - j : Int) : Rat) * divisor := by linarith
    have less := lt_of_mul_lt_mul_right below pos.le
    have more := lt_of_mul_lt_mul_right above pos.le
    norm_cast at less more
    omega
  rw [none, Int.cast_zero, zero_mul] at apart
  exact sub_eq_zero.1 apart

end Residue

/-- A number that is not negative is cut by less than one unit of the last place. -/
theorem toFixed_bounds (x : Decimal) (p : Nat) (hx : 0 ≤ x.toRat) :
    0 ≤ x.toFixed p ∧ (x.toFixed p : Rat) ≤ 10 ^ p * x.toRat ∧
      10 ^ p * x.toRat < x.toFixed p + 1 := by
  have natural : 0 ≤ x.mantissa := by
    by_contra negative
    have below := isNegative_iff.1 (decide_eq_true (Int.not_le.1 negative))
    linarith
  rw [toFixed]
  split
  · rename_i kept
    rw [x.mantissaAt_eq p kept, mul_comm]
    refine ⟨Int.mul_nonneg natural (Int.natCast_nonneg _), le_refl _, lt_add_one _⟩
  · rename_i dropped
    have pos := pow10_cast_pos (x.scale - p)
    have split : x.scale = x.scale - p + p := by omega
    have quotient : 10 ^ p * x.toRat = (x.mantissa : Rat) / (pow10 (x.scale - p) : Int) := by
      rw [toRat_eq_div, split, Nat.add_sub_cancel, pow_add]
      push_cast
      rw [cast_pow10]
      field_simp
    rw [quotient]
    exact ⟨Int.tdiv_nonneg natural pos.le, tdiv_le_div _ _ natural pos,
      div_lt_tdiv_add_one _ _ pos⟩

end Decimal

end Reckoner
