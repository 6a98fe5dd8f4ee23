import Mathlib.Algebra.Order.Field.Power
import Mathlib.Data.Rat.Cast.Order
import Mathlib.Data.Real.Basic
import Reckoner.Decimal.Rounding
import Reckoner.Proofs.Decimal.Arithmetic

namespace Reckoner.Decimal

open Numeric

theorem abs_toRat (x : Decimal) : |x.toRat| = x.mantissa.natAbs / 10 ^ x.scale := by
  rw [toRat_eq_div, abs_div, abs_of_pos (by positivity : (0 : Rat) < 10 ^ x.scale), ← Int.cast_abs,
    Int.abs_eq_natAbs, Int.cast_natCast]

theorem toRat_abs (x : Decimal) : x.abs.toRat = |x.toRat| := by
  rw [abs_toRat, toRat_eq_div]
  simp [Decimal.abs]

theorem toRat_ne_zero {x : Decimal} (hx : x.mantissa ≠ 0) : x.toRat ≠ 0 := by
  rw [toRat_eq_div]
  positivity

theorem mantissa_ne_zero {x : Decimal} (h : x.toRat ≠ 0) : x.mantissa ≠ 0 := by
  intro zero
  rw [toRat_eq_div, zero, Int.cast_zero, zero_div] at h
  exact h rfl

/-- The order is the exponent of the leading digit. -/
theorem pow_order_le (x : Decimal) (hx : x.mantissa ≠ 0) : (10 : Rat) ^ x.order ≤ |x.toRat| := by
  have pos : 0 < x.mantissa.natAbs := Int.natAbs_pos.2 hx
  have first : 0 < x.digitCount := Text.digitCount_pos _
  have low : (10 : Rat) ^ (x.digitCount - 1) ≤ x.mantissa.natAbs := by
    have bound : pow10 (x.digitCount - 1) ≤ x.mantissa.natAbs := Text.pow10_digitCount_le pos
    exact_mod_cast bound
  have split : x.order = ((x.digitCount - 1 : Nat) : Int) - x.scale := by
    rw [order]
    omega
  rw [abs_toRat, split, zpow_sub₀ (by norm_num), zpow_natCast, zpow_natCast]
  gcongr

theorem lt_pow_order (x : Decimal) : |x.toRat| < (10 : Rat) ^ (x.order + 1) := by
  have high : (x.mantissa.natAbs : Rat) < 10 ^ x.digitCount := by
    have bound : x.mantissa.natAbs < pow10 x.digitCount := Text.lt_pow10_digitCount _
    exact_mod_cast bound
  have split : x.order + 1 = (x.digitCount : Int) - x.scale := by
    rw [order]
    omega
  rw [abs_toRat, split, zpow_sub₀ (by norm_num), zpow_natCast, zpow_natCast]
  gcongr

/-- The order of a number in the reals, where the exact values of powers are. -/
theorem zpow_order_le (x : Decimal) (hx : x.mantissa ≠ 0) :
    (10 : ℝ) ^ x.order ≤ |(x.toRat : ℝ)| := by
  have cast := (Rat.cast_le (K := ℝ)).2 (x.pow_order_le hx)
  push_cast at cast
  exact cast

theorem lt_zpow_order (x : Decimal) : |(x.toRat : ℝ)| < (10 : ℝ) ^ (x.order + 1) := by
  have cast := (Rat.cast_lt (K := ℝ)).2 x.lt_pow_order
  push_cast at cast
  exact cast

theorem order_lt (x : Decimal) (hx : x.mantissa ≠ 0) (k : Int) (h : |(x.toRat : ℝ)| < 10 ^ k) :
    x.order < k :=
  (zpow_lt_zpow_iff_right₀ (by norm_num)).1 ((x.zpow_order_le hx).trans_lt h)

theorem le_order (x : Decimal) (k : Int) (h : 10 ^ k ≤ |(x.toRat : ℝ)|) : k ≤ x.order := by
  have next := (zpow_lt_zpow_iff_right₀ (by norm_num)).1 (h.trans_lt x.lt_zpow_order)
  omega

/-- What rounding to significant digits keeps is a multiple of the last digit kept. -/
theorem toRat_roundSignificant (x : Decimal) (k : Nat) (hx : x.mantissa ≠ 0)
    (hk : k < x.digitCount) :
    (x.roundSignificant k).toRat =
      (halfAway x.mantissa (pow10 (x.digitCount - k)) : Int) * 10 ^ (x.order - k + 1) := by
  let dropped := x.digitCount - k
  let m := halfAway x.mantissa (pow10 dropped)
  have changes : ¬(x.isZero ∨ x.digitCount ≤ k) := by
    rw [isZero, beq_iff_eq]
    omega
  have place : x.order - k + 1 = (dropped : Int) - x.scale := by
    rw [order]
    omega
  rw [roundSignificant, if_neg changes, place]
  change (if dropped ≤ x.scale then mk m (x.scale - dropped)
    else mk (m * pow10 (dropped - x.scale)) 0).toRat = (m : Rat) * _
  split
  · rename_i within
    have split : (dropped : Int) - x.scale = -((x.scale - dropped : Nat) : Int) := by omega
    rw [toRat_eq_div, split, zpow_neg, zpow_natCast, div_eq_mul_inv]
  · rename_i beyond
    have split : (dropped : Int) - x.scale = ((dropped - x.scale : Nat) : Int) := by omega
    rw [toRat_eq_div, split, zpow_natCast]
    push_cast
    rw [cast_pow10, pow_zero, div_one]

/-- Rounding to significant digits finds the nearest multiple of the last digit kept. -/
theorem exists_nearest_roundSignificant (x : Decimal) (k : Nat) (hx : x.mantissa ≠ 0) :
    ∃ n : Int, (x.roundSignificant k).toRat = n * 10 ^ (x.order - k + 1) ∧
      Nearest n (x.toRat / 10 ^ (x.order - k + 1)) := by
  by_cases hk : k < x.digitCount
  · let dropped := x.digitCount - k
    have place : x.order - k + 1 = (dropped : Int) - x.scale := by
      rw [order]
      omega
    have quotient : x.toRat / 10 ^ (x.order - k + 1) = x.mantissa / (pow10 dropped : Nat) := by
      rw [toRat_eq_div, place, zpow_sub₀ (by norm_num), zpow_natCast, zpow_natCast, cast_pow10]
      field_simp
    refine ⟨_, x.toRat_roundSignificant k hx hk, ?_⟩
    rw [quotient]
    exact nearest_halfAway x.mantissa (pow10 dropped) (pow10_pos _)
  · have same : x.roundSignificant k = x := if_pos (.inr (Nat.le_of_not_lt hk))
    have place : x.order - k + 1 = -(x.scale : Int) - (k - x.digitCount : Nat) := by
      rw [order]
      omega
    have whole : x.toRat / 10 ^ (x.order - k + 1) =
        (x.mantissa * pow10 (k - x.digitCount) : Int) := by
      rw [toRat_eq_div, place, zpow_sub₀ (by norm_num), zpow_neg, zpow_natCast, zpow_natCast]
      push_cast
      rw [cast_pow10]
      field_simp
    refine ⟨x.mantissa * pow10 (k - x.digitCount), ?_, ?_⟩
    · rw [same, ← whole, div_mul_cancel₀ _ (by positivity)]
    · rw [whole]
      exact nearest_intCast _

/-- Rounding to significant digits moves a number by at most a half of the last one. -/
theorem abs_toRat_sub_roundSignificant_le (x : Decimal) (k : Nat) (hx : x.mantissa ≠ 0) :
    |x.toRat - (x.roundSignificant k).toRat| ≤ 10 ^ (x.order - k + 1) / 2 := by
  have unit : (0 : Rat) < 10 ^ (x.order - k + 1) := by positivity
  obtain ⟨n, value, nearest⟩ := x.exists_nearest_roundSignificant k hx
  have scaled : x.toRat - n * 10 ^ (x.order - k + 1) =
      (x.toRat / 10 ^ (x.order - k + 1) - n) * 10 ^ (x.order - k + 1) := by
    field_simp
  rw [value, scaled, abs_mul, abs_of_pos unit]
  calc
    _ ≤ 1 / 2 * (10 : Rat) ^ (x.order - k + 1) := mul_le_mul_of_nonneg_right nearest.near unit.le
    _ = _ := by ring

/-- The order may be taken one too small for a power of ten, which is not rounded. -/
theorem exists_nearest_of_bounds (x : Decimal) (k : Nat) (order : Int) (hk : 0 < k)
    (low : 10 ^ order ≤ |x.toRat|) (high : |x.toRat| ≤ 10 ^ (order + 1)) :
    ∃ n : Int, (x.roundSignificant k).toRat = n * 10 ^ (order - k + 1) ∧
      Nearest n (x.toRat / 10 ^ (order - k + 1)) := by
  have ten : (1 : Rat) < 10 := by norm_num
  have hx : x.mantissa ≠ 0 := by
    apply mantissa_ne_zero
    intro zero
    rw [zero, abs_zero] at low
    have pos : (0 : Rat) < 10 ^ order := by positivity
    linarith
  have least : order ≤ x.order := by
    have := (zpow_lt_zpow_iff_right₀ ten).1 (low.trans_lt x.lt_pow_order)
    omega
  have most : x.order ≤ order + 1 :=
    (zpow_le_zpow_iff_right₀ ten).1 ((x.pow_order_le hx).trans high)
  obtain ⟨n, value, nearest⟩ := x.exists_nearest_roundSignificant k hx
  rcases eq_or_lt_of_le least with same | above
  · rw [same]
    exact ⟨n, value, nearest⟩
  · have next : x.order = order + 1 := by omega
    have power : |x.toRat| = 10 ^ (order + 1) := by
      refine le_antisymm high ?_
      rw [← next]
      exact x.pow_order_le hx
    obtain ⟨sign, signed⟩ : ∃ sign : Int, x.toRat = sign * 10 ^ (order + 1) := by
      rcases abs_choice x.toRat with positive | negative
      · exact ⟨1, by rw [← power, positive, Int.cast_one, one_mul]⟩
      · exact ⟨-1, by rw [← power, negative, Int.cast_neg, Int.cast_one, neg_one_mul, neg_neg]⟩
    have multiple (j : Nat) (unit : Int) (h : order + 1 = j + unit) :
        x.toRat / 10 ^ unit = (sign * 10 ^ j : Int) := by
      rw [signed, h, zpow_add₀ (by norm_num), zpow_natCast]
      push_cast
      field_simp
    have coarse := multiple (k - 1) (x.order - k + 1) (by omega)
    have fine := multiple k (order - k + 1) (by omega)
    rw [coarse] at nearest
    refine ⟨sign * 10 ^ k, ?_, ?_⟩
    · rw [value, nearest.unique (nearest_intCast _), ← coarse, ← fine,
        div_mul_cancel₀ _ (by positivity), div_mul_cancel₀ _ (by positivity)]
    · rw [fine]
      exact nearest_intCast _

/-- With a place behind the last digit kept, that digit counts an even number of the last place. -/
theorem exists_nearest_mantissa (x : Decimal) (k : Nat) (order : Int) (hk : 0 < k)
    (low : 10 ^ order ≤ |x.toRat|) (high : |x.toRat| ≤ 10 ^ (order + 1))
    (behind : 0 < order - k + 1 + x.scale) :
    ∃ (n : Int) (half : Nat), 0 < half ∧ (2 * half : Rat) = 10 ^ (order - k + 1) * 10 ^ x.scale ∧
      (x.roundSignificant k).toRat = n * 10 ^ (order - k + 1) ∧
      Nearest n ((x.mantissa : Rat) / (2 * half)) := by
  obtain ⟨half, some, hhalf⟩ := exists_half (K := Rat) (order - k + 1) x.scale behind
  obtain ⟨n, value, nearest⟩ := x.exists_nearest_of_bounds k order hk low high
  refine ⟨n, half, some, hhalf, value, ?_⟩
  rw [toRat_eq_div, div_div, mul_comm, ← hhalf] at nearest
  exact nearest

/-- The same bound as for the exact value, in the reals. -/
theorem abs_sub_roundSignificant_le (x : Decimal) (k : Nat) (hx : x.mantissa ≠ 0) :
    |(x.toRat : ℝ) - (x.roundSignificant k).toRat| ≤ 10 ^ (x.order - k + 1) / 2 := by
  have cast := (Rat.cast_le (K := ℝ)).2 (x.abs_toRat_sub_roundSignificant_le k hx)
  push_cast at cast
  exact cast

theorem abs_sub_roundSignificant_le_of_order_le (x : Decimal) (k : Nat) (order : Int)
    (hx : x.mantissa ≠ 0) (h : x.order ≤ order) :
    |(x.toRat : ℝ) - (x.roundSignificant k).toRat| ≤ 10 ^ (order - k + 1) / 2 := by
  have half := abs_sub_roundSignificant_le x k hx
  have unit : (10 : ℝ) ^ (x.order - k + 1) ≤ 10 ^ (order - k + 1) :=
    zpow_le_zpow_right₀ (by norm_num) (by omega)
  linarith

/-- A multiple of the last digit kept is what is rounded where it is less than half of it away. -/
theorem toRat_roundSignificant_of_near (x : Decimal) (k : Nat) (hx : x.mantissa ≠ 0)
    (hk : k < x.digitCount) (n : Int)
    (near : |(x.toRat : ℝ) - n * 10 ^ (x.order - k + 1)| < 10 ^ (x.order - k + 1) / 2) :
    ((x.roundSignificant k).toRat : ℝ) = n * 10 ^ (x.order - k + 1) := by
  have value : ((x.roundSignificant k).toRat : ℝ) =
      (halfAway x.mantissa (pow10 (x.digitCount - k)) : Int) * 10 ^ (x.order - k + 1) := by
    rw [x.toRat_roundSignificant k hx hk]
    push_cast
    rfl
  have half := abs_sub_roundSignificant_le x k hx
  rw [value] at half ⊢
  rw [eq_of_near_multiples _ n _ _ (by positivity) half near]

section RoundSignificant

variable (x : Decimal) (k : Nat) (order : Int) (value : ℝ) (high : value < 10 ^ (order + 1))
  (near : 2 * 10 ^ k * |(x.toRat : ℝ) - value| ≤ value)

include high near

/-- The error in front of the rounding is below half a unit of the last digit. -/
theorem error_lt_half : |(x.toRat : ℝ) - value| < 10 ^ (order - k + 1) / 2 := by
  have power : (0 : ℝ) < 10 ^ k := by positivity
  have unit : (10 : ℝ) ^ k * 10 ^ (order - k + 1) = 10 ^ (order + 1) := by
    rw [← zpow_natCast, ← zpow_add₀ (by norm_num)]
    congr 1
    omega
  have scaled : 10 ^ k * (2 * |(x.toRat : ℝ) - value|) < 10 ^ k * 10 ^ (order - k + 1) := by
    rw [unit]
    linarith
  have bound := lt_of_mul_lt_mul_left scaled power.le
  linarith

variable (hk : 0 < k)

include hk

/-- A value just below a power of ten may be approached from above it, where the last digit weighs
ten times as much. What is rounded there is the power of ten itself, which is nearer to the value. -/
theorem roundSignificant_of_carry (hx : x.mantissa ≠ 0) (positive : 0 < (x.toRat : ℝ))
    (carried : order < x.order) :
    |((x.roundSignificant k).toRat : ℝ) - value| ≤ |(x.toRat : ℝ) - value| := by
  have ten : (10 : ℝ) ≠ 0 := by norm_num
  let U : ℝ := 10 ^ (order - k + 1)
  have unit : 0 < U := by positivity
  have error := abs_lt.1 (error_lt_half x k order value high near)
  have small : U ≤ 10 ^ (order + 1) := zpow_le_zpow_right₀ (by norm_num) (by omega)
  have above : (10 : ℝ) ^ (order + 1) ≤ x.toRat := by
    have first := x.zpow_order_le hx
    rw [abs_of_pos positive] at first
    exact (zpow_le_zpow_right₀ (by norm_num) (by omega)).trans first
  have same : x.order = order + 1 := by
    have next : (10 : ℝ) ^ (order + 2) = 10 * 10 ^ (order + 1) := by
      rw [← zpow_one_add₀ ten]
      congr 1
      omega
    have bound := x.order_lt hx (order + 2) (by rw [abs_of_pos positive]; linarith)
    omega
  by_cases dropped : k < x.digitCount
  · have next : (10 : ℝ) ^ (x.order - k + 1) = 10 * U := by
      rw [← zpow_one_add₀ ten, same]
      congr 1
      omega
    have target : (10 : ℝ) ^ (order + 1) =
        ((10 ^ (k - 1) : Nat) : Int) * 10 ^ (x.order - k + 1) := by
      have exponent : order + 1 = ((k - 1 : Nat) : Int) + (x.order - k + 1) := by omega
      rw [exponent, zpow_add₀ ten, zpow_natCast]
      push_cast
      rfl
    have rounded := x.toRat_roundSignificant_of_near k hx dropped (10 ^ (k - 1) : Nat) (by
      rw [← target, next, abs_lt]
      constructor <;> linarith)
    rw [rounded, ← target, abs_of_pos (by linarith), abs_of_pos (by linarith)]
    linarith
  · have whole : x.roundSignificant k = x := if_pos (.inr (Nat.le_of_not_lt dropped))
    rw [whole]

/-- Rounding adds at most half a unit to the error in front of it, also where it carries. -/
theorem abs_roundSignificant_sub_le (low : 10 ^ order ≤ value) :
    |((x.roundSignificant k).toRat : ℝ) - value| ≤
      10 ^ (order - k + 1) / 2 + |(x.toRat : ℝ) - value| := by
  have bounds := abs_lt.1 (error_lt_half x k order value high near)
  have unit : (0 : ℝ) < 10 ^ (order - k + 1) := by positivity
  have positive : 0 < (x.toRat : ℝ) := by
    have small : (10 : ℝ) ^ (order - k + 1) ≤ 10 ^ order :=
      zpow_le_zpow_right₀ (by norm_num) (by omega)
    have pos : (0 : ℝ) < 10 ^ order := by positivity
    linarith
  have hx : x.mantissa ≠ 0 := mantissa_ne_zero (by exact_mod_cast positive.ne')
  by_cases carried : order < x.order
  · have nearer := roundSignificant_of_carry x k order value high near hk hx positive carried
    linarith
  · have half := abs_sub_roundSignificant_le_of_order_le x k order hx (Int.not_lt.1 carried)
    rw [abs_sub_comm] at half
    exact (abs_sub_le _ _ _).trans (add_le_add_left half _)

theorem roundSignificant_near (low : 10 ^ order ≤ value) :
    |((x.roundSignificant k).toRat : ℝ) - value| ≤ 10 ^ (order - k + 1) := by
  have total := abs_roundSignificant_sub_le x k order value high near hk low
  have error := error_lt_half x k order value high near
  linarith

end RoundSignificant

end Reckoner.Decimal
