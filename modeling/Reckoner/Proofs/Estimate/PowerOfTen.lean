import Mathlib.Analysis.SpecialFunctions.Pow.Real
import Reckoner.Estimate.PowerOfTen
import Reckoner.Proofs.Estimate.Logarithm
import Reckoner.Proofs.FixedPoint.ExponentialError

namespace Reckoner.Estimate

open Numeric

/-- The natural logarithm of 10, in the two parts that are added. -/
theorem ln10Parts_near :
    |(ln10High : ℝ) - Real.log 10| ≤ 4 / 10 ^ 15 ∧ |(ln10Low : ℝ)| ≤ 6 / 10 ^ 15 := by
  obtain ⟨least, most⟩ := FixedPoint.log_ten_bounds
  have size : |Real.log 10| ≤ 2.32 := abs_le.2 ⟨by linarith, most⟩
  have tiny : (1 / 10 ^ 50 : ℝ) ≤ 1 / 10 ^ 30 := by norm_num
  have high : |(ln10High : ℝ) - Real.log 10| ≤ 1 / 10 ^ 50 + 3 / 10 ^ 15 :=
    toBinary64_near _ _ _ _ ln10_near (by linarith)
  have low : |(ln10Low : ℝ) - 0| ≤ 5 / 10 ^ 15 + 1 / 10 ^ 15 := by
    apply toBinary64_near
    · have split : ((ln10 - ln10High : Rat) : ℝ) - 0 =
          (ln10 - Real.log 10) - (ln10High - Real.log 10) := by
        push_cast
        ring
      rw [split]
      refine (abs_sub _ _).trans ?_
      linarith [ln10_near]
    · rw [abs_zero]
      norm_num
  rw [sub_zero] at low
  exact ⟨by linarith, by linarith⟩

/-- The logarithm of a step, in the two parts that are subtracted. -/
theorem stepParts_near : |(stepHigh : ℝ) + stepLow - Real.log 2 / 128| ≤ 2 / 10 ^ 15 := by
  obtain ⟨s, hs⟩ : ∃ s, s = ln2 / stepsPerDoubling := ⟨_, rfl⟩
  obtain ⟨a, ha⟩ : ∃ a : ℝ, a = ln2 := ⟨_, rfl⟩
  have two := abs_le.1 ln2_near
  have value : (s : ℝ) = a / 128 := by
    rw [hs, ha]
    push_cast
    rfl
  rw [← ha] at two
  have tiny : (1 / 10 ^ 50 : ℝ) ≤ 1 / 10 ^ 15 := by norm_num
  have size : |(s : ℝ)| ≤ 1 := by
    rw [value, abs_le]
    constructor <;> linarith [Real.log_two_gt_d9, Real.log_two_lt_d9]
  have high : |(s : ℝ) - stepHigh| ≤ 1 := by
    have cast := (Rat.cast_le (K := ℝ)).2 (abs_roundBinary_sub_le 37 s)
    push_cast at cast
    rw [abs_sub_comm, stepHigh, ← hs]
    refine cast.trans ?_
    rw [div_le_iff₀ (by positivity)]
    linarith
  have low : |(stepLow : ℝ) - (s - stepHigh)| ≤ 0 + 1 / 10 ^ 15 := by
    apply toBinary64_near
    · rw [← hs]
      push_cast
      simp
    · linarith
  have close := abs_le.1 low
  rw [abs_le]
  constructor <;> linarith

theorem stepsPerUnit_near : |(stepsPerUnit : ℝ) - 128 / Real.log 2| ≤ 1 / 10 ^ 12 := by
  obtain ⟨a, ha⟩ : ∃ a : ℝ, a = ln2 := ⟨_, rfl⟩
  have near := ln2_near
  rw [← ha] at near
  have two := abs_le.1 near
  have least := Real.log_two_gt_d9
  have most := Real.log_two_lt_d9
  have positive : 1 / 2 ≤ a := by linarith
  have quotient : |((stepsPerDoubling / ln2 : Rat) : ℝ) - 128 / Real.log 2| ≤ 1 / 10 ^ 15 := by
    have value : ((stepsPerDoubling / ln2 : Rat) : ℝ) = 128 / a := by
      rw [ha]
      push_cast
      rfl
    have difference :
        128 / a - 128 / Real.log 2 = -(128 * (a - Real.log 2)) / (a * Real.log 2) := by
      field_simp
      ring
    have product : 1 / 4 ≤ a * Real.log 2 := by nlinarith
    rw [value, difference, abs_div, abs_neg, abs_mul, abs_of_pos (by linarith : 0 < a * Real.log 2),
      div_le_iff₀ (by linarith), abs_of_pos (by norm_num : (0 : ℝ) < 128)]
    linarith
  have size : |128 / Real.log 2| ≤ 190 := by
    rw [abs_of_pos (by positivity), div_le_iff₀ (by linarith)]
    linarith
  have rounded := toBinary64_near _ _ _ 200 quotient (by linarith)
  rw [stepsPerUnit]
  linarith

/-- What the nearest whole number of steps leaves is little more than half a step. -/
theorem nearestStep_near (x : Rat) (hx : |(x : ℝ)| ≤ 50) :
    |(x : ℝ) - nearestStep x * (Real.log 2 / 128)| ≤ 1 / 300 ∧ |(nearestStep x : ℝ)| ≤ 10 ^ 4 := by
  have least := Real.log_two_gt_d9
  have most := Real.log_two_lt_d9
  obtain ⟨c, hc⟩ : ∃ c, c = 128 / Real.log 2 := ⟨_, rfl⟩
  have low : 180 ≤ c := by
    rw [hc, le_div_iff₀ (by linarith)]
    linarith
  have high : c ≤ 190 := by
    rw [hc, div_le_iff₀ (by linarith)]
    linarith
  have unit := stepsPerUnit_near
  rw [← hc] at unit
  have steps : |(x : ℝ) * c| ≤ 9500 := by
    rw [abs_mul, abs_of_pos (by linarith : 0 < c)]
    nlinarith [abs_nonneg (x : ℝ)]
  obtain ⟨y, hy⟩ : ∃ y, y = toBinary64 (x * stepsPerUnit) := ⟨_, rfl⟩
  have close : |(y : ℝ) - x * c| ≤ 50 / 10 ^ 12 + 10000 / 10 ^ 15 := by
    rw [hy]
    apply toBinary64_near
    · rw [Rat.cast_mul, ← mul_sub, abs_mul]
      calc
        |(x : ℝ)| * |(stepsPerUnit : ℝ) - c| ≤ 50 * (1 / 10 ^ 12) := by gcongr
        _ = 50 / 10 ^ 12 := by ring
    · linarith
  have half : |(nearestStep x : ℝ) - y| ≤ 1 / 2 := by
    have cast := (Rat.cast_le (K := ℝ)).2 (abs_sign_mul_halfEven_sub_le y)
    push_cast at cast
    rw [nearestStep, ← hy]
    push_cast
    linarith
  have near : |(x : ℝ) * c - nearestStep x| ≤ 3 / 5 := by
    rw [abs_sub_comm]
    exact (abs_sub_le _ (y : ℝ) _).trans (by linarith)
  constructor
  · have left : (x : ℝ) - nearestStep x * (Real.log 2 / 128) =
        (x * c - nearestStep x) * (Real.log 2 / 128) := by
      rw [hc]
      field_simp
    rw [left, abs_mul, abs_of_pos (by positivity : 0 < Real.log 2 / 128)]
    nlinarith [abs_nonneg ((x : ℝ) * c - nearestStep x)]
  · have apart := abs_sub_abs_le_abs_sub (nearestStep x : ℝ) (x * c)
    rw [abs_sub_comm] at near
    linarith

/-- A product is added to a number that is known approximately, and the sum is rounded. -/
theorem mul_add_near (p q s : Rat) (x product error : ℝ) (hpq : |(p * q : ℝ)| ≤ product)
    (hs : |(s : ℝ) - x| ≤ error) (size : |x| + (product + error) ≤ 1) :
    |(toBinary64 (p * q + s) : ℝ) - x| ≤ product + error + 1 / 10 ^ 15 := by
  apply toBinary64_near
  · rw [Rat.cast_add, Rat.cast_mul, add_sub_assoc]
    exact (abs_add_le _ _).trans (add_le_add hpq hs)
  · exact size

/-- Two neighbouring terms of the polynomial, less the power of its argument they share. -/
theorem abs_affine_le (a b r : Rat) (ha : |(a : ℝ)| ≤ 1) (hb : |(b : ℝ)| ≤ 0.51)
    (hr : |(r : ℝ)| ≤ 1 / 290) : |(toBinary64 (a * r + b) : ℝ)| ≤ 0.52 := by
  have inner : |((a * r + b : Rat) : ℝ)| ≤ 0.515 := by
    rw [Rat.cast_add, Rat.cast_mul]
    refine (abs_add_le _ _).trans ?_
    rw [abs_mul]
    nlinarith [abs_nonneg (a : ℝ), abs_nonneg (r : ℝ)]
  have rounded := abs_toBinary64_le _ _ inner
  linarith

/-- The polynomial is its argument up to the square of it. -/
theorem expSmall_sub_le (r tail : Rat) (hr : |(r : ℝ)| ≤ 1 / 290)
    (ht : |(tail : ℝ)| ≤ 1 / 10 ^ 13) : |(expSmall r tail : ℝ) - r| ≤ 6.4 / 10 ^ 6 := by
  obtain ⟨c2, h2, size2⟩ : ∃ c, c = mkRat 0x1ffffffffffdbd (pow2 54) ∧ |(c : ℝ)| ≤ 0.51 :=
    ⟨_, rfl, by rw [Rat.mkRat_eq_div]; norm_num [pow2, abs_le]⟩
  obtain ⟨c3, h3, size3⟩ : ∃ c, c = mkRat 0x1555555555543c (pow2 55) ∧ |(c : ℝ)| ≤ 1 :=
    ⟨_, rfl, by rw [Rat.mkRat_eq_div]; norm_num [pow2, abs_le]⟩
  obtain ⟨c4, h4, size4⟩ : ∃ c, c = mkRat 0x155555cf172b91 (pow2 57) ∧ |(c : ℝ)| ≤ 0.51 :=
    ⟨_, rfl, by rw [Rat.mkRat_eq_div]; norm_num [pow2, abs_le]⟩
  obtain ⟨c5, h5, size5⟩ : ∃ c, c = mkRat 0x11111167a4d017 (pow2 59) ∧ |(c : ℝ)| ≤ 1 :=
    ⟨_, rfl, by rw [Rat.mkRat_eq_div]; norm_num [pow2, abs_le]⟩
  obtain ⟨square, hsquare⟩ : ∃ square, square = toBinary64 (r * r) := ⟨_, rfl⟩
  have squareSize : |(square : ℝ)| ≤ 1.2 / 10 ^ 5 := by
    have inner : |((r * r : Rat) : ℝ)| ≤ 1.19 / 10 ^ 5 := by
      rw [Rat.cast_mul, abs_mul]
      nlinarith [abs_nonneg (r : ℝ)]
    have rounded := abs_toBinary64_le _ _ inner
    rw [hsquare]
    linarith
  have fourth : |(toBinary64 (square * square) : ℝ)| ≤ 1 / 10 ^ 9 := by
    have inner : |((square * square : Rat) : ℝ)| ≤ 1 / 10 ^ 9 / 2 := by
      rw [Rat.cast_mul, abs_mul]
      nlinarith [abs_nonneg (square : ℝ)]
    have rounded := abs_toBinary64_le _ _ inner
    linarith
  have linear : |(toBinary64 (tail + r) : ℝ) - r| ≤ 1 / 10 ^ 13 + 1 / 10 ^ 15 := by
    apply toBinary64_near
    · rw [Rat.cast_add, add_sub_cancel_right]
      exact ht
    · linarith
  have quadratic : |(toBinary64 (c3 * r + c2) : ℝ) * square| ≤ 0.52 * (1.2 / 10 ^ 5) := by
    rw [abs_mul]
    gcongr
    exact abs_affine_le c3 c2 r size3 size2 hr
  have quartic : |(toBinary64 (square * square) : ℝ) * toBinary64 (c5 * r + c4)| ≤
      1 / 10 ^ 9 * 0.52 := by
    rw [abs_mul]
    gcongr
    exact abs_affine_le c5 c4 r size5 size4 hr
  have low := mul_add_near _ _ _ _ _ _ quadratic linear (by linarith)
  have all := mul_add_near _ _ _ _ _ _ quartic low (by linarith)
  have value : expSmall r tail = toBinary64 (toBinary64 (square * square) *
      toBinary64 (c5 * r + c4) +
        toBinary64 (toBinary64 (c3 * r + c2) * square + toBinary64 (tail + r))) := by
    rw [hsquare, h2, h3, h4, h5]
    rfl
  rw [value]
  linarith

/-- So it is the exponential less one, up to the square of its argument. -/
theorem expSmall_near (r tail : Rat) (hr : |(r : ℝ)| ≤ 1 / 290) (ht : |(tail : ℝ)| ≤ 1 / 10 ^ 13) :
    |(expSmall r tail : ℝ) - (Real.exp r - 1)| ≤ 2 / 10 ^ 5 := by
  have polynomial := expSmall_sub_le r tail hr ht
  have series : |Real.exp r - 1 - r| ≤ 1.19 / 10 ^ 5 := by
    refine (Real.abs_exp_sub_one_sub_id_le (by linarith)).trans ?_
    rw [← sq_abs]
    nlinarith [abs_nonneg (r : ℝ)]
  rw [abs_sub_comm] at series
  refine (abs_sub_le _ (r : ℝ) _).trans ?_
  linarith

/-- The number of working digits a step of the table is given to the series with. -/
theorem stepLogarithm_near (j : Nat) (count : (j : ℝ) / 128 ≤ 1) :
    |10 ^ workingDigits * (Real.log 2 * (j / 128)) -
        (ln2 * j / stepsPerDoubling * pow10 workingDigits).floor| ≤
      10 ^ workingDigits * (1 / 10 ^ 49) := by
  obtain ⟨s, hs⟩ : ∃ s, s = ln2 * j / stepsPerDoubling := ⟨_, rfl⟩
  obtain ⟨x, hx⟩ : ∃ x, x = Real.log 2 * (j / 128) := ⟨_, rfl⟩
  have close : |(s : ℝ) - x| ≤ 1 / 10 ^ 50 := by
    have difference : (s : ℝ) - x = (ln2 - Real.log 2) * (j / 128) := by
      have steps : ((stepsPerDoubling : Nat) : ℝ) = 128 := by norm_num [stepsPerDoubling]
      rw [hs, hx]
      push_cast
      rw [steps]
      ring
    rw [difference, abs_mul, abs_of_nonneg (by positivity : (0 : ℝ) ≤ j / 128)]
    calc
      _ ≤ 1 / 10 ^ 50 * (1 : ℝ) := by
        gcongr
        exact ln2_near
      _ = 1 / 10 ^ 50 := mul_one _
  have scale : (0 : ℝ) < 10 ^ workingDigits := by positivity
  obtain ⟨y, hy⟩ : ∃ y, y = (s * pow10 workingDigits).floor := ⟨_, rfl⟩
  have bounds := floor_mul_bounds s (pow10 workingDigits) (pow10_pos _)
  rw [← hy] at bounds
  simp only [cast_pow10] at bounds
  have cut : |(s : ℝ) - y / 10 ^ workingDigits| ≤ 1 / 10 ^ workingDigits :=
    abs_le.2 ⟨by linarith [one_div_pos.2 scale], by linarith⟩
  have last : (1 : ℝ) / 10 ^ workingDigits ≤ 1 / 10 ^ 50 := by norm_num [workingDigits]
  have places : (10 : ℝ) ^ workingDigits * x - y =
      10 ^ workingDigits * (x - y / 10 ^ workingDigits) := by
    field_simp
  rw [abs_sub_comm] at close
  rw [← hs, ← hx, ← hy, places, abs_mul, abs_of_pos scale]
  refine mul_le_mul_of_nonneg_left ?_ scale.le
  exact (abs_sub_le _ (s : ℝ) _).trans (by linarith)

/-- The factor of some of the steps to the next doubling. -/
theorem stepFactor_near (j : Nat) (hj : j < 128) :
    |(stepFactor j : ℝ) - Real.exp (Real.log 2 * (j / 128))| ≤ 1 / 10 ^ 40 ∧
      1 ≤ Real.exp (Real.log 2 * (j / 128)) ∧ Real.exp (Real.log 2 * (j / 128)) ≤ 2 := by
  have least := Real.log_two_gt_d9
  have most := Real.log_two_lt_d9
  have count : (j : ℝ) / 128 ≤ 1 := by
    rw [div_le_one (by norm_num)]
    exact_mod_cast hj.le
  have digits := stepLogarithm_near j count
  obtain ⟨x, hx⟩ : ∃ x, x = Real.log 2 * (j / 128) := ⟨_, rfl⟩
  have low : 0 ≤ x := by
    rw [hx]
    positivity
  have high : x ≤ Real.log 2 := by
    rw [hx]
    exact mul_le_of_le_one_right (by linarith) count
  rw [← hx] at digits ⊢
  have lower : 1 ≤ Real.exp x := Real.one_le_exp low
  have upper : Real.exp x ≤ 2 := by
    rw [← Real.exp_log two_pos]
    exact Real.exp_le_exp.2 high
  obtain ⟨d, found, near⟩ := FixedPoint.exp_near workingDigits (by decide) (by decide) _ 50 x _
    digits (by norm_num) (abs_le.2 ⟨by linarith, by linarith⟩)
  have result : stepFactor j = (d.roundSignificant 50).toRat := by
    have unfolded : stepFactor j = ((FixedPoint.exp?
        (ln2 * j / stepsPerDoubling * pow10 workingDigits).floor workingDigits 50).map
          Decimal.toRat).getD 1 := rfl
    rw [unfolded, found]
    rfl
  have total : |(d.toRat : ℝ) - Real.exp x| ≤ 1 / 10 ^ 42 := by
    have places : 2 * (1 / 10 ^ 49) + (12 * FixedPoint.Series.limit workingDigits + 136003) /
        10 ^ workingDigits ≤ (1 / 10 ^ 43 : ℝ) := by
      norm_num [FixedPoint.Series.limit, workingDigits]
    refine near.trans ?_
    calc
      _ ≤ Real.exp x * (1 / 10 ^ 43) := mul_le_mul_of_nonneg_left places (Real.exp_pos x).le
      _ ≤ 1 / 10 ^ 42 := by linarith
  have bounds := abs_le.1 total
  have positive : 0 < (d.toRat : ℝ) := by linarith
  have hd : d.mantissa ≠ 0 := Decimal.mantissa_ne_zero (by exact_mod_cast positive.ne')
  have rounding : |(d.toRat : ℝ) - (d.roundSignificant 50).toRat| ≤ 1 / 10 ^ 42 := by
    have order := d.order_lt hd 1 (by rw [abs_of_pos positive, zpow_one]; linarith)
    have half := d.abs_sub_roundSignificant_le_of_order_le 50 0 hd (by omega)
    exact half.trans (by norm_num)
  rw [abs_sub_comm] at rounding
  rw [result]
  refine ⟨(abs_sub_le _ (d.toRat : ℝ) _).trans ?_, lower, upper⟩
  linarith

theorem cast_scale (v : Rat) (n : Int) : (scale v n : ℝ) = v * 2 ^ n := by
  have power : ((2 ^ n : Rat) : ℝ) = 2 ^ n := by
    push_cast
    rfl
  rw [← power, two_zpow_eq, scale]
  push_cast
  ring

section Exponential

variable (x rest : Rat) (hx : |(x : ℝ)| ≤ 50) (hrest : |(rest : ℝ)| ≤ 1 / 10 ^ 12)

include hx hrest in
/-- What is left of the argument when the steps are taken off. -/
theorem remainder_near :
    |(toBinary64 (toBinary64 (x - nearestStep x * stepHigh - nearestStep x * stepLow) + rest) : ℝ) -
      (x - nearestStep x * (Real.log 2 / 128))| ≤ 1 / 10 ^ 10 := by
  obtain ⟨left, steps⟩ := nearestStep_near x hx
  obtain ⟨n, hn⟩ : ∃ n, n = nearestStep x := ⟨_, rfl⟩
  rw [← hn] at left steps ⊢
  have inner : |((x - n * stepHigh - n * stepLow : Rat) : ℝ) - (x - n * (Real.log 2 / 128))| ≤
      2 / 10 ^ 11 := by
    have difference : ((x - n * stepHigh - n * stepLow : Rat) : ℝ) - (x - n * (Real.log 2 / 128)) =
        -(n * (stepHigh + stepLow - Real.log 2 / 128)) := by
      push_cast
      ring
    rw [difference, abs_neg, abs_mul]
    calc
      _ ≤ (10 : ℝ) ^ 4 * (2 / 10 ^ 15) := by
        gcongr
        exact stepParts_near
      _ = 2 / 10 ^ 11 := by norm_num
  have first := toBinary64_near _ _ _ 1 inner (by linarith)
  have sum : |((toBinary64 (x - n * stepHigh - n * stepLow) + rest : Rat) : ℝ) -
      (x - n * (Real.log 2 / 128))| ≤ 4 / 10 ^ 11 := by
    rw [Rat.cast_add, add_sub_right_comm]
    exact (abs_add_le _ _).trans (by linarith)
  exact (toBinary64_near _ _ _ 1 sum (by linarith)).trans (by norm_num)

/-- Whole doublings, the steps to the next one and what is left make up the argument. -/
theorem exp_eq_steps : Real.exp x =
    Real.exp (Real.log 2 * ((nearestStep x % stepsPerDoubling).toNat / 128)) *
      Real.exp (x - nearestStep x * (Real.log 2 / 128)) *
        2 ^ (nearestStep x / stepsPerDoubling) := by
  obtain ⟨n, hn⟩ : ∃ n, n = nearestStep x := ⟨_, rfl⟩
  obtain ⟨q, hq⟩ : ∃ q, q = n / stepsPerDoubling := ⟨_, rfl⟩
  obtain ⟨j, hj⟩ : ∃ j, j = (n % stepsPerDoubling).toNat := ⟨_, rfl⟩
  have whole : (n : ℝ) = 128 * q + j := by
    have split := Int.mul_ediv_add_emod n stepsPerDoubling
    have sign := Int.emod_nonneg n (by decide : (stepsPerDoubling : Int) ≠ 0)
    have count : ((stepsPerDoubling : Nat) : Int) = 128 := rfl
    rw [← Int.toNat_of_nonneg sign, ← hj, ← hq, count] at split
    exact_mod_cast split.symm
  have parts : (x : ℝ) =
      Real.log 2 * (j / 128) + (x - n * (Real.log 2 / 128)) + Real.log 2 * q := by
    rw [whole]
    ring
  have power : Real.exp (Real.log 2 * q) = 2 ^ q := by
    rw [Real.exp_mul, Real.exp_log two_pos, Real.rpow_intCast]
  rw [← hn, ← hq, ← hj, ← power, ← Real.exp_add, ← Real.exp_add, ← parts]

/-- The factor of the steps is taken in 53 binary digits, and what that leaves is a small part of
it. -/
theorem head_near (f : Rat) (F : ℝ) (factor : |(f : ℝ) - F| ≤ 1 / 10 ^ 40) (least : 1 ≤ F)
    (most : F ≤ 2) :
    |(toBinary64 f : ℝ) - F| ≤ 1 / 10 ^ 40 + 3 / 10 ^ 15 ∧
      |(toBinary64 (f / toBinary64 f - 1) : ℝ)| ≤ 1 / 10 ^ 13 := by
  obtain ⟨head, hhead⟩ : ∃ head, head = toBinary64 f := ⟨_, rfl⟩
  have near : |(head : ℝ) - F| ≤ 1 / 10 ^ 40 + 3 / 10 ^ 15 := by
    rw [hhead]
    exact toBinary64_near _ _ _ _ factor (by rw [abs_of_pos (by linarith)]; linarith)
  have apart := abs_le.1 near
  have low : (1 / 2 : ℝ) ≤ head := by linarith
  have tail : |((f / head - 1 : Rat) : ℝ)| ≤ 1 / 10 ^ 14 := by
    have difference : ((f / head - 1 : Rat) : ℝ) = (f - head) / head := by
      push_cast
      field_simp
    have close : |(f : ℝ) - head| ≤ 4 / 10 ^ 15 := by
      rw [abs_sub_comm] at near
      exact (abs_sub_le _ F _).trans (by linarith)
    rw [difference, abs_div, abs_of_pos (by linarith : (0 : ℝ) < head), div_le_iff₀ (by linarith)]
    linarith
  have rounded := abs_toBinary64_le _ _ tail
  rw [← hhead]
  exact ⟨near, by linarith⟩

/-- The factor of the steps times the exponential of what is left, which is known but for one. -/
theorem product_near (head p : Rat) (F E : ℝ) (hhead : |(head : ℝ) - F| ≤ 1 / 10 ^ 40 + 3 / 10 ^ 15)
    (hp : |(p : ℝ) + 1 - E| ≤ 2.01 / 10 ^ 5) (least : 1 ≤ F) (most : F ≤ 2) (low : 0.99 ≤ E)
    (high : E ≤ 1.01) :
    |(toBinary64 (head * p + head) : ℝ) - F * E| ≤ F * E * (3 / 10 ^ 5) := by
  have inner : |((head * p + head : Rat) : ℝ) - F * E| ≤ F * (2.1 / 10 ^ 5) := by
    have split : ((head * p + head : Rat) : ℝ) - F * E =
        F * (p + 1 - E) + (head - F) * (p + 1) := by
      push_cast
      ring
    have size : |(p : ℝ) + 1| ≤ 2 := by
      have bounds := abs_le.1 hp
      rw [abs_le]
      constructor <;> linarith
    rw [split]
    refine (abs_add_le _ _).trans ?_
    rw [abs_mul, abs_mul, abs_of_pos (by linarith : 0 < F)]
    calc
      _ ≤ F * (2.01 / 10 ^ 5) + (1 / 10 ^ 40 + 3 / 10 ^ 15) * 2 := by gcongr
      _ ≤ F * (2.1 / 10 ^ 5) := by linarith
  have rounded := toBinary64_near _ _ _ 3 inner (by
    rw [abs_of_pos (by nlinarith)]
    nlinarith)
  refine rounded.trans ?_
  nlinarith

include hx hrest in
/-- The exponential by a factor for the whole steps and a polynomial for the rest. -/
theorem exp_near : |(exp x rest : ℝ) - Real.exp x| ≤ Real.exp x * (3 / 10 ^ 5) := by
  obtain ⟨left, -⟩ := nearestStep_near x hx
  have remainder := remainder_near x rest hx hrest
  have exact := exp_eq_steps x
  obtain ⟨n, hn⟩ : ∃ n, n = nearestStep x := ⟨_, rfl⟩
  obtain ⟨r, hr⟩ : ∃ r, r = toBinary64 (toBinary64 (x - n * stepHigh - n * stepLow) + rest) :=
    ⟨_, rfl⟩
  obtain ⟨R, hR⟩ : ∃ R : ℝ, R = x - n * (Real.log 2 / 128) := ⟨_, rfl⟩
  obtain ⟨j, hj⟩ : ∃ j, j = (n % stepsPerDoubling).toNat := ⟨_, rfl⟩
  obtain ⟨q, hq⟩ : ∃ q, q = n / stepsPerDoubling := ⟨_, rfl⟩
  rw [← hn, ← hR] at left
  rw [← hn, ← hr, ← hR] at remainder
  rw [← hn, ← hR, ← hj, ← hq] at exact
  have small : |(r : ℝ)| ≤ 1 / 290 := by linarith [abs_sub_abs_le_abs_sub (r : ℝ) R]
  have few : j < 128 := by
    have bound := Int.emod_lt_of_pos n (by decide : (0 : Int) < stepsPerDoubling)
    have count : ((stepsPerDoubling : Nat) : Int) = 128 := rfl
    omega
  obtain ⟨factor, least, most⟩ := stepFactor_near j few
  obtain ⟨F, hF⟩ : ∃ F, F = Real.exp (Real.log 2 * (j / 128)) := ⟨_, rfl⟩
  obtain ⟨f, hf⟩ : ∃ f, f = stepFactor j := ⟨_, rfl⟩
  rw [← hF] at factor least most exact
  rw [← hf] at factor
  obtain ⟨headNear, tailSmall⟩ := head_near f F factor least most
  obtain ⟨tail, htail⟩ : ∃ tail, tail = toBinary64 (f / toBinary64 f - 1) := ⟨_, rfl⟩
  rw [← htail] at tailSmall
  have polynomial := expSmall_near r tail small tailSmall
  have eR := abs_le.1 (Real.abs_exp_sub_one_le (x := R) (by linarith))
  have moved : |Real.exp r - Real.exp R| ≤ 3 / 10 ^ 10 := by
    refine (FixedPoint.abs_exp_sub_exp_le r R (by linarith)).trans ?_
    nlinarith [Real.exp_pos R]
  have bracket : |(expSmall r tail : ℝ) + 1 - Real.exp R| ≤ 2.01 / 10 ^ 5 := by
    have split : (expSmall r tail : ℝ) + 1 - Real.exp R =
        (expSmall r tail - (Real.exp r - 1)) + (Real.exp r - Real.exp R) := by ring
    rw [split]
    exact (abs_add_le _ _).trans (by linarith)
  have value := product_near _ _ F _ headNear bracket least most (by linarith) (by linarith)
  have result : exp x rest =
      scale (toBinary64 (toBinary64 f * expSmall r tail + toBinary64 f)) q := by
    rw [htail, hf, hj, hr, hq, hn]
    rfl
  have power : (0 : ℝ) < 2 ^ q := by positivity
  rw [result, cast_scale, exact, ← sub_mul, abs_mul, abs_of_pos power]
  calc
    _ ≤ F * Real.exp R * (3 / 10 ^ 5) * 2 ^ q := by gcongr
    _ = F * Real.exp R * 2 ^ q * (3 / 10 ^ 5) := by ring

end Exponential

/-- The exponent of e for a power of ten, in 53 binary digits and a rest. -/
theorem tenToThe_argument_near (r : Rat) (hr : |(r : ℝ)| ≤ 20) :
    |(toBinary64 (r * ln10High) : ℝ) - r * Real.log 10| ≤ 128 / 10 ^ 15 ∧
      |(toBinary64 (r * ln10Low + (r * ln10High - toBinary64 (r * ln10High))) : ℝ)| ≤
        1 / 10 ^ 12 := by
  obtain ⟨high, low⟩ := ln10Parts_near
  have ten := FixedPoint.log_ten_bounds
  obtain ⟨A, hA⟩ : ∃ A : ℝ, A = r * Real.log 10 := ⟨_, rfl⟩
  obtain ⟨head, hhead⟩ : ∃ head, head = toBinary64 (r * ln10High) := ⟨_, rfl⟩
  rw [← hA, ← hhead]
  have product : |((r * ln10High : Rat) : ℝ) - A| ≤ 80 / 10 ^ 15 := by
    rw [hA, Rat.cast_mul, ← mul_sub, abs_mul]
    calc
      _ ≤ (20 : ℝ) * (4 / 10 ^ 15) := mul_le_mul hr high (abs_nonneg _) (by norm_num)
      _ = 80 / 10 ^ 15 := by norm_num
  have size : |A| ≤ 47 := by
    rw [hA, abs_mul, abs_of_pos (by linarith : 0 < Real.log 10)]
    nlinarith [abs_nonneg (r : ℝ)]
  have headNear : |(head : ℝ) - A| ≤ 80 / 10 ^ 15 + 48 / 10 ^ 15 := by
    rw [hhead]
    exact toBinary64_near _ _ _ _ product (by linarith)
  have rest : |((r * ln10Low + (r * ln10High - head) : Rat) : ℝ)| ≤ 5 / 10 ^ 13 := by
    have split : ((r * ln10Low + (r * ln10High - head) : Rat) : ℝ) =
        r * ln10Low + (((r * ln10High : Rat) : ℝ) - A) - (head - A) := by
      push_cast
      ring
    have first : |(r : ℝ) * ln10Low| ≤ 20 * (6 / 10 ^ 15) := by
      rw [abs_mul]
      exact mul_le_mul hr low (abs_nonneg _) (by norm_num)
    rw [split]
    refine (abs_sub _ _).trans ?_
    linarith [abs_add_le ((r : ℝ) * ln10Low) (((r * ln10High : Rat) : ℝ) - A)]
  have rounded := abs_toBinary64_le _ _ rest
  exact ⟨by linarith, by linarith⟩

/-- Ten to a power within a few hundred thousandths, for powers that decide nothing by their
size. -/
theorem tenToThe_near (r : Rat) (hr : |(r : ℝ)| ≤ 20) :
    |(tenToThe r : ℝ) - 10 ^ (r : ℝ)| ≤ 10 ^ (r : ℝ) * (4 / 10 ^ 5) := by
  obtain ⟨headNear, restSmall⟩ := tenToThe_argument_near r hr
  have ten := FixedPoint.log_ten_bounds
  obtain ⟨A, hA⟩ : ∃ A : ℝ, A = r * Real.log 10 := ⟨_, rfl⟩
  obtain ⟨head, hhead⟩ : ∃ head, head = toBinary64 (r * ln10High) := ⟨_, rfl⟩
  rw [← hhead, ← hA] at headNear
  rw [← hhead] at restSmall
  have exact : (10 : ℝ) ^ (r : ℝ) = Real.exp A := by
    rw [hA, Real.rpow_def_of_pos (by norm_num), mul_comm]
  have size : |A| ≤ 47 := by
    rw [hA, abs_mul, abs_of_pos (by linarith : 0 < Real.log 10)]
    nlinarith [abs_nonneg (r : ℝ)]
  have value : tenToThe r = exp head (toBinary64 (r * ln10Low + (r * ln10High - head))) := by
    rw [hhead]
    rfl
  have argument : |(head : ℝ)| ≤ 50 := by linarith [abs_sub_abs_le_abs_sub (head : ℝ) A]
  have near := exp_near head _ argument restSmall
  have moved : |Real.exp head - Real.exp A| ≤ Real.exp A * (1 / 10 ^ 12) := by
    refine (FixedPoint.abs_exp_sub_exp_le head A (by linarith)).trans ?_
    gcongr
    linarith
  have above := (abs_le.1 moved).2
  have positive := Real.exp_pos A
  rw [value, exact]
  refine (abs_sub_le _ (Real.exp head) _).trans ?_
  linarith

end Reckoner.Estimate
