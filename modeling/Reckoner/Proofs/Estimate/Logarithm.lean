import Mathlib.Analysis.SpecialFunctions.Log.Base
import Reckoner.Estimate.Logarithm
import Reckoner.Proofs.FixedPoint.LogarithmError
import Reckoner.Proofs.Numeric.Binary

namespace Reckoner.Estimate

open Numeric

/-- A multiple of 1 / d that is cut downward. -/
theorem floor_mul_bounds (r : Rat) (d : Nat) (hd : 0 < d) :
    ((r * d).floor : ℝ) / d ≤ r ∧ (r : ℝ) ≤ (r * d).floor / d + 1 / d := by
  have positive : (0 : ℝ) < d := Nat.cast_pos.2 hd
  have low := (Rat.cast_le (K := ℝ)).2 (r * d).floor_le
  have high := (Rat.cast_lt (K := ℝ)).2 (Rat.lt_floor (x := r * d))
  push_cast at low high
  rw [← add_div, div_le_iff₀ positive, le_div_iff₀ positive]
  constructor <;> linarith

/-- Ten of the working digits may be wrong. -/
theorem ofWorking_near (n : Int) (x : ℝ) (h : |10 ^ workingDigits * x - n| ≤ 10 ^ 10) :
    |(ofWorking n : ℝ) - x| ≤ 1 / 10 ^ 50 := by
  have value : (ofWorking n : ℝ) = n / 10 ^ workingDigits := by
    rw [ofWorking, Rat.mkRat_eq_div]
    push_cast
    rw [cast_pow10]
  have scale : (0 : ℝ) < 10 ^ workingDigits := by positivity
  have difference : (n / 10 ^ workingDigits : ℝ) - x =
      -((10 ^ workingDigits * x - n) / 10 ^ workingDigits) := by
    field_simp
    ring
  have digits : (1 / 10 ^ 50 : ℝ) * 10 ^ workingDigits = 10 ^ 10 := by norm_num [workingDigits]
  rw [value, difference, abs_neg, abs_div, abs_of_pos scale, div_le_iff₀ scale, digits]
  linarith

theorem ln2_near : |(ln2 : ℝ) - Real.log 2| ≤ 1 / 10 ^ 50 := by
  obtain ⟨below, above⟩ := FixedPoint.ln2_bounds workingDigits (by decide)
  apply ofWorking_near
  rw [abs_le]
  constructor <;> linarith

theorem ln10_near : |(ln10 : ℝ) - Real.log 10| ≤ 1 / 10 ^ 50 := by
  obtain ⟨below, above⟩ := FixedPoint.ln10_bounds workingDigits (by decide)
  apply ofWorking_near
  rw [abs_le]
  constructor <;> linarith

/-- A quotient of two numbers that are both known approximately. -/
theorem quotient_near (a b x y error : ℝ) (ha : |a - x| ≤ error) (hb : |b - y| ≤ error)
    (hx : |x| ≤ 1) (hy : 2 ≤ y) (small : error ≤ 1) : |a / b - x / y| ≤ 2 * error := by
  have apart := abs_le.1 hb
  have positive : 1 ≤ b := by linarith
  have difference : a / b - x / y = ((a - x) * y - x * (b - y)) / (b * y) := by
    field_simp
    ring
  have parts : |(a - x) * y - x * (b - y)| ≤ error * y + 1 * error := by
    refine (abs_sub _ _).trans ?_
    rw [abs_mul, abs_mul, abs_of_pos (by linarith : 0 < y)]
    gcongr
  have product : y ≤ b * y := le_mul_of_one_le_left (by linarith) positive
  have nonneg : 0 ≤ error := (abs_nonneg _).trans ha
  rw [difference, abs_div, abs_of_pos (by nlinarith : 0 < b * y), div_le_iff₀ (by nlinarith)]
  nlinarith

/-- The decimal logarithm of 2, in the two parts that are added. -/
theorem log10Two_near :
    |(log10TwoHigh : ℝ) + log10TwoLow - Real.log 2 / Real.log 10| ≤ 1 / 10 ^ 14 ∧
      |(log10TwoHigh : ℝ)| ≤ 2 ∧ |(log10TwoLow : ℝ)| ≤ 2 := by
  obtain ⟨q, hq⟩ : ∃ q, q = ln2 / ln10 := ⟨_, rfl⟩
  have least := FixedPoint.log_ten_bounds.1
  have two : |Real.log 2| ≤ 1 := by
    rw [abs_le]
    constructor <;> linarith [Real.log_two_gt_d9, Real.log_two_lt_d9]
  have near : |(q : ℝ) - Real.log 2 / Real.log 10| ≤ 2 * (1 / 10 ^ 50) := by
    rw [hq, Rat.cast_div]
    exact quotient_near _ _ _ _ _ ln2_near ln10_near two least (by norm_num)
  have size : |Real.log 2 / Real.log 10| ≤ 1 / 2 := by
    rw [abs_div, abs_of_pos (by linarith : 0 < Real.log 10), div_le_iff₀ (by linarith)]
    linarith
  have cut : 0 ≤ (q : ℝ) - log10TwoHigh ∧ (q : ℝ) - log10TwoHigh ≤ 1 := by
    have value : (log10TwoHigh : ℝ) = (q * pow2 41).floor / pow2 41 := by
      rw [log10TwoHigh, ← hq, Rat.mkRat_eq_div]
      push_cast
      rfl
    have last : 1 / ((pow2 41 : Nat) : ℝ) ≤ 1 := by norm_num [pow2]
    obtain ⟨below, above⟩ := floor_mul_bounds q (pow2 41) (pow2_pos 41)
    rw [value]
    constructor <;> linarith
  have inside : |(q : ℝ) - log10TwoHigh| ≤ 1 := abs_le.2 ⟨by linarith, cut.2⟩
  have low : |(log10TwoLow : ℝ) - (q - log10TwoHigh)| ≤ 0 + 1 / 10 ^ 15 := by
    apply toBinary64_near
    · rw [← hq]
      push_cast
      simp
    · linarith
  have close := abs_le.1 near
  have part := abs_le.1 low
  have value := abs_le.1 size
  norm_num at close part
  refine ⟨abs_le.2 ⟨?_, ?_⟩, abs_le.2 ⟨?_, ?_⟩, abs_le.2 ⟨?_, ?_⟩⟩ <;> norm_num <;> linarith

theorem log10Euler_near : |(log10Euler : ℝ) - 1 / Real.log 10| ≤ 1 / 10 ^ 14 ∧
    |(log10Euler : ℝ)| ≤ 1 := by
  have least := FixedPoint.log_ten_bounds.1
  have near : |((1 / ln10 : Rat) : ℝ) - 1 / Real.log 10| ≤ 2 * (1 / 10 ^ 50) := by
    rw [Rat.cast_div, Rat.cast_one]
    exact quotient_near _ _ _ _ _ (by simp) ln10_near (by simp) least (by norm_num)
  obtain ⟨x, hx⟩ : ∃ x, x = 1 / Real.log 10 := ⟨_, rfl⟩
  have size : |x| ≤ 1 / 2 := by
    rw [hx, abs_of_pos (by positivity)]
    exact one_div_le_one_div_of_le two_pos least
  have tiny : 2 * (1 / 10 ^ 50) ≤ (1 / 10 ^ 15 : ℝ) := by norm_num
  have rounded : |(log10Euler : ℝ) - x| ≤ 2 * (1 / 10 ^ 50) + 1 / 10 ^ 15 := by
    rw [← hx] at near
    exact toBinary64_near _ _ _ _ near (by linarith)
  rw [← hx]
  have close := abs_le.1 rounded
  have value := abs_le.1 size
  refine ⟨abs_le.2 ⟨?_, ?_⟩, abs_le.2 ⟨?_, ?_⟩⟩ <;> linarith

theorem abs_log_sub_log_le (x y : ℝ) (hx : 1 / 4 ≤ x) (hy : 1 / 4 ≤ y) :
    |Real.log x - Real.log y| ≤ 4 * |x - y| := by
  have slope (a b : ℝ) (ha : 1 / 4 ≤ a) (hb : 1 / 4 ≤ b) :
      Real.log a - Real.log b ≤ 4 * |a - b| := by
    have bpos : 0 < b := by linarith
    have apos : 0 < a := by linarith
    have tangent := Real.log_le_sub_one_of_pos (div_pos apos bpos)
    have ratio : a / b - 1 ≤ 4 * |a - b| := by
      rw [div_sub_one bpos.ne', div_le_iff₀ bpos]
      nlinarith [le_abs_self (a - b), abs_nonneg (a - b)]
    rw [Real.log_div apos.ne' bpos.ne'] at tangent
    linarith
  have up := slope x y hx hy
  have down := slope y x hy hx
  rw [abs_sub_comm y x] at down
  rw [abs_le]
  constructor <;> linarith

theorem abs_log_le_one (x : ℝ) (low : 1 / 2 ≤ x) (high : x ≤ 2) : |Real.log x| ≤ 1 := by
  have least := Real.log_le_log (by norm_num) low
  have most := Real.log_le_log (by linarith) high
  rw [one_div, Real.log_inv] at least
  rw [abs_le]
  constructor <;> linarith [Real.log_two_lt_d9]

theorem ofBinary64_near (v : Rat) : |(v : ℝ) - (ofBinary64 v).toRat| ≤ 1 / 10 ^ 52 := by
  have bounds := floor_mul_bounds v (pow10 52) (pow10_pos 52)
  rw [ofBinary64, Decimal.toRat_eq_div, abs_le]
  push_cast
  simp only [cast_pow10] at bounds ⊢
  constructor <;> linarith

/-- The natural logarithm of what the leading binary digits are without their power of two. -/
theorem ln_near (v : Rat) (low : 1 / 2 ≤ (v : ℝ)) (high : (v : ℝ) ≤ 2) :
    |(ln v : ℝ) - Real.log v| ≤ 1 / 10 ^ 14 := by
  have magnitude := abs_log_le_one v low high
  have digits := ofBinary64_near v
  obtain ⟨d, hd⟩ : ∃ d, d = ofBinary64 v := ⟨_, rfl⟩
  rw [← hd] at digits
  have close := abs_le.1 digits
  have positive : (1 / 4 : ℝ) ≤ d.toRat := by linarith
  have sign : 0 < (d.toRat : ℝ) := by linarith
  have hx : d.mantissa ≠ 0 := Decimal.mantissa_ne_zero (by exact_mod_cast sign.ne')
  have order : |d.order| ≤ 1 := by
    have above := d.order_lt hx 1 (by rw [abs_of_pos sign, zpow_one]; linarith)
    have below := d.le_order (-1) (by rw [abs_of_pos sign]; norm_num; linarith)
    rw [abs_le]
    omega
  have scale : (0 : ℝ) < 10 ^ workingDigits := by positivity
  have input : |10 ^ workingDigits * (Real.log v - Real.log d.toRat)| ≤ 4 * 10 ^ 8 := by
    have smooth := abs_log_sub_log_le v d.toRat (by linarith) positive
    have places : (10 : ℝ) ^ workingDigits = 10 ^ 8 * 10 ^ 52 := by norm_num [workingDigits]
    rw [abs_mul, abs_of_pos scale, places, mul_assoc]
    calc
      _ ≤ (10 : ℝ) ^ 8 * (10 ^ 52 * (4 * (1 / 10 ^ 52))) := by
        gcongr
        linarith
      _ = 4 * 10 ^ 8 := by norm_num
  have output : |10 ^ workingDigits * Real.log d.toRat - FixedPoint.ln d workingDigits| ≤ 4 := by
    have series := FixedPoint.ln_near d hx workingDigits (by decide)
    have cast : |(d.order : ℝ)| ≤ 1 := by exact_mod_cast order
    have part : 2 * |(d.order : ℝ)| / 10 ^ FixedPoint.guardDigits ≤ 2 := by
      rw [div_le_iff₀ (by positivity)]
      have guard : (1 : ℝ) ≤ 10 ^ FixedPoint.guardDigits := one_le_pow₀ (by norm_num)
      linarith
    linarith
  have working : |(ofWorking (FixedPoint.ln d workingDigits) : ℝ) - Real.log v| ≤ 1 / 10 ^ 50 := by
    have split (n : ℝ) : 10 ^ workingDigits * Real.log v - n =
        10 ^ workingDigits * (Real.log v - Real.log d.toRat) +
          (10 ^ workingDigits * Real.log d.toRat - n) := by ring
    apply ofWorking_near
    rw [split]
    exact (abs_add_le _ _).trans (by linarith)
  have rounded := toBinary64_near _ _ _ 2 working (by linarith)
  rw [ln, ← hd]
  linarith

/-- A value from a half to sixteen is a power of two times one from a half to two. -/
theorem log2_floor_bounds (v : Rat) (low : 1 / 2 ≤ (v : ℝ)) (high : (v : ℝ) < 16) :
    v.floor.toNat.log2 ≤ 3 ∧ 1 / 2 ≤ ((v / pow2 v.floor.toNat.log2 : Rat) : ℝ) ∧
      ((v / pow2 v.floor.toNat.log2 : Rat) : ℝ) ≤ 2 := by
  obtain ⟨n, hn⟩ : ∃ n, n = v.floor.toNat := ⟨_, rfl⟩
  have below : (v.floor : ℝ) ≤ v := by exact_mod_cast v.floor_le
  have above : (v : ℝ) < v.floor + 1 := by
    have cast := (Rat.cast_lt (K := ℝ)).2 (Rat.lt_floor (x := v))
    push_cast at cast
    linarith
  rw [← hn]
  rcases Nat.eq_zero_or_pos n with rfl | pos
  · have none : (v.floor : ℝ) ≤ 0 := by
      exact_mod_cast Int.toNat_eq_zero.1 hn.symm
    have whole : ((v / pow2 (Nat.log2 0) : Rat) : ℝ) = v := by simp [pow2]
    rw [whole]
    exact ⟨by simp, low, by linarith⟩
  · have integral : (v.floor : ℝ) = n := by
      have cast : v.floor = n := by omega
      exact_mod_cast cast
    have power : ((pow2 n.log2 : Nat) : ℝ) = 2 ^ n.log2 := by simp [pow2]
    have positive : (0 : ℝ) < 2 ^ n.log2 := by positivity
    have first : (2 ^ n.log2 : ℝ) ≤ n := by
      exact_mod_cast Nat.log2_self_le (Nat.ne_of_gt pos)
    have next : (n + 1 : ℝ) ≤ 2 * 2 ^ n.log2 := by
      rw [← pow_succ']
      exact_mod_cast Nat.lt_log2_self
    have count : n < 2 ^ 4 := by
      have cast : (n : ℝ) < 16 := by linarith
      exact_mod_cast cast
    rw [Rat.cast_div, Rat.cast_natCast, power, le_div_iff₀ positive, div_le_iff₀ positive]
    refine ⟨?_, by linarith, by linarith⟩
    have bits := (Nat.log2_lt (Nat.ne_of_gt pos)).2 count
    omega

/-- The decimal logarithm by the natural one. -/
theorem log10Euler_mul_ln_near (m : Rat) (low : 1 / 2 ≤ (m : ℝ)) (high : (m : ℝ) ≤ 2) :
    |(toBinary64 (log10Euler * ln m) : ℝ) - Real.log m / Real.log 10| ≤ 3 / 10 ^ 14 ∧
      |Real.log m / Real.log 10| ≤ 1 := by
  obtain ⟨euler, eulerSize⟩ := log10Euler_near
  have natural := ln_near m low high
  have size := abs_log_le_one m low high
  have ten := FixedPoint.log_ten_bounds.1
  have part : |Real.log m / Real.log 10| ≤ 1 := by
    rw [abs_div, abs_of_pos (by linarith : 0 < Real.log 10), div_le_one (by linarith)]
    linarith
  have product : |((log10Euler * ln m : Rat) : ℝ) - Real.log m / Real.log 10| ≤ 2 / 10 ^ 14 := by
    have split : ((log10Euler * ln m : Rat) : ℝ) - Real.log m / Real.log 10 =
        log10Euler * (ln m - Real.log m) + (log10Euler - 1 / Real.log 10) * Real.log m := by
      push_cast
      ring
    rw [split]
    refine (abs_add_le _ _).trans ?_
    rw [abs_mul, abs_mul]
    calc
      _ ≤ 1 * (1 / 10 ^ 14) + 1 / 10 ^ 14 * (1 : ℝ) := by gcongr
      _ = 2 / 10 ^ 14 := by norm_num
  have rounded := toBinary64_near _ _ _ 2 product (by linarith)
  exact ⟨by linarith, part⟩

theorem abs_small_mul_le (k : Nat) (x : ℝ) (few : k ≤ 3) (hx : |x| ≤ 2) : |(k * x : ℝ)| ≤ 6 := by
  have count : (k : ℝ) ≤ 3 := by exact_mod_cast few
  rw [abs_mul, abs_of_nonneg (Nat.cast_nonneg k)]
  calc
    (k : ℝ) * |x| ≤ 3 * 2 := by gcongr
    _ = 6 := by norm_num

/-- The decimal logarithm of a value from that of the value without a power of two. -/
theorem logb_eq_of_div_pow2 (v : Rat) (k : Nat) (pos : 0 < (v : ℝ)) :
    Real.logb 10 v =
      k * (Real.log 2 / Real.log 10) + Real.log (v / pow2 k : Rat) / Real.log 10 := by
  have power : ((pow2 k : Nat) : Rat) = 2 ^ k := by simp [pow2]
  rw [Real.logb, power]
  push_cast
  rw [Real.log_div pos.ne' (by positivity), Real.log_pow]
  ring

/-- The decimal logarithm of a value that is neither small nor large. -/
theorem log10_near (v : Rat) (low : 1 / 2 ≤ (v : ℝ)) (high : (v : ℝ) < 16) :
    |(log10 v : ℝ) - Real.logb 10 v| ≤ 1 / 10 ^ 12 := by
  obtain ⟨k, hk⟩ : ∃ k, k = v.floor.toNat.log2 := ⟨_, rfl⟩
  obtain ⟨few, least, most⟩ := log2_floor_bounds v low high
  rw [← hk] at few least most
  obtain ⟨m, hm⟩ : ∃ m, m = v / pow2 k := ⟨_, rfl⟩
  rw [← hm] at least most
  obtain ⟨second, xSize⟩ := log10Euler_mul_ln_near m least most
  obtain ⟨two, twoHigh, twoLow⟩ := log10Two_near
  obtain ⟨x, hx⟩ : ∃ x, x = Real.log m / Real.log 10 := ⟨_, rfl⟩
  rw [← hx] at second xSize
  obtain ⟨rest, hrest⟩ : ∃ rest, rest =
    toBinary64 (toBinary64 (k * log10TwoLow) + toBinary64 (log10Euler * ln m)) := ⟨_, rfl⟩
  have result : log10 v = toBinary64 (rest + k * log10TwoHigh) := by
    rw [hrest, hm, hk]
    rfl
  have exact : Real.logb 10 v = k * (Real.log 2 / Real.log 10) + x := by
    rw [hx, hm]
    exact logb_eq_of_div_pow2 v k (by linarith)
  have lowSize := abs_small_mul_le k log10TwoLow few twoLow
  have highSize := abs_small_mul_le k log10TwoHigh few twoHigh
  have first : |(toBinary64 (k * log10TwoLow) : ℝ) - k * log10TwoLow| ≤ 0 + 6 / 10 ^ 15 :=
    toBinary64_near _ _ _ _ (by push_cast; simp) (by linarith)
  have restNear : |(rest : ℝ) - (k * log10TwoLow + x)| ≤ 4 / 10 ^ 14 + 8 / 10 ^ 15 := by
    rw [hrest]
    apply toBinary64_near
    · rw [Rat.cast_add, add_sub_add_comm]
      exact (abs_add_le _ _).trans (by linarith)
    · have total := abs_add_le (k * log10TwoLow : ℝ) x
      linarith
  have value : |(log10 v : ℝ) - (k * log10TwoLow + x + k * log10TwoHigh)| ≤
      5 / 10 ^ 14 + 16 / 10 ^ 15 := by
    rw [result]
    apply toBinary64_near
    · push_cast
      rw [add_sub_add_right_eq_sub]
      linarith
    · have total := abs_add_three (k * log10TwoLow : ℝ) x (k * log10TwoHigh)
      linarith
  have parts : |k * (log10TwoHigh + log10TwoLow - Real.log 2 / Real.log 10)| ≤
      3 * (1 / 10 ^ 14) := by
    have count : (k : ℝ) ≤ 3 := by exact_mod_cast few
    rw [abs_mul, abs_of_nonneg (Nat.cast_nonneg k)]
    gcongr
  have split : (log10 v : ℝ) - Real.logb 10 v =
      ((log10 v : ℝ) - (k * log10TwoLow + x + k * log10TwoHigh)) +
        k * (log10TwoHigh + log10TwoLow - Real.log 2 / Real.log 10) := by
    rw [exact]
    ring
  rw [split]
  exact (abs_add_le _ _).trans (by linarith)

end Reckoner.Estimate
