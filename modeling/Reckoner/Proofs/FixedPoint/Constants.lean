import Mathlib.Analysis.Complex.ExponentialBounds
import Mathlib.Analysis.SpecialFunctions.Artanh
import Mathlib.Analysis.SpecialFunctions.Log.Deriv
import Reckoner.FixedPoint.Constants
import Reckoner.Proofs.FixedPoint.Series

namespace Reckoner.FixedPoint

open Finset Numeric Series

@[simp] theorem cast_unit (p : Nat) : ((unit p : Int) : ℝ) = 10 ^ p := by
  rw [unit, Int.cast_natCast, cast_pow10]

theorem unit_pos (p : Nat) : 0 < unit p := Int.natCast_pos.2 (pow10_pos p)

/-- The square of a number in fixed point is cut downward, by less than one. -/
theorem tdiv_square_bounds (z : Int) (p : Nat) :
    (0 : ℝ) ≤ ((z * z).tdiv (unit p) : Int) ∧
      ((z * z).tdiv (unit p) : Int) / 10 ^ p ≤ (z / 10 ^ p : ℝ) ^ 2 ∧
      (z / 10 ^ p : ℝ) ^ 2 ≤ (((z * z).tdiv (unit p) : Int) + 1) / 10 ^ p := by
  have nonneg : (0 : Int) ≤ z * z := mul_self_nonneg z
  have floor := tdiv_le_div (K := ℝ) (z * z) (unit p) nonneg (unit_pos p)
  have ceil := div_lt_tdiv_add_one (K := ℝ) (z * z) (unit p) (unit_pos p)
  have value : (z / 10 ^ p : ℝ) ^ 2 = ((z * z : Int) : ℝ) / 10 ^ p / 10 ^ p := by
    push_cast
    ring
  rw [cast_unit] at floor ceil
  refine ⟨by exact_mod_cast Int.tdiv_nonneg nonneg (unit_pos p).le, ?_, ?_⟩
  · rw [value]
    gcongr
  · rw [value]
    gcongr

/-- The terms behind those that are looked at do not reach the last digit. -/
theorem tail_le_one (p : Nat) (x : ℝ) (hx : |x| ≤ 1 / 2) :
    10 ^ p * (|x| ^ (2 * limit p + 1) / (1 - x ^ 2)) ≤ 1 := by
  have square : x ^ 2 ≤ 1 / 4 := by
    rw [← sq_abs]
    nlinarith [abs_nonneg x]
  have power : |x| ^ (2 * limit p + 1) ≤ (1 / 2) ^ (4 * p) * (1 / 2) := by
    have count : 4 * p + 1 ≤ 2 * limit p + 1 := by
      rw [limit]
      omega
    rw [← pow_succ]
    exact (pow_le_pow_of_le_one (abs_nonneg x) (by linarith) count).trans
      (pow_le_pow_left₀ (abs_nonneg x) hx _)
  have digits : (10 : ℝ) ^ p ≤ 2 ^ (4 * p) := by
    rw [pow_mul]
    exact pow_le_pow_left₀ (by norm_num) (by norm_num) p
  have halves : (2 : ℝ) ^ (4 * p) * (1 / 2) ^ (4 * p) = 1 := by
    rw [← mul_pow, mul_one_div_cancel two_ne_zero, one_pow]
  have small : (10 : ℝ) ^ p * |x| ^ (2 * limit p + 1) ≤ 1 / 2 := by
    calc
      (10 : ℝ) ^ p * |x| ^ (2 * limit p + 1) ≤ 2 ^ (4 * p) * ((1 / 2) ^ (4 * p) * (1 / 2)) := by
        gcongr
      _ = 1 / 2 := by rw [← mul_assoc, halves, one_mul]
  rw [← mul_div_assoc, div_le_one (by linarith)]
  linarith

section InverseOddPowers

variable (alternating : Bool) (q : Int) (p : Nat)

theorem carried_inverseOddPowers (k : Nat) :
    (inverseOddPowers alternating q p).carried k = q ^ (2 * k + 1) := by
  induction k with
  | zero => exact (pow_one q).symm
  | succ k ih =>
    change (inverseOddPowers alternating q p).carried k * (q * q) = _
    rw [ih]
    ring

theorem nth_inverseOddPowers (k : Nat) :
    (inverseOddPowers alternating q p).nth k =
      if alternating && k % 2 == 1 then -(unit p).tdiv (q ^ (2 * k + 1) * oddFactor k)
      else (unit p).tdiv (q ^ (2 * k + 1) * oddFactor k) := by
  rw [nth, carried_inverseOddPowers]
  rfl

variable (hq : 2 ≤ q)

include hq

theorem inverseOddPower_pos (k : Nat) : 0 < q ^ (2 * k + 1) * (oddFactor k : Int) := by
  have power : 0 < q ^ (2 * k + 1) := pow_pos (by omega) _
  exact mul_pos power (Int.natCast_pos.2 (oddFactor_pos k))

/-- While the odd factors fit a word they grow, and with the powers the divisors of the terms. -/
theorem inverseOddPowers_vanishingBelow {n : Nat} (room : 2 * n + 1 < wordSize) :
    (inverseOddPowers alternating q p).VanishingBelow n := by
  intro k inside hk
  rw [nth_inverseOddPowers] at hk ⊢
  have pos := inverseOddPower_pos q hq k
  have none : (unit p).tdiv (q ^ (2 * k + 1) * oddFactor k) = 0 := by
    split at hk <;> omega
  have below : unit p < q ^ (2 * k + 1) * oddFactor k :=
    (le_abs_self _).trans_lt ((tdiv_eq_zero_iff _ _ pos).1 none)
  have grows : q ^ (2 * k + 1) * oddFactor k ≤ q ^ (2 * (k + 1) + 1) * oddFactor (k + 1) := by
    have power : q ^ (2 * k + 1) ≤ q ^ (2 * (k + 1) + 1) :=
      pow_le_pow_right₀ (by omega) (by omega)
    have factor : oddFactor k ≤ oddFactor (k + 1) := by
      rw [oddFactor_of_lt (by omega), oddFactor_of_lt (by omega)]
      omega
    have positive : 0 ≤ q ^ (2 * (k + 1) + 1) := pow_nonneg (by omega) _
    gcongr
  have next := Int.tdiv_eq_zero_of_lt (unit_pos p).le (below.trans_le grows)
  rw [next]
  split <;> rfl

end InverseOddPowers

/-- The sum of the series for 1 / q is its inverse hyperbolic tangent, with what was cut off the
terms missing. -/
theorem artanhInverse_bounds (q : Int) (hq : 2 ≤ q) (p : Nat) (room : 2 * limit p + 1 < wordSize) :
    artanhInverse q p ≤ 10 ^ p * Real.artanh (1 / q) ∧
      10 ^ p * Real.artanh (1 / q) ≤ artanhInverse q p + limit p + 1 := by
  have large : (2 : ℝ) ≤ q := by exact_mod_cast hq
  obtain ⟨x, hx⟩ : ∃ x : ℝ, x = 1 / q := ⟨_, rfl⟩
  have low : 0 ≤ x := by
    rw [hx]
    positivity
  have half : x ≤ 1 / 2 := by
    rw [hx]
    exact one_div_le_one_div_of_le (by norm_num) large
  let a (k : Nat) : ℝ := 10 ^ p * (x ^ (2 * k + 1) / (2 * k + 1))
  have near (k : Nat) (inside : k < limit p) : 0 ≤ a k - (inverseOddPowers false q p).nth k ∧
      a k - (inverseOddPowers false q p).nth k ≤ 1 := by
    have pos := inverseOddPower_pos q hq k
    have term : a k = (unit p : ℝ) / ((q ^ (2 * k + 1) * oddFactor k : Int) : ℝ) := by
      rw [cast_unit, oddFactor_of_lt (by omega)]
      push_cast
      simp only [a, hx, one_div, inv_pow]
      field_simp
    have floor := tdiv_le_div (K := ℝ) (unit p) _ (unit_pos p).le pos
    have ceil := div_lt_tdiv_add_one (K := ℝ) (unit p) _ pos
    rw [nth_inverseOddPowers, term]
    constructor
    · exact sub_nonneg.2 floor
    · exact (sub_lt_iff_lt_add'.2 ceil).le
  obtain ⟨above, below⟩ :=
    (inverseOddPowers_vanishingBelow false q p hq room).sum_between a 0 1 near
  have scaled : ∑ k ∈ range (limit p), a k =
      10 ^ p * ∑ k ∈ range (limit p), x ^ (2 * k + 1) / (2 * k + 1) := (mul_sum _ _ _).symm
  have unit_nonneg : (0 : ℝ) ≤ 10 ^ p := by positivity
  have lower := mul_le_mul_of_nonneg_left
    (Real.sum_range_le_log_div low (by linarith) (limit p)) unit_nonneg
  have upper := mul_le_mul_of_nonneg_left
    (Real.log_div_le_sum_range_add low (by linarith) (limit p)) unit_nonneg
  have tail := tail_le_one p x (by rwa [abs_of_nonneg low])
  rw [abs_of_nonneg low] at tail
  rw [← Real.artanh_eq_half_log ⟨by linarith, by linarith⟩, ← scaled] at lower
  rw [← Real.artanh_eq_half_log ⟨by linarith, by linarith⟩, mul_add, ← scaled] at upper
  rw [artanhInverse, ← hx]
  constructor <;> linarith

/-- A number that lacks less than the guard digits can hold is one too small after these are cut
off, and less than two. -/
theorem dropGuard_bounds (n : Int) (hn : 0 ≤ n) (p : Nat) (x loss : ℝ)
    (low : n ≤ 10 ^ (p + guardDigits) * x) (high : 10 ^ (p + guardDigits) * x ≤ n + loss)
    (hloss : loss ≤ 10 ^ guardDigits) :
    (dropGuard n : ℝ) ≤ 10 ^ p * x ∧ 10 ^ p * x < dropGuard n + 2 := by
  have ten : (0 : ℝ) < 10 ^ guardDigits := by positivity
  have floor := tdiv_le_div (K := ℝ) n (unit guardDigits) hn (unit_pos _)
  have ceil := div_lt_tdiv_add_one (K := ℝ) n (unit guardDigits) (unit_pos _)
  rw [cast_unit] at floor ceil
  have places : 10 ^ p * x = 10 ^ (p + guardDigits) * x / 10 ^ guardDigits := by
    rw [pow_add]
    field_simp
  have below : n / 10 ^ guardDigits ≤ 10 ^ p * x := by
    rw [places]
    gcongr
  have above : 10 ^ p * x ≤ n / 10 ^ guardDigits + 1 := by
    rw [places, div_add_one ten.ne']
    gcongr
    linarith
  change ((n.tdiv (unit guardDigits) : Int) : ℝ) ≤ _ ∧
    _ < ((n.tdiv (unit guardDigits) : Int) : ℝ) + 2
  constructor <;> linarith

/-- Any error shrinks with the guard digits, and their cut adds less than one. -/
theorem dropGuard_near (n : Int) (p : Nat) (x error : ℝ)
    (h : |10 ^ (p + guardDigits) * x - n| ≤ error) :
    |10 ^ p * x - dropGuard n| ≤ error / 10 ^ guardDigits + 1 := by
  have ten : (0 : ℝ) < 10 ^ guardDigits := by positivity
  have cut := (abs_div_sub_tdiv_lt (K := ℝ) n (unit guardDigits) (unit_pos _)).le
  have split : 10 ^ p * x - dropGuard n =
      (10 ^ (p + guardDigits) * x - n) / 10 ^ guardDigits +
        (n / (unit guardDigits : Int) - (n.tdiv (unit guardDigits) : Int)) := by
    rw [pow_add, cast_unit, dropGuard]
    field_simp
    ring
  have shrunk : |(10 ^ (p + guardDigits) * x - n) / 10 ^ guardDigits| ≤
      error / 10 ^ guardDigits := by
    rw [abs_div, abs_of_pos ten]
    gcongr
  rw [split]
  exact (abs_add_le _ _).trans (add_le_add shrunk cut)

theorem two_mul_artanh (x : ℝ) (low : -1 ≤ x) (high : x ≤ 1) :
    2 * Real.artanh x = Real.log ((1 + x) / (1 - x)) := by
  rw [Real.artanh_eq_half_log ⟨low, high⟩]
  ring

theorem log_two_eq : Real.log 2 = 2 * Real.artanh (1 / 3) := by
  rw [two_mul_artanh _ (by norm_num) (by norm_num)]
  norm_num

theorem log_ten_eq : Real.log 10 = 3 * (2 * Real.artanh (1 / 3)) + 2 * Real.artanh (1 / 9) := by
  have product : (10 : ℝ) = 2 ^ 3 * ((1 + 1 / 9) / (1 - 1 / 9)) := by norm_num
  rw [← log_two_eq, two_mul_artanh _ (by norm_num) (by norm_num), product,
    Real.log_mul (by norm_num) (by norm_num), Real.log_pow]
  norm_num

/-- Three decimal digits are less than ten binary ones. -/
theorem log_ten_bounds : 2 ≤ Real.log 10 ∧ Real.log 10 ≤ 2.32 := by
  have high : 3 * Real.log 10 ≤ 10 * Real.log 2 := by
    have power := Real.log_le_log (by norm_num : (0 : ℝ) < 10 ^ 3)
      (by norm_num : (10 : ℝ) ^ 3 ≤ 2 ^ 10)
    rw [Real.log_pow, Real.log_pow] at power
    exact_mod_cast power
  have low : 3 * Real.log 2 ≤ Real.log 10 := by
    have power := Real.log_le_log (by norm_num : (0 : ℝ) < 2 ^ 3) (by norm_num : (2 : ℝ) ^ 3 ≤ 10)
    rw [Real.log_pow] at power
    exact_mod_cast power
  constructor <;> linarith [Real.log_two_gt_d9, Real.log_two_lt_d9]

theorem artanhInverse_nonneg (q : Int) (hq : 2 ≤ q) (p : Nat) (room : 2 * limit p + 1 < wordSize) :
    0 ≤ artanhInverse q p := by
  rw [artanhInverse, (inverseOddPowers_vanishingBelow false q p hq room).sum_eq]
  apply sum_nonneg
  intro k _
  rw [nth_inverseOddPowers]
  exact Int.tdiv_nonneg (unit_pos p).le (inverseOddPower_pos q hq k).le

/-- With fewer digits than this the guard digits take all that is cut off the terms of a series. -/
def maxDigits : Nat := 10 ^ 8

/-- They also leave the word room for the odd factors of all terms that are looked at. -/
theorem oddFactor_room {p : Nat} (hp : p ≤ maxDigits + guardDigits) :
    2 * limit p + 1 < wordSize := by
  rw [maxDigits, guardDigits] at hp
  rw [limit, wordSize]
  omega

section Logarithms

variable (p : Nat) (hp : p ≤ maxDigits)

include hp

/-- So few digits leave the word room for the guard digits. -/
theorem withGuard_eq : withGuard p = p + guardDigits := by
  rw [maxDigits] at hp
  apply withGuard_of_lt
  rw [guardDigits, wordSize]
  omega

/-- What is cut off the terms of eight series together does not reach the digits that are kept. -/
theorem guarded : 8 * (limit (p + guardDigits) + 1 : ℝ) ≤ 10 ^ guardDigits := by
  have count : 8 * (limit (p + guardDigits) + 1) ≤ 10 ^ guardDigits := by
    rw [maxDigits] at hp
    rw [limit, guardDigits]
    omega
  exact_mod_cast count

/-- The logarithm of 2 is never too large, and lacks less than two in its last digit. -/
theorem ln2_bounds : (ln2 p : ℝ) ≤ 10 ^ p * Real.log 2 ∧ 10 ^ p * Real.log 2 < ln2 p + 2 := by
  let w := p + guardDigits
  have room : 2 * limit w + 1 < wordSize := oddFactor_room (Nat.add_le_add_right hp _)
  have nonneg := artanhInverse_nonneg 3 (by decide) w room
  obtain ⟨low, high⟩ := artanhInverse_bounds 3 (by decide) w room
  have guard := guarded p hp
  have count : (0 : ℝ) ≤ limit w := Nat.cast_nonneg _
  rw [ln2, withGuard_eq p hp]
  apply dropGuard_bounds (2 * artanhInverse 3 w) (by omega) p (Real.log 2) (2 * (limit w + 1))
  · rw [log_two_eq]
    push_cast at low ⊢
    linarith
  · rw [log_two_eq]
    push_cast at high ⊢
    linarith
  · linarith

/-- So is the logarithm of 10. -/
theorem ln10_bounds : (ln10 p : ℝ) ≤ 10 ^ p * Real.log 10 ∧ 10 ^ p * Real.log 10 < ln10 p + 2 := by
  let w := p + guardDigits
  have room : 2 * limit w + 1 < wordSize := oddFactor_room (Nat.add_le_add_right hp _)
  have nonneg := artanhInverse_nonneg 3 (by decide) w room
  have nonneg' := artanhInverse_nonneg 9 (by decide) w room
  obtain ⟨low, high⟩ := artanhInverse_bounds 3 (by decide) w room
  obtain ⟨low', high'⟩ := artanhInverse_bounds 9 (by decide) w room
  have guard := guarded p hp
  simp only [ln10, withGuard_eq p hp]
  apply dropGuard_bounds (3 * (2 * artanhInverse 3 w) + 2 * artanhInverse 9 w) (by omega) p
    (Real.log 10) (8 * (limit w + 1))
  · rw [log_ten_eq]
    push_cast at low low' ⊢
    linarith
  · rw [log_ten_eq]
    push_cast at high high' ⊢
    linarith
  · exact guard

end Logarithms

end Reckoner.FixedPoint
