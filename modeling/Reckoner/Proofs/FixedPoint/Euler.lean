import Reckoner.Proofs.FixedPoint.ExponentialError
import Reckoner.Proofs.FixedPoint.Pi

namespace Reckoner.FixedPoint

open Finset Numeric Series

section InverseFactorials

variable (p : Nat)

/-- Cutting each quotient is cutting the last one, so no term is wrong by more than one. -/
theorem carried_inverseFactorials (k : Nat) :
    (inverseFactorials p).carried k = (unit p).tdiv k.factorial := by
  induction k with
  | zero => exact (Int.tdiv_one (unit p)).symm
  | succ k ih =>
    change ((inverseFactorials p).carried k).tdiv (k + 1) = _
    have next : (k + 1 : Int) = (k + 1 : Nat) := rfl
    rw [ih, unit, next, ← Int.ofNat_tdiv, ← Int.ofNat_tdiv, ← Int.ofNat_tdiv,
      Nat.div_div_eq_div_mul, Nat.factorial_succ, Nat.mul_comm]

theorem nth_inverseFactorials (k : Nat) :
    (inverseFactorials p).nth k = (unit p).tdiv k.factorial :=
  carried_inverseFactorials p k

theorem inverseFactorials_vanishing : (inverseFactorials p).Vanishing := by
  intro k hk
  have current : (inverseFactorials p).carried k = 0 := hk
  change ((inverseFactorials p).carried k).tdiv (k + 1) = 0
  rw [current, Int.zero_tdiv]

theorem inverseFactorials_sum_nonneg : 0 ≤ (inverseFactorials p).sum p := by
  rw [((inverseFactorials_vanishing p).below (limit p)).sum_eq]
  apply sum_nonneg
  intro k _
  rw [nth_inverseFactorials]
  exact Int.tdiv_nonneg (unit_pos p).le (Int.natCast_nonneg _)

/-- The sum lacks what was cut off its terms, and at most one for those that are not looked at. -/
theorem inverseFactorials_near :
    ((inverseFactorials p).sum p : ℝ) ≤ 10 ^ p * Real.exp 1 ∧
      10 ^ p * Real.exp 1 ≤ (inverseFactorials p).sum p + (limit p + 1) := by
  let a (k : Nat) : ℝ := 10 ^ p * (1 ^ k / k.factorial)
  have near (k : Nat) : 0 ≤ a k - (inverseFactorials p).nth k ∧
      a k - (inverseFactorials p).nth k ≤ 1 := by
    have pos : (0 : Int) < k.factorial := by exact_mod_cast k.factorial_pos
    have floor := tdiv_le_div (K := ℝ) (unit p) _ (unit_pos p).le pos
    have ceil := div_lt_tdiv_add_one (K := ℝ) (unit p) _ pos
    have term : a k = (unit p : ℝ) / ((k.factorial : Int) : ℝ) := by
      rw [cast_unit, Int.cast_natCast]
      simp only [a, one_pow, mul_one_div]
    rw [nth_inverseFactorials, term]
    constructor <;> linarith
  obtain ⟨low, high⟩ :=
    ((inverseFactorials_vanishing p).below _).sum_between a 0 1 fun k _ => near k
  have scaled : ∑ k ∈ range (limit p), a k =
      10 ^ p * ∑ k ∈ range (limit p), (1 : ℝ) ^ k / k.factorial := (mul_sum _ _ _).symm
  obtain ⟨below, above⟩ := exp_partial_sum_bounds 1 (by norm_num) le_rfl p
  rw [← scaled] at below above
  constructor <;> linarith

/-- Euler's number is never too large, and lacks less than two in its last digit. -/
theorem euler_bounds (hp : p ≤ maxDigits) :
    (euler p : ℝ) ≤ 10 ^ p * Real.exp 1 ∧ 10 ^ p * Real.exp 1 < euler p + 2 := by
  let w := p + guardDigits
  obtain ⟨low, high⟩ := inverseFactorials_near w
  have guard := guarded p hp
  have count : (0 : ℝ) ≤ limit w := Nat.cast_nonneg _
  simp only [euler, withGuard_eq p hp]
  exact dropGuard_bounds _ (inverseFactorials_sum_nonneg w) p (Real.exp 1) (limit w + 1) low high
    (by linarith)

end InverseFactorials

section Completeness

variable (p : Nat)

theorem inverseFactorials_limit : (inverseFactorials p).nth (limit p) = 0 := by
  have large : pow10 p < (limit p).factorial := by
    have double := factorial_limit p
    have power : pow10 p = 10 ^ p := rfl
    have pos := pow10_pos p
    omega
  rw [nth_inverseFactorials]
  exact Int.tdiv_eq_zero_of_lt (unit_pos p).le (Int.ofNat_lt.2 large)

theorem inverseOddPowers_limit (alternating : Bool) (q : Int) (hq : 2 ≤ q) :
    (inverseOddPowers alternating q p).nth (limit p) = 0 := by
  have large : unit p < q ^ (2 * limit p + 1) * (oddFactor (limit p) : Int) := by
    have digits : (10 : Int) ^ p ≤ 2 ^ (4 * p) := by
      rw [pow_mul]
      exact pow_le_pow_left₀ (by decide) (by decide) p
    have power : (2 : Int) ^ (4 * p) < q ^ (2 * limit p + 1) := by
      have count : 4 * p < 2 * limit p + 1 := by
        rw [limit]
        omega
      exact (pow_lt_pow_right₀ (by decide) count).trans_le (pow_le_pow_left₀ (by decide) hq _)
    have one : unit p = 10 ^ p := by
      rw [unit, cast_pow10]
    rw [one]
    have factor : (1 : Int) ≤ oddFactor (limit p) := Int.natCast_pos.2 (oddFactor_pos _)
    exact (digits.trans_lt power).trans_le (le_mul_of_one_le_right (by positivity) factor)
  have none := Int.tdiv_eq_zero_of_lt (unit_pos p).le large
  rw [nth_inverseOddPowers, none]
  split <;> rfl

/-- No series of a constant is cut short: looking at more terms finds none that counts. -/
theorem constants_complete (more : Nat) :
    (inverseFactorials p).termsFrom (limit p + more) (inverseFactorials p).start 0 =
        (inverseFactorials p).terms p ∧
      ∀ (alternating : Bool) (q : Int), 2 ≤ q →
        (inverseOddPowers alternating q p).termsFrom (limit p + more) q 0 =
          (inverseOddPowers alternating q p).terms p :=
  ⟨terms_of_end _ p more (inverseFactorials_limit p),
    fun alternating q hq => terms_of_end _ p more (inverseOddPowers_limit p alternating q hq)⟩

end Completeness

/-- With up to ten thousand digits π is wrong by less than two in its last digit. So are the other
constants, and they are never too large. -/
theorem constants_accurate (p : Nat) (hp : p ≤ 10000) :
    |(pi p : ℝ) - Real.pi * 10 ^ p| < 2 ∧
      ((euler p : ℝ) ≤ Real.exp 1 * 10 ^ p ∧ Real.exp 1 * 10 ^ p - euler p < 2) ∧
      ((ln2 p : ℝ) ≤ Real.log 2 * 10 ^ p ∧ Real.log 2 * 10 ^ p - ln2 p < 2) ∧
      ((ln10 p : ℝ) ≤ Real.log 10 * 10 ^ p ∧ Real.log 10 * 10 ^ p - ln10 p < 2) := by
  have few : p ≤ maxDigits := hp.trans (by decide)
  have circle := pi_near p few
  obtain ⟨low, high⟩ := euler_bounds p few
  obtain ⟨low2, high2⟩ := ln2_bounds p few
  obtain ⟨low10, high10⟩ := ln10_bounds p few
  rw [abs_sub_comm, mul_comm (10 ^ p)] at circle
  rw [mul_comm] at low high low2 high2 low10 high10
  exact ⟨circle, ⟨low, sub_lt_iff_lt_add'.2 high⟩, ⟨low2, sub_lt_iff_lt_add'.2 high2⟩,
    ⟨low10, sub_lt_iff_lt_add'.2 high10⟩⟩

/-- With ten digits each constant is the real one, cut. -/
theorem constants_accurate_ten :
    10 ≤ 10000 ∧ pi 10 = 31415926535 ∧ |(31415926535 : ℝ) - Real.pi * 10 ^ 10| < 2 ∧
      euler 10 = 27182818284 ∧ (27182818284 : ℝ) ≤ Real.exp 1 * 10 ^ 10 ∧
      Real.exp 1 * 10 ^ 10 - 27182818284 < 2 ∧
      ln2 10 = 6931471805 ∧ (6931471805 : ℝ) ≤ Real.log 2 * 10 ^ 10 ∧
      Real.log 2 * 10 ^ 10 - 6931471805 < 2 ∧
      ln10 10 = 23025850929 ∧ (23025850929 : ℝ) ≤ Real.log 10 * 10 ^ 10 ∧
      Real.log 10 * 10 ^ 10 - 23025850929 < 2 := by
  have circle : pi 10 = 31415926535 := by decide +kernel
  have base : euler 10 = 27182818284 := by decide +kernel
  have two : ln2 10 = 6931471805 := by decide +kernel
  have ten : ln10 10 = 23025850929 := by decide +kernel
  obtain ⟨near, ⟨low, high⟩, ⟨low2, high2⟩, low10, high10⟩ := constants_accurate 10 (by decide)
  rw [circle] at near
  rw [base] at low high
  rw [two] at low2 high2
  rw [ten] at low10 high10
  exact ⟨by decide, circle, near, base, low, high, two, low2, high2, ten, low10, high10⟩

end Reckoner.FixedPoint
