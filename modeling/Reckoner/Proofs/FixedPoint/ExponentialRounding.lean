import Mathlib.Data.Int.Log
import Reckoner.Proofs.FixedPoint.ExponentialError

namespace Reckoner.FixedPoint

open Numeric Series

section Terms

variable (r : Int) (p : Nat) (hr : 0 ≤ r) (small : 4 * r ≤ 3 * unit p)

include hr small

/-- The terms of the exponential have vanished where they are no longer looked at. -/
theorem exponentialTerms_limit : (exponentialTerms r p).nth (limit p) = 0 := by
  obtain ⟨low, high, -⟩ := carried_exponentialTerms_bounds r p hr small (limit p)
  have pos : (0 : ℝ) < 10 ^ p := by positivity
  have nonneg : (0 : ℝ) ≤ r / 10 ^ p := div_nonneg (by exact_mod_cast hr) pos.le
  have part : (r / 10 ^ p : ℝ) ≤ 1 := (rest_le r p small).trans (by norm_num)
  have large : (2 * 10 ^ p : ℝ) ≤ (limit p).factorial := by exact_mod_cast factorial_limit p
  have power : (r / 10 ^ p : ℝ) ^ limit p ≤ 1 := pow_le_one₀ nonneg part
  have term : 10 ^ p * ((r / 10 ^ p : ℝ) ^ limit p / (limit p).factorial) < 1 := by
    rw [← mul_div_assoc, div_lt_one (by linarith)]
    calc
      10 ^ p * (r / 10 ^ p : ℝ) ^ limit p ≤ 10 ^ p * 1 := by gcongr
      _ < (limit p).factorial := by linarith
  have below : (exponentialTerms r p).carried (limit p) < 1 := by exact_mod_cast high.trans_lt term
  have carries (k : Nat) : (exponentialTerms r p).nth k = (exponentialTerms r p).carried k := rfl
  rw [carries]
  omega

/-- So the series is not cut short: with more terms it would be the same. -/
theorem exponentialTerms_complete (more : Nat) :
    let s := exponentialTerms r p
    s.termsFrom (limit p + more) s.start 0 = s.terms p :=
  (exponentialTerms r p).terms_of_end p more (exponentialTerms_limit r p hr small)

end Terms

section Rounded

variable (p : Nat) (hp : 20 ≤ p ∧ p ≤ 1000)

include hp

/-- The number of halvings is the integer part of the number of times that ln 2 goes into y. -/
theorem floor_div_ln2 (y : Int) : ⌊(y : ℝ) / ln2 p⌋ = y.fdiv (ln2 p) := by
  have positive : 0 ≤ ln2 p := (ln2_pos p (by rw [maxDigits]; omega) (by omega)).le
  rw [Int.floor_div_cast_of_nonneg positive, Int.floor_intCast, Int.fdiv_eq_ediv_of_nonneg y positive]

variable (digits : Nat) (hd : 1 ≤ digits ∧ digits + 10 ≤ p)

include hd

/-- The ten digits behind those asked for take what the constant and the series lose. -/
theorem exponentialLoss_le :
    ((12 * limit p + 136003) / 10 ^ p : ℝ) ≤ 1 / (1000 * 10 ^ digits) := by
  have units : 1000 * (12 * limit p + 136003) ≤ 10 ^ 10 := by
    rw [limit]
    omega
  have cast : (1000 * (12 * limit p + 136003) : ℝ) ≤ 10 ^ 10 := by exact_mod_cast units
  rw [div_le_div_iff₀ (by positivity) (by positivity), one_mul]
  calc
    (12 * limit p + 136003) * (1000 * 10 ^ digits : ℝ) =
        1000 * (12 * limit p + 136003) * 10 ^ digits := by ring
    _ ≤ 10 ^ 10 * 10 ^ digits := by gcongr
    _ = 10 ^ (digits + 10) := by ring
    _ ≤ 10 ^ p := pow_le_pow_right₀ (by norm_num) hd.2

theorem exp_rounded (y : Int) (steps : |y.fdiv (ln2 p)| ≤ 34000) :
    ∃ r, exp? y p digits = some r ∧
      |(r.toRat : ℝ) - Real.exp (y / 10 ^ p)| ≤
        (1 / 2 + 1 / 1000) * 10 ^ (Int.log 10 (Real.exp (y / 10 ^ p)) - digits + 1) := by
  have given : |10 ^ p * (y / 10 ^ p : ℝ) - y| ≤ 10 ^ p * 0 := by
    rw [mul_div_cancel₀ _ (by positivity), sub_self, abs_zero, mul_zero]
  obtain ⟨s, found, near⟩ := exp_near_of_steps p (by rw [maxDigits]; omega) (by omega) y digits
    (y / 10 ^ p) 0 given (by norm_num) steps
  obtain ⟨E, hE⟩ : ∃ E, E = Real.exp (y / 10 ^ p) := ⟨_, rfl⟩
  obtain ⟨order, horder⟩ : ∃ order, order = Int.log 10 E := ⟨_, rfl⟩
  have positive : 0 < E := hE ▸ Real.exp_pos _
  have low : 10 ^ order ≤ E := by
    rw [horder]
    exact_mod_cast Int.zpow_log_le_self (b := 10) (by decide) positive
  have high : E < 10 ^ (order + 1) := by
    rw [horder]
    exact_mod_cast Int.lt_zpow_succ_log_self (b := 10) (by decide) E
  rw [← hE, mul_zero, zero_add] at near
  have loss : |(s.toRat : ℝ) - E| ≤ E * (1 / (1000 * 10 ^ digits)) :=
    near.trans (mul_le_mul_of_nonneg_left (exponentialLoss_le p hp digits hd) positive.le)
  have relative : 2 * 10 ^ digits * |(s.toRat : ℝ) - E| ≤ E := by
    calc
      2 * 10 ^ digits * |(s.toRat : ℝ) - E| ≤
          2 * 10 ^ digits * (E * (1 / (1000 * 10 ^ digits))) := by gcongr
      _ = E / 500 := by
        field_simp
        norm_num
      _ ≤ E := div_le_self positive.le (by norm_num)
  have unit : (10 : ℝ) ^ (order + 1) = 10 ^ (order - digits + 1) * 10 ^ digits := by
    rw [← zpow_natCast, ← zpow_add₀ (by norm_num)]
    congr 1
    omega
  have absolute : |(s.toRat : ℝ) - E| ≤ 1 / 1000 * 10 ^ (order - digits + 1) := by
    calc
      |(s.toRat : ℝ) - E| ≤ E * (1 / (1000 * 10 ^ digits)) := loss
      _ ≤ 10 ^ (order + 1) * (1 / (1000 * 10 ^ digits)) := by gcongr
      _ = 1 / 1000 * 10 ^ (order - digits + 1) := by
        rw [unit]
        field_simp
  have rounded := s.abs_roundSignificant_sub_le digits order E high relative hd.1 low
  refine ⟨_, found, ?_⟩
  rw [← hE, ← horder]
  linarith

/-- The exponential is wrong by little more than half a unit of its last digit, which is that of the
exact value also where rounding carries it to the next power of ten. It is refused or taken for
zero exactly where the power of two is not written out. -/
theorem exp_accurate (y : Int) :
    (|⌊(y : ℝ) / ln2 p⌋| ≤ 34000 → ∃ r, exp? y p digits = some r ∧
      |(r.toRat : ℝ) - Real.exp (y / 10 ^ p)| ≤
        (1 / 2 + 1 / 1000) * 10 ^ (Int.log 10 (Real.exp (y / 10 ^ p)) - digits + 1)) ∧
    (34000 < ⌊(y : ℝ) / ln2 p⌋ → exp? y p digits = none) ∧
    (⌊(y : ℝ) / ln2 p⌋ < -34000 → exp? y p digits = some .zero) := by
  rw [floor_div_ln2 p hp y]
  refine ⟨exp_rounded p hp digits hd y, ?_, ?_⟩
  · intro large
    exact if_pos large
  · intro small
    have within : ¬maxBinaryExponent < y.fdiv (ln2 p) := by
      rw [maxBinaryExponent]
      omega
    exact (if_neg within).trans (if_pos small)

end Rounded

/-- For ln 10 cut to twenty digits the exponential is a little less than ten, and carried to ten. -/
theorem exp_accurate_carried :
    let p := 20
    let y : Int := 230258509299404568401
    let far : Int := 30000 * unit p
    20 ≤ p ∧ p ≤ 1000 ∧ 10 + 10 ≤ p ∧ |⌊(y : ℝ) / ln2 p⌋| ≤ 34000 ∧
      exp? y p 10 = some ⟨10000000000, 9⟩ ∧
      |((⟨10000000000, 9⟩ : Decimal).toRat : ℝ) - Real.exp (y / 10 ^ p)| ≤
        (1 / 2 + 1 / 1000) * 10 ^ (Int.log 10 (Real.exp (y / 10 ^ p)) - (10 : Nat) + 1) ∧
      34000 < ⌊(far : ℝ) / ln2 p⌋ ∧ exp? far p 10 = none ∧
      ⌊((-far : Int) : ℝ) / ln2 p⌋ < -34000 ∧ exp? (-far) p 10 = some .zero := by
  intro p y far
  have digits : 20 ≤ p ∧ p ≤ 1000 := by decide
  have places : 1 ≤ 10 ∧ 10 + 10 ≤ p := by decide
  have halvings := floor_div_ln2 p digits
  have few : |⌊(y : ℝ) / ln2 p⌋| ≤ 34000 := by
    rw [halvings]
    decide +kernel
  have large : 34000 < ⌊(far : ℝ) / ln2 p⌋ := by
    rw [halvings]
    decide +kernel
  have small : ⌊((-far : Int) : ℝ) / ln2 p⌋ < -34000 := by
    rw [halvings]
    decide +kernel
  have value : exp? y p 10 = some ⟨10000000000, 9⟩ := by decide +kernel
  obtain ⟨r, found, near⟩ := (exp_accurate p digits 10 places y).1 few
  have same : r = ⟨10000000000, 9⟩ := Option.some.inj (found.symm.trans value)
  rw [same] at near
  exact ⟨digits.1, digits.2, places.2, few, value, near, large,
    (exp_accurate p digits 10 places far).2.1 large, small,
    (exp_accurate p digits 10 places (-far)).2.2 small⟩

end Reckoner.FixedPoint
