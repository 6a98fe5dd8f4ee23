import Reckoner.Proofs.Decimal.Power
import Reckoner.Proofs.Decimal.PowerError

namespace Reckoner.Decimal

open Numeric

/-- What the sign of a power leaves is the power of the magnitude. -/
theorem toRat_withSignOf (base v : Decimal) (n : Nat) (error : Rat)
    (near : |v.toRat - |base.toRat| ^ n| ≤ error) :
    |(base.withSignOf n v).toRat - base.toRat ^ n| ≤ error := by
  have parity : ((n : Int) % 2 ≠ 0) ↔ Odd n := by
    rw [Nat.odd_iff]
    omega
  rw [withSignOf]
  by_cases sign : base.isNegative
  · have negative : base.toRat = -|base.toRat| := by
      rw [abs_of_neg (isNegative_iff.1 sign), neg_neg]
    rcases Nat.even_or_odd n with even | odd
    · have keeps : ¬(base.isNegative ∧ (n : Int) % 2 ≠ 0) := by
        intro both
        exact Nat.not_odd_iff_even.2 even (parity.1 both.2)
      rw [if_neg keeps, ← even.pow_abs]
      exact near
    · rw [if_pos ⟨sign, parity.2 odd⟩, toRat_neg, negative, odd.neg_pow, neg_sub_neg, abs_sub_comm]
      exact near
  · have plain : |base.toRat| = base.toRat := by
      rw [isNegative_iff, not_lt] at sign
      exact abs_of_nonneg sign
    rw [if_neg (fun h => sign h.1), ← plain]
    exact near

/-- What a power with a natural exponent is: exact while the digits of the base, times the exponent,
are few enough, and else right up to one unit of the last significant digit. -/
def IsPower (base : Decimal) (n : Nat) (v : Decimal) : Prop :=
  if base.digitCount * n ≤ maxExactDigits then v.toRat = base.toRat ^ n
  else |v.toRat - base.toRat ^ n| ≤ 10 ^ (Int.log 10 (|base.toRat| ^ n) - resultDigits + 1)

theorem IsPower.of_exact {base v : Decimal} {n : Nat} (h : v.toRat = base.toRat ^ n) :
    IsPower base n v := by
  rw [IsPower, h, sub_self, abs_zero]
  split
  · rfl
  · positivity

section Integral

variable (base exponent : Decimal) (n : Nat) (hb : base.mantissa ≠ 0) (he : exponent.toRat = n)

include he

theorem powerRoute_integral (hr : |powerOrderEstimate base exponent| ≤ maxPowerOrder) :
    powerRoute base exponent =
      if base.digitCount * n ≤ maxExactDigits then .multiplied else .byLogarithm := by
  have integral : exponent.toRat = ((n : Int) : Rat) := by rw [he, Int.cast_natCast]
  have whole := isInteger_of_integral exponent n integral
  have count := truncate_of_integral exponent n integral
  obtain ⟨low, high⟩ := abs_le.1 hr
  rw [powerRoute, if_neg (not_lt.2 high), if_neg (not_lt.2 low), whole, count, Int.natAbs_natCast]
  simp only [true_and]

include hb

/-- A power whose order is in bounds by a margin is neither refused nor taken for zero. -/
theorem powerOrderEstimate_le (positive : 0 < n) (size : n ≤ 10 ^ 10)
    (range : WithinOrder 9999 (|base.toRat| ^ n)) :
    |powerOrderEstimate base exponent| ≤ maxPowerOrder := by
  have he0 : exponent.mantissa ≠ 0 := mantissa_ne_zero (by rw [he]; exact_mod_cast positive.ne')
  have ten : 0 < Real.log 10 := lt_of_lt_of_le two_pos FixedPoint.log_ten_bounds.1
  have moderate : |Real.logb 10 exponent.toRat| ≤ 10 := by
    rw [he, Rat.cast_natCast]
    apply abs_logb_le_ten
    · rw [Nat.abs_cast]
      exact_mod_cast positive
    · rw [Nat.abs_cast]
      exact_mod_cast size
  have exact : |(exponent.toRat : ℝ) * Real.logb 10 base.toRat| ≤ 9999 := by
    have log := range.abs_log_le
    push_cast at log
    rw [Real.log_pow, Real.log_abs] at log
    rw [he, Rat.cast_natCast, Real.logb, ← mul_div_assoc, abs_div, abs_of_pos ten, div_le_iff₀ ten]
    exact log
  have estimate := powerOrderEstimate_near base exponent hb he0 moderate (by linarith)
  have apart := abs_sub_abs_le_abs_sub (powerOrderEstimate base exponent : ℝ)
    (exponent.toRat * Real.logb 10 base.toRat)
  have real : |(powerOrderEstimate base exponent : ℝ)| ≤ 10000 := by linarith
  exact_mod_cast real

/-- The two routes that give a value find the power. -/
theorem boundedPower_integral (positive : 0 < n) (size : n ≤ 10 ^ 10)
    (range : WithinOrder 10000 (|base.toRat| ^ n))
    (hr : |powerOrderEstimate base exponent| ≤ maxPowerOrder) :
    ∃ v, boundedPower base exponent = .ok v ∧ IsPower base n v := by
  have integral : exponent.toRat = ((n : Int) : Rat) := by rw [he, Int.cast_natCast]
  have count := truncate_of_integral exponent n integral
  have route := powerRoute_integral base exponent n he hr
  rw [boundedPower_eq, route]
  by_cases short : base.digitCount * n ≤ maxExactDigits
  · have room : base.scale * n < wordSize := by
      have multiplied := scale_mul_lt_of_multiplied base exponent hb (route.trans (if_pos short))
      rwa [count, Int.natAbs_natCast] at multiplied
    refine ⟨base.natPow n, ?_, .of_exact (base.toRat_natPow n room)⟩
    simp only [if_pos short, exactPower, count, Int.natAbs_natCast, if_pos (Int.natCast_nonneg n)]
  · rw [← zpow_natCast] at range
    have length : (n : Int).natAbs < 10 ^ 100 := by
      rw [Int.natAbs_natCast]
      exact size.trans_lt (by decide)
    obtain ⟨r, found, near⟩ :=
      realPow_zpow_near base exponent n hb (by omega) integral range length
    rw [zpow_natCast] at near
    refine ⟨base.withSignOf n r, ?_, ?_⟩
    · simp only [if_neg short, realPower, found, count]
    · rw [IsPower, if_neg short]
      exact toRat_withSignOf base r n _ near

end Integral

/-- What becomes of a power whose order is in bounds: it is found, or it is so near the bounds that
its estimated order is beyond them. -/
def FoundWithinOrder (base : Decimal) (n : Nat) (result : Except Fault Decimal) : Prop :=
  (∃ v, result = .ok v ∧ IsPower base n v) ∨
    ¬WithinOrder 9999 (|base.toRat| ^ n) ∧ (result = .error .powerOutOfRange ∨ result = .ok zero)

theorem boundedPower_found (base exponent : Decimal) (n : Nat) (hb : base.mantissa ≠ 0)
    (he : exponent.toRat = n) (positive : 0 < n) (size : n ≤ 10 ^ 10)
    (range : WithinOrder 10000 (|base.toRat| ^ n)) :
    FoundWithinOrder base n (boundedPower base exponent) := by
  by_cases hr : |powerOrderEstimate base exponent| ≤ maxPowerOrder
  · exact .inl (boundedPower_integral base exponent n hb he positive size range hr)
  · have outside : ¬WithinOrder 9999 (|base.toRat| ^ n) := fun inner =>
      hr (powerOrderEstimate_le base exponent n hb he positive size inner)
    refine .inr ⟨outside, ?_⟩
    rw [abs_le, not_and_or, not_le, not_le] at hr
    by_cases refused : maxPowerOrder < powerOrderEstimate base exponent
    · exact .inl (if_pos refused)
    · rw [boundedPower, if_neg refused]
      exact .inr (if_pos (hr.resolve_right refused))

/-- A power with a natural exponent is found, unless its order is within one of the bounds, and is
exact while it is short. The length that counts is that of the base, with the zeros behind its
point, times the exponent: it may exceed the limit where the power itself does not. -/
theorem power_integral (base exponent : Decimal) (n : Nat) (hb : base.mantissa ≠ 0)
    (he : exponent.toRat = n) (hn : exponent.toRat ≤ maxExponent.toRat)
    (range : WithinOrder 10000 (|base.toRat| ^ n)) :
    FoundWithinOrder base n (power base exponent) := by
  have integral : exponent.toRat = ((n : Int) : Rat) := by rw [he, Int.cast_natCast]
  have count := truncate_of_integral exponent n integral
  have one : Decimal.one.toRat = 1 := isOne_iff.1 (by decide)
  have size : n ≤ 10 ^ 10 := by
    have most : maxExponent.toRat = 2147483637 := by
      rw [toRat_eq_div]
      norm_num [maxExponent, ofInt]
    rw [he, most] at hn
    have count : n ≤ 2147483637 := by exact_mod_cast hn
    omega
  have allowed : (exponent.compare maxExponent == .gt) = false := by
    rw [beq_eq_false_iff_ne, Ne, compare_gt_iff, not_lt]
    exact hn
  have nonzero : base.isZero = false := beq_eq_false_iff_ne.2 hb
  rw [power, nonzero, allowed, isInteger_of_integral exponent n integral, count]
  simp only [Bool.false_eq_true, if_false, Bool.not_true, and_false]
  by_cases unit : base.isOne
  · refine .inl ⟨Decimal.one, if_pos unit, .of_exact ?_⟩
    rw [isOne_iff.1 unit, one, one_pow]
  rw [if_neg unit]
  by_cases zero : exponent.isZero
  · refine .inl ⟨Decimal.one, if_pos zero, .of_exact ?_⟩
    have none : n = 0 := by
      have digits : exponent.mantissa = 0 := beq_iff_eq.1 zero
      rw [toRat_eq_div, digits, Int.cast_zero, zero_div] at he
      exact_mod_cast he.symm
    rw [none, pow_zero, one]
  rw [if_neg zero]
  by_cases sign : base.abs.isOne
  · refine .inl ⟨base.withSignOf n Decimal.one, if_pos sign, .of_exact ?_⟩
    have magnitude : |base.toRat| = 1 := by
      rw [← base.toRat_abs]
      exact isOne_iff.1 sign
    have near := toRat_withSignOf base Decimal.one n 0 (by rw [magnitude, one]; simp)
    exact sub_eq_zero.1 (abs_nonpos_iff.1 near)
  rw [if_neg sign]
  have positive : 0 < n := by
    rw [isZero, beq_iff_eq] at zero
    have some := toRat_ne_zero zero
    rw [he] at some
    exact Nat.pos_of_ne_zero (by exact_mod_cast some)
  exact boundedPower_found base exponent n hb he positive size range

/-- The cube of a base with a sign, for an exponent with zeros behind the point. -/
theorem power_integral_cube :
    let base : Decimal := ⟨-15, 1⟩
    let exponent : Decimal := ⟨300, 2⟩
    base.mantissa ≠ 0 ∧ exponent.toRat = (3 : Nat) ∧ exponent.toRat ≤ maxExponent.toRat ∧
      WithinOrder 10000 (|base.toRat| ^ 3) ∧ FoundWithinOrder base 3 (power base exponent) := by
  intro base exponent
  have nonzero : base.mantissa ≠ 0 := by decide
  have integral : exponent.toRat = (3 : Nat) := by
    rw [toRat_eq_div]
    norm_num [exponent]
  have allowed : exponent.toRat ≤ maxExponent.toRat := by
    rw [integral, toRat_eq_div]
    norm_num [maxExponent, ofInt]
  have range : WithinOrder 10000 (|base.toRat| ^ 3) := by
    have power : |base.toRat| ^ 3 = 27 / 8 := by
      rw [toRat_eq_div]
      norm_num [base]
    have narrow : WithinOrder 1 (|base.toRat| ^ 3) := by
      rw [power, WithinOrder]
      norm_num
    exact narrow.mono (by decide)
  exact ⟨nonzero, integral, allowed, range, power_integral base exponent 3 nonzero integral allowed range⟩

/-- Two powers that are in bounds and short, and are not found. The first has 6021 digits and is
rounded to thirty of them, because one digit times the exponent is more than the limit. The second
is the bound itself, and its estimated order is a little above it. -/
theorem power_exceeding_limits :
    let two := ofInt 2
    let large : Decimal := ⟨pow10 2000, 0⟩
    WithinOrder 10000 (|two.toRat| ^ 20001) ∧
      (two.natPow 20001).normalize.digitCount ≤ maxExactDigits ∧
      (¬∃ v, power two (ofInt 20001) = .ok v ∧ v.toRat = two.toRat ^ 20001) ∧
      WithinOrder 10000 (|large.toRat| ^ 5) ∧
      (large.natPow 5).normalize.digitCount ≤ maxExactDigits ∧
      power large (ofInt 5) = .error .powerOutOfRange := by
  intro two large
  have rounded : ¬SameOutcome (power two (ofInt 20001)) (.ok (two.natPow 20001)) := by decide +kernel
  have refused : power large (ofInt 5) = .error .powerOutOfRange := by decide +kernel
  have below (value : Rat) (h : 1 ≤ value) : 10 ^ (-(10000 : Nat) : Int) ≤ value :=
    (zpow_le_one_of_nonpos₀ (by norm_num) (by norm_num)).trans h
  have twoValue : |two.toRat| = 2 := by
    rw [toRat_eq_div]
    norm_num [two, ofInt]
  have largeValue : |large.toRat| = 10 ^ 2000 := by
    have integral : large.toRat = 10 ^ 2000 := by
      rw [toRat_eq_div, Int.cast_natCast, cast_pow10]
      exact div_one _
    rw [integral]
    exact abs_of_pos (by positivity)
  have twoRange : WithinOrder 10000 (|two.toRat| ^ 20001) := by
    rw [twoValue]
    refine ⟨below _ (one_le_pow₀ (by norm_num)), ?_⟩
    calc
      (2 : Rat) ^ 20001 = (2 ^ 3) ^ 6667 := (pow_mul 2 3 6667)
      _ ≤ 10 ^ 6667 := pow_le_pow_left₀ (by norm_num) (by norm_num) _
      _ ≤ 10 ^ 10000 := pow_le_pow_right₀ (by norm_num) (by norm_num)
      _ = 10 ^ ((10000 : Nat) : Int) := (zpow_natCast _ _).symm
  have largeRange : WithinOrder 10000 (|large.toRat| ^ 5) := by
    rw [largeValue]
    refine ⟨below _ (one_le_pow₀ (one_le_pow₀ (by norm_num))), ?_⟩
    rw [← pow_mul, zpow_natCast]
  refine ⟨twoRange, by decide +kernel, ?_, largeRange, by decide +kernel, refused⟩
  rintro ⟨v, found, exact⟩
  apply rounded
  rw [found]
  exact SameValue.of_toRat (by rw [exact, toRat_natPow two 20001 (by decide)])

end Reckoner.Decimal
