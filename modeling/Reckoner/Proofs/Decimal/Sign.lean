import Mathlib.Algebra.Group.Int.Even
import Mathlib.Algebra.Ring.Int.Parity
import Reckoner.Decimal.Operations
import Reckoner.Proofs.Decimal.Significant

namespace Reckoner.Decimal

open FixedPoint Numeric

section Magnitude

variable (x : Decimal)

@[simp] theorem isZero_neg : (-x).isZero = x.isZero := by
  simp [isZero, beq_eq_decide]

@[simp] protected theorem abs_neg : (-x).abs = x.abs := by
  simp [abs]

@[simp] theorem digitCount_neg : (-x).digitCount = x.digitCount := by
  simp [digitCount]

@[simp] theorem order_neg : (-x).order = x.order := by
  simp [order]

@[simp] theorem lead_neg : (-x).lead = x.lead := by
  simp [lead]

@[simp] theorem log10Estimate_neg : (-x).log10Estimate = x.log10Estimate := by
  simp [log10Estimate]

@[simp] theorem leading_neg (p : Nat) : leading (-x) p = leading x p := by
  simp [leading]

/-- The logarithm is that of the magnitude. -/
@[simp] theorem ln_neg (p : Nat) : FixedPoint.ln (-x) p = FixedPoint.ln x p := by
  simp [FixedPoint.ln]

end Magnitude

/-- A number that is rounded to significant digits keeps its sign. -/
theorem roundSignificant_neg (x : Decimal) (k : Nat) :
    (-x).roundSignificant k = -x.roundSignificant k := by
  rw [roundSignificant, roundSignificant, isZero_neg, digitCount_neg]
  by_cases kept : x.isZero ∨ x.digitCount ≤ k
  · rw [if_pos kept, if_pos kept]
  · simp only [if_neg kept, neg_mantissa, neg_scale, halfAway_neg]
    by_cases within : x.digitCount - k ≤ x.scale
    · rw [if_pos within, if_pos within]
      rfl
    · rw [if_neg within, if_neg within, Int.neg_mul]
      rfl

theorem ofRat_neg (r : Rat) (scale : Nat) : ofRat (-r) scale = -ofRat r scale := by
  rw [ofRat, ofRat, Rat.num_neg_eq_neg_num, Rat.den_neg_eq_den, Int.neg_mul, halfAway_neg]
  rfl

/-- So does a quotient when its divisor changes the sign, since it is rounded away from zero on both
sides and at the same place. -/
theorem divideSignificant_neg (x y : Decimal) (k : Nat) :
    x.divideSignificant? (-y) k = (x.divideSignificant? y k).map (-·) := by
  rw [divideSignificant?, divideSignificant?, isZero_neg, order_neg, divide?, divide?, isZero_neg]
  by_cases noDivisor : y.isZero
  · rw [if_pos noDivisor, if_pos noDivisor]
    rfl
  · simp only [if_neg noDivisor]
    by_cases zero : x.isZero
    · rw [if_pos zero, if_pos zero]
      rfl
    · rw [if_neg zero, if_neg zero, toRat_neg, div_neg, ofRat_neg, Option.map_some, Option.map_some,
        Option.map_some, roundSignificant_neg]

theorem natPow_neg_of_even (x : Decimal) (n : Nat) (even : Even n) :
    (-x).natPow n = x.natPow n := by
  ext
  · exact even.neg_pow x.mantissa
  · rfl

theorem natPow_neg_of_odd (x : Decimal) (n : Nat) (odd : Odd n) :
    (-x).natPow n = -x.natPow n := by
  ext
  · exact odd.neg_pow x.mantissa
  · rfl

/-- A value with the sign that the power of minus one has. -/
def negateOdd (n : Int) (v : Decimal) : Decimal :=
  if Odd n then -v else v

theorem negateOdd_of_even {n : Int} (even : Even n) : negateOdd n = id := by
  funext v
  exact if_neg (Int.not_odd_iff_even.2 even)

theorem negateOdd_of_odd {n : Int} (odd : Odd n) : negateOdd n = (-·) := by
  funext v
  exact if_pos odd

theorem negateOdd_zero (n : Int) : negateOdd n zero = zero := by
  rw [negateOdd]
  split <;> rfl

section Sign

variable {base : Decimal} (hb : 0 < base.toRat)

include hb

theorem withSignOf_of_pos (n : Int) : base.withSignOf n = id := by
  have positive : ¬base.isNegative := by
    rw [isNegative_iff]
    linarith
  funext v
  exact if_neg fun both => positive both.1

/-- Only an odd power of a negative base is negative. -/
theorem withSignOf_neg_of_pos (n : Int) : (-base).withSignOf n = negateOdd n := by
  have negative : (-base).isNegative := by
    rw [isNegative_iff, toRat_neg]
    linarith
  have parity : (-base).isNegative ∧ n % 2 ≠ 0 ↔ Odd n := by
    rw [Int.odd_iff]
    constructor
    · rintro ⟨-, odd⟩
      omega
    · intro odd
      exact ⟨negative, by omega⟩
  funext v
  exact if_congr parity rfl rfl

end Sign

section Power

variable (base exponent : Decimal)

@[simp] theorem powerOrderEstimate_neg :
    powerOrderEstimate (-base) exponent = powerOrderEstimate base exponent := by
  simp [powerOrderEstimate]

/-- Multiplied out, a power has its sign from the product, and a reciprocal keeps it. -/
theorem exactPower_neg (n : Int) : (-base).exactPower n = (base.exactPower n).map (negateOdd n) := by
  rcases Int.even_or_odd n with even | odd
  · rw [exactPower, natPow_neg_of_even base _ (Int.natAbs_even.2 even), negateOdd_of_even even,
      Except.map_id]
    rfl
  · rw [exactPower, exactPower, natPow_neg_of_odd base _ (Int.natAbs_odd.2 odd),
      negateOdd_of_odd odd]
    by_cases hn : 0 ≤ n
    · rw [if_pos hn, if_pos hn]
      rfl
    · rw [if_neg hn, if_neg hn, divideSignificant_neg]
      cases one.divideSignificant? (base.natPow n.natAbs) resultDigits <;> rfl

variable (hb : 0 < base.toRat)

include hb

/-- By way of the logarithm, which is that of the magnitude, the sign is put on at the end. -/
theorem realPower_neg :
    (-base).realPower exponent = (base.realPower exponent).map (negateOdd exponent.truncate) := by
  have same : (-base).realPow? exponent resultDigits = base.realPow? exponent resultDigits := by
    rw [realPow?, realPow?, ln_neg]
  rw [realPower, realPower, same, withSignOf_neg_of_pos hb,
    withSignOf_of_pos hb]
  cases base.realPow? exponent resultDigits <;> rfl

theorem boundedPower_neg :
    boundedPower (-base) exponent =
      (boundedPower base exponent).map (negateOdd exponent.truncate) := by
  rw [boundedPower, boundedPower, powerOrderEstimate_neg, digitCount_neg]
  by_cases large : maxPowerOrder < powerOrderEstimate base exponent
  · simp only [if_pos large]
    rfl
  simp only [if_neg large]
  by_cases small : powerOrderEstimate base exponent < -maxPowerOrder
  · simp only [if_pos small]
    exact congrArg Except.ok (negateOdd_zero _).symm
  simp only [if_neg small]
  split
  · exact exactPower_neg base _
  · exact realPower_neg base exponent hb

end Power

/-- Opposite bases have powers that agree but for the sign, which differs where the exponent is odd.
A power that is refused for one is refused for the other, with the same fault. -/
theorem power_neg (base exponent : Decimal) (n : Int) (hb : 0 < base.toRat) (hb1 : base.toRat ≠ 1)
    (he : exponent.toRat = n) :
    power (-base) exponent = (power base exponent).map fun v => if Odd n then -v else v := by
  have notOne : ¬base.isOne := by rwa [isOne_iff]
  have notOne' : ¬(-base).isOne := by
    rw [isOne_iff, toRat_neg]
    linarith
  have magnitude : ¬base.abs.isOne := by rwa [isOne_iff, toRat_abs, abs_of_pos hb]
  have nonzero : ¬base.isZero := by
    rw [isZero_iff]
    exact hb.ne'
  have integral := isInteger_of_integral exponent n he
  have whole := truncate_of_integral exponent n he
  have bounded := boundedPower_neg base exponent hb
  rw [whole] at bounded
  change _ = (power base exponent).map (negateOdd n)
  simp only [power, isZero_neg, Decimal.abs_neg, if_neg notOne, if_neg notOne', if_neg nonzero,
    integral, if_neg magnitude, Bool.not_true, Bool.false_eq_true, and_false, if_false]
  by_cases large : (exponent.compare maxExponent == .gt) = true
  · rw [if_pos large, if_pos large]
    rfl
  rw [if_neg large, if_neg large]
  by_cases zero : exponent.isZero
  · have none : n = 0 := by
      rw [isZero_iff.1 zero] at he
      exact_mod_cast he.symm
    rw [if_pos zero, if_pos zero, none]
    rfl
  · rw [if_neg zero, if_neg zero]
    exact bounded

/-- The reciprocals of two opposite cubes are rounded to opposite numbers. -/
theorem power_neg_reciprocal :
    let base : Decimal := ⟨15, 1⟩
    let exponent : Decimal := ⟨-300, 2⟩
    0 < base.toRat ∧ base.toRat ≠ 1 ∧ exponent.toRat = ((-3 : Int) : Rat) ∧
      power base exponent = .ok ⟨296296296296296296296296296296, 30⟩ ∧
      power (-base) exponent = .ok ⟨-296296296296296296296296296296, 30⟩ ∧
      power (-base) exponent =
        (power base exponent).map fun v => if Odd (-3 : Int) then -v else v := by
  intro base exponent
  have value : base.toRat = 3 / 2 := by
    rw [toRat_eq_div]
    norm_num [base]
  have positive : 0 < base.toRat := by
    rw [value]
    norm_num
  have notOne : base.toRat ≠ 1 := by
    rw [value]
    norm_num
  have integral : exponent.toRat = ((-3 : Int) : Rat) := by
    rw [toRat_eq_div]
    norm_num [exponent]
  have found : power base exponent = .ok ⟨296296296296296296296296296296, 30⟩ := by decide +kernel
  have opposite := power_neg base exponent (-3) positive notOne integral
  refine ⟨positive, notOne, integral, found, ?_, opposite⟩
  rw [opposite, found]
  rfl

end Reckoner.Decimal
