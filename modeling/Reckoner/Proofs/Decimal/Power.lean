import Mathlib.Data.Int.Basic
import Reckoner.Decimal.Operations
import Reckoner.Proofs.Decimal.Agreement
import Reckoner.Proofs.Decimal.Estimate
import Reckoner.Proofs.Decimal.Magnitude

namespace Reckoner

namespace Decimal

open Numeric

theorem withSignOf_pad (base : Decimal) (k : Nat) (n : Int) (v : Decimal) :
    (base.pad k).withSignOf n v = base.withSignOf n v := by
  rw [withSignOf, withSignOf, isNegative_pad]

theorem divideSignificant_pad (x y : Decimal) (k digits : Nat) (hy : y.mantissa ≠ 0) :
    x.divideSignificant? (y.pad k) digits = x.divideSignificant? y digits := by
  rw [divideSignificant?, divideSignificant?, isZero_pad, y.order_pad k hy, divide?, divide?,
    isZero_pad, toRat_pad]

theorem exactPower_pad (base : Decimal) (i j : Nat) (n : Int) (hb : base.mantissa ≠ 0)
    (hi : (base.pad i).scale * n.natAbs < wordSize)
    (hj : (base.pad j).scale * n.natAbs < wordSize) :
    SameOutcome ((base.pad i).exactPower n) ((base.pad j).exactPower n) := by
  let p := base.natPow n.natAbs
  rw [exactPower, exactPower, natPow_pad base i _ hi, natPow_pad base j _ hj]
  by_cases hn : 0 ≤ n
  · rw [if_pos hn, if_pos hn]
    exact p.sameValue_pad_pad _ _
  · -- The reciprocal is rounded at a place that follows from the order, so it is one pair.
    have nonzero : p.mantissa ≠ 0 := Int.pow_ne_zero hb
    have one_pair (k : Nat) := one.divideSignificant_pad p k resultDigits nonzero
    rw [if_neg hn, if_neg hn, one_pair, one_pair]
    exact SameOutcome.refl _

theorem realPower_pad_base (base exponent : Decimal) (k : Nat) (hb : base.mantissa ≠ 0) :
    (base.pad k).realPower exponent = base.realPower exponent := by
  simp only [realPower, realPow?, FixedPoint.ln_pad base k hb, withSignOf_pad]

theorem realPower_pad_exponent (base exponent : Decimal) (k : Nat) (he : exponent.mantissa ≠ 0) :
    base.realPower (exponent.pad k) = base.realPower exponent := by
  have scaled (l : Int) : (exponent.mantissa * pow10 k * l).tdiv (pow10 (exponent.scale + k)) =
      (exponent.mantissa * l).tdiv (pow10 exponent.scale) := by
    rw [Int.mul_right_comm, tdiv_pow10_pad]
  simp only [realPower, realPow?, exponent.order_pad k he, truncate_pad, pad_mantissa, pad_scale,
    scaled]

/-- How a power is found that is not known beforehand. -/
inductive PowerRoute
  | refused
  | vanishing
  | multiplied
  | byLogarithm
  deriving DecidableEq

/-- The estimate of the order decides first, and then how long the digits of the base would grow. -/
def powerRoute (base exponent : Decimal) : PowerRoute :=
  if maxPowerOrder < powerOrderEstimate base exponent then .refused
  else if powerOrderEstimate base exponent < -maxPowerOrder then .vanishing
  else if exponent.isInteger ∧
      base.digitCount * exponent.truncate.natAbs ≤ maxExactDigits then .multiplied
  else .byLogarithm

theorem boundedPower_eq (base exponent : Decimal) :
    boundedPower base exponent =
      match powerRoute base exponent with
      | .refused => .error .powerOutOfRange
      | .vanishing => .ok zero
      | .multiplied => exactPower base exponent.truncate
      | .byLogarithm => realPower base exponent := by
  simp only [boundedPower, powerRoute]
  split
  · rfl
  split
  · rfl
  split <;> rfl

/-- A power that is multiplied out is short, and its order is in bounds. -/
theorem multiplied_bounds (base exponent : Decimal)
    (route : powerRoute base exponent = .multiplied) : exponent.isInteger ∧
      base.digitCount * exponent.truncate.natAbs ≤ maxExactDigits ∧
        |powerOrderEstimate base exponent| ≤ maxPowerOrder := by
  rw [powerRoute] at route
  split at route
  · contradiction
  split at route
  · contradiction
  split at route
  · rename_i high low short
    exact ⟨short.1, short.2, abs_le.2 ⟨not_lt.1 low, not_lt.1 high⟩⟩
  · contradiction

/-- So a word counts the places of the product. -/
theorem scale_mul_lt_of_multiplied (base exponent : Decimal) (hb : base.mantissa ≠ 0)
    (route : powerRoute base exponent = .multiplied) :
    base.scale * exponent.truncate.natAbs < wordSize := by
  obtain ⟨whole, short, range⟩ := multiplied_bounds base exponent route
  obtain ⟨n, hn⟩ : ∃ n, n = exponent.truncate := ⟨_, rfl⟩
  rw [← hn] at short ⊢
  by_cases zero : n = 0
  · rw [zero, Int.natAbs_zero, Nat.mul_zero]
    decide
  have value : exponent.toRat = n := by rw [exponent.toRat_of_isInteger whole, hn]
  have few : n.natAbs ≤ maxExactDigits :=
    (Nat.le_mul_of_pos_left _ (Text.digitCount_pos _)).trans short
  have order := natAbs_order_mul_le base exponent hb n value zero few range
  have places : base.scale ≤ base.digitCount + base.order.natAbs := by
    rw [Decimal.order]
    omega
  calc
    base.scale * n.natAbs ≤ (base.digitCount + base.order.natAbs) * n.natAbs :=
      Nat.mul_le_mul_right _ places
    _ = base.digitCount * n.natAbs + base.order.natAbs * n.natAbs := Nat.add_mul _ _ _
    _ ≤ 20000 + 30004 := Nat.add_le_add short order
    _ < wordSize := by decide

section SameValue

variable (x x' y y' : Decimal) (hx : x.sameValue x') (hy : y.sameValue y')

include hx hy

/-- The route does not change if the leading digits come to the same estimates, and if the length
of the multiplied digits stays on its side of the limit. -/
theorem powerRoute_congr (hx0 : x.mantissa ≠ 0) (hy0 : y.mantissa ≠ 0) (base : LeadsAlike x x')
    (exponent : LeadsAlike y y')
    (cost : x.digitCount * y.truncate.natAbs ≤ maxExactDigits ↔
      x'.digitCount * y'.truncate.natAbs ≤ maxExactDigits) :
    powerRoute x y = powerRoute x' y' := by
  have order : powerOrderEstimate x y = powerOrderEstimate x' y' := by
    rw [powerOrderEstimate, powerOrderEstimate, log10Estimate_congr hx hx0 base,
      estimate_congr hy hy0 exponent]
  simp only [powerRoute, order, eq_of_pad hy isInteger isInteger_pad, cost]

theorem boundedPower_congr (hx0 : x.mantissa ≠ 0) (hy0 : y.mantissa ≠ 0)
    (hr : powerRoute x y = powerRoute x' y') :
    SameOutcome (boundedPower x y) (boundedPower x' y') := by
  have integral := eq_of_pad hy truncate truncate_pad
  rw [boundedPower_eq, boundedPower_eq]
  cases route : powerRoute x' y' with
  | refused =>
    rw [hr, route]
    exact SameOutcome.refl _
  | vanishing =>
    rw [hr, route]
    exact SameOutcome.refl _
  | multiplied =>
    rw [route] at hr
    have room := scale_mul_lt_of_multiplied x y hx0 hr
    obtain ⟨z, i, j, rfl, rfl⟩ := exists_pad hx
    have hz : z.mantissa ≠ 0 := fun zero => hx0 ((mul_pow10_eq_zero _ i).2 zero)
    have hzj : (z.pad j).mantissa ≠ 0 := fun zero => hz ((mul_pow10_eq_zero _ j).1 zero)
    have room' := scale_mul_lt_of_multiplied (z.pad j) y' hzj route
    rw [integral] at room
    simp only [hr, integral]
    exact exactPower_pad z i j _ hz room room'
  | byLogarithm =>
    have base := eq_of_pad_of_ne_zero hx hx0 (realPower · y)
      fun x k hx => realPower_pad_base x y k hx
    have exponent := eq_of_pad_of_ne_zero hy hy0 x'.realPower
      fun y k hy => realPower_pad_exponent x' y k hy
    simp only [hr, route, base, exponent]
    exact SameOutcome.refl _

/-- A power depends on the values of its operands only, where its route does. It does where the
leading digits come to the same estimates and the length of the multiplied digits stays on its side
of the limit. -/
theorem power_sameOutcome
    (route : powerRoute x y = powerRoute x' y' ∨ LeadsAlike x x' ∧ LeadsAlike y y' ∧
      (x.digitCount * y.truncate.natAbs ≤ maxExactDigits ↔
        x'.digitCount * y'.truncate.natAbs ≤ maxExactDigits)) :
    SameOutcome (power x y) (power x' y') := by
  have absOne (x : Decimal) (k : Nat) : (x.pad k).abs.isOne = x.abs.isOne := by
    rw [abs_pad, isOne_pad]
  have sign := eq_of_pad hx withSignOf fun x k => funext fun n => funext (x.withSignOf_pad k n)
  rw [power, power, eq_of_pad hx isOne isOne_pad, eq_of_pad hx isZero isZero_pad,
    eq_of_pad hx isNegative isNegative_pad, eq_of_pad hx (·.abs.isOne) absOne, sign,
    eq_of_pad hy isInteger isInteger_pad, eq_of_pad hy isZero isZero_pad,
    eq_of_pad hy truncate truncate_pad, eq_of_pad hy (·.compare maxExponent) (compare_pad · _)]
  refine SameOutcome.ite _ _ _ _ fun _ => SameOutcome.ite _ _ _ _ fun base => ?_
  refine SameOutcome.ite _ _ _ _ fun _ => SameOutcome.ite _ _ _ _ fun _ => ?_
  refine SameOutcome.ite _ _ _ _ fun exponent => SameOutcome.ite _ _ _ _ fun _ => ?_
  rw [← eq_of_pad hx isZero isZero_pad, isZero, beq_iff_eq] at base
  rw [← eq_of_pad hy isZero isZero_pad, isZero, beq_iff_eq] at exponent
  refine boundedPower_congr x x' y y' hx hy base exponent (route.elim id ?_)
  rintro ⟨digits, digits', cost⟩
  exact powerRoute_congr x x' y y' hx hy base exponent digits digits' cost

end SameValue

/-- A base and an exponent with zeros behind the point, whose power is a rounded reciprocal. -/
theorem power_sameOutcome_reciprocal :
    let x : Decimal := ⟨15, 1⟩
    let y : Decimal := ⟨-3, 0⟩
    x.sameValue (x.pad 2) ∧ y.sameValue (y.pad 1) ∧
      LeadsAlike x (x.pad 2) ∧ LeadsAlike y (y.pad 1) ∧
      (x.digitCount * y.truncate.natAbs ≤ maxExactDigits ↔
        (x.pad 2).digitCount * (y.pad 1).truncate.natAbs ≤ maxExactDigits) ∧
      SameOutcome (power x y) (power (x.pad 2) (y.pad 1)) := by
  intro x y
  have base : x.sameValue (x.pad 2) := by decide
  have exponent : y.sameValue (y.pad 1) := by decide
  have digits : LeadsAlike x (x.pad 2) := by decide
  have digits' : LeadsAlike y (y.pad 1) := by decide
  have cost : x.digitCount * y.truncate.natAbs ≤ maxExactDigits ↔
      (x.pad 2).digitCount * (y.pad 1).truncate.natAbs ≤ maxExactDigits := by decide +kernel
  exact ⟨base, exponent, digits, digits', cost,
    power_sameOutcome _ _ _ _ base exponent (.inr ⟨digits, digits', cost⟩)⟩

/-- Zeros behind the point of the base change a power. Two hundred of them are digits that a
hundredth power would multiply, so it is rounded to thirty digits. One of them lets the estimate
tell a number just below 1 from 1, so a large power of it is refused. -/
theorem power_padded_base :
    let two := ofInt 2
    let below : Decimal := ⟨9999999999999999, 16⟩
    let exponent : Decimal := ⟨-233000000000000000000, 0⟩
    two.sameValue (two.pad 200) ∧
      power two (ofInt 100) = .ok ⟨1267650600228229401496703205376, 0⟩ ∧
      power (two.pad 200) (ofInt 100) = .ok ⟨1267650600228229401496703205380, 0⟩ ∧
      ¬SameOutcome (power two (ofInt 100)) (power (two.pad 200) (ofInt 100)) ∧
      below.sameValue (below.pad 1) ∧
      ¬SameOutcome (power below exponent) (power (below.pad 1) exponent) := by
  intro two below exponent
  have rounded : ¬SameOutcome (power two (ofInt 100)) (power (two.pad 200) (ofInt 100)) := by
    decide +kernel
  have refused : ¬SameOutcome (power below exponent) (power (below.pad 1) exponent) := by
    decide +kernel
  exact ⟨by decide, by decide +kernel, by decide +kernel, rounded, by decide, refused⟩

end Decimal

end Reckoner
