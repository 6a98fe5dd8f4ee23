import Reckoner.Proofs.Decimal.Significant
import Reckoner.Proofs.FixedPoint.Constants
import Reckoner.Proofs.FixedPoint.Logarithm

namespace Reckoner.FixedPoint

open Finset Numeric Series

/-- Halving is a shift, and stops between three quarters and three halves. -/
theorem halve_eq (quarter m : Nat) (hq : 0 < quarter) :
    ∃ j, halve (4 * quarter) m = (m / 2 ^ j, j) ∧ m / 2 ^ j < 6 * quarter ∧
      (3 * quarter ≤ m → 3 * quarter ≤ m / 2 ^ j) ∧ (j = 0 ∨ 3 * quarter * 2 ^ j ≤ m) := by
  induction m using Nat.strongRecOn with
  | ind m ih =>
    rw [halve]
    split
    · rename_i large
      obtain ⟨j, value, high, low, cost⟩ := ih (m / 2) (by omega)
      have shift : m / 2 ^ (j + 1) = m / 2 / 2 ^ j := by rw [Nat.pow_succ', Nat.div_div_eq_div_mul]
      refine ⟨j + 1, by rw [value, shift], by omega, fun _ => ?_, .inr ?_⟩
      · rw [shift]
        exact low (by omega)
      · rcases cost with rfl | cost
        · omega
        · rw [Nat.pow_succ, ← Nat.mul_assoc]
          omega
    · refine ⟨0, by simp, ?_, by simp, .inl rfl⟩
      rw [Nat.pow_zero, Nat.div_one]
      omega

/-- Without digits behind the point only the leading binary digit is left. -/
theorem halve_one (m : Nat) (hm : 0 < m) : halve 1 m = (1, m.log2) := by
  induction m using Nat.strongRecOn with
  | ind m ih =>
    rw [halve, Nat.log2_def]
    split
    · rw [ih (m / 2) (by omega) (by omega), if_pos (by omega)]
    · rw [if_neg (by omega)]
      congr
      omega

/-- The number |x| is m 2^j 10^k, where k is its order and m has p digits behind the point: but for
what is cut off m, less than its last digit, and with m between three quarters and three halves. -/
structure Reduces (x : Decimal) (p m j : Nat) : Prop where
  few : j ≤ 3
  least : 3 * pow10 p ≤ 4 * m
  most : 2 * m < 3 * pow10 p
  cut : (m * 2 ^ j : Rat) ≤ |x.toRat| * 10 ^ (p - x.order)
  near : |x.toRat| * 10 ^ (p - x.order) < ((m + 1) * 2 ^ j : Rat)

section Leading

variable (x : Decimal) (hx : x.mantissa ≠ 0)

/-- The leading digits are those of |x| moved to order zero, cut where they do not fit. -/
theorem leading_bounds (p : Nat) : (leading x p : Rat) ≤ |x.toRat| * 10 ^ (p - x.order) ∧
    |x.toRat| * 10 ^ (p - x.order) < leading x p + 1 := by
  have ten : (10 : Rat) ≠ 0 := by norm_num
  let shift := (p : Int) - x.scale - x.order
  have digits : |x.toRat| * 10 ^ (p - x.order) = x.mantissa.natAbs * 10 ^ shift := by
    have split : (p : Int) - x.order = shift + x.scale := by omega
    rw [x.abs_toRat, split, zpow_add₀ ten, zpow_natCast]
    field_simp
  rw [digits, leading_eq x p shift rfl]
  by_cases kept : 0 ≤ shift
  · rw [if_pos kept]
    have exact : (10 : Rat) ^ shift = 10 ^ shift.toNat := by
      rw [← zpow_natCast, Int.toNat_of_nonneg kept]
    rw [exact, Nat.cast_mul, cast_pow10]
    exact ⟨le_refl _, lt_add_one _⟩
  · rw [if_neg kept]
    have pos := pow10_pos (-shift).toNat
    have exact : x.mantissa.natAbs * (10 : Rat) ^ shift =
        x.mantissa.natAbs / (pow10 (-shift).toNat : Nat) := by
      rw [cast_pow10, ← zpow_natCast, Int.toNat_of_nonneg (by omega), zpow_neg, div_inv_eq_mul]
    rw [exact]
    refine ⟨Nat.cast_div_le, ?_⟩
    rw [div_lt_iff₀ (by exact_mod_cast pos), mul_comm]
    exact_mod_cast Nat.lt_mul_div_succ x.mantissa.natAbs pos

include hx

theorem leading_order (p : Nat) : pow10 p ≤ leading x p ∧ leading x p < 10 * pow10 p := by
  have ten : (10 : Rat) ≠ 0 := by norm_num
  obtain ⟨cut, near⟩ := leading_bounds x p
  have low := x.pow_order_le hx
  have high := x.lt_pow_order
  have pos : (0 : Rat) < 10 ^ (p - x.order) := by positivity
  have least : (pow10 p : Rat) < leading x p + 1 := by
    calc
      (pow10 p : Rat) = 10 ^ x.order * 10 ^ (p - x.order) := by
        rw [cast_pow10, ← zpow_add₀ ten, add_sub_cancel, zpow_natCast]
      _ ≤ |x.toRat| * 10 ^ (p - x.order) := by gcongr
      _ < leading x p + 1 := near
  have most : (leading x p : Rat) < 10 * pow10 p := by
    calc
      (leading x p : Rat) ≤ |x.toRat| * 10 ^ (p - x.order) := cut
      _ < 10 ^ (x.order + 1) * 10 ^ (p - x.order) := by gcongr
      _ = 10 * pow10 p := by
        rw [cast_pow10, zpow_add_one₀ ten, mul_right_comm, ← zpow_add₀ ten, add_sub_cancel,
          zpow_natCast, mul_comm]
  exact ⟨Nat.le_of_lt_succ (by exact_mod_cast least), by exact_mod_cast most⟩

omit hx in
/-- Each halving cuts what a shift by all of them cuts. -/
theorem reduces_of_shift (p j : Nat) (few : j ≤ 3) (low : 3 * pow10 p ≤ 4 * (leading x p / 2 ^ j))
    (high : 2 * (leading x p / 2 ^ j) < 3 * pow10 p) : Reduces x p (leading x p / 2 ^ j) j := by
  obtain ⟨cut, near⟩ := leading_bounds x p
  have kept : ((leading x p / 2 ^ j : Nat) * 2 ^ j : Rat) ≤ leading x p := by
    exact_mod_cast Nat.div_mul_le_self _ _
  have lost : (leading x p + 1 : Rat) ≤ ((leading x p / 2 ^ j : Nat) + 1) * 2 ^ j := by
    rw [mul_comm]
    exact_mod_cast Nat.lt_mul_div_succ (leading x p) (Nat.two_pow_pos j)
  exact ⟨few, low, high, kept.trans cut, near.trans_le lost⟩

theorem reduces_halve_zero :
    Reduces x 0 (halve (pow10 0) (leading x 0)).1 (halve (pow10 0) (leading x 0)).2 := by
  obtain ⟨low, high⟩ := leading_order x hx 0
  rw [pow10_zero] at low high ⊢
  have least := Nat.log2_self_le (Nat.ne_of_gt low)
  have most := Nat.lt_log2_self (n := leading x 0)
  have one : leading x 0 / 2 ^ (leading x 0).log2 = 1 :=
    Nat.div_eq_of_lt_le (by omega) (by omega)
  have few : (leading x 0).log2 < 4 := (Nat.log2_lt (Nat.ne_of_gt low)).2 (by omega)
  have reduced := reduces_of_shift x 0 (leading x 0).log2 (by omega)
  rw [one, pow10_zero] at reduced
  rw [halve_one _ low]
  exact reduced (by decide) (by decide)

/-- A number between one and ten is halved at most three times. With one digit behind the point
three quarters of the unit are no integer, and a halving may cut a half below them. -/
theorem reduces_halve (p : Nat) (hp : p ≠ 1) :
    Reduces x p (halve (pow10 p) (leading x p)).1 (halve (pow10 p) (leading x p)).2 := by
  rcases Nat.eq_zero_or_pos p with rfl | pos
  · exact reduces_halve_zero x hx
  let quarter := 25 * pow10 (p - 2)
  have parts : pow10 p = 4 * quarter := by
    have split : pow10 p = pow10 2 * pow10 (p - 2) := by
      rw [← pow10_add, Nat.add_sub_cancel' (by omega)]
    have hundred : pow10 2 = 4 * 25 := by decide
    rw [split, hundred, Nat.mul_assoc]
  have hq : 0 < quarter := Nat.mul_pos (by decide) (pow10_pos _)
  obtain ⟨low, high⟩ := leading_order x hx p
  obtain ⟨j, halved, below, above, cost⟩ := halve_eq quarter (leading x p) hq
  have few : j ≤ 3 := by
    by_contra more
    have large : 2 ^ 4 ≤ 2 ^ j := Nat.pow_le_pow_right (by decide) (by omega)
    have : 3 * quarter * 2 ^ 4 ≤ 3 * quarter * 2 ^ j := Nat.mul_le_mul_left _ large
    omega
  rw [parts, halved]
  exact reduces_of_shift x p j few (by omega) (by omega)

end Leading

/-- The argument of the series, for what is left after halving. -/
def seriesArgument (p m : Nat) : Int :=
  (((m : Int) - unit p) * unit p).tdiv (m + unit p)

/-- Between three quarters and three halves the quotient stays where the series is fast. -/
theorem abs_seriesArgument_lt (p m : Nat) (low : 3 * pow10 p ≤ 4 * m)
    (high : 2 * m ≤ 3 * pow10 p) : 4 * |seriesArgument p m| < unit p := by
  have pos := unit_pos p
  have one : unit p = pow10 p := rfl
  have divisor : (0 : Int) < m + unit p := by omega
  have cut := abs_tdiv_mul_le (((m : Int) - unit p) * unit p) _ divisor
  change |seriesArgument p m| * (m + unit p) ≤ _ at cut
  rw [abs_mul, abs_of_pos pos] at cut
  have distance : 4 * |(m : Int) - unit p| < m + unit p := by
    rcases abs_choice ((m : Int) - unit p) with above | below
    · omega
    · omega
  refine lt_of_mul_lt_mul_right ?_ divisor.le
  calc
    4 * |seriesArgument p m| * (m + unit p) ≤ 4 * |(m : Int) - unit p| * unit p := by linarith
    _ < (m + unit p) * unit p := mul_lt_mul_of_pos_right distance pos
    _ = unit p * (m + unit p) := mul_comm _ _

section OddPowers

variable (z : Int) (p : Nat) (hz : 4 * |z| ≤ unit p)

include hz

theorem tdiv_square_le : 16 * (z * z).tdiv (unit p) ≤ unit p := by
  have pos := unit_pos p
  have cut := abs_tdiv_mul_le (z * z) (unit p) pos
  have square : 16 * |z * z| ≤ unit p * unit p := by
    calc
      16 * |z * z| = 4 * |z| * (4 * |z|) := by
        rw [abs_mul]
        ring
      _ ≤ unit p * unit p := mul_self_le_mul_self (by positivity) hz
  have least := le_abs_self ((z * z).tdiv (unit p))
  refine le_of_mul_le_mul_right ?_ pos
  calc
    16 * (z * z).tdiv (unit p) * unit p ≤ 16 * |(z * z).tdiv (unit p)| * unit p := by gcongr
    _ ≤ unit p * unit p := by linarith

/-- What is carried falls to a sixteenth at each step. -/
theorem carried_oddPowers_step (k : Nat) :
    16 * |(oddPowers z p).carried (k + 1)| ≤ |(oddPowers z p).carried k| := by
  let c := (oddPowers z p).carried k
  let s := (z * z).tdiv (unit p)
  have pos := unit_pos p
  have nonneg : 0 ≤ s := Int.tdiv_nonneg (mul_self_nonneg z) pos.le
  have next : (oddPowers z p).carried (k + 1) = (c * s).tdiv (unit p) := rfl
  have cut := abs_tdiv_mul_le (c * s) (unit p) pos
  rw [← next, abs_mul, abs_of_nonneg nonneg] at cut
  refine le_of_mul_le_mul_right ?_ pos
  calc
    16 * |(oddPowers z p).carried (k + 1)| * unit p ≤ |c| * (16 * s) := by linarith
    _ ≤ |c| * unit p := mul_le_mul_of_nonneg_left (tdiv_square_le z p hz) (abs_nonneg c)

theorem carried_oddPowers_falls (k : Nat) : 16 ^ k * |(oddPowers z p).carried k| ≤ |z| := by
  induction k with
  | zero =>
    have same : (oddPowers z p).carried 0 = z := rfl
    rw [same, pow_zero, one_mul]
  | succ k ih =>
    calc
      16 ^ (k + 1) * |(oddPowers z p).carried (k + 1)| =
          16 ^ k * (16 * |(oddPowers z p).carried (k + 1)|) := by rw [pow_succ, mul_assoc]
      _ ≤ 16 ^ k * |(oddPowers z p).carried k| := by
        gcongr
        exact carried_oddPowers_step z p hz k
      _ ≤ |z| := ih

theorem oddPowers_vanishingBelow {n : Nat} (room : 2 * n + 1 < wordSize) :
    (oddPowers z p).VanishingBelow n := by
  intro k inside hk
  have falls := carried_oddPowers_step z p hz k
  have small : |(oddPowers z p).carried k| < oddFactor k :=
    (tdiv_eq_zero_iff _ _ (Int.natCast_pos.2 (oddFactor_pos k))).1 hk
  change ((oddPowers z p).carried (k + 1)).tdiv (oddFactor (k + 1)) = 0
  rw [tdiv_eq_zero_iff _ _ (Int.natCast_pos.2 (oddFactor_pos _))]
  rw [cast_oddFactor (by omega)] at small ⊢
  have nonneg := abs_nonneg ((oddPowers z p).carried (k + 1))
  omega

end OddPowers

end Reckoner.FixedPoint
