import Mathlib.Analysis.Real.Pi.Bounds
import Mathlib.Analysis.SpecialFunctions.Complex.Arctan
import Reckoner.Proofs.FixedPoint.Constants

namespace Reckoner.FixedPoint

open Finset Numeric Series

/-- The exact terms of the arc tangent, as they stand in its series. -/
noncomputable def arctanTerm (x : ℝ) (k : Nat) : ℝ :=
  (-1) ^ k * x ^ (2 * k + 1) / (2 * k + 1 : Nat)

section ArcTangent

variable (x : ℝ) (nonneg : 0 ≤ x) (half : x ≤ 1 / 2)

include nonneg

theorem abs_arctanTerm (k : Nat) : |arctanTerm x k| = x ^ (2 * k + 1) / (2 * k + 1 : Nat) := by
  rw [arctanTerm, abs_div, abs_mul, abs_neg_one_pow, one_mul, abs_of_nonneg (pow_nonneg nonneg _),
    Nat.abs_cast]

include half

theorem arctanTerm_halves (k : Nat) : 2 * |arctanTerm x (k + 1)| ≤ |arctanTerm x k| := by
  have square : x ^ 2 ≤ 1 / 4 := by nlinarith
  have count : (0 : ℝ) < (2 * k + 1 : Nat) := by positivity
  rw [abs_arctanTerm x nonneg, abs_arctanTerm x nonneg]
  calc
    2 * (x ^ (2 * (k + 1) + 1) / (2 * (k + 1) + 1 : Nat)) ≤
        2 * (x ^ (2 * (k + 1) + 1) / (2 * k + 1 : Nat)) := by
      gcongr
      omega
    _ = 2 * x ^ 2 * (x ^ (2 * k + 1) / (2 * k + 1 : Nat)) := by ring
    _ ≤ x ^ (2 * k + 1) / (2 * k + 1 : Nat) := by
      refine mul_le_of_le_one_left (by positivity) ?_
      linarith

/-- The terms that are not looked at do not reach half of the last digit. -/
theorem arctanTerm_limit_le (p : Nat) : 10 ^ p * (2 * |arctanTerm x (limit p)|) ≤ 1 := by
  have square : 0 < 1 - x ^ 2 := by nlinarith
  have tail := tail_le_one p x (by rwa [abs_of_nonneg nonneg])
  rw [abs_of_nonneg nonneg] at tail
  refine le_trans ?_ tail
  have power : 0 ≤ x ^ (2 * limit p + 1) := pow_nonneg nonneg _
  have many : (2 : ℝ) ≤ (2 * limit p + 1 : Nat) := by
    rw [limit]
    exact_mod_cast (by omega : 2 ≤ 2 * (2 * p + 64) + 1)
  rw [abs_arctanTerm x nonneg]
  gcongr
  calc
    2 * (x ^ (2 * limit p + 1) / (2 * limit p + 1 : Nat)) ≤
        2 * (x ^ (2 * limit p + 1) / 2) := by gcongr
    _ = x ^ (2 * limit p + 1) / 1 := by ring
    _ ≤ x ^ (2 * limit p + 1) / (1 - x ^ 2) := by
      gcongr
      nlinarith

end ArcTangent

/-- Each term of the series for 1 / q is cut by less than one. -/
theorem nth_inverseOddPowers_near (q : Int) (hq : 2 ≤ q) (p k : Nat)
    (room : 2 * k + 1 < wordSize) :
    |10 ^ p * arctanTerm (1 / q) k - (inverseOddPowers true q p).nth k| ≤ 1 := by
  have pos := inverseOddPower_pos q hq k
  have cut := (abs_div_sub_tdiv_lt (K := ℝ) (unit p) _ pos).le
  have size : 10 ^ p * ((1 / q : ℝ) ^ (2 * k + 1) / (2 * k + 1 : Nat)) =
      (unit p : ℝ) / ((q ^ (2 * k + 1) * oddFactor k : Int) : ℝ) := by
    rw [cast_unit, oddFactor_of_lt room]
    push_cast
    rw [one_div, inv_pow]
    field_simp
  rw [nth_inverseOddPowers, Bool.true_and, arctanTerm, mul_div_assoc]
  rcases Nat.even_or_odd k with even | odd
  · have choice : ¬(k % 2 == 1) = true := by
      rw [Nat.even_iff.1 even]
      decide
    rw [if_neg choice, even.neg_one_pow, one_mul, size]
    exact cut
  · have choice : (k % 2 == 1) = true := by
      rw [Nat.odd_iff.1 odd]
      decide
    rw [if_pos choice, odd.neg_one_pow, neg_one_mul, mul_neg, size, Int.cast_neg,
      neg_sub_neg, abs_sub_comm]
    exact cut

theorem arctanInverse_near (q : Int) (hq : 2 ≤ q) (p : Nat) (room : 2 * limit p + 1 < wordSize) :
    |10 ^ p * Real.arctan (1 / q) - arctanInverse q p| ≤ limit p + 1 := by
  have large : (2 : ℝ) ≤ q := by exact_mod_cast hq
  obtain ⟨x, hx⟩ : ∃ x : ℝ, x = 1 / q := ⟨_, rfl⟩
  have nonneg : 0 ≤ x := by
    rw [hx]
    positivity
  have half : x ≤ 1 / 2 := by
    rw [hx]
    exact one_div_le_one_div_of_le (by norm_num) large
  have sums : HasSum (arctanTerm x) (Real.arctan x) := by
    apply Real.hasSum_arctan
    rw [Real.norm_eq_abs, abs_of_nonneg nonneg]
    linarith
  have cut (k : Nat) (inside : k < limit p) :
      |10 ^ p * arctanTerm x k - (inverseOddPowers true q p).nth k| ≤ 1 := by
    rw [hx]
    exact nth_inverseOddPowers_near q hq p k (by omega)
  have near := (inverseOddPowers_vanishingBelow true q p hq room).sum_near (arctanTerm x)
    (fun _ => 1) _ sums cut (fun k _ => arctanTerm_halves x nonneg half k)
    (arctanTerm_limit_le x nonneg half p)
  rw [sum_const, card_range, nsmul_eq_mul, mul_one] at near
  rwa [arctanInverse, ← hx]

theorem machin : Real.pi = 16 * Real.arctan (1 / 5) - 4 * Real.arctan (1 / 239) := by
  have formula := Real.four_mul_arctan_inv_5_sub_arctan_inv_239
  rw [one_div, one_div]
  linarith

/-- With the guard digits π is wrong by less than two in its last digit, however many of these the
series cut. -/
theorem pi_near (p : Nat) (hp : p ≤ maxDigits) : |10 ^ p * Real.pi - pi p| < 2 := by
  let w := p + guardDigits
  have room : 2 * limit w + 1 < wordSize := oddFactor_room (Nat.add_le_add_right hp _)
  have fifth := arctanInverse_near 5 (by decide) w room
  have rest := arctanInverse_near 239 (by decide) w room
  have whole : |10 ^ w * Real.pi - ((16 * arctanInverse 5 w - 4 * arctanInverse 239 w : Int) : ℝ)| ≤
      20 * (limit w + 1) := by
    rw [machin]
    push_cast at fifth rest ⊢
    rw [abs_le] at fifth rest ⊢
    constructor <;> linarith
  have guard : 20 * (limit w + 1 : ℝ) < 10 ^ guardDigits := by
    have count : 20 * (limit w + 1) < 10 ^ guardDigits := by
      rw [maxDigits] at hp
      simp only [w, limit, guardDigits]
      omega
    exact_mod_cast count
  have cut := dropGuard_near _ p Real.pi _ whole
  have part : 20 * (limit w + 1 : ℝ) / 10 ^ guardDigits < 1 := (div_lt_one (by positivity)).2 guard
  have result : pi p = dropGuard (16 * arctanInverse 5 w - 4 * arctanInverse 239 w) := by
    simp only [pi, withGuard_eq p hp, w]
  rw [result]
  linarith

end Reckoner.FixedPoint
