import Reckoner.Proofs.FixedPoint.TrigonometryError

namespace Reckoner.FixedPoint

open Finset Numeric Series

section Alternating

variable (x : Int) (p : Nat) (inside : 10 * |x| ≤ 63 * unit p) (divisor : Nat → Int)
  (a : Nat → ℝ) (terms : Alternates (x / 10 ^ p) divisor a)

include inside terms

/-- A computed term grows no faster than an exact one. -/
theorem abs_alternating_next_le (t : Int) (k : Nat) :
    |(((-(t * square x p)).tdiv (unit p * divisor k) : Int) : ℝ)| ≤
      |(t : ℝ)| * 40 / ((2 * k + 1) * (2 * k + 2)) := by
  have tens : (0 : ℝ) < 10 ^ p := by positivity
  have divisor_ge := cast_divisor_ge x p divisor a terms k
  have pos : (0 : ℝ) < divisor k := lt_of_lt_of_le (by positivity) divisor_ge
  have whole : 0 < unit p * divisor k := Int.mul_pos (unit_pos p) (by exact_mod_cast pos)
  have cut := abs_tdiv_le (K := ℝ) (-(t * square x p)) _ whole
  obtain ⟨nonneg, low, -⟩ := square_cut_bounds x p
  have quotient : |((-(t * square x p) : Int) : ℝ)| / ((unit p * divisor k : Int) : ℝ) =
      |(t : ℝ)| * (square x p / 10 ^ p) / divisor k := by
    push_cast
    rw [cast_unit, abs_neg, abs_mul, ← abs_of_nonneg nonneg, abs_div, abs_of_pos tens]
    field_simp
  rw [quotient] at cut
  refine cut.trans ?_
  gcongr
  exact low.trans (square_turn_le x p inside)

variable (first : Int) (start : (first : ℝ) = 10 ^ p * a 0)

include start

theorem abs_carried_alternatingTerms_le (k : Nat) :
    |((alternatingTerms first x p divisor).carried k : ℝ)| ≤ 10 ^ p * (budget k).size := by
  induction k with
  | zero =>
    have same : (alternatingTerms first x p divisor).carried 0 = first := rfl
    have size := terms.start
    rw [same, start, abs_mul, abs_of_pos (by positivity), budget]
    push_cast
    gcongr
  | succ k ih =>
    refine (abs_alternating_next_le x p inside divisor a terms _ k).trans ?_
    rw [budget_size_succ]
    push_cast
    rw [← mul_div_assoc, ← mul_assoc]
    gcongr

/-- The computed terms have fallen to zero where they are no longer looked at. -/
theorem alternatingTerms_limit : (alternatingTerms first x p divisor).nth (limit p) = 0 := by
  have size := abs_carried_alternatingTerms_le x p inside divisor a terms first start (limit p)
  have small := budget_limit_le p
  have below : |((alternatingTerms first x p divisor).carried (limit p) : ℝ)| < 1 := by linarith
  have whole : |(alternatingTerms first x p divisor).carried (limit p)| < 1 := by
    exact_mod_cast below
  have carries (k : Nat) : (alternatingTerms first x p divisor).nth k =
      (alternatingTerms first x p divisor).carried k := rfl
  rw [carries]
  exact Int.abs_lt_one_iff.1 whole

/-- A loop that adds n terms loses at most two digits in each of them, and 200 more while the terms
grow and behind the last one. The errors of the first eight are counted also where fewer are added. -/
theorem alternatingTerms_polynomial_near (n N : Nat)
    (ends : (alternatingTerms first x p divisor).EndsAfter n) (hN : n ≤ N) :
    |(alternatingTerms first x p divisor).sum p - 10 ^ p * ∑ k ∈ range (N + 1), a k| ≤
      200 + 2 * n := by
  obtain ⟨j, few, many⟩ : ∃ j ≤ n, n + 1 ≤ 8 + j := ⟨n - 7, Nat.sub_le n 7, by omega⟩
  have tens : (0 : ℝ) < 10 ^ p := by positivity
  have halves (k : Nat) (hk : 8 + j ≤ k) : 2 * |10 ^ p * a (k + 1)| ≤ |10 ^ p * a k| := by
    have step := alternating_halves x p inside divisor a terms k (by omega)
    rw [abs_mul, abs_mul, mul_left_comm]
    gcongr
  have near := (alternatingTerms_vanishing first x p divisor).abs_partial_sum_sub_le p (n + 1)
    (8 + j) (N + 1) (alternatingTerms_limit x p inside divisor a terms first start) ends.ends many
    (Nat.succ_le_succ hN) (fun k => 10 ^ p * a k) (fun k => ((budget k).loss : ℝ))
    (carried_alternatingTerms_near x p inside divisor a terms first start) halves
  have lost : ∑ k ∈ range (8 + j), ((budget k).loss : ℝ) ≤ 164 + 2 * j := by
    exact_mod_cast sum_budget_loss_le j
  have last : ((budget (8 + j)).loss : ℝ) ≤ 2 := by exact_mod_cast (budget_late j).2
  have count : (j : ℝ) ≤ n := by exact_mod_cast few
  rw [mul_sum, abs_sub_comm]
  linarith

end Alternating

/-- Within one turn the loops of the sine and of the cosine both find a term that is zero and end
there. With the m and n terms that they add until then, not counting the pass that finds the zero,
the two sums are Taylor's polynomials with as many terms or any more, but for two digits for each
term of the longer loop and 200 more. -/
theorem sin_cos_polynomial (x : Int) (p : Nat) (inside : 10 * |x| ≤ 63 * unit p) :
    let m := (sineTerms x p).added p
    let n := (cosineTerms x p).added p
    let X : ℝ := x / 10 ^ p
    (sineTerms x p).EndsAfter m ∧ (cosineTerms x p).EndsAfter n ∧
      ∀ N : Nat, max m n ≤ N →
        |sin x p - 10 ^ p * ∑ k ∈ range (N + 1), (-1) ^ k * X ^ (2 * k + 1) / (2 * k + 1).factorial| ≤
            200 + 2 * (max m n : Nat) ∧
          |cos x p - 10 ^ p * ∑ k ∈ range (N + 1), (-1) ^ k * X ^ (2 * k) / (2 * k).factorial| ≤
            200 + 2 * (max m n : Nat) := by
  intro m n X
  have sine := alternates_sin X (abs_turn_le x p inside)
  have cosine := alternates_cos X
  have endsSine : (sineTerms x p).EndsAfter m :=
    (alternatingTerms_vanishing x x p sineDivisor).endsAfter_added p
      (alternatingTerms_limit x p inside sineDivisor _ sine x (sineTerms_start x p))
  have endsCosine : (cosineTerms x p).EndsAfter n :=
    (alternatingTerms_vanishing (unit p) x p cosineDivisor).endsAfter_added p
      (alternatingTerms_limit x p inside cosineDivisor _ cosine (unit p) (cosineTerms_start x p))
  refine ⟨endsSine, endsCosine, ?_⟩
  intro N hN
  have left := alternatingTerms_polynomial_near x p inside sineDivisor _ sine x
    (sineTerms_start x p) m N endsSine ((Nat.le_max_left m n).trans hN)
  have right := alternatingTerms_polynomial_near x p inside cosineDivisor _ cosine (unit p)
    (cosineTerms_start x p) n N endsCosine ((Nat.le_max_right m n).trans hN)
  have more : (m : ℝ) ≤ (max m n : Nat) := by exact_mod_cast Nat.le_max_left m n
  have more' : (n : ℝ) ≤ (max m n : Nat) := by exact_mod_cast Nat.le_max_right m n
  rw [sin, cos, sineTerms_eq, cosineTerms_eq]
  constructor <;> linarith

/-- Near a whole turn the terms grow to more than eighty times the unit before they fall. -/
theorem sin_cos_polynomial_turn :
    let X : ℝ := (6283 : Int) / 10 ^ 3
    10 * |(6283 : Int)| ≤ 63 * unit 3 ∧ (sineTerms 6283 3).added 3 = 10 ∧
      (cosineTerms 6283 3).added 3 = 10 ∧ (sineTerms 6283 3).EndsAfter 10 ∧
      (cosineTerms 6283 3).EndsAfter 10 ∧ max 10 10 ≤ 12 ∧ sin 6283 3 = 1 ∧ cos 6283 3 = 1000 ∧
      |((1 : Int) : ℝ) - 10 ^ 3 * ∑ k ∈ range (12 + 1),
          (-1) ^ k * X ^ (2 * k + 1) / (2 * k + 1).factorial| ≤ (200 : ℝ) + 2 * (max 10 10 : Nat) ∧
        |((1000 : Int) : ℝ) - 10 ^ 3 * ∑ k ∈ range (12 + 1),
          (-1) ^ k * X ^ (2 * k) / (2 * k).factorial| ≤ (200 : ℝ) + 2 * (max 10 10 : Nat) := by
  intro X
  have inside : 10 * |(6283 : Int)| ≤ 63 * unit 3 := by decide
  have sine : (sineTerms 6283 3).added 3 = 10 := by decide +kernel
  have cosine : (cosineTerms 6283 3).added 3 = 10 := by decide +kernel
  have left : sin 6283 3 = 1 := by decide +kernel
  have right : cos 6283 3 = 1000 := by decide +kernel
  obtain ⟨endsSine, endsCosine, near⟩ := sin_cos_polynomial 6283 3 inside
  rw [sine] at endsSine near
  rw [cosine] at endsCosine near
  obtain ⟨nearSine, nearCosine⟩ := near 12 (by decide)
  rw [left] at nearSine
  rw [right] at nearCosine
  exact ⟨inside, sine, cosine, endsSine, endsCosine, by decide, left, right, nearSine, nearCosine⟩

end Reckoner.FixedPoint
