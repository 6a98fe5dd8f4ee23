import Mathlib.Analysis.SpecialFunctions.Trigonometric.Series
import Reckoner.FixedPoint.Trigonometry
import Reckoner.Proofs.Decimal.Arithmetic
import Reckoner.Proofs.FixedPoint.Pi

namespace Reckoner.FixedPoint

open Finset Numeric Series

/-- The loop behind sine and cosine: the next term is the one before times the square of x, divided
by two more factors of a factorial, with the other sign. -/
def alternatingTerms (first x : Int) (p : Nat) (divisor : Nat → Int) : Series :=
  .ofRatio first fun t k => (-(t * square x p)).tdiv (unit p * divisor k)

def sineDivisor (k : Nat) : Int := (2 * k + 2) * (2 * k + 3)

def cosineDivisor (k : Nat) : Int := (2 * k + 1) * (2 * k + 2)

theorem sineTerms_eq (x : Int) (p : Nat) : sineTerms x p = alternatingTerms x x p sineDivisor := rfl

theorem cosineTerms_eq (x : Int) (p : Nat) :
    cosineTerms x p = alternatingTerms (unit p) x p cosineDivisor := rfl

/-- What is known of a term: a bound of its exact value, and one of the distance of the computed
term from it, in digits. -/
structure Budget where
  size : Rat
  loss : Rat

/-- What is known of the next term, for an x below 2π and a divisor of at least (2k+1)(2k+2). -/
def Budget.next (b : Budget) (k : Nat) : Budget where
  size := b.size * 40 / ((2 * k + 1) * (2 * k + 2))
  loss := (b.loss * 40 + b.size) / ((2 * k + 1) * (2 * k + 2)) + 1

/-- The terms grow at first, and so do their errors; both have fallen again at the eighth. -/
def budget : Nat → Budget
  | 0 => ⟨63 / 10, 0⟩
  | k + 1 => (budget k).next k

theorem budget_size_succ (k : Nat) :
    (budget (k + 1)).size = (budget k).size * 40 / ((2 * k + 1) * (2 * k + 2)) := rfl

theorem budget_loss_succ (k : Nat) : (budget (k + 1)).loss =
    ((budget k).loss * 40 + (budget k).size) / ((2 * k + 1) * (2 * k + 2)) + 1 := rfl

theorem budget_late (k : Nat) : (budget (8 + k)).size ≤ 2 / 7 ^ k ∧ (budget (8 + k)).loss ≤ 2 := by
  induction k with
  | zero => decide +kernel
  | succ k ih =>
    obtain ⟨size, loss⟩ := ih
    have divisor : (280 : Rat) ≤ (2 * (8 + k : Nat) + 1) * (2 * (8 + k : Nat) + 2) := by
      push_cast
      nlinarith
    rw [← Nat.add_assoc, budget_size_succ, budget_loss_succ]
    constructor
    · calc
        _ ≤ 2 / 7 ^ k * 40 / (280 : Rat) := by gcongr
        _ = 2 / 7 ^ (k + 1) := by
          rw [pow_succ]
          field_simp
          norm_num
    · have part : (2 : Rat) / 7 ^ k ≤ 2 := div_le_self (by norm_num) (one_le_pow₀ (by norm_num))
      have rest : ((budget (8 + k)).loss * 40 + (budget (8 + k)).size) /
          ((2 * (8 + k : Nat) + 1) * (2 * (8 + k : Nat) + 2)) ≤ 1 := by
        rw [div_le_one (by linarith)]
        linarith
      linarith

theorem sum_budget_loss_le (n : Nat) : ∑ k ∈ range (8 + n), (budget k).loss ≤ 164 + 2 * n := by
  induction n with
  | zero => decide +kernel
  | succ n ih =>
    rw [Nat.add_succ, sum_range_succ]
    push_cast
    linarith [(budget_late n).2]

/-- The terms that are not looked at do not reach the last digit. -/
theorem budget_limit_le (p : Nat) : (10 : ℝ) ^ p * (2 * (budget (limit p)).size) ≤ 1 := by
  have index : limit p = 8 + (2 * p + 56) := by
    rw [limit]
    omega
  have size : ((budget (limit p)).size : ℝ) ≤ 2 / 7 ^ (2 * p + 56) := by
    have late := (Rat.cast_le (K := ℝ)).2 (budget_late (2 * p + 56)).1
    rw [← index] at late
    push_cast at late
    exact late
  have digits : (10 : ℝ) ^ p ≤ 7 ^ (2 * p) := by
    rw [pow_mul]
    gcongr
    norm_num
  calc
    (10 : ℝ) ^ p * (2 * (budget (limit p)).size) ≤ 10 ^ p * (2 * (2 / 7 ^ (2 * p + 56))) := by gcongr
    _ ≤ 7 ^ (2 * p) * (2 * (2 / 7 ^ (2 * p + 56))) := by gcongr
    _ = 4 / 7 ^ 56 := by
      rw [pow_add]
      field_simp
      norm_num
    _ ≤ 1 := by norm_num

/-- The exact terms of such a series. -/
structure Alternates (x : ℝ) (divisor : Nat → Int) (a : Nat → ℝ) : Prop where
  start : |a 0| ≤ 63 / 10
  step : ∀ k, a (k + 1) = -(a k * x ^ 2) / divisor k
  large : ∀ k : Nat, (2 * k + 1) * (2 * k + 2) ≤ divisor k

theorem alternates_sin (x : ℝ) (hx : |x| ≤ 63 / 10) :
    Alternates x sineDivisor fun k => (-1) ^ k * x ^ (2 * k + 1) / (2 * k + 1).factorial := by
  constructor
  · simpa using hx
  · intro k
    have factors : 2 * (k + 1) + 1 = 2 * k + 1 + 1 + 1 := by omega
    rw [factors, Nat.factorial_succ, Nat.factorial_succ, sineDivisor]
    push_cast
    field_simp
    ring
  · intro k
    rw [sineDivisor]
    nlinarith

theorem alternates_cos (x : ℝ) :
    Alternates x cosineDivisor fun k => (-1) ^ k * x ^ (2 * k) / (2 * k).factorial := by
  constructor
  · norm_num
  · intro k
    have factors : 2 * (k + 1) = 2 * k + 1 + 1 := by omega
    rw [factors, Nat.factorial_succ, Nat.factorial_succ, cosineDivisor]
    push_cast
    field_simp
    ring
  · intro k
    rw [cosineDivisor]

theorem alternatingTerms_vanishing (first x : Int) (p : Nat) (divisor : Nat → Int) :
    (alternatingTerms first x p divisor).Vanishing := by
  intro k hk
  have current : (alternatingTerms first x p divisor).carried k = 0 := hk
  change (-((alternatingTerms first x p divisor).carried k * square x p)).tdiv _ = 0
  rw [current, Int.zero_mul, Int.neg_zero, Int.zero_tdiv]

/-- The square of x is cut by less than one digit. -/
theorem square_cut_bounds (x : Int) (p : Nat) : (0 : ℝ) ≤ square x p / 10 ^ p ∧
    (square x p / 10 ^ p : ℝ) ≤ (x / 10 ^ p : ℝ) ^ 2 ∧
      10 ^ p * ((x / 10 ^ p : ℝ) ^ 2 - square x p / 10 ^ p) ≤ 1 := by
  have tens : (0 : ℝ) < 10 ^ p := by positivity
  obtain ⟨nonneg, low, high⟩ := tdiv_square_bounds x p
  refine ⟨div_nonneg nonneg tens.le, low, ?_⟩
  rw [← le_div_iff₀' tens, sub_le_iff_le_add, ← add_div, add_comm]
  exact high

section Alternating

variable (x : Int) (p : Nat) (inside : 10 * |x| ≤ 63 * unit p)

include inside

theorem abs_turn_le : |(x / 10 ^ p : ℝ)| ≤ 63 / 10 := by
  have pos : (0 : ℝ) < 10 ^ p := by positivity
  have cast : 10 * |(x : ℝ)| ≤ 63 * 10 ^ p := by
    rw [← cast_unit]
    exact_mod_cast inside
  rw [abs_div, abs_of_pos pos, div_le_iff₀ pos]
  linarith

theorem square_turn_le : (x / 10 ^ p : ℝ) ^ 2 ≤ 40 := by
  have turn := abs_turn_le x p inside
  rw [← sq_abs]
  nlinarith [abs_nonneg (x / 10 ^ p : ℝ)]

/-- The product of a term with the square of x, when both factors are cut. -/
theorem product_square_near (b : ℝ) (t : Int) :
    |10 ^ p * b * (x / 10 ^ p : ℝ) ^ 2 - t * (square x p / 10 ^ p)| ≤
      |10 ^ p * b - t| * 40 + |b| := by
  obtain ⟨s, hs⟩ : ∃ s : ℝ, s = (square x p : Int) / 10 ^ p := ⟨_, rfl⟩
  have tens : (0 : ℝ) < 10 ^ p := by positivity
  obtain ⟨nonneg, low, high⟩ := square_cut_bounds x p
  have large := square_turn_le x p inside
  rw [← hs] at nonneg low high ⊢
  have before : |(10 ^ p * b - t) * s| ≤ |10 ^ p * b - t| * 40 := by
    rw [abs_mul, abs_of_nonneg nonneg]
    gcongr
    exact low.trans large
  have missing : |b * (10 ^ p * ((x / 10 ^ p : ℝ) ^ 2 - s))| ≤ |b| := by
    rw [abs_mul, abs_of_nonneg (mul_nonneg tens.le (sub_nonneg.2 low))]
    exact mul_le_of_le_one_right (abs_nonneg _) high
  have split : 10 ^ p * b * (x / 10 ^ p : ℝ) ^ 2 - t * s =
      (10 ^ p * b - t) * s + b * (10 ^ p * ((x / 10 ^ p : ℝ) ^ 2 - s)) := by ring
  rw [split]
  exact (abs_add_le _ _).trans (add_le_add before missing)

variable (divisor : Nat → Int) (a : Nat → ℝ) (terms : Alternates (x / 10 ^ p) divisor a)

include terms

omit inside in
theorem cast_divisor_ge (k : Nat) : ((2 * k + 1) * (2 * k + 2) : ℝ) ≤ divisor k := by
  exact_mod_cast terms.large k

theorem abs_alternating_step (k : Nat) :
    |a (k + 1)| ≤ |a k| * 40 / ((2 * k + 1) * (2 * k + 2)) := by
  have divisor_ge := cast_divisor_ge x p divisor a terms k
  have pos : (0 : ℝ) < divisor k := lt_of_lt_of_le (by positivity) divisor_ge
  have square := square_turn_le x p inside
  rw [terms.step, abs_div, abs_neg, abs_mul, abs_of_pos pos,
    abs_of_nonneg (sq_nonneg (x / 10 ^ p : ℝ))]
  gcongr

theorem abs_alternating_le (k : Nat) : |a k| ≤ (budget k).size := by
  induction k with
  | zero =>
    have start := terms.start
    rw [budget]
    push_cast
    exact start
  | succ k ih =>
    refine (abs_alternating_step x p inside divisor a terms k).trans ?_
    rw [budget_size_succ]
    push_cast
    gcongr

/-- The error of the term before, that of the square and what the division cuts. -/
theorem alternating_step_near (t : Int) (k : Nat) :
    |10 ^ p * a (k + 1) - ((-(t * square x p)).tdiv (unit p * divisor k) : Int)| ≤
      (|10 ^ p * a k - t| * 40 + |a k|) / ((2 * k + 1) * (2 * k + 2)) + 1 := by
  have tens : (0 : ℝ) < 10 ^ p := by positivity
  have divisor_ge := cast_divisor_ge x p divisor a terms k
  have pos : (0 : ℝ) < divisor k := lt_of_lt_of_le (by positivity) divisor_ge
  have whole : 0 < unit p * divisor k := Int.mul_pos (unit_pos p) (by exact_mod_cast pos)
  have cut := (abs_div_sub_tdiv_lt (K := ℝ) (-(t * square x p)) _ whole).le
  have quotient : ((-(t * square x p) : Int) : ℝ) / ((unit p * divisor k : Int) : ℝ) =
      -(t * (square x p / 10 ^ p)) / divisor k := by
    push_cast
    rw [cast_unit]
    field_simp
  rw [quotient] at cut
  have error : |10 ^ p * a (k + 1) - -(t * (square x p / 10 ^ p)) / divisor k| ≤
      (|10 ^ p * a k - t| * 40 + |a k|) / ((2 * k + 1) * (2 * k + 2)) := by
    have split : 10 ^ p * a (k + 1) - -(t * (square x p / 10 ^ p)) / divisor k =
        -(10 ^ p * a k * (x / 10 ^ p : ℝ) ^ 2 - t * (square x p / 10 ^ p)) / divisor k := by
      rw [terms.step]
      ring
    rw [split, abs_div, abs_neg, abs_of_pos pos]
    gcongr
    exact product_square_near x p inside (a k) t
  exact (abs_sub_le _ _ _).trans (add_le_add error cut)

variable (first : Int) (start : (first : ℝ) = 10 ^ p * a 0)

include start

theorem carried_alternatingTerms_near (k : Nat) :
    |10 ^ p * a k - (alternatingTerms first x p divisor).carried k| ≤ (budget k).loss := by
  induction k with
  | zero =>
    have same : (alternatingTerms first x p divisor).carried 0 = first := rfl
    rw [same, start, sub_self, abs_zero, budget, Rat.cast_zero]
  | succ k ih =>
    have size := abs_alternating_le x p inside divisor a terms k
    refine (alternating_step_near x p inside divisor a terms _ k).trans ?_
    rw [budget_loss_succ]
    push_cast
    gcongr

omit start in
theorem alternating_tail_le : 10 ^ p * (2 * |a (limit p)|) ≤ 1 := by
  refine le_trans ?_ (budget_limit_le p)
  gcongr
  exact abs_alternating_le x p inside divisor a terms (limit p)

omit start in
/-- From the eighth on the exact terms fall. -/
theorem alternating_halves (k : Nat) (hk : 8 ≤ k) : 2 * |a (k + 1)| ≤ |a k| := by
  have step := abs_alternating_step x p inside divisor a terms k
  have many : (8 : ℝ) ≤ k := by exact_mod_cast hk
  rw [le_div_iff₀ (by positivity)] at step
  have enough : 80 * |a (k + 1)| ≤ |a (k + 1)| * ((2 * k + 1) * (2 * k + 2)) := by
    rw [mul_comm]
    gcongr
    nlinarith
  linarith

/-- The loop loses at most two digits in each term, and 150 more while the terms grow. -/
theorem alternatingTerms_near (value : ℝ) (sums : HasSum a value) :
    |10 ^ p * value - (alternatingTerms first x p divisor).sum p| ≤ 2 * limit p + 150 := by
  have index : limit p = 8 + (2 * p + 56) := by
    rw [limit]
    omega
  have lost : ∑ k ∈ range (limit p), ((budget k).loss : ℝ) ≤ 2 * limit p + 148 := by
    have total := sum_budget_loss_le (2 * p + 56)
    rw [← index] at total
    have real : ∑ k ∈ range (limit p), ((budget k).loss : ℝ) ≤ 164 + 2 * (2 * p + 56 : Nat) := by
      exact_mod_cast total
    have count : (limit p : ℝ) = 8 + (2 * p + 56 : Nat) := by exact_mod_cast index
    linarith
  have halves (k : Nat) (hk : limit p ≤ k) : 2 * |a (k + 1)| ≤ |a k| :=
    alternating_halves x p inside divisor a terms k (by omega)
  have near := ((alternatingTerms_vanishing first x p divisor).below _).sum_near a
    (fun k => ((budget k).loss : ℝ)) value sums
    (fun k _ => carried_alternatingTerms_near x p inside divisor a terms first start k) halves
    (alternating_tail_le x p inside divisor a terms)
  linarith

end Alternating

theorem sineTerms_start (x : Int) (p : Nat) : (x : ℝ) = 10 ^ p *
    ((-1) ^ 0 * (x / 10 ^ p : ℝ) ^ (2 * 0 + 1) / (2 * 0 + 1).factorial) := by
  simp only [pow_zero, mul_zero, zero_add, pow_one, one_mul, Nat.factorial_one, Nat.cast_one,
    div_one]
  field_simp

theorem cosineTerms_start (x : Int) (p : Nat) : ((unit p : Int) : ℝ) = 10 ^ p *
    ((-1) ^ 0 * (x / 10 ^ p : ℝ) ^ (2 * 0) / (2 * 0).factorial) := by
  simp

section Turn

variable (x : Int) (p : Nat) (inside : 10 * |x| ≤ 63 * unit p)

include inside

theorem sin_near : |10 ^ p * Real.sin (x / 10 ^ p) - sin x p| ≤ 2 * limit p + 150 := by
  rw [sin, sineTerms_eq]
  exact alternatingTerms_near x p inside sineDivisor _ (alternates_sin _ (abs_turn_le x p inside))
    x (sineTerms_start x p) _ (Real.hasSum_sin _)

theorem cos_near : |10 ^ p * Real.cos (x / 10 ^ p) - cos x p| ≤ 2 * limit p + 150 := by
  rw [cos, cosineTerms_eq]
  exact alternatingTerms_near x p inside cosineDivisor _ (alternates_cos _) (unit p)
    (cosineTerms_start x p) _ (Real.hasSum_cos _)

end Turn

/-- The radians of an angle within one turn, from its digits F that are cut and from a number P that
is near π, both in units of 1 / u. -/
theorem abs_radians_sub_le (u R F P : ℝ) (pos : 0 < u) (turn : R ≤ 360) (digits : 0 ≤ F)
    (low : F ≤ u * R) (high : u * R ≤ F + 1) (constant : |u * Real.pi - P| ≤ 2) :
    |u * (R * Real.pi / 180) - F * P / (u * 180)| ≤ 5 := by
  have split : u * (R * Real.pi / 180) - F * P / (u * 180) =
      ((u * R - F) * (u * Real.pi) + F * (u * Real.pi - P)) / (u * 180) := by
    field_simp
    ring
  have angle : |(u * R - F) * (u * Real.pi)| ≤ 1 * (u * 4) := by
    rw [abs_mul, abs_of_nonneg (sub_nonneg.2 low), abs_of_pos (by positivity)]
    gcongr
    · linarith
    · exact Real.pi_le_four
  have factor : |F * (u * Real.pi - P)| ≤ u * 360 * 2 := by
    rw [abs_mul, abs_of_nonneg digits]
    gcongr
    exact low.trans (by gcongr)
  rw [split, abs_div, abs_of_pos (by positivity : 0 < u * 180), div_le_iff₀ (by positivity)]
  exact (abs_add_le _ _).trans (by linarith)

section Angle

variable (degrees : Decimal) (p : Nat) (hp : p ≤ maxDigits) (hp' : 3 ≤ p)

/-- Whole turns change neither of the two functions. -/
theorem exists_turn : ∃ turns : Int, (degrees.toRat * Real.pi / 180 : ℝ) =
    (degrees.residue 360).toRat * Real.pi / 180 + turns * (2 * Real.pi) := by
  obtain ⟨turns, value⟩ := degrees.exists_eq_residue_add 360 (by decide)
  refine ⟨turns, ?_⟩
  rw [value]
  push_cast
  ring

include hp

/-- The digits of the angle are cut, π is near, and the quotient is cut. -/
theorem radians_near :
    |10 ^ p * ((degrees.residue 360).toRat * Real.pi / 180) - radians degrees p| ≤ 6 := by
  obtain ⟨u, hu⟩ : ∃ u : ℝ, u = 10 ^ p := ⟨_, rfl⟩
  obtain ⟨R, hR⟩ : ∃ R : ℝ, R = (degrees.residue 360).toRat := ⟨_, rfl⟩
  obtain ⟨F, hF⟩ : ∃ F, F = (degrees.residue 360).toFixed p := ⟨_, rfl⟩
  have pos : 0 < u := by
    rw [hu]
    positivity
  obtain ⟨least, most⟩ := degrees.residue_bounds 360 (by decide)
  obtain ⟨natural, floor, ceil⟩ := (degrees.residue 360).toFixed_bounds p least
  have turn : R ≤ 360 := by
    rw [hR]
    exact_mod_cast most.le
  have low : (F : ℝ) ≤ u * R := by
    have cast := (Rat.cast_le (K := ℝ)).2 floor
    push_cast at cast
    rwa [hF, hu, hR]
  have high : u * R ≤ F + 1 := by
    have cast := (Rat.cast_le (K := ℝ)).2 ceil.le
    push_cast at cast
    rwa [hF, hu, hR]
  have digits : (0 : ℝ) ≤ F := by
    rw [hF]
    exact_mod_cast natural
  have constant := (pi_near p hp).le
  have whole : 0 < unit p * 180 := Int.mul_pos (unit_pos p) (by decide)
  have cut := (abs_div_sub_tdiv_lt (K := ℝ) (F * pi p) _ whole).le
  have quotient : ((F * pi p : Int) : ℝ) / ((unit p * 180 : Int) : ℝ) = F * pi p / (u * 180) := by
    push_cast
    rw [cast_unit, hu]
  rw [quotient] at cut
  rw [← hu] at constant
  have result : radians degrees p = (F * pi p).tdiv (unit p * 180) := by
    rw [radians, hF]
  rw [← hu, ← hR, result]
  have error := abs_radians_sub_le u R F (pi p) pos turn digits low high constant
  exact (abs_sub_le _ _ _).trans ((add_le_add error cut).trans (by norm_num))

include hp'

/-- The angle stays where the loops are accurate. -/
theorem radians_inside : 10 * |radians degrees p| ≤ 63 * unit p := by
  have near := abs_le.1 (radians_near degrees p hp)
  obtain ⟨least, most⟩ := degrees.residue_bounds 360 (by decide)
  have pos : (0 : ℝ) < 10 ^ p := by positivity
  have digits : (10 : ℝ) ^ 3 ≤ 10 ^ p := pow_le_pow_right₀ (by norm_num) hp'
  have low : (0 : ℝ) ≤ (degrees.residue 360).toRat := by exact_mod_cast least
  have high : ((degrees.residue 360).toRat : ℝ) ≤ 360 := by exact_mod_cast most.le
  have turn : (degrees.residue 360).toRat * Real.pi / 180 ≤ 6.284 := by
    have product : (degrees.residue 360).toRat * Real.pi ≤ 360 * 3.142 := by
      gcongr
      exact (Real.pi_lt_d4.trans (by norm_num)).le
    linarith
  have scaled : 10 ^ p * ((degrees.residue 360).toRat * Real.pi / 180) ≤ 10 ^ p * 6.284 := by
    gcongr
  have nonneg : 0 ≤ 10 ^ p * ((degrees.residue 360).toRat * Real.pi / 180) := by positivity
  have bound : 10 * |(radians degrees p : ℝ)| ≤ 63 * ((unit p : Int) : ℝ) := by
    have inside : |(radians degrees p : ℝ)| ≤ 10 ^ p * 6.284 + 6 :=
      abs_le.2 ⟨by linarith, by linarith⟩
    rw [cast_unit]
    linarith
  exact_mod_cast bound

omit hp hp' in
/-- A function that is no steeper than its argument loses no more than its argument does. -/
theorem moved_near (f : ℝ → ℝ) (flat : ∀ a b, |f a - f b| ≤ |a - b|) (angle loss error : ℝ)
    (x y : Int) (near : |10 ^ p * angle - x| ≤ loss)
    (computed : |10 ^ p * f (x / 10 ^ p) - y| ≤ error) :
    |10 ^ p * f angle - y| ≤ loss + error := by
  have pos : (0 : ℝ) < 10 ^ p := by positivity
  have moved : |10 ^ p * f angle - 10 ^ p * f (x / 10 ^ p)| ≤ loss := by
    calc
      _ = 10 ^ p * |f angle - f (x / 10 ^ p)| := by rw [← mul_sub, abs_mul, abs_of_pos pos]
      _ ≤ 10 ^ p * |angle - x / 10 ^ p| := mul_le_mul_of_nonneg_left (flat _ _) pos.le
      _ = |10 ^ p * angle - x| := mul_abs_sub_div _ angle x pos
      _ ≤ loss := near
  exact (abs_sub_le _ _ _).trans (add_le_add moved computed)

/-- The sine of any angle in degrees loses what the loop loses and what the angle does. -/
theorem sin_radians_near :
    |10 ^ p * Real.sin (degrees.toRat * Real.pi / 180) - sin (radians degrees p) p| ≤
      6 + (2 * limit p + 150) := by
  obtain ⟨turns, value⟩ := exists_turn degrees
  rw [value, Real.sin_add_int_mul_two_pi]
  exact moved_near p Real.sin Real.abs_sin_sub_sin_le _ _ _ _ _ (radians_near degrees p hp)
    (sin_near _ p (radians_inside degrees p hp hp'))

/-- So does the cosine. -/
theorem cos_radians_near :
    |10 ^ p * Real.cos (degrees.toRat * Real.pi / 180) - cos (radians degrees p) p| ≤
      6 + (2 * limit p + 150) := by
  obtain ⟨turns, value⟩ := exists_turn degrees
  rw [value, Real.cos_add_int_mul_two_pi]
  exact moved_near p Real.cos Real.abs_cos_sub_cos_le _ _ _ _ _ (radians_near degrees p hp)
    (cos_near _ p (radians_inside degrees p hp hp'))

end Angle

end Reckoner.FixedPoint
