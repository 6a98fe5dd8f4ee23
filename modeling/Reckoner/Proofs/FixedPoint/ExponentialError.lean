import Mathlib.Analysis.SpecialFunctions.Exponential
import Mathlib.Analysis.Complex.ExponentialBounds
import Reckoner.FixedPoint.Exponential
import Reckoner.Proofs.Decimal.Significant
import Reckoner.Proofs.FixedPoint.Constants

namespace Reckoner.FixedPoint

open Finset Numeric Series

/-- As many terms as are looked at have a factorial beyond the last digit. -/
theorem factorial_limit (p : Nat) : 2 * 10 ^ p ≤ (limit p).factorial := by
  have base : 2 ≤ (64).factorial := by decide
  have power : 10 ^ p ≤ (64 + 1) ^ (2 * p) := by
    rw [Nat.pow_mul]
    exact Nat.pow_le_pow_left (by norm_num) p
  have count : limit p = 64 + 2 * p := Nat.add_comm _ _
  rw [count]
  exact (Nat.mul_le_mul base power).trans (Nat.factorial_mul_pow_le_factorial)

/-- Up to 1 the terms of the exponential that are not looked at do not reach the last digit. -/
theorem exp_partial_sum_bounds (x : ℝ) (nonneg : 0 ≤ x) (part : x ≤ 1) (p : Nat) :
    10 ^ p * ∑ k ∈ range (limit p), x ^ k / k.factorial ≤ 10 ^ p * Real.exp x ∧
      10 ^ p * Real.exp x ≤ 10 ^ p * ∑ k ∈ range (limit p), x ^ k / k.factorial + 1 := by
  have pos : (0 : ℝ) < 10 ^ p := by positivity
  have count : 0 < limit p := Nat.lt_of_lt_of_le (by decide) (Nat.le_add_left 64 (2 * p))
  have above := mul_le_mul_of_nonneg_left (Real.exp_bound' nonneg part count) pos.le
  have rest : 10 ^ p * (x ^ limit p * (limit p + 1) / ((limit p).factorial * limit p)) ≤ 1 := by
    have power : x ^ limit p ≤ 1 := pow_le_one₀ nonneg part
    have large : (2 * 10 ^ p : ℝ) ≤ (limit p).factorial := by exact_mod_cast factorial_limit p
    have terms : (1 : ℝ) ≤ limit p := by exact_mod_cast count
    rw [← mul_div_assoc, div_le_one (by positivity)]
    calc
      10 ^ p * (x ^ limit p * (limit p + 1)) ≤ 10 ^ p * (1 * (limit p + 1)) := by gcongr
      _ ≤ 10 ^ p * (2 * limit p) := mul_le_mul_of_nonneg_left (by linarith) pos.le
      _ = 2 * 10 ^ p * limit p := by ring
      _ ≤ (limit p).factorial * limit p := by gcongr
  rw [mul_add] at above
  exact ⟨mul_le_mul_of_nonneg_left (Real.sum_le_exp_of_nonneg nonneg (limit p)) pos.le,
    by linarith⟩

section Terms

variable (r : Int) (p : Nat) (hr : 0 ≤ r) (small : 4 * r ≤ 3 * unit p)

theorem exponentialTerms_vanishing : (exponentialTerms r p).Vanishing := by
  intro k hk
  have current : (exponentialTerms r p).carried k = 0 := hk
  change ((exponentialTerms r p).carried k * r).tdiv (unit p * (k + 1)) = 0
  rw [current, Int.zero_mul, Int.zero_tdiv]

include small

theorem rest_le : (r / 10 ^ p : ℝ) ≤ 3 / 4 := by
  have cast : (4 * r : ℝ) ≤ 3 * 10 ^ p := by
    rw [← cast_unit]
    exact_mod_cast small
  rw [div_le_iff₀ (by positivity)]
  linarith

include hr

/-- Each term is cut by less than one, and three quarters at most of the error before are kept. -/
theorem carried_exponentialTerms_bounds (k : Nat) :
    0 ≤ (exponentialTerms r p).carried k ∧
      (exponentialTerms r p).carried k ≤ 10 ^ p * ((r / 10 ^ p : ℝ) ^ k / k.factorial) ∧
      10 ^ p * ((r / 10 ^ p : ℝ) ^ k / k.factorial) ≤ (exponentialTerms r p).carried k + 4 := by
  have pos : (0 : ℝ) < 10 ^ p := by positivity
  have nonneg : (0 : ℝ) ≤ r := by exact_mod_cast hr
  have part := rest_le r p small
  induction k with
  | zero =>
    have first : (exponentialTerms r p).carried 0 = unit p := rfl
    rw [first, cast_unit]
    simp [(unit_pos p).le]
  | succ k ih =>
    obtain ⟨sign, below, above⟩ := ih
    let t := (exponentialTerms r p).carried k
    let x : ℝ := r / 10 ^ p
    have next : (exponentialTerms r p).carried (k + 1) = (t * r).tdiv (unit p * (k + 1)) := rfl
    have divisor : 0 < unit p * (k + 1) := Int.mul_pos (unit_pos p) (by omega)
    have product : 0 ≤ t * r := Int.mul_nonneg sign hr
    have floor := tdiv_le_div (K := ℝ) (t * r) _ product divisor
    have ceil := div_lt_tdiv_add_one (K := ℝ) (t * r) _ divisor
    have count : (1 : ℝ) ≤ k + 1 := le_add_of_nonneg_left (Nat.cast_nonneg k)
    have ratio : 0 ≤ x / (k + 1) := by positivity
    have step : x / (k + 1) ≤ 3 / 4 := by
      rw [div_le_iff₀ (by linarith)]
      nlinarith
    have exact : 10 ^ p * (x ^ (k + 1) / (k + 1).factorial) =
        10 ^ p * (x ^ k / k.factorial) * (x / (k + 1)) := by
      rw [Nat.factorial_succ, pow_succ]
      push_cast
      field_simp
    have quotient : ((t * r : Int) : ℝ) / (unit p * (k + 1) : Int) = t * (x / (k + 1)) := by
      push_cast
      rw [cast_unit]
      simp only [x]
      field_simp
    rw [quotient] at floor ceil
    rw [next, exact]
    refine ⟨Int.tdiv_nonneg product divisor.le, floor.trans ?_, ?_⟩
    · gcongr
    · calc
        _ ≤ (t + 4) * (x / (k + 1)) := by gcongr
        _ ≤ t * (x / (k + 1)) + 3 := by linarith
        _ ≤ _ := by linarith

/-- The series for the exponential loses less than four digits in each term. -/
theorem exponentialTerms_near :
    ((exponentialTerms r p).sum p : ℝ) ≤ 10 ^ p * Real.exp (r / 10 ^ p) ∧
      10 ^ p * Real.exp (r / 10 ^ p) ≤ (exponentialTerms r p).sum p + (4 * limit p + 1) := by
  let x : ℝ := r / 10 ^ p
  let a (k : Nat) : ℝ := 10 ^ p * (x ^ k / k.factorial)
  have pos : (0 : ℝ) < 10 ^ p := by positivity
  have nonneg : 0 ≤ x := div_nonneg (by exact_mod_cast hr) pos.le
  have part : x ≤ 1 := (rest_le r p small).trans (by norm_num)
  have near (k : Nat) : 0 ≤ a k - (exponentialTerms r p).nth k ∧
      a k - (exponentialTerms r p).nth k ≤ 4 := by
    obtain ⟨-, below, above⟩ := carried_exponentialTerms_bounds r p hr small k
    have term : (exponentialTerms r p).nth k = (exponentialTerms r p).carried k := rfl
    rw [term]
    exact ⟨sub_nonneg.2 below, sub_left_le_of_le_add above⟩
  obtain ⟨low, high⟩ :=
    ((exponentialTerms_vanishing r p).below _).sum_between a 0 4 fun k _ => near k
  have scaled : ∑ k ∈ range (limit p), a k =
      10 ^ p * ∑ k ∈ range (limit p), x ^ k / k.factorial := (mul_sum _ _ _).symm
  obtain ⟨below, above⟩ := exp_partial_sum_bounds x nonneg part p
  rw [← scaled] at below above
  constructor <;> linarith

end Terms

/-- Powers of two with either sign are exact. -/
theorem toRat_scaleBinary (s : Int) (p : Nat) (n : Int) (room : p + (-n).toNat < wordSize) :
    (scaleBinary s p n).toRat = s * 2 ^ n / 10 ^ p := by
  rw [scaleBinary]
  split
  · rename_i hn
    have power : (2 : Rat) ^ n = pow2 n.toNat := by
      obtain ⟨m, rfl⟩ := Int.eq_ofNat_of_zero_le hn
      simp [pow2]
    rw [Decimal.toRat_eq_div, power]
    push_cast
    rfl
  · rename_i hn
    have power : (2 : Rat) ^ n = 1 / 2 ^ (-n).toNat := by
      rw [← zpow_natCast, Int.toNat_of_nonneg (by omega), zpow_neg, one_div, inv_inv]
    have tens : (10 : Rat) ^ (-n).toNat = 2 ^ (-n).toNat * 5 ^ (-n).toNat := by
      rw [← mul_pow]
      norm_num
    have fives : ((pow5 (-n).toNat : Nat) : Rat) = 5 ^ (-n).toNat := by simp [pow5]
    rw [Decimal.toRat_eq_div, power]
    push_cast
    rw [fives, toWord_of_lt room, pow_add, tens]
    field_simp

theorem abs_exp_sub_exp_le (x y : ℝ) (h : |x - y| ≤ 1) :
    |Real.exp x - Real.exp y| ≤ Real.exp y * (2 * |x - y|) := by
  have split : Real.exp x - Real.exp y = Real.exp y * (Real.exp (x - y) - 1) := by
    rw [mul_sub, ← Real.exp_add, mul_one, add_sub_cancel]
  rw [split, abs_mul, abs_of_pos (Real.exp_pos y)]
  gcongr
  exact Real.abs_exp_sub_one_le h

/-- An error of the exponent is one of the value in the same ratio, and so is what a value lacks. -/
theorem abs_sub_exp_le (x d value lost : ℝ) (hd : |d| ≤ 1) (below : value ≤ Real.exp (x + d))
    (above : Real.exp (x + d) ≤ value + Real.exp (x + d) * lost) (hlost : 0 ≤ lost) :
    |value - Real.exp x| ≤ Real.exp x * (2 * |d| + 3 * lost) := by
  have pos := Real.exp_pos x
  have factor : Real.exp d ≤ 3 := by
    have most := Real.exp_le_exp.2 ((le_abs_self d).trans hd)
    linarith [Real.exp_one_lt_d9]
  have shifted := abs_exp_sub_exp_le (x + d) x (by rwa [add_sub_cancel_left])
  rw [add_sub_cancel_left] at shifted
  have cut : |value - Real.exp (x + d)| ≤ Real.exp x * (3 * lost) := by
    have most : Real.exp (x + d) * lost ≤ Real.exp x * (3 * lost) := by
      rw [Real.exp_add, mul_assoc]
      gcongr
    rw [abs_of_nonpos (by linarith)]
    linarith
  calc
    |value - Real.exp x| ≤ |value - Real.exp (x + d)| + |Real.exp (x + d) - Real.exp x| :=
      abs_sub_le _ _ _
    _ ≤ Real.exp x * (2 * |d| + 3 * lost) := by linarith

/-- With y = n ln 2 + r and n in its bounds, what is rounded is 2^n times the sum for r. -/
theorem exp_eq (y : Int) (p digits : Nat) (low : -maxBinaryExponent ≤ y.fdiv (ln2 p))
    (high : y.fdiv (ln2 p) ≤ maxBinaryExponent) :
    exp? y p digits =
      some ((scaleBinary ((exponentialTerms (y.fmod (ln2 p)) p).sum p) p
        (y.fdiv (ln2 p))).roundSignificant digits) := by
  have rest : y - y.fdiv (ln2 p) * ln2 p = y.fmod (ln2 p) := by
    rw [Int.fmod_def, Int.mul_comm]
  simp only [exp?, rest, if_neg (Int.not_lt.2 high), if_neg (Int.not_lt.2 low)]

section Value

variable (p : Nat) (hp : p ≤ maxDigits) (hp' : 6 ≤ p)

include hp hp'

theorem ln2_between : (69 / 100 * 10 ^ p : ℝ) ≤ ln2 p ∧ (ln2 p : ℝ) ≤ 3 / 4 * 10 ^ p := by
  obtain ⟨below, above⟩ := ln2_bounds p hp
  have pos : (0 : ℝ) < 10 ^ p := by positivity
  have digits : (10 : ℝ) ^ 6 ≤ 10 ^ p := pow_le_pow_right₀ (by norm_num) hp'
  have low := mul_le_mul_of_nonneg_left Real.log_two_gt_d9.le pos.le
  have high := mul_le_mul_of_nonneg_left Real.log_two_lt_d9.le pos.le
  constructor <;> linarith

theorem ln2_pos : 0 < ln2 p := by
  have pos : (0 : ℝ) < 10 ^ p := by positivity
  have real : (0 : ℝ) < ln2 p := by linarith [(ln2_between p hp hp').1]
  exact_mod_cast real

theorem fmod_ln2_bounds (y : Int) :
    0 ≤ y.fmod (ln2 p) ∧ 4 * y.fmod (ln2 p) ≤ 3 * unit p := by
  have pos := ln2_pos p hp hp'
  have low := Int.fmod_nonneg_of_pos y pos
  have high := Int.fmod_lt_of_pos y pos
  have size : 4 * ln2 p ≤ 3 * unit p := by
    have real : (4 * ln2 p : ℝ) ≤ 3 * ((unit p : Int) : ℝ) := by
      rw [cast_unit]
      linarith [(ln2_between p hp hp').2]
    exact_mod_cast real
  exact ⟨low, by omega⟩

theorem abs_fdiv_ln2_le (y : Int) (h : |(y : ℝ)| ≤ 10 ^ p * 23201) : |y.fdiv (ln2 p)| ≤ 34000 := by
  obtain ⟨n, hn⟩ : ∃ n, n = y.fdiv (ln2 p) := ⟨_, rfl⟩
  obtain ⟨r, hr⟩ : ∃ r, r = y.fmod (ln2 p) := ⟨_, rfl⟩
  have pos : (0 : ℝ) < 10 ^ p := by positivity
  obtain ⟨least, most⟩ := ln2_between p hp hp'
  have low : (0 : ℝ) ≤ r := by
    rw [hr]
    exact_mod_cast (fmod_ln2_bounds p hp hp' y).1
  have high : (r : ℝ) ≤ ln2 p := by
    rw [hr]
    exact_mod_cast (Int.fmod_lt_of_pos y (ln2_pos p hp hp')).le
  have whole : (n : ℝ) * ln2 p = y - r := by
    have split : ln2 p * n + r = y := by
      rw [hn, hr]
      exact Int.mul_fdiv_add_fmod y (ln2 p)
    have cast : (ln2 p * n + r : ℝ) = y := by exact_mod_cast split
    linarith
  have product : |(n : ℝ)| * ln2 p ≤ 10 ^ p * 23202 := by
    rw [← abs_of_nonneg (low.trans high), ← abs_mul, whole]
    refine (abs_sub _ _).trans ?_
    rw [abs_of_nonneg low]
    linarith
  have bound : |(n : ℝ)| ≤ 34000 := by
    by_contra more
    nlinarith
  rw [← hn]
  exact_mod_cast bound

omit hp' in
/-- The number of halvings and the rest give the number back, but for the error of the constant
taken once for each halving. -/
theorem split_near (y : Int) (x error : ℝ) (near : |10 ^ p * x - y| ≤ 10 ^ p * error)
    (steps : |y.fdiv (ln2 p)| ≤ 34000) :
    |y.fdiv (ln2 p) * Real.log 2 + y.fmod (ln2 p) / 10 ^ p - x| ≤ error + 68000 / 10 ^ p := by
  obtain ⟨u, hu⟩ : ∃ u : ℝ, u = 10 ^ p := ⟨_, rfl⟩
  have pos : 0 < u := by
    rw [hu]
    positivity
  have split : (y : ℝ) = ln2 p * y.fdiv (ln2 p) + y.fmod (ln2 p) := by
    exact_mod_cast (Int.mul_fdiv_add_fmod y (ln2 p)).symm
  have parts : y.fdiv (ln2 p) * Real.log 2 + y.fmod (ln2 p) / u - x =
      (y.fdiv (ln2 p) * (u * Real.log 2 - ln2 p) - (u * x - y)) / u := by
    rw [eq_div_iff pos.ne', sub_mul, add_mul, div_mul_cancel₀ _ pos.ne']
    linarith
  have constant : |y.fdiv (ln2 p) * (u * Real.log 2 - ln2 p)| ≤ 34000 * 2 := by
    obtain ⟨below, above⟩ := ln2_bounds p hp
    have cast : |(y.fdiv (ln2 p) : ℝ)| ≤ 34000 := by exact_mod_cast steps
    rw [← hu] at below above
    rw [abs_mul, abs_of_nonneg (sub_nonneg.2 below)]
    gcongr
    linarith
  rw [← hu] at near ⊢
  rw [parts, abs_div, abs_of_pos pos, div_le_iff₀ pos, add_mul, div_mul_cancel₀ _ pos.ne',
    mul_comm error]
  refine (abs_sub _ _).trans ?_
  linarith

omit hp hp' in
/-- What the series loses is a part of the value, since the exponential of the rest is at least
one. -/
theorem scaleBinary_between (r n : Int) (low : 0 ≤ r) (inside : 4 * r ≤ 3 * unit p)
    (room : p + (-n).toNat < wordSize) :
    ((scaleBinary ((exponentialTerms r p).sum p) p n).toRat : ℝ) ≤
        2 ^ n * Real.exp (r / 10 ^ p) ∧
      2 ^ n * Real.exp (r / 10 ^ p) ≤
        ((scaleBinary ((exponentialTerms r p).sum p) p n).toRat : ℝ) +
          2 ^ n * Real.exp (r / 10 ^ p) * ((4 * limit p + 1) / 10 ^ p) := by
  obtain ⟨below, above⟩ := exponentialTerms_near r p low inside
  obtain ⟨S, hS⟩ : ∃ S, S = (exponentialTerms r p).sum p := ⟨_, rfl⟩
  have pos : (0 : ℝ) < 10 ^ p := by positivity
  have value : ((scaleBinary S p n).toRat : ℝ) = 2 ^ n * (S / 10 ^ p) := by
    rw [toRat_scaleBinary S p n room]
    push_cast
    ring
  let lost : ℝ := (4 * limit p + 1) / 10 ^ p
  have one : 1 ≤ Real.exp (r / 10 ^ p) :=
    Real.one_le_exp (div_nonneg (by exact_mod_cast low) pos.le)
  have terms : Real.exp (r / 10 ^ p) ≤ S / 10 ^ p + lost := by
    rw [← add_div, le_div_iff₀' pos, hS]
    exact above
  rw [← hS, value]
  constructor
  · gcongr
    rw [div_le_iff₀' pos, hS]
    exact below
  · rw [mul_assoc, ← mul_add]
    gcongr
    exact terms.trans (add_le_add_right (le_mul_of_one_le_left (by positivity) one) _)

/-- Where the halvings are few enough for the powers of two to be written out, the exponential is
found, with an error that is the error of the number and a few thousand units of the last digit. -/
theorem exp_near_of_steps (y : Int) (digits : Nat) (x error : ℝ)
    (near : |10 ^ p * x - y| ≤ 10 ^ p * error) (few : error ≤ 1 / 2)
    (steps : |y.fdiv (ln2 p)| ≤ 34000) :
    ∃ s : Decimal, exp? y p digits = some (s.roundSignificant digits) ∧
      |(s.toRat : ℝ) - Real.exp x| ≤
        Real.exp x * (2 * error + (12 * limit p + 136003) / 10 ^ p) := by
  have large : (10 : ℝ) ^ 6 ≤ 10 ^ p := pow_le_pow_right₀ (by norm_num) hp'
  have pos : (0 : ℝ) < 10 ^ p := by positivity
  have found := exp_eq y p digits (abs_le.1 steps).1 (abs_le.1 steps).2
  refine ⟨_, found, ?_⟩
  obtain ⟨low, inside⟩ := fmod_ln2_bounds p hp hp' y
  have room : p + (-y.fdiv (ln2 p)).toNat < wordSize := by
    have least := (abs_le.1 steps).1
    rw [maxDigits] at hp
    rw [wordSize]
    omega
  obtain ⟨below, above⟩ := scaleBinary_between p _ (y.fdiv (ln2 p)) low inside room
  let d : ℝ := y.fdiv (ln2 p) * Real.log 2 + y.fmod (ln2 p) / 10 ^ p - x
  have small : |d| ≤ error + 68000 / 10 ^ p := split_near p hp y x error near steps
  have near_one : |d| ≤ 1 := by
    have bound : (68000 : ℝ) / 10 ^ p ≤ 1 / 10 := by
      rw [div_le_iff₀ pos]
      linarith
    linarith
  have exact : Real.exp (x + d) =
      2 ^ y.fdiv (ln2 p) * Real.exp (y.fmod (ln2 p) / 10 ^ p) := by
    have parts : x + d = Real.log 2 * y.fdiv (ln2 p) + y.fmod (ln2 p) / 10 ^ p := by
      simp only [d]
      ring
    rw [parts, Real.exp_add, Real.exp_mul, Real.exp_log two_pos, Real.rpow_intCast]
  let lost : ℝ := (4 * limit p + 1) / 10 ^ p
  rw [← exact] at below above
  refine (abs_sub_exp_le x d _ lost near_one below above (by positivity)).trans ?_
  refine mul_le_mul_of_nonneg_left ?_ (Real.exp_pos x).le
  calc
    2 * |d| + 3 * lost ≤ 2 * (error + 68000 / 10 ^ p) + 3 * lost := by gcongr
    _ = 2 * error + (12 * limit p + 136003) / 10 ^ p := by
      simp only [lost]
      ring

/-- Near a number whose exponential is not beyond those that can be written out there are few
enough halvings. -/
theorem exp_near (y : Int) (digits : Nat) (x error : ℝ) (near : |10 ^ p * x - y| ≤ 10 ^ p * error)
    (few : error ≤ 1 / 2) (range : |x| ≤ 23200) :
    ∃ s : Decimal, exp? y p digits = some (s.roundSignificant digits) ∧
      |(s.toRat : ℝ) - Real.exp x| ≤
        Real.exp x * (2 * error + (12 * limit p + 136003) / 10 ^ p) := by
  have pos : (0 : ℝ) < 10 ^ p := by positivity
  have magnitude : |(y : ℝ)| ≤ 10 ^ p * 23201 := by
    have apart := abs_sub_abs_le_abs_sub (y : ℝ) (10 ^ p * x)
    rw [abs_sub_comm, abs_mul, abs_of_pos pos] at apart
    nlinarith
  exact exp_near_of_steps p hp hp' y digits x error near few (abs_fdiv_ln2_le p hp hp' y magnitude)

end Value

end Reckoner.FixedPoint
