import Reckoner.Proofs.FixedPoint.LogarithmReduction

namespace Reckoner.FixedPoint

open Finset Numeric Series

/-- The inverse hyperbolic tangent does not rise steeply near zero. -/
theorem artanh_sub_le (a b : ℝ) (hab : b ≤ a) (low : -(1 / 4) ≤ b) (high : a ≤ 1 / 4) :
    Real.artanh a - Real.artanh b ≤ 2 * (a - b) := by
  have outer (t : ℝ) (lo : -(1 / 4) ≤ t) (hi : t ≤ 1 / 4) :
      2 * Real.artanh t = Real.log (1 + t) - Real.log (1 - t) := by
    rw [two_mul_artanh t (by linarith) (by linarith), Real.log_div (by linarith) (by linarith)]
  have slope (c d : ℝ) (hd : 3 / 4 ≤ d) (hcd : d ≤ c) :
      Real.log c - Real.log d ≤ 2 * (c - d) := by
    have dpos : 0 < d := by linarith
    have quotient : Real.log c - Real.log d = Real.log (c / d) := by
      rw [Real.log_div (by linarith) dpos.ne']
    have cpos : 0 < c := by linarith
    have tangent := Real.log_le_sub_one_of_pos (div_pos cpos dpos)
    have ratio : c / d - 1 ≤ 2 * (c - d) := by
      rw [div_sub_one dpos.ne', div_le_iff₀ dpos]
      nlinarith
    linarith
  have up := slope (1 + a) (1 + b) (by linarith) (by linarith)
  have down := slope (1 - b) (1 - a) (by linarith) (by linarith)
  have at_a := outer a (by linarith) high
  have at_b := outer b low (by linarith)
  linarith

theorem abs_artanh_sub_le (a b : ℝ) (ha : |a| ≤ 1 / 4) (hb : |b| ≤ 1 / 4) :
    |Real.artanh a - Real.artanh b| ≤ 2 * |a - b| := by
  rw [abs_le] at ha hb
  rcases le_total b a with h | h
  · have upper := artanh_sub_le a b h hb.1 ha.2
    have grows := Real.artanh_le_artanh (by linarith) (by linarith) h
    rw [abs_of_nonneg (by linarith), abs_of_nonneg (by linarith)]
    exact upper
  · have upper := artanh_sub_le b a h ha.1 hb.2
    have grows := Real.artanh_le_artanh (by linarith) (by linarith) h
    rw [abs_of_nonpos (by linarith), abs_of_nonpos (by linarith)]
    linarith

section OddPowers

variable (z : Int) (p : Nat) (hz : 4 * |z| ≤ unit p)

include hz

private theorem quarter : |(z : ℝ)| ≤ 10 ^ p / 4 := by
  have cast : 4 * |(z : ℝ)| ≤ 10 ^ p := by
    rw [← cast_unit]
    exact_mod_cast hz
  linarith

/-- The factor from one power to the next, in fixed point. -/
private theorem square_bounds :
    (z / 10 ^ p : ℝ) ^ 2 ≤ 1 / 16 ∧ (0 : ℝ) ≤ ((z * z).tdiv (unit p) : Int) ∧
      ((z * z).tdiv (unit p) : Int) / 10 ^ p ≤ (z / 10 ^ p : ℝ) ^ 2 ∧
      (z / 10 ^ p : ℝ) ^ 2 ≤ (((z * z).tdiv (unit p) : Int) + 1) / 10 ^ p := by
  have pos : (0 : ℝ) < 10 ^ p := by positivity
  have part : |(z / 10 ^ p : ℝ)| ≤ 1 / 4 := by
    rw [abs_div, abs_of_pos pos, div_le_iff₀ pos]
    linarith [quarter z p hz]
  refine ⟨?_, tdiv_square_bounds z p⟩
  rw [← sq_abs]
  nlinarith [abs_nonneg (z / 10 ^ p : ℝ)]

theorem abs_carried_oddPowers_le (k : Nat) : |((oddPowers z p).carried k : ℝ)| ≤ 10 ^ p / 4 := by
  have falls := carried_oddPowers_falls z p hz k
  have power : (1 : Int) ≤ 16 ^ k := one_le_pow₀ (by decide)
  have part : |(oddPowers z p).carried k| ≤ |z| :=
    (le_mul_of_one_le_left (abs_nonneg _) power).trans falls
  calc
    |((oddPowers z p).carried k : ℝ)| ≤ |(z : ℝ)| := by exact_mod_cast part
    _ ≤ 10 ^ p / 4 := quarter z p hz

/-- What is carried stays within two of the exact power. -/
theorem carried_oddPowers_near (k : Nat) :
    |10 ^ p * (z / 10 ^ p : ℝ) ^ (2 * k + 1) - (oddPowers z p).carried k| ≤ 2 := by
  have pos : (0 : ℝ) < 10 ^ p := by positivity
  induction k with
  | zero =>
    have same : (oddPowers z p).carried 0 = z := rfl
    rw [same, mul_zero, zero_add, pow_one, mul_div_cancel₀ _ pos.ne', sub_self, abs_zero]
    norm_num
  | succ k ih =>
    let c := (oddPowers z p).carried k
    let s := (z * z).tdiv (unit p)
    let x : ℝ := z / 10 ^ p
    obtain ⟨part, nonneg, low, high⟩ := square_bounds z p hz
    have carry := abs_carried_oddPowers_le z p hz k
    have cut := (abs_div_sub_tdiv_lt (K := ℝ) (c * s) (unit p) (unit_pos p)).le
    have next : (oddPowers z p).carried (k + 1) = (c * s).tdiv (unit p) := rfl
    -- The error of the power before, that of the square, and what the division cuts.
    have split : 10 ^ p * x ^ (2 * (k + 1) + 1) - ((c * s).tdiv (unit p) : Int) =
        (10 ^ p * x ^ (2 * k + 1) - c) * x ^ 2 + c * (x ^ 2 - s / 10 ^ p) +
          (((c * s : Int) : ℝ) / (unit p : Int) - ((c * s).tdiv (unit p) : Int)) := by
      rw [cast_unit]
      push_cast
      ring
    have before : |(10 ^ p * x ^ (2 * k + 1) - c) * x ^ 2| ≤ 1 / 8 := by
      rw [abs_mul, abs_of_nonneg (sq_nonneg x)]
      calc
        _ ≤ 2 * (1 / 16 : ℝ) := mul_le_mul ih part (sq_nonneg x) (by norm_num)
        _ = 1 / 8 := by norm_num
    have square : |c * (x ^ 2 - s / 10 ^ p)| ≤ 1 / 4 := by
      rw [abs_mul, abs_of_nonneg (sub_nonneg.2 low)]
      calc
        _ ≤ 10 ^ p / 4 * (1 / 10 ^ p : ℝ) := by
          refine mul_le_mul carry ?_ (sub_nonneg.2 low) (by positivity)
          rw [add_div] at high
          linarith
        _ = 1 / 4 := by field_simp
    rw [next, split]
    calc
      _ ≤ |(10 ^ p * x ^ (2 * k + 1) - c) * x ^ 2| + |c * (x ^ 2 - s / 10 ^ p)| +
          |((c * s : Int) : ℝ) / (unit p : Int) - ((c * s).tdiv (unit p) : Int)| :=
        abs_add_three _ _ _
      _ ≤ 2 := by linarith

/-- The series for the inverse hyperbolic tangent loses less than three digits in each term. -/
theorem artanh_near (room : 2 * limit p + 1 < wordSize) :
    |10 ^ p * Real.artanh (z / 10 ^ p) - artanh z p| ≤ 3 * limit p + 1 := by
  let x : ℝ := z / 10 ^ p
  let a (k : Nat) : ℝ := 10 ^ p * (x ^ (2 * k + 1) / (2 * k + 1))
  have pos : (0 : ℝ) < 10 ^ p := by positivity
  have part : |x| ≤ 1 / 4 := by
    rw [abs_div, abs_of_pos pos, div_le_iff₀ pos]
    linarith [quarter z p hz]
  have near (k : Nat) (inside : k < limit p) : |a k - (oddPowers z p).nth k| ≤ 3 := by
    let c := (oddPowers z p).carried k
    have odd : (0 : Int) < 2 * k + 1 := by omega
    have divisor : (1 : ℝ) ≤ ((2 * (k : Int) + 1 : Int) : ℝ) := by exact_mod_cast odd
    have positive : (0 : ℝ) < ((2 * (k : Int) + 1 : Int) : ℝ) := by linarith
    have term : (oddPowers z p).nth k = c.tdiv (2 * k + 1) := by
      change c.tdiv (oddFactor k) = _
      rw [cast_oddFactor (by omega)]
    have cut := (abs_div_sub_tdiv_lt (K := ℝ) c (2 * k + 1) odd).le
    have carry : |(10 ^ p * x ^ (2 * k + 1) - c) / ((2 * (k : Int) + 1 : Int) : ℝ)| ≤ 2 := by
      rw [abs_div, abs_of_pos positive, div_le_iff₀ positive]
      linarith [carried_oddPowers_near z p hz k]
    have split : a k - c.tdiv (2 * k + 1) =
        (10 ^ p * x ^ (2 * k + 1) - c) / ((2 * (k : Int) + 1 : Int) : ℝ) +
          (c / ((2 * (k : Int) + 1 : Int) : ℝ) - (c.tdiv (2 * k + 1) : Int)) := by
      push_cast
      ring
    rw [term, split]
    exact (abs_add_le _ _).trans (by linarith)
  obtain ⟨low, high⟩ := (oddPowers_vanishingBelow z p hz room).sum_between a (-3) 3
    fun k inside => abs_le.1 (near k inside)
  have scaled : ∑ k ∈ range (limit p), a k =
      10 ^ p * ∑ k ∈ range (limit p), x ^ (2 * k + 1) / (2 * k + 1) := (mul_sum _ _ _).symm
  have rest : |10 ^ p * Real.artanh x - ∑ k ∈ range (limit p), a k| ≤ 1 := by
    have inside := abs_le.1 part
    have series := Real.sum_range_sub_log_div_le (x := x) (by linarith) (limit p)
    rw [← Real.artanh_eq_half_log ⟨by linarith, by linarith⟩] at series
    rw [scaled, ← mul_sub, abs_mul, abs_of_pos pos]
    exact (mul_le_mul_of_nonneg_left series pos.le).trans (tail_le_one p x (by linarith))
  have bounds := abs_le.1 rest
  rw [artanh, abs_le]
  constructor <;> linarith

end OddPowers

section Quotient

variable (x u : ℝ) (hu : 0 < u)

include hu

theorem log_div_eq (hx : 0 < x) : Real.log (x / u) = 2 * Real.artanh ((x - u) / (x + u)) := by
  have sum : 0 < x + u := by linarith
  have low : -1 ≤ (x - u) / (x + u) := by
    rw [le_div_iff₀ sum]
    linarith
  have high : (x - u) / (x + u) ≤ 1 := by
    rw [div_le_one sum]
    linarith
  have above : 1 + (x - u) / (x + u) = 2 * x / (x + u) := by
    field_simp
    ring
  have below : 1 - (x - u) / (x + u) = 2 * u / (x + u) := by
    field_simp
    ring
  rw [two_mul_artanh _ low high, above, below, div_div_div_cancel_right₀ sum.ne',
    mul_div_mul_left _ _ two_ne_zero]

theorem abs_quotient_le (low : 3 * u ≤ 4 * x) (high : 3 * x ≤ 5 * u) :
    |(x - u) / (x + u)| ≤ 1 / 4 := by
  have sum : 0 < x + u := by linarith
  rw [abs_div, abs_of_pos sum, div_le_iff₀ sum, abs_le]
  constructor <;> linarith

/-- Where the digits of a number are cut, the quotient loses less than one digit. -/
theorem quotient_sub_le (y : ℝ) (hy : 3 * u ≤ 4 * y) (hyx : y ≤ x) (hxy : x ≤ y + 1) :
    |u * ((x - u) / (x + u)) - (y - u) * u / (y + u)| ≤ 1 := by
  have outer : 0 < x + u := by linarith
  have inner : 0 < y + u := by linarith
  have difference : u * ((x - u) / (x + u)) - (y - u) * u / (y + u) =
      2 * (x - y) * (u * u) / ((x + u) * (y + u)) := by
    field_simp
    ring
  have error : 0 ≤ x - y := sub_nonneg.2 hyx
  have size : 3 * (u * u) ≤ (x + u) * (y + u) := by nlinarith
  rw [difference, abs_of_nonneg (by positivity), div_le_one (mul_pos outer inner)]
  nlinarith [mul_self_nonneg u]

/-- For two numbers in fixed point, the distance of their inverse hyperbolic tangents. -/
theorem abs_mul_artanh_sub_le (t z : ℝ) (ht : |t| ≤ 1 / 4) (hz : |z / u| ≤ 1 / 4) :
    |u * (Real.artanh t - Real.artanh (z / u))| ≤ 2 * |u * t - z| := by
  calc
    |u * (Real.artanh t - Real.artanh (z / u))| = u * |Real.artanh t - Real.artanh (z / u)| := by
      rw [abs_mul, abs_of_pos hu]
    _ ≤ u * (2 * |t - z / u|) := by
      gcongr
      exact abs_artanh_sub_le t (z / u) ht hz
    _ = 2 * |u * t - z| := by rw [mul_left_comm, mul_abs_sub_div u t z hu]

end Quotient

/-- The quotient is cut by less than one digit. -/
theorem seriesArgument_near (p m : Nat) :
    |((m - 10 ^ p) * 10 ^ p / (m + 10 ^ p) : ℝ) - seriesArgument p m| ≤ 1 := by
  have divisor : (0 : Int) < m + unit p := Int.add_pos_of_nonneg_of_pos (by omega) (unit_pos p)
  have cut := (abs_div_sub_tdiv_lt (K := ℝ) ((m - unit p) * unit p) _ divisor).le
  push_cast at cut
  rw [cast_unit] at cut
  exact cut

section Reduced

variable (p m : Nat) (wide : 1 ≤ p) (hp : p ≤ maxDigits) (low : 3 * pow10 p ≤ 4 * m)
  (high : 2 * m ≤ 3 * pow10 p)

private theorem ten_le_unit (p : Nat) (hp : 1 ≤ p) : (10 : ℝ) ≤ 10 ^ p :=
  le_self_pow₀ (by norm_num) (by omega)

include low high

private theorem left_bounds : 3 * (10 : ℝ) ^ p ≤ 4 * m ∧ 2 * (m : ℝ) ≤ 3 * 10 ^ p := by
  rw [← cast_pow10]
  exact ⟨by exact_mod_cast low, by exact_mod_cast high⟩

include wide hp

/-- The logarithm of a number between three quarters and three halves, by the series for a quotient
that is cut, from an approximation of the number that is cut itself. -/
theorem log_reduced_near (x : ℝ) (hmx : m ≤ x) (hxm : x ≤ m + 1) :
    |10 ^ p * Real.log (x / 10 ^ p) - 2 * artanh (seriesArgument p m) p| ≤ 6 * limit p + 10 := by
  have cut := seriesArgument_near p m
  have fast := (abs_seriesArgument_lt p m low high).le
  have room := oddFactor_room (le_trans hp (Nat.le_add_right _ _))
  have series := artanh_near (seriesArgument p m) p fast room
  have part := quarter (seriesArgument p m) p fast
  have large := ten_le_unit p wide
  obtain ⟨least, most⟩ := left_bounds p m low high
  obtain ⟨z, hz⟩ : ∃ z, z = seriesArgument p m := ⟨_, rfl⟩
  obtain ⟨u, hu⟩ : ∃ u : ℝ, u = 10 ^ p := ⟨_, rfl⟩
  rw [← hz, ← hu] at cut part series ⊢
  rw [← hu] at large least most
  have pos : 0 < u := by linarith
  let t := (x - u) / (x + u)
  have near : |u * t - z| ≤ 2 := by
    have moved := quotient_sub_le x u pos m least hmx hxm
    have both := abs_sub_le (u * t) ((m - u) * u / (m + u)) z
    linarith
  have small : |z / u| ≤ 1 / 4 := by
    rw [abs_div, abs_of_pos pos, div_le_iff₀ pos]
    linarith
  have inside : |t| ≤ 1 / 4 := abs_quotient_le x u pos (by linarith) (by linarith)
  have steep := abs_mul_artanh_sub_le u pos t z inside small
  have split : u * (2 * Real.artanh t) - 2 * artanh z p =
      2 * (u * (Real.artanh t - Real.artanh (z / u)) +
        (u * Real.artanh (z / u) - artanh z p)) := by ring
  rw [log_div_eq x u pos (by linarith), split, abs_mul, abs_two]
  have total := abs_add_le (u * (Real.artanh t - Real.artanh (z / u)))
    (u * Real.artanh (z / u) - artanh z p)
  linarith

end Reduced

section Value

variable (x : Decimal) (hx : x.mantissa ≠ 0)

include hx

/-- The absolute value as what is left after halving, a power of two and a power of ten. -/
theorem log_toRat (p j : Nat) (left : ℝ)
    (hleft : left * 2 ^ j = |(x.toRat : ℝ)| * 10 ^ (p - x.order)) :
    Real.log x.toRat = Real.log (left / 10 ^ p) + j * Real.log 2 + x.order * Real.log 10 := by
  have ten : (10 : ℝ) ≠ 0 := by norm_num
  have value : |(x.toRat : ℝ)| = left / 10 ^ p * 2 ^ j * 10 ^ x.order := by
    have places : (10 : ℝ) ^ (p - x.order) * 10 ^ x.order = 10 ^ p := by
      rw [← zpow_add₀ ten, sub_add_cancel, zpow_natCast]
    have pos : (0 : ℝ) < 10 ^ p := by positivity
    calc
      |(x.toRat : ℝ)| = |(x.toRat : ℝ)| * (10 ^ (p - x.order) * 10 ^ x.order) / 10 ^ p := by
        rw [places, mul_div_cancel_right₀ _ pos.ne']
      _ = left * 2 ^ j * 10 ^ x.order / 10 ^ p := by rw [hleft, mul_assoc]
      _ = left / 10 ^ p * 2 ^ j * 10 ^ x.order := by ring
  have nonzero : |(x.toRat : ℝ)| ≠ 0 := by
    rw [abs_ne_zero]
    exact_mod_cast x.toRat_ne_zero hx
  rw [value] at nonzero
  have last := right_ne_zero_of_mul nonzero
  have first := left_ne_zero_of_mul nonzero
  rw [← Real.log_abs, value, Real.log_mul first last,
    Real.log_mul (left_ne_zero_of_mul first) (right_ne_zero_of_mul first), Real.log_pow,
    Real.log_zpow]

/-- The logarithm of a number that is reduced, where the digits cut off are put back to m. -/
theorem reduction (p : Nat) (hp : p ≠ 1) : ∃ (m j : Nat) (left : ℝ),
    halve (pow10 p) (leading x p) = (m, j) ∧ j ≤ 3 ∧ 3 * pow10 p ≤ 4 * m ∧ 2 * m ≤ 3 * pow10 p ∧
      m ≤ left ∧ left ≤ m + 1 ∧
      Real.log x.toRat = Real.log (left / 10 ^ p) + j * Real.log 2 + x.order * Real.log 10 := by
  obtain ⟨⟨m, j⟩, halved⟩ : ∃ r, halve (pow10 p) (leading x p) = r := ⟨_, rfl⟩
  have reduced := reduces_halve x hx p hp
  rw [halved] at reduced
  change Reduces x p m j at reduced
  obtain ⟨few, least, most, cut, near⟩ := reduced
  have power : (0 : ℝ) < 2 ^ j := by positivity
  let left : ℝ := |(x.toRat : ℝ)| * 10 ^ (p - x.order) / 2 ^ j
  have at_least : m ≤ left := by
    have cast := (Rat.cast_le (K := ℝ)).2 cut
    push_cast at cast
    exact (le_div_iff₀ power).2 cast
  have at_most : left ≤ m + 1 := by
    have cast := (Rat.cast_le (K := ℝ)).2 near.le
    push_cast at cast
    exact (div_le_iff₀ power).2 cast
  exact ⟨m, j, left, halved, few, least, most.le, at_least, at_most,
    log_toRat x hx p j left (div_mul_cancel₀ _ power.ne')⟩

omit hx in
/-- What the series and three times the logarithm of 2 lose stays within the guard digits. -/
theorem guard_suffices (p : Nat) (hp : p ≤ maxDigits) :
    6 * limit p + 16 ≤ (10 : ℝ) ^ guardDigits := by
  have more : limit (p + guardDigits) = limit p + 2 * guardDigits := by
    rw [limit, limit]
    omega
  have bound := guarded p hp
  rw [more] at bound
  push_cast at bound
  have count : (0 : ℝ) ≤ limit p := Nat.cast_nonneg _
  have ten : (guardDigits : ℝ) = 10 := by norm_num [guardDigits]
  linarith

/-- Before the guard digits are dropped: a series, at most three times the logarithm of 2 and the
order times that of 10. -/
theorem ln_guarded_near (p : Nat) (wide : 10 ≤ p) (hp : p ≤ maxDigits) :
    ∃ m j, halve (pow10 p) (leading x p) = (m, j) ∧
      |10 ^ p * Real.log x.toRat -
        ((2 * artanh (seriesArgument p m) p + ln2 p * j + ln10 p * x.order : Int) : ℝ)| ≤
          6 * limit p + 16 + 2 * |(x.order : ℝ)| := by
  obtain ⟨m, j, left, halved, few, low, high, at_least, at_most, value⟩ :=
    reduction x hx p (by omega)
  refine ⟨m, j, halved, ?_⟩
  obtain ⟨z, hz⟩ : ∃ z, z = seriesArgument p m := ⟨_, rfl⟩
  have reduced := log_reduced_near p m (by omega) hp low high left at_least at_most
  rw [← hz] at reduced ⊢
  have steps : |(10 ^ p * Real.log 2 - ln2 p) * j| ≤ 6 := by
    obtain ⟨below, above⟩ := ln2_bounds p hp
    have two : |10 ^ p * Real.log 2 - ln2 p| ≤ 2 := abs_le.2 ⟨by linarith, by linarith⟩
    have cast : (j : ℝ) ≤ 3 := by exact_mod_cast few
    rw [abs_mul, Nat.abs_cast]
    calc
      _ ≤ 2 * (3 : ℝ) := by gcongr
      _ = 6 := by norm_num
  have orders : |(10 ^ p * Real.log 10 - ln10 p) * x.order| ≤ 2 * |(x.order : ℝ)| := by
    obtain ⟨below, above⟩ := ln10_bounds p hp
    have ten : |10 ^ p * Real.log 10 - ln10 p| ≤ 2 := abs_le.2 ⟨by linarith, by linarith⟩
    rw [abs_mul]
    gcongr
  have split : 10 ^ p * Real.log x.toRat -
      ((2 * artanh z p + ln2 p * j + ln10 p * x.order : Int) : ℝ) =
        (10 ^ p * Real.log (left / 10 ^ p) - 2 * artanh z p) +
          (10 ^ p * Real.log 2 - ln2 p) * j + (10 ^ p * Real.log 10 - ln10 p) * x.order := by
    rw [value]
    push_cast
    ring
  rw [split]
  exact (abs_add_three _ _ _).trans (by linarith)

/-- The logarithm of a number is wrong by less than two in its last digit, and by a little more the
further its order is from zero. -/
theorem ln_near (p : Nat) (hp : p + guardDigits ≤ maxDigits) :
    |10 ^ p * Real.log x.toRat - ln x p| ≤ 2 + 2 * |(x.order : ℝ)| / 10 ^ guardDigits := by
  have guard := guard_suffices (p + guardDigits) hp
  obtain ⟨m, j, halved, near⟩ :=
    ln_guarded_near x hx (p + guardDigits) (Nat.le_add_left 10 p) hp
  have result : ln x p = dropGuard (2 * artanh (seriesArgument (p + guardDigits) m)
      (p + guardDigits) + ln2 (p + guardDigits) * j + ln10 (p + guardDigits) * x.order) := by
    simp only [ln, withGuard_eq p (le_trans (Nat.le_add_right _ _) hp), halved]
    rfl
  have cut := dropGuard_near _ p _ _ near
  have one : (6 * limit (p + guardDigits) + 16) / (10 : ℝ) ^ guardDigits ≤ 1 :=
    (div_le_one (by positivity)).2 guard
  rw [result]
  rw [add_div] at cut
  linarith

end Value

end Reckoner.FixedPoint
