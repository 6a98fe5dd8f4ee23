import Reckoner.Decimal.Elementary
import Reckoner.Proofs.Decimal.QuotientRounding
import Reckoner.Proofs.FixedPoint.LogarithmError
import Reckoner.Proofs.FixedPoint.TrigonometryError

namespace Reckoner.Decimal

open FixedPoint Numeric

/-- The nearest multiple of the last place is at most half a unit of it away. -/
theorem abs_sub_le_of_nearest (n : Decimal) (r : Rat) (h : Nearest n.mantissa (r * 10 ^ n.scale)) :
    |(n.toRat - r : ℝ)| ≤ 1 / 2 * 10 ^ (-(n.scale : Int)) := by
  have places : (0 : Rat) < 10 ^ n.scale := by positivity
  have difference : n.toRat - r = (n.mantissa - r * 10 ^ n.scale) / 10 ^ n.scale := by
    rw [toRat_eq_div]
    field_simp
  have rational : |n.toRat - r| ≤ 1 / 2 * 10 ^ (-(n.scale : Int)) := by
    rw [difference, abs_div, abs_of_pos places, zpow_neg, zpow_natCast, ← div_eq_mul_inv,
      abs_sub_comm]
    gcongr
    exact h.near
  have real := (Rat.cast_le (K := ℝ)).2 rational
  push_cast at real
  exact real

theorem abs_round_sub_le (x : Decimal) (scale : Nat) :
    |((x.round scale).toRat - x.toRat : ℝ)| ≤ 1 / 2 * 10 ^ (-(scale : Int)) := by
  have near := (x.round scale).abs_sub_le_of_nearest x.toRat (by
    rw [round_scale]
    exact x.nearest_round scale)
  rwa [round_scale] at near

theorem abs_mk_sub_le (n : Int) (p : Nat) (value units : ℝ) (near : |10 ^ p * value - n| ≤ units) :
    |((mk n p).toRat : ℝ) - value| ≤ units / 10 ^ p := by
  have places : (0 : ℝ) < 10 ^ p := by positivity
  have quotient : ((mk n p).toRat : ℝ) = n / 10 ^ p := by
    rw [toRat_eq_div]
    push_cast
    rfl
  rw [quotient, abs_sub_comm, le_div_iff₀' places, mul_abs_sub_div _ value n places]
  exact near

/-- The functions are asked for so few places that the word has room for the guard digits. -/
theorem withGuard_scale (scale : Nat) (hs : scale ≤ 1000) :
    withGuard scale = scale + guardDigits :=
  withGuard_eq scale (hs.trans (by decide))

/-- The ten guard digits leave an error of ten million units a thousandth of the last place. -/
theorem abs_round_guarded_sub_le (n : Int) (scale : Nat) (hs : scale ≤ 1000) (value units : ℝ)
    (few : units ≤ 10 ^ 7)
    (near : |((mk n (withGuard scale)).toRat : ℝ) - value| ≤ units / 10 ^ withGuard scale) :
    |(((mk n (withGuard scale)).round scale).toRat : ℝ) - value| ≤
      (1 / 2 + 1 / 1000) * 10 ^ (-(scale : Int)) := by
  have error : units / 10 ^ withGuard scale ≤ 1 / 1000 * 10 ^ (-(scale : Int)) := by
    rw [withGuard_scale scale hs, pow_add, zpow_neg, zpow_natCast, guardDigits,
      div_le_iff₀ (by positivity)]
    field_simp
    linarith
  rw [add_mul]
  exact (abs_sub_le _ _ _).trans (add_le_add (abs_round_sub_le _ scale) (near.trans error))

/-- The logarithm of a number is wrong by little more than half a unit of its last place. -/
theorem ln_accurate (x : Decimal) (hx : 0 < x.toRat) (ho : |x.order| ≤ 1000000) (scale : Nat)
    (hs : scale ≤ 1000) :
    |((x.ln scale).toRat : ℝ) - Real.log x.toRat| ≤ (1 / 2 + 1 / 1000) * 10 ^ (-(scale : Int)) := by
  have nonzero : x.mantissa ≠ 0 := by
    intro zero
    rw [toRat_eq_div, zero, Int.cast_zero, zero_div] at hx
    exact lt_irrefl _ hx
  have wide : withGuard scale + guardDigits ≤ maxDigits := by
    rw [withGuard_scale scale hs, guardDigits, maxDigits]
    omega
  have order : |(x.order : ℝ)| ≤ 1000000 := by exact_mod_cast ho
  have series := ln_near x nonzero (withGuard scale) wide
  have few : 2 + 2 * |(x.order : ℝ)| / 10 ^ guardDigits ≤ 10 ^ 7 := by
    have part : 2 * |(x.order : ℝ)| / 10 ^ guardDigits ≤ 1 := by
      rw [div_le_one (by positivity), guardDigits]
      linarith
    linarith
  exact abs_round_guarded_sub_le _ scale hs _ _ few (abs_mk_sub_le _ _ _ _ series)

/-- On the lower side of 1 the logarithm and the order are both negative. -/
theorem ln_accurate_below_one :
    let x : Decimal := ⟨2, 3⟩
    0 < x.toRat ∧ |x.order| ≤ 1000000 ∧ 30 ≤ 1000 ∧
      x.ln 30 = ⟨-6214608098422191742636742242595, 30⟩ ∧
      |((x.ln 30).toRat : ℝ) - Real.log x.toRat| ≤ (1 / 2 + 1 / 1000) * 10 ^ (-30 : Int) := by
  intro x
  have positive : 0 < x.toRat := by decide +kernel
  have order : |x.order| ≤ 1000000 := by decide +kernel
  have value : x.ln 30 = ⟨-6214608098422191742636742242595, 30⟩ := by decide +kernel
  exact ⟨positive, order, by decide, value, ln_accurate x positive order 30 (by decide)⟩

section Trigonometry

variable (x : Decimal) (scale : Nat)

/-- The sine with the guard digits that rounding takes off. -/
def guardedSin : Decimal :=
  ⟨sin (radians x (withGuard scale)) (withGuard scale), withGuard scale⟩

/-- The cosine with its guard digits. -/
def guardedCos : Decimal :=
  ⟨cos (radians x (withGuard scale)) (withGuard scale), withGuard scale⟩

theorem tanDegrees_eq : x.tanDegrees? scale =
    if ((x.guardedCos scale).round scale).isZero then none
    else (x.guardedSin scale).divide? (x.guardedCos scale) scale := rfl

section Accuracy

variable (hs : scale ≤ 1000)

include hs

/-- The loops lose less than five thousand units of the last guard digit. -/
theorem abs_guarded_sub_le :
    |((x.guardedSin scale).toRat : ℝ) - Real.sin (x.toRat * Real.pi / 180)| ≤
        5000 / 10 ^ withGuard scale ∧
      |((x.guardedCos scale).toRat : ℝ) - Real.cos (x.toRat * Real.pi / 180)| ≤
        5000 / 10 ^ withGuard scale := by
  have digits : withGuard scale = scale + 10 := withGuard_scale scale hs
  have wide : withGuard scale ≤ maxDigits := by
    rw [maxDigits]
    omega
  have loss : 6 + (2 * Series.limit (withGuard scale) + 150 : ℝ) ≤ 5000 := by
    have count : 6 + (2 * Series.limit (withGuard scale) + 150) ≤ 5000 := by
      rw [Series.limit]
      omega
    exact_mod_cast count
  exact ⟨abs_mk_sub_le _ _ _ _ ((sin_radians_near x _ wide (by omega)).trans loss),
    abs_mk_sub_le _ _ _ _ ((cos_radians_near x _ wide (by omega)).trans loss)⟩

/-- The sine and the cosine of any angle are wrong by little more than half a unit of their last
place. -/
theorem sin_cos_accurate :
    |((x.sinDegrees scale).toRat : ℝ) - Real.sin (x.toRat * Real.pi / 180)| ≤
        (1 / 2 + 1 / 1000) * 10 ^ (-(scale : Int)) ∧
      |((x.cosDegrees scale).toRat : ℝ) - Real.cos (x.toRat * Real.pi / 180)| ≤
        (1 / 2 + 1 / 1000) * 10 ^ (-(scale : Int)) := by
  obtain ⟨sine, cosine⟩ := x.abs_guarded_sub_le scale hs
  have few : (5000 : ℝ) ≤ 10 ^ 7 := by norm_num
  exact ⟨abs_round_guarded_sub_le _ scale hs _ _ few sine,
    abs_round_guarded_sub_le _ scale hs _ _ few cosine⟩

end Accuracy

/-- Two turns and thirty degrees below zero, the angle is moved up to the fourth quarter. -/
theorem sin_cos_accurate_beyond_turn :
    let x : Decimal := ⟨-7505, 1⟩
    20 ≤ 1000 ∧ x.sinDegrees 20 = ⟨-50753836296070416894, 20⟩ ∧
      x.cosDegrees 20 = ⟨86162916044152574545, 20⟩ ∧
      |((x.sinDegrees 20).toRat : ℝ) - Real.sin (x.toRat * Real.pi / 180)| ≤
          (1 / 2 + 1 / 1000) * 10 ^ (-20 : Int) ∧
        |((x.cosDegrees 20).toRat : ℝ) - Real.cos (x.toRat * Real.pi / 180)| ≤
          (1 / 2 + 1 / 1000) * 10 ^ (-20 : Int) := by
  intro x
  have sine : x.sinDegrees 20 = ⟨-50753836296070416894, 20⟩ := by decide +kernel
  have cosine : x.cosDegrees 20 = ⟨86162916044152574545, 20⟩ := by decide +kernel
  exact ⟨by decide, sine, cosine, sin_cos_accurate x 20 (by decide)⟩

/-- The quotient of two numbers that are near the sine and the cosine of one angle. The nearer the
angle is to a pole, the more their errors grow. -/
theorem abs_quotient_sub_tan_le (S C s c loss : ℝ) (circle : S ^ 2 + C ^ 2 = 1)
    (sine : |S - s| ≤ loss) (cosine : |C - c| ≤ loss) (far : 8 * loss ≤ |c|) (nonzero : c ≠ 0) :
    |S / C - s / c| ≤ 2 * loss * (1 + (S / C) ^ 2) := by
  have positive : 0 < |c| := abs_pos.2 nonzero
  have low := abs_sub_abs_le_abs_sub c C
  have high := abs_sub_abs_le_abs_sub C c
  rw [abs_sub_comm] at low
  have pos : 0 < |C| := by linarith
  have exact : C ≠ 0 := abs_pos.1 pos
  have split : S / C - s / c = ((S - s) * C - S * (C - c)) / (C * c) := by
    field_simp
    ring
  have sum : |S| + |C| ≤ 3 / 2 := by
    have square : |S| ^ 2 + |C| ^ 2 = 1 := by rw [sq_abs, sq_abs, circle]
    nlinarith [sq_nonneg (|S| - |C|), abs_nonneg S]
  have nonneg : 0 ≤ loss := (abs_nonneg _).trans sine
  have numerator : |(S - s) * C - S * (C - c)| ≤ loss * (3 / 2) := by
    calc
      _ ≤ |S - s| * |C| + |S| * |C - c| := by
        rw [← abs_mul, ← abs_mul]
        exact abs_sub _ _
      _ ≤ loss * |C| + |S| * loss := by gcongr
      _ = loss * (|S| + |C|) := by ring
      _ ≤ loss * (3 / 2) := by gcongr
  have tangent : 1 + (S / C) ^ 2 = 1 / C ^ 2 := by
    field_simp
    linarith
  rw [split, abs_div, abs_mul, tangent, mul_one_div, div_le_div_iff₀ (by positivity) (by positivity)]
  calc
    |(S - s) * C - S * (C - c)| * C ^ 2 ≤ loss * (3 / 2) * C ^ 2 := by gcongr
    _ = loss * (3 / 2) * (|C| * |C|) := by rw [← sq_abs, sq]
    _ ≤ loss * (3 / 2) * (|C| * (9 / 8 * |c|)) := by
      gcongr
      linarith
    _ = 27 / 16 * loss * (|C| * |c|) := by ring
    _ ≤ 2 * loss * (|C| * |c|) := by
      gcongr
      norm_num

/-- Where a tangent is found it is the rounded quotient, and the cosine is not below half a unit of
the last place. -/
theorem tanDegrees_eq_some (t : Decimal) (found : x.tanDegrees? scale = some t) :
    t = ofRat ((x.guardedSin scale).toRat / (x.guardedCos scale).toRat) scale ∧
      1 / 2 * 10 ^ (-(scale : Int)) ≤ |((x.guardedCos scale).toRat : ℝ)| := by
  let c := x.guardedCos scale
  rw [tanDegrees_eq] at found
  split at found
  · contradiction
  · rename_i kept
    have least : (10 : ℝ) ^ (-(scale : Int)) ≤ |((c.round scale).toRat : ℝ)| := by
      have nonzero : (c.round scale).mantissa ≠ 0 := by
        intro zero
        exact kept (beq_iff_eq.2 zero)
      have one : (1 : ℝ) ≤ |((c.round scale).mantissa : ℝ)| := by
        exact_mod_cast Int.one_le_abs nonzero
      have places : (0 : ℝ) < 10 ^ scale := by positivity
      rw [toRat_eq_div, round_scale]
      push_cast
      rw [abs_div, abs_of_pos places, zpow_neg, zpow_natCast, inv_eq_one_div]
      gcongr
    have moved := c.abs_round_sub_le scale
    have far : 1 / 2 * 10 ^ (-(scale : Int)) ≤ |(c.toRat : ℝ)| := by
      have apart := abs_sub_abs_le_abs_sub ((c.round scale).toRat : ℝ) c.toRat
      linarith
    refine ⟨?_, far⟩
    rw [divide?] at found
    split at found
    · contradiction
    · exact (Option.some.inj found).symm

/-- How far a tangent is from the exact one: half a unit of its last place, and more the nearer the
angle is to a pole. -/
theorem tanDegrees_near (hs : scale ≤ 1000) (t : Decimal) (found : x.tanDegrees? scale = some t) :
    |(t.toRat : ℝ) - Real.tan (x.toRat * Real.pi / 180)| ≤
      10 ^ (-(scale : Int)) *
        (1 / 2 + (1 + Real.tan (x.toRat * Real.pi / 180) ^ 2) / 10 ^ 6) := by
  obtain ⟨angle, hangle⟩ : ∃ angle : ℝ, angle = x.toRat * Real.pi / 180 := ⟨_, rfl⟩
  obtain ⟨unit, hunit⟩ : ∃ unit : ℝ, unit = 10 ^ (-(scale : Int)) := ⟨_, rfl⟩
  obtain ⟨quotient, far⟩ := x.tanDegrees_eq_some scale t found
  obtain ⟨sine, cosine⟩ := x.abs_guarded_sub_le scale hs
  have positive : 0 < unit := by
    rw [hunit]
    positivity
  have loss : (5000 : ℝ) / 10 ^ withGuard scale = unit / (2 * 10 ^ 6) := by
    rw [withGuard_scale scale hs, pow_add, hunit, zpow_neg, zpow_natCast, guardDigits]
    field_simp
    norm_num
  rw [loss, ← hangle, abs_sub_comm] at sine cosine
  rw [← hunit] at far
  have nonzero : ((x.guardedCos scale).toRat : ℝ) ≠ 0 := abs_pos.1 (by linarith)
  have divided := abs_quotient_sub_tan_le _ _ _ _ _ (Real.sin_sq_add_cos_sq angle) sine cosine
    (by linarith) nonzero
  rw [← Real.tan_eq_sin_div_cos, abs_sub_comm] at divided
  have rounded := t.abs_sub_le_of_nearest
    ((x.guardedSin scale).toRat / (x.guardedCos scale).toRat) (by
      rw [quotient]
      exact nearest_ofRat _ scale)
  have scale_eq : t.scale = scale := by
    rw [quotient]
    rfl
  rw [scale_eq, ← hunit] at rounded
  push_cast at rounded
  rw [← hangle, ← hunit]
  refine (abs_sub_le _ _ _).trans ((add_le_add rounded divided).trans (le_of_eq ?_))
  ring

/-- Two tangents of one angle with different digits agree to one unit of their last places where
the tangent is not above seven hundred; nearer to a pole they differ by more, as the loss of the
cosine grows with the square of the tangent. -/
theorem tanDegrees_stable (hs : scale ≤ 1000) (t t' : Decimal) (found : x.tanDegrees? 30 = some t)
    (found' : x.tanDegrees? scale = some t') :
    let tangent := Real.tan (x.toRat * Real.pi / 180)
    |(t.toRat - t'.toRat : ℝ)| ≤
        (10 ^ (-30 : Int) + 10 ^ (-(scale : Int))) * (1 / 2 + (1 + tangent ^ 2) / 10 ^ 6) ∧
      (|tangent| ≤ 700 → |(t.toRat - t'.toRat : ℝ)| ≤ 10 ^ (-30 : Int) + 10 ^ (-(scale : Int))) := by
  intro tangent
  have near := x.tanDegrees_near 30 (by decide) t found
  have near' := x.tanDegrees_near scale hs t' found'
  have apart : |(t.toRat - t'.toRat : ℝ)| ≤
      (10 ^ (-30 : Int) + 10 ^ (-(scale : Int))) * (1 / 2 + (1 + tangent ^ 2) / 10 ^ 6) := by
    have triangle := abs_sub_le (t.toRat : ℝ) tangent t'.toRat
    rw [abs_sub_comm tangent] at triangle
    rw [add_mul]
    exact triangle.trans (add_le_add near near')
  refine ⟨apart, ?_⟩
  intro gentle
  have square : tangent ^ 2 ≤ 700 ^ 2 := sq_le_sq' (abs_le.1 gentle).1 (abs_le.1 gentle).2
  have factor : 1 / 2 + (1 + tangent ^ 2) / 10 ^ 6 ≤ 1 := by linarith
  exact apart.trans (mul_le_of_le_one_right (by positivity) factor)

end Trigonometry

/-- At 30 degrees the last of the 30 digits is right. -/
theorem tanDegrees_stable_thirty :
    let x : Decimal := ⟨300, 1⟩
    let t : Decimal := ⟨577350269189625764509148780502, 30⟩
    let t' : Decimal := ⟨5773502691896257645091487805019574556476, 40⟩
    40 ≤ 1000 ∧ x.tanDegrees? 30 = some t ∧ x.tanDegrees? 40 = some t' ∧
      |Real.tan (x.toRat * Real.pi / 180)| ≤ 700 ∧
        |(t.toRat - t'.toRat : ℝ)| ≤ 10 ^ (-30 : Int) + 10 ^ (-40 : Int) := by
  intro x t t'
  have found : x.tanDegrees? 30 = some t := by decide +kernel
  have found' : x.tanDegrees? 40 = some t' := by decide +kernel
  have gentle : |Real.tan (x.toRat * Real.pi / 180)| ≤ 700 := by
    have sixth : (x.toRat * Real.pi / 180 : ℝ) = Real.pi / 6 := by
      have value : x.toRat = 30 := by decide +kernel
      rw [value]
      push_cast
      ring
    have root : 1 ≤ √(3 : ℝ) := Real.one_le_sqrt.2 (by norm_num)
    rw [sixth, Real.tan_pi_div_six, abs_of_pos (by positivity)]
    exact ((div_le_one (by linarith)).2 root).trans (by norm_num)
  exact ⟨by decide, found, found', gentle,
    (tanDegrees_stable x 40 (by decide) t t' found found').2 gentle⟩

/-- A ten thousandth of a degree from the pole twelve units of the last place are wrong. -/
theorem tanDegrees_unstable_near_pole :
    let x : Decimal := ⟨899999, 4⟩
    ∃ t t' : Decimal, x.tanDegrees? 30 = some t ∧ x.tanDegrees? 40 = some t' ∧
      10 ^ (-30 : Int) + 10 ^ (-40 : Int) < |t.toRat - t'.toRat| := by
  intro x
  refine ⟨⟨572957795130241432350649986802589725, 30⟩,
    ⟨5729577951302414323506499868025897128605474658, 40⟩, ?_, ?_, ?_⟩
  · decide +kernel
  · decide +kernel
  · decide +kernel

end Reckoner.Decimal
