import Mathlib.Analysis.SpecialFunctions.Pow.Real
import Mathlib.Data.Int.Log
import Reckoner.Decimal.Elementary
import Reckoner.Decimal.Operations
import Reckoner.Proofs.FixedPoint.ExponentialError
import Reckoner.Proofs.FixedPoint.LogarithmError

namespace Reckoner.Decimal

open FixedPoint Numeric

section Power

variable (base exponent : Decimal) (digits : Nat) (hb : base.mantissa ≠ 0)
  (hp : digits + 26 + exponent.order.toNat ≤ maxDigits) (ho : |base.order| ≤ 10 ^ 10)

include hb hp ho

/-- The exponent of e is wrong by a few units sixteen digits behind those asked for. -/
theorem exponent_near (p : Nat) (hp' : p = digits + guardDigits + 6 + exponent.order.toNat) :
    |10 ^ p * ((exponent.toRat : ℝ) * Real.log base.toRat) -
      ((exponent.mantissa * FixedPoint.ln base p).tdiv (pow10 exponent.scale) : Int)| ≤
        10 ^ p * (41 / 10 ^ (digits + 16)) := by
  obtain ⟨N, hN⟩ : ∃ N : ℝ, N = 10 ^ exponent.order.toNat := ⟨_, rfl⟩
  have one : 1 ≤ N := by
    rw [hN]
    exact one_le_pow₀ (by norm_num)
  have wide : p + guardDigits ≤ maxDigits := by
    have guard : guardDigits = 10 := rfl
    omega
  have logarithm : |10 ^ p * Real.log base.toRat - FixedPoint.ln base p| ≤ 4 := by
    have cast : |(base.order : ℝ)| ≤ 10 ^ 10 := by exact_mod_cast ho
    have part : 2 * |(base.order : ℝ)| / 10 ^ guardDigits ≤ 2 := by
      have guard : guardDigits = 10 := rfl
      rw [div_le_iff₀ (by positivity), guard]
      linarith
    linarith [ln_near base hb p wide]
  have size : |(exponent.toRat : ℝ)| ≤ 10 * N := by
    calc
      |(exponent.toRat : ℝ)| ≤ 10 ^ (exponent.order + 1) := exponent.lt_zpow_order.le
      _ ≤ 10 ^ ((1 : Int) + exponent.order.toNat) := zpow_le_zpow_right₀ (by norm_num) (by omega)
      _ = 10 * N := by rw [zpow_one_add₀ (by norm_num), zpow_natCast, hN]
  have scale : (0 : Int) < pow10 exponent.scale := by exact_mod_cast pow10_pos _
  have cut := (abs_div_sub_tdiv_lt (K := ℝ) (exponent.mantissa * FixedPoint.ln base p) _ scale).le
  have quotient : ((exponent.mantissa * FixedPoint.ln base p : Int) : ℝ) /
      ((pow10 exponent.scale : Nat) : Int) = exponent.toRat * FixedPoint.ln base p := by
    rw [toRat_eq_div]
    push_cast
    rw [cast_pow10]
    ring
  have split (y : ℝ) : 10 ^ p * ((exponent.toRat : ℝ) * Real.log base.toRat) - y =
      exponent.toRat * (10 ^ p * Real.log base.toRat - FixedPoint.ln base p) +
        (exponent.toRat * FixedPoint.ln base p - y) := by ring
  have product : |(exponent.toRat : ℝ) * (10 ^ p * Real.log base.toRat - FixedPoint.ln base p)| ≤
      10 * N * 4 := by
    rw [abs_mul]
    gcongr
  have places : (10 : ℝ) ^ p * (41 / 10 ^ (digits + 16)) = 41 * N := by
    have count : p = digits + 16 + exponent.order.toNat := hp'
    rw [hN, count, pow_add]
    field_simp
  rw [quotient] at cut
  rw [split, places]
  exact (abs_add_le _ _).trans (by linarith)

omit hb hp ho in
/-- The errors of the exponent and of the series are together less than the half of a unit, however
long the exponent is. -/
theorem powerError_le (hd : digits ≤ 1000) (p : Nat)
    (hp' : p = digits + 16 + exponent.order.toNat) :
    2 * 10 ^ digits * (2 * (41 / 10 ^ (digits + 16)) +
      (12 * Series.limit p + 136003) / 10 ^ p : ℝ) ≤ 1 := by
  obtain ⟨N, hN⟩ : ∃ N, N = 10 ^ exponent.order.toNat := ⟨_, rfl⟩
  have terms : 4 * (12 * (Series.limit p) + 136003) ≤ 10 ^ 16 * N := by
    have grows : exponent.order.toNat < N := hN ▸ Nat.lt_pow_self (by decide)
    rw [Series.limit]
    omega
  have cast : (4 * (12 * Series.limit p + 136003) : ℝ) ≤ 10 ^ 16 * N := by exact_mod_cast terms
  have positive : (0 : ℝ) < N := by
    rw [hN]
    positivity
  have power : (10 : ℝ) ^ exponent.order.toNat = N := by
    rw [hN]
    push_cast
    rfl
  have split : 2 * 10 ^ digits * (2 * (41 / 10 ^ (digits + 16)) +
      (12 * Series.limit p + 136003) / 10 ^ p : ℝ) =
        164 / 10 ^ 16 + 4 * (12 * Series.limit p + 136003) / (10 ^ 16 * N) / 2 := by
    rw [hp', pow_add, pow_add, pow_add, power]
    field_simp
    ring
  have last : 4 * (12 * Series.limit p + 136003) / (10 ^ 16 * N : ℝ) ≤ 1 :=
    (div_le_one (by positivity)).2 cast
  rw [split]
  linarith

/-- A real power is found, and is wrong by at most one unit of its last digit. -/
theorem realPow_near (hd : 0 < digits ∧ digits ≤ 1000) (order : Int)
    (range : |(exponent.toRat : ℝ) * Real.log base.toRat| ≤ 23200)
    (low : 10 ^ order ≤ |(base.toRat : ℝ)| ^ (exponent.toRat : ℝ))
    (high : |(base.toRat : ℝ)| ^ (exponent.toRat : ℝ) < 10 ^ (order + 1)) :
    ∃ r, base.realPow? exponent digits = some r ∧
      |(r.toRat : ℝ) - |(base.toRat : ℝ)| ^ (exponent.toRat : ℝ)| ≤ 10 ^ (order - digits + 1) := by
  obtain ⟨p, hp'⟩ : ∃ p, p = digits + guardDigits + 6 + exponent.order.toNat := ⟨_, rfl⟩
  have count : p = digits + 16 + exponent.order.toNat := hp'
  have exact : |(base.toRat : ℝ)| ^ (exponent.toRat : ℝ) =
      Real.exp (exponent.toRat * Real.log base.toRat) := by
    have nonzero : (0 : ℝ) < |(base.toRat : ℝ)| := by
      rw [abs_pos]
      exact_mod_cast base.toRat_ne_zero hb
    rw [Real.rpow_def_of_pos nonzero, Real.log_abs, mul_comm]
  obtain ⟨E, hE⟩ : ∃ E, E = Real.exp (exponent.toRat * Real.log base.toRat) := ⟨_, rfl⟩
  have positive : 0 < E := hE ▸ Real.exp_pos _
  have exponents := exponent_near base exponent digits hb hp ho p hp'
  have few : (41 / 10 ^ (digits + 16) : ℝ) ≤ 1 / 2 := by
    have places : (10 : ℝ) ^ 16 ≤ 10 ^ (digits + 16) := pow_le_pow_right₀ (by norm_num) (by omega)
    rw [div_le_iff₀ (by positivity)]
    linarith
  obtain ⟨s, found, near⟩ := exp_near p (by omega) (by omega) _ digits _ _ exponents few range
  have result : base.realPow? exponent digits = some (s.roundSignificant digits) := by
    have word : toWord p = p := by
      apply toWord_of_lt
      rw [maxDigits] at hp
      rw [wordSize]
      omega
    rw [realPow?, ← found, ← hp', word]
  refine ⟨_, result, ?_⟩
  rw [exact, ← hE] at low high ⊢
  rw [← hE] at near
  have total := powerError_le exponent digits hd.2 p count
  apply roundSignificant_near s digits order E high _ hd.1 low
  calc
    2 * 10 ^ digits * |(s.toRat : ℝ) - E| ≤
        2 * 10 ^ digits * (E * (2 * (41 / 10 ^ (digits + 16)) +
          (12 * Series.limit p + 136003) / 10 ^ p)) := by gcongr
    _ = E * (2 * 10 ^ digits * (2 * (41 / 10 ^ (digits + 16)) +
        (12 * Series.limit p + 136003) / 10 ^ p)) := by ring
    _ ≤ E := mul_le_of_le_one_right positive.le total

end Power

/-- A value between two powers of ten that are as far from 1 on both sides. -/
def WithinOrder (order : Nat) (value : Rat) : Prop :=
  10 ^ (-(order : Int)) ≤ value ∧ value ≤ 10 ^ (order : Int)

theorem WithinOrder.abs_log_le {order : Nat} {value : Rat} (h : WithinOrder order value) :
    |Real.log value| ≤ order * Real.log 10 := by
  obtain ⟨low, high⟩ := h
  have positive : (0 : Rat) < value := lt_of_lt_of_le (by positivity) low
  have real : (0 : ℝ) < value := by exact_mod_cast positive
  have below := (Rat.cast_le (K := ℝ)).2 low
  have above := (Rat.cast_le (K := ℝ)).2 high
  rw [Rat.cast_zpow, Rat.cast_ofNat] at below above
  have least := Real.log_le_log (by positivity) below
  have most := Real.log_le_log real above
  rw [Real.log_zpow] at least most
  push_cast at least most
  rw [abs_le]
  constructor <;> linarith

theorem WithinOrder.mono {order wide : Nat} {value : Rat} (h : WithinOrder order value)
    (hw : order ≤ wide) : WithinOrder wide value := by
  refine ⟨le_trans ?_ h.1, h.2.trans ?_⟩
  · exact zpow_le_zpow_right₀ (by norm_num) (by omega)
  · exact zpow_le_zpow_right₀ (by norm_num) (by omega)

section Integral

variable (base exponent : Decimal) (n : Int) (hb : base.mantissa ≠ 0) (hn : n ≠ 0)
  (he : exponent.toRat = n) (range : WithinOrder 10000 (|base.toRat| ^ n))

include range

theorem abs_mul_log_le : |(n : ℝ) * Real.log base.toRat| ≤ 23200 := by
  have product := range.abs_log_le
  have ten := log_ten_bounds.2
  push_cast at product
  rw [Real.log_zpow, Real.log_abs] at product
  linarith

include hb hn

theorem abs_order_le : |base.order| ≤ 23201 := by
  have positive : (0 : ℝ) < |(base.toRat : ℝ)| := by
    rw [abs_pos]
    exact_mod_cast base.toRat_ne_zero hb
  have bound : |Real.log base.toRat| ≤ 23200 := by
    have product := abs_mul_log_le base n range
    rw [abs_mul] at product
    have one : (1 : ℝ) ≤ |(n : ℝ)| := by exact_mod_cast Int.one_le_abs hn
    nlinarith [abs_nonneg (Real.log base.toRat)]
  have low := Real.log_le_log (by positivity) (base.zpow_order_le hb)
  have high := Real.log_lt_log positive base.lt_zpow_order
  rw [Real.log_zpow, Real.log_abs] at low high
  obtain ⟨least, most⟩ := abs_le.1 bound
  have ten := log_ten_bounds.1
  rw [abs_le]
  constructor
  · by_contra below
    have cast : ((base.order + 1 : Int) : ℝ) ≤ -23201 := by
      exact_mod_cast (by omega : base.order + 1 ≤ -23201)
    nlinarith
  · by_contra above
    have cast : (23202 : ℝ) ≤ base.order := by exact_mod_cast (by omega : 23202 ≤ base.order)
    nlinarith

include he

/-- The way by logarithm and exponential agrees with the exact power, for any integer exponent that
is not of absurd length. -/
theorem realPow_zpow_near (length : n.natAbs < 10 ^ 100) :
    ∃ r, base.realPow? exponent resultDigits = some r ∧
      |r.toRat - |base.toRat| ^ n| ≤ 10 ^ (Int.log 10 (|base.toRat| ^ n) - resultDigits + 1) := by
  obtain ⟨E, hE⟩ : ∃ E, E = |base.toRat| ^ n := ⟨_, rfl⟩
  have positive : 0 < E := by
    rw [hE]
    exact zpow_pos (abs_pos.2 (base.toRat_ne_zero hb)) n
  have power : |(base.toRat : ℝ)| ^ (exponent.toRat : ℝ) = E := by
    rw [he, hE, Rat.cast_intCast, Real.rpow_intCast]
    push_cast
    rfl
  have low := (Rat.cast_le (K := ℝ)).2 (Int.zpow_log_le_self (b := 10) (by decide) positive)
  have high := (Rat.cast_lt (K := ℝ)).2 (Int.lt_zpow_succ_log_self (b := 10) (by decide) E)
  push_cast at low high
  have order : exponent.order < 100 := by
    have nonzero : exponent.mantissa ≠ 0 := mantissa_ne_zero (by rw [he]; exact_mod_cast hn)
    have size : |(exponent.toRat : ℝ)| < 10 ^ (100 : Int) := by
      rw [he, Rat.cast_intCast, ← Int.cast_abs, Int.abs_eq_natAbs]
      exact_mod_cast length
    exact exponent.order_lt nonzero 100 size
  have bounded := abs_order_le base n hb hn range
  have logarithm : |(exponent.toRat : ℝ) * Real.log base.toRat| ≤ 23200 := by
    rw [he, Rat.cast_intCast]
    exact abs_mul_log_le base n range
  have places : resultDigits + 26 + exponent.order.toNat ≤ maxDigits := by
    rw [resultDigits, maxDigits]
    omega
  rw [← power] at low high
  obtain ⟨r, found, near⟩ := realPow_near base exponent resultDigits hb places (by omega) (by decide)
    (Int.log 10 E) logarithm low high
  refine ⟨r, found, ?_⟩
  rw [power] at near
  rw [← hE]
  have cast : ((|r.toRat - E| : Rat) : ℝ) ≤
      ((10 ^ (Int.log 10 E - resultDigits + 1) : Rat) : ℝ) := by
    push_cast
    exact near
  exact_mod_cast cast

/-- While a power is short enough to be multiplied out, the way by logarithm and exponential finds
it too, wrong by at most one unit of the last significant digit. -/
theorem realPow_exact_near (cost : n.natAbs * base.digitCount ≤ maxExactDigits) :
    ∃ r, base.realPow? exponent resultDigits = some r ∧
      |r.toRat - |base.toRat| ^ n| ≤ 10 ^ (Int.log 10 (|base.toRat| ^ n) - resultDigits + 1) := by
  have first : 0 < base.digitCount := Text.digitCount_pos _
  have few : n.natAbs ≤ maxExactDigits := (Nat.le_mul_of_pos_right _ first).trans cost
  have short : maxExactDigits < 10 ^ 100 := by decide
  exact realPow_zpow_near base exponent n hb hn he range (few.trans_lt short)

end Integral

/-- The reciprocal of a cube, for a base with a sign and an exponent with zeros behind the point. -/
theorem realPow_exact_near_reciprocal :
    let base : Decimal := ⟨-15, 1⟩
    let exponent : Decimal := ⟨-300, 2⟩
    base.mantissa ≠ 0 ∧ (-3 : Int) ≠ 0 ∧ exponent.toRat = ((-3 : Int) : Rat) ∧
      WithinOrder 10000 (|base.toRat| ^ (-3 : Int)) ∧ (-3 : Int).natAbs * base.digitCount ≤ maxExactDigits ∧
      ∃ r, base.realPow? exponent resultDigits = some r ∧
        |r.toRat - |base.toRat| ^ (-3 : Int)| ≤
          10 ^ (Int.log 10 (|base.toRat| ^ (-3 : Int)) - resultDigits + 1) := by
  intro base exponent
  have nonzero : base.mantissa ≠ 0 := by decide
  have value : |base.toRat| = 3 / 2 := by
    rw [toRat_eq_div]
    norm_num [base]
  have integral : exponent.toRat = ((-3 : Int) : Rat) := by
    rw [toRat_eq_div]
    norm_num [exponent]
  have range : WithinOrder 10000 (|base.toRat| ^ (-3 : Int)) := by
    have power : |base.toRat| ^ (-3 : Int) = 8 / 27 := by
      rw [value]
      norm_num
    have low : (10 : Rat) ^ (-10000 : Int) ≤ 10 ^ (-1 : Int) :=
      zpow_le_zpow_right₀ (by norm_num) (by norm_num)
    have high : (1 : Rat) ≤ 10 ^ (10000 : Int) := one_le_zpow₀ (by norm_num) (by norm_num)
    rw [power]
    exact ⟨low.trans (by norm_num), le_trans (by norm_num) high⟩
  have cost : (-3 : Int).natAbs * base.digitCount ≤ maxExactDigits := by decide
  exact ⟨nonzero, by decide, integral, range, cost,
    realPow_exact_near base exponent (-3) nonzero (by decide) integral range cost⟩

end Reckoner.Decimal
