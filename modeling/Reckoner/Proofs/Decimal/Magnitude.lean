import Reckoner.Decimal.Magnitude
import Reckoner.Proofs.Decimal.Significant
import Reckoner.Proofs.Estimate.PowerOfTen

namespace Reckoner.Decimal

open Numeric Text

/-- The digits of a number that its estimate looks at. -/
def head (x : Decimal) : List Char := (digits x.mantissa.natAbs).take leadDigits

section Leading

variable (x : Decimal) (hx : x.mantissa ≠ 0)

theorem length_head : x.head.length = min leadDigits x.digitCount := List.length_take

theorem head_bounds :
    digitsValue x.head * pow10 (x.digitCount - x.head.length) ≤ x.mantissa.natAbs ∧
      x.mantissa.natAbs < (digitsValue x.head + 1) * pow10 (x.digitCount - x.head.length) :=
  digitsValue_take_bounds x.mantissa.natAbs leadDigits

include hx

/-- A number without its power of ten. -/
theorem magnitude_bounds :
    1 ≤ |(x.toRat : ℝ)| / 10 ^ x.order ∧ |(x.toRat : ℝ)| / 10 ^ x.order < 10 := by
  have power : (0 : ℝ) < 10 ^ x.order := by positivity
  have high := x.lt_zpow_order
  rw [zpow_add_one₀ (by norm_num), mul_comm] at high
  rw [le_div_iff₀ power, div_lt_iff₀ power, one_mul]
  exact ⟨x.zpow_order_le hx, high⟩

omit hx in
theorem magnitude_eq :
    |(x.toRat : ℝ)| / 10 ^ x.order = x.mantissa.natAbs / 10 ^ (x.digitCount - 1) := by
  have first : 0 < x.digitCount := digitCount_pos x.mantissa.natAbs
  have places : (10 : ℝ) ^ x.scale * 10 ^ x.order = 10 ^ (x.digitCount - 1) := by
    have split : (x.scale : Int) + x.order = ((x.digitCount - 1 : Nat) : Int) := by
      rw [order]
      omega
    rw [← zpow_natCast, ← zpow_add₀ (by norm_num), split, zpow_natCast]
  rw [← Rat.cast_abs, x.abs_toRat, ← places]
  push_cast
  rw [div_div]

omit hx in
/-- Where digits are left behind those that are looked at, they are cut off. -/
theorem head_of_long (long : leadDigits < x.digitCount) :
    (digitsValue x.head : ℝ) / 10 ^ (x.head.length - 1) ≤ |(x.toRat : ℝ)| / 10 ^ x.order ∧
      |(x.toRat : ℝ)| / 10 ^ x.order ≤
        digitsValue x.head / 10 ^ (x.head.length - 1) + 1 / 10 ^ 16 := by
  let n := x.mantissa.natAbs
  let rest := x.digitCount - 17
  obtain ⟨below, above⟩ := x.head_bounds
  have whole : x.head.length = 17 := by rw [x.length_head, Nat.min_eq_left long.le, leadDigits]
  rw [whole] at below above ⊢
  have digits : |(x.toRat : ℝ)| / 10 ^ x.order = n / 10 ^ rest / 10 ^ (17 - 1) := by
    have split : x.digitCount - 1 = rest + (17 - 1) := by
      rw [leadDigits] at long
      omega
    rw [x.magnitude_eq, split, pow_add, div_div]
  have power : (0 : ℝ) < 10 ^ rest := by positivity
  have least : (digitsValue x.head : ℝ) ≤ n / 10 ^ rest := by
    rw [le_div_iff₀ power, ← cast_pow10]
    exact_mod_cast below
  have most : (n : ℝ) / 10 ^ rest ≤ digitsValue x.head + 1 := by
    rw [div_le_iff₀ power, ← cast_pow10]
    exact_mod_cast above.le
  rw [digits, ← add_div]
  constructor <;> gcongr

omit hx in
/-- Where there are no others, they are the number itself. -/
theorem head_of_short (short : x.digitCount ≤ leadDigits) :
    (digitsValue x.head : ℝ) / 10 ^ (x.head.length - 1) = |(x.toRat : ℝ)| / 10 ^ x.order := by
  obtain ⟨below, above⟩ := x.head_bounds
  have whole : x.head.length = x.digitCount := by rw [x.length_head, Nat.min_eq_right short]
  rw [whole, Nat.sub_self, pow10_zero, Nat.mul_one] at below above
  have same : digitsValue x.head = x.mantissa.natAbs := by omega
  rw [whole, same, x.magnitude_eq]

/-- The first digits with a point behind the first of them, not yet rounded. -/
theorem head_near :
    |(digitsValue x.head : ℝ) / 10 ^ (x.head.length - 1) - |(x.toRat : ℝ)| / 10 ^ x.order| ≤
        1 / 10 ^ 16 ∧
      (digitsValue x.head : ℝ) / 10 ^ (x.head.length - 1) ≤ 10 := by
  have high := (x.magnitude_bounds hx).2
  rcases Nat.lt_or_ge leadDigits x.digitCount with long | short
  · obtain ⟨less, more⟩ := x.head_of_long long
    exact ⟨abs_le.2 ⟨by linarith, by linarith⟩, by linarith⟩
  · rw [x.head_of_short short, sub_self, abs_zero]
    exact ⟨by positivity, high.le⟩

/-- The digits that are looked at stand for the number with a point behind its first digit. -/
theorem lead_near : |(x.lead : ℝ) - |(x.toRat : ℝ)| / 10 ^ x.order| ≤ 3 / 10 ^ 14 := by
  obtain ⟨cut, size⟩ := x.head_near hx
  obtain ⟨low, high⟩ := x.magnitude_bounds hx
  obtain ⟨T, hT⟩ : ∃ T, T = |(x.toRat : ℝ)| / 10 ^ x.order := ⟨_, rfl⟩
  rw [← hT] at cut low high ⊢
  obtain ⟨H, hH⟩ : ∃ H, H = digitsValue x.head := ⟨_, rfl⟩
  obtain ⟨p, hp⟩ : ∃ p : ℝ, p = 10 ^ (x.head.length - 1) := ⟨_, rfl⟩
  rw [← hH, ← hp] at cut size
  have positive : 0 < p := by
    rw [hp]
    positivity
  have divided : |(toBinary64 H : ℝ) / p - H / p| ≤ 1 / 10 ^ 14 := by
    have rounded := toBinary64_near H H 0 H (by simp) (by rw [Nat.abs_cast, add_zero])
    rw [div_le_iff₀ positive] at size
    rw [← sub_div, abs_div, abs_of_pos positive, div_le_iff₀ positive]
    linarith
  have quotient : |((toBinary64 H / pow10 (x.head.length - 1) : Rat) : ℝ) - T| ≤
      1 / 10 ^ 14 + 1 / 10 ^ 16 := by
    have denominator : ((toBinary64 H / pow10 (x.head.length - 1) : Rat) : ℝ) =
        toBinary64 H / p := by
      rw [hp]
      push_cast
      rw [cast_pow10]
    rw [denominator]
    exact (abs_sub_le _ ((H : ℝ) / p) _).trans (add_le_add divided cut)
  have result : x.lead = toBinary64 (toBinary64 H / pow10 (x.head.length - 1)) := by
    rw [hH]
    rfl
  have rounded := toBinary64_near _ _ _ 11 quotient (by rw [abs_of_pos (by linarith)]; linarith)
  rw [result]
  exact rounded.trans (by norm_num)

/-- The order that is estimated for a number is right to the twelfth place, and less so only where
the order itself has that many digits. -/
theorem log10Estimate_near :
    |(x.log10Estimate : ℝ) - Real.logb 10 x.toRat| ≤
      2 / 10 ^ 12 + (|Real.logb 10 x.toRat| + 1) / 10 ^ 15 := by
  obtain ⟨T, hT⟩ : ∃ T, T = |(x.toRat : ℝ)| / 10 ^ x.order := ⟨_, rfl⟩
  obtain ⟨low, high⟩ := x.magnitude_bounds hx
  have lead := x.lead_near hx
  rw [← hT] at low high lead
  have bounds := abs_le.1 lead
  have estimate := Estimate.log10_near x.lead (by linarith) (by linarith)
  have least := FixedPoint.log_ten_bounds.1
  have exact : Real.logb 10 x.toRat = Real.logb 10 T + x.order := by
    have power : (0 : ℝ) < 10 ^ x.order := by positivity
    have value : |(x.toRat : ℝ)| = T * 10 ^ x.order := by
      rw [hT, div_mul_cancel₀ _ power.ne']
    have ten : Real.log 10 ≠ 0 := by linarith
    rw [Real.logb, Real.logb, ← Real.log_abs, value, Real.log_mul (by linarith) power.ne',
      Real.log_zpow, add_div, mul_div_cancel_right₀ _ ten]
  have moved : |Real.logb 10 x.lead - Real.logb 10 T| ≤ 1 / 10 ^ 13 := by
    have smooth := Estimate.abs_log_sub_log_le x.lead T (by linarith) (by linarith)
    rw [Real.logb, Real.logb, ← sub_div, abs_div, abs_of_pos (by linarith : 0 < Real.log 10),
      div_le_iff₀ (by linarith)]
    linarith
  apply toBinary64_near
  · have split : ((Estimate.log10 x.lead + x.order : Rat) : ℝ) - Real.logb 10 x.toRat =
        (Estimate.log10 x.lead - Real.logb 10 x.lead) + (Real.logb 10 x.lead - Real.logb 10 T) := by
      rw [exact]
      push_cast
      ring
    rw [split]
    exact (abs_add_le _ _).trans (by linarith)
  · linarith

omit hx in
theorem clampEstimate_of_small (l : Rat) (size : |(l : ℝ)| ≤ 20) : clampEstimate l = l := by
  have bounds := abs_le.1 size
  have low : -estimateBound ≤ l := by
    have cast : (-400 : ℝ) ≤ l := by linarith
    exact_mod_cast cast
  have high : l ≤ estimateBound := by
    have cast : (l : ℝ) ≤ 400 := by linarith
    exact_mod_cast cast
  rw [clampEstimate, if_neg (not_lt.2 low), if_neg (not_lt.2 high)]

/-- The magnitude of a number of moderate size, from the order that is estimated for it. -/
theorem tenToThe_log10Estimate_near (range : |Real.logb 10 x.toRat| ≤ 10) :
    |(x.log10Estimate : ℝ)| ≤ 20 ∧
      |(Estimate.tenToThe x.log10Estimate : ℝ) - (|(x.toRat : ℝ)|)| ≤
        |(x.toRat : ℝ)| * (4.1 / 10 ^ 5) := by
  obtain ⟨l, hl⟩ : ∃ l, l = x.log10Estimate := ⟨_, rfl⟩
  obtain ⟨L, hL⟩ : ∃ L, L = Real.logb 10 x.toRat := ⟨_, rfl⟩
  have near := x.log10Estimate_near hx
  have ten := FixedPoint.log_ten_bounds
  rw [← hL] at range
  rw [← hl, ← hL] at near
  rw [← hl]
  have close : |(l : ℝ) - L| ≤ 3 / 10 ^ 12 := by linarith
  have size : |(l : ℝ)| ≤ 20 := by linarith [abs_sub_abs_le_abs_sub (l : ℝ) L]
  obtain ⟨m, hm⟩ : ∃ m, m = |(x.toRat : ℝ)| := ⟨_, rfl⟩
  have positive : 0 < m := by
    rw [hm, abs_pos]
    exact_mod_cast x.toRat_ne_zero hx
  have exact : (10 : ℝ) ^ L = m := by
    rw [hL, ← Real.logb_abs, ← hm, Real.rpow_logb (by norm_num) (by norm_num) positive]
  have moved : |(10 : ℝ) ^ (l : ℝ) - m| ≤ m * (1 / 10 ^ 10) := by
    have small : |Real.log 10 * l - Real.log 10 * L| ≤ 1 / 10 ^ 11 := by
      rw [← mul_sub, abs_mul, abs_of_pos (by linarith : 0 < Real.log 10)]
      nlinarith [abs_nonneg ((l : ℝ) - L)]
    rw [← exact, Real.rpow_def_of_pos (by norm_num), Real.rpow_def_of_pos (by norm_num)]
    refine (FixedPoint.abs_exp_sub_exp_le _ _ (by linarith)).trans ?_
    gcongr
    linarith
  have power := Estimate.tenToThe_near l size
  have above := (abs_le.1 moved).2
  rw [← hm]
  exact ⟨size, (abs_sub_le _ ((10 : ℝ) ^ (l : ℝ)) _).trans (by linarith)⟩

/-- A number of moderate size is estimated to a few hundred thousandths of itself. -/
theorem estimate_near (range : |Real.logb 10 x.toRat| ≤ 10) :
    |(x.estimate : ℝ) - x.toRat| ≤ |(x.toRat : ℝ)| * (4.1 / 10 ^ 5) := by
  obtain ⟨size, value⟩ := x.tenToThe_log10Estimate_near hx range
  have unclamped := clampEstimate_of_small _ size
  obtain ⟨v, hv⟩ : ∃ v, v = Estimate.tenToThe x.log10Estimate := ⟨_, rfl⟩
  obtain ⟨m, hm⟩ : ∃ m, m = |(x.toRat : ℝ)| := ⟨_, rfl⟩
  rw [← hv, ← hm] at value
  have result : x.estimate = if x.isNegative then -v else v := by
    have some : x.isZero = false := beq_eq_false_iff_ne.2 hx
    rw [estimate, some, hv]
    simp only [Bool.false_eq_true, if_false, pow10Estimate, unclamped]
  rw [← hm, result]
  cases sign : x.isNegative with
  | true =>
    have below : (x.toRat : ℝ) < 0 := by exact_mod_cast isNegative_iff.1 sign
    have negative : (x.toRat : ℝ) = -m := by rw [hm, abs_of_neg below, neg_neg]
    rw [if_pos rfl, negative, Rat.cast_neg, neg_sub_neg, abs_sub_comm]
    exact value
  | false =>
    have above : (0 : ℝ) ≤ x.toRat := by
      have not_below : ¬x.toRat < 0 := by
        rw [← isNegative_iff, sign]
        exact Bool.false_ne_true
      exact_mod_cast not_lt.1 not_below
    have plain : (x.toRat : ℝ) = m := by rw [hm, abs_of_nonneg above]
    rw [if_neg Bool.false_ne_true, plain]
    exact value

end Leading

/-- A number of moderate size, by its logarithm. -/
theorem abs_toRat_le_of_logb (x : Decimal) (hx : x.mantissa ≠ 0)
    (size : |Real.logb 10 x.toRat| ≤ 10) : |(x.toRat : ℝ)| ≤ 10 ^ 10 := by
  have nonzero : 0 < |(x.toRat : ℝ)| := by
    rw [abs_pos]
    exact_mod_cast x.toRat_ne_zero hx
  rw [← Real.logb_abs, abs_le] at size
  calc
    |(x.toRat : ℝ)| = 10 ^ Real.logb 10 |(x.toRat : ℝ)| :=
      (Real.rpow_logb (by norm_num) (by norm_num) nonzero).symm
    _ ≤ 10 ^ (10 : ℝ) := Real.rpow_le_rpow_of_exponent_le (by norm_num) size.2
    _ = 10 ^ 10 := by norm_num

theorem abs_logb_le_ten (x : ℝ) (one : 1 ≤ |x|) (most : |x| ≤ 10 ^ 10) :
    |Real.logb 10 x| ≤ 10 := by
  have ten : 0 < Real.log 10 := lt_of_lt_of_le two_pos FixedPoint.log_ten_bounds.1
  have log := Real.log_le_log (by linarith) most
  rw [Real.log_pow] at log
  rw [← Real.logb_abs, abs_of_nonneg (Real.logb_nonneg (by norm_num) one), Real.logb,
    div_le_iff₀ ten]
  exact_mod_cast log

theorem abs_order_le_logb (x : Decimal) (hx : x.mantissa ≠ 0) :
    |(x.order : ℝ)| ≤ |Real.logb 10 x.toRat| + 1 := by
  have positive : (0 : ℝ) < |(x.toRat : ℝ)| := by
    rw [abs_pos]
    exact_mod_cast x.toRat_ne_zero hx
  have low := Real.logb_le_logb_of_le (b := 10) (by norm_num) (by positivity) (x.zpow_order_le hx)
  have high := Real.logb_lt_logb (b := 10) (by norm_num) positive x.lt_zpow_order
  rw [← Real.rpow_intCast, Real.logb_rpow (by norm_num) (by norm_num), Real.logb_abs] at low high
  push_cast at high
  obtain ⟨least, most⟩ := abs_le.1 (le_refl |Real.logb 10 x.toRat|)
  rw [abs_le]
  constructor <;> linarith

/-- For an exponent of moderate size the estimated order of a power is wrong by less than a half,
up to the bound for powers that are refused. -/
theorem powerOrderEstimate_near (base exponent : Decimal) (hb : base.mantissa ≠ 0)
    (he : exponent.mantissa ≠ 0) (size : |Real.logb 10 exponent.toRat| ≤ 10)
    (range : |(exponent.toRat : ℝ) * Real.logb 10 base.toRat| ≤ 10000) :
    |(powerOrderEstimate base exponent : ℝ) - exponent.toRat * Real.logb 10 base.toRat| ≤
      1 / 2 := by
  obtain ⟨e, hE⟩ : ∃ e : ℝ, e = exponent.toRat := ⟨_, rfl⟩
  obtain ⟨L, hL⟩ : ∃ L, L = Real.logb 10 base.toRat := ⟨_, rfl⟩
  have factor := exponent.estimate_near he size
  have order := base.log10Estimate_near hb
  rw [← hE] at factor
  rw [← hL] at order
  rw [← hE, ← hL] at range ⊢
  have moderate : |e| ≤ 10 ^ 10 := hE ▸ exponent.abs_toRat_le_of_logb he size
  obtain ⟨error, herror⟩ : ∃ error, error = 2 / 10 ^ 12 + (|L| + 1) / 10 ^ 15 := ⟨_, rfl⟩
  rw [← herror] at order
  have weighted : |e| * error ≤ 3 / 100 := by
    rw [abs_mul] at range
    rw [herror]
    nlinarith [abs_nonneg e, abs_nonneg L]
  have product : |((exponent.estimate * base.log10Estimate : Rat) : ℝ) - e * L| ≤ 45 / 100 := by
    have split : ((exponent.estimate * base.log10Estimate : Rat) : ℝ) - e * L =
        (exponent.estimate - e) * base.log10Estimate + e * (base.log10Estimate - L) := by
      push_cast
      ring
    have size : |(base.log10Estimate : ℝ)| ≤ |L| + error := by
      linarith [abs_sub_abs_le_abs_sub (base.log10Estimate : ℝ) L]
    have first : |(exponent.estimate - e) * (base.log10Estimate : ℝ)| ≤
        |e| * (4.1 / 10 ^ 5) * (|L| + error) := by
      rw [abs_mul]
      gcongr
    have second : |e * (base.log10Estimate - L)| ≤ |e| * error := by
      rw [abs_mul]
      gcongr
    rw [abs_mul] at range
    rw [split]
    refine (abs_add_le _ _).trans ?_
    nlinarith
  exact (toBinary64_near _ _ _ 10001 product (by linarith)).trans (by norm_num)

/-- Where the estimated order of a power is in bounds, the order itself is not far beyond them. -/
theorem abs_mul_logb_le (base exponent : Decimal) (hb : base.mantissa ≠ 0)
    (he : exponent.mantissa ≠ 0) (size : |Real.logb 10 exponent.toRat| ≤ 10)
    (range : |(powerOrderEstimate base exponent : ℝ)| ≤ 10000) :
    |(exponent.toRat : ℝ) * Real.logb 10 base.toRat| ≤ 10004 := by
  obtain ⟨e, hE⟩ : ∃ e : ℝ, e = exponent.toRat := ⟨_, rfl⟩
  obtain ⟨L, hL⟩ : ∃ L, L = Real.logb 10 base.toRat := ⟨_, rfl⟩
  obtain ⟨E, hEstimate⟩ : ∃ E : ℝ, E = exponent.estimate := ⟨_, rfl⟩
  obtain ⟨l, hl⟩ : ∃ l : ℝ, l = base.log10Estimate := ⟨_, rfl⟩
  have factor := exponent.estimate_near he size
  have order := base.log10Estimate_near hb
  have moderate := exponent.abs_toRat_le_of_logb he size
  rw [← hE] at factor moderate
  rw [← hEstimate] at factor
  rw [← hL, ← hl] at order
  rw [← hE, ← hL]
  have product : |E * l| ≤ 10001 := by
    have exact : |((exponent.estimate * base.log10Estimate : Rat) : ℝ) - E * l| ≤ 0 := by
      rw [hEstimate, hl, Rat.cast_mul, sub_self, abs_zero]
    have rounded := toBinary64_near _ (E * l) 0 |E * l| exact (add_zero _).le
    have apart := abs_sub_abs_le_abs_sub (E * l) (powerOrderEstimate base exponent : ℝ)
    rw [abs_sub_comm] at apart
    change |(powerOrderEstimate base exponent : ℝ) - E * l| ≤ _ at rounded
    linarith
  have least : |e| * (1 - 4.1 / 10 ^ 5) ≤ |E| := by
    have apart := abs_sub_abs_le_abs_sub e E
    rw [abs_sub_comm] at apart
    linarith
  have most : |L| * (1 - 1 / 10 ^ 15) ≤ |l| + 3 / 10 ^ 12 := by
    have apart := abs_sub_abs_le_abs_sub L l
    rw [abs_sub_comm] at apart
    linarith
  rw [abs_mul] at product ⊢
  nlinarith [abs_nonneg e, abs_nonneg l, abs_nonneg L]

/-- For a whole exponent the order of the base, times the exponent, exceeds the order of the power
by one for each factor at most. -/
theorem natAbs_order_mul_le (base exponent : Decimal) (hb : base.mantissa ≠ 0) (n : Int)
    (value : exponent.toRat = n) (some : n ≠ 0) (few : n.natAbs ≤ 20000)
    (range : |powerOrderEstimate base exponent| ≤ 10000) :
    base.order.natAbs * n.natAbs ≤ 30004 := by
  have cast : (exponent.toRat : ℝ) = n := by
    rw [value]
    exact Rat.cast_intCast n
  have he : exponent.mantissa ≠ 0 := by
    apply mantissa_ne_zero
    rw [value]
    exact_mod_cast some
  have one : 1 ≤ |(n : ℝ)| := by exact_mod_cast Int.one_le_abs some
  have most : |(n : ℝ)| ≤ 20000 := by
    rw [← Int.cast_abs, Int.abs_eq_natAbs]
    exact_mod_cast few
  have size : |Real.logb 10 exponent.toRat| ≤ 10 := by
    rw [cast]
    exact abs_logb_le_ten n one (most.trans (by norm_num))
  have product := abs_mul_logb_le base exponent hb he size (by exact_mod_cast range)
  have order : |(base.order : ℝ)| * |(n : ℝ)| ≤ 30004 := by
    rw [cast, abs_mul] at product
    calc
      |(base.order : ℝ)| * |(n : ℝ)| ≤ (|Real.logb 10 base.toRat| + 1) * |(n : ℝ)| := by
        gcongr
        exact base.abs_order_le_logb hb
      _ ≤ 30004 := by linarith
  rw [← Int.cast_abs, ← Int.cast_abs, Int.abs_eq_natAbs, Int.abs_eq_natAbs] at order
  exact_mod_cast order

end Reckoner.Decimal
