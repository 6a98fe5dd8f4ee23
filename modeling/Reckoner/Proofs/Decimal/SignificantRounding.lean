import Reckoner.Proofs.Decimal.Sign

namespace Reckoner.Decimal

open Numeric

section Rounding

variable (x y : Decimal) (k : Nat)

theorem roundSignificant_of_zero (zero : x.mantissa = 0) : x.roundSignificant k = x :=
  if_pos (.inl (beq_iff_eq.2 zero))

theorem roundSignificant_nonneg (hx : 0 ≤ x.toRat) : 0 ≤ (x.roundSignificant k).toRat := by
  by_cases zero : x.mantissa = 0
  · rwa [x.roundSignificant_of_zero k zero]
  · have unit : (0 : Rat) < 10 ^ (x.order - k + 1) := by positivity
    obtain ⟨n, value, nearest⟩ := x.exists_nearest_roundSignificant k zero
    have part := div_nonneg hx unit.le
    have above := ((nearest_iff_of_nonneg part).1 nearest).2
    have natural : (0 : Rat) ≤ n := cast_nonneg_of_neg_one_lt (by linarith)
    rw [value]
    exact mul_nonneg natural unit.le

theorem roundSignificant_nonpos (hx : x.toRat ≤ 0) : (x.roundSignificant k).toRat ≤ 0 := by
  have mirrored := (-x).roundSignificant_nonneg k (by
    rw [toRat_neg]
    linarith)
  rw [roundSignificant_neg, toRat_neg] at mirrored
  linarith

section Kept

variable (hk : 0 < k)

include hk

/-- Rounding may carry a number to the next power of ten, and no further. -/
theorem roundSignificant_bounds (hx : x.mantissa ≠ 0) :
    10 ^ x.order ≤ |(x.roundSignificant k).toRat| ∧
      |(x.roundSignificant k).toRat| ≤ 10 ^ (x.order + 1) := by
  obtain ⟨n, value, nearest⟩ := x.exists_nearest_roundSignificant k hx
  obtain ⟨unit, hunit⟩ : ∃ unit : Rat, unit = 10 ^ (x.order - k + 1) := ⟨_, rfl⟩
  have pos : 0 < unit := by
    rw [hunit]
    positivity
  -- In units of the last digit kept both powers are integers.
  have power (j : Nat) : ((10 ^ j : Nat) : Rat) * unit = 10 ^ (x.order - k + 1 + j) := by
    rw [hunit, Nat.cast_pow, Nat.cast_ofNat, ← zpow_natCast, ← zpow_add₀ (by norm_num), add_comm]
  have first : ((10 ^ (k - 1) : Nat) : Rat) * unit = 10 ^ x.order := by
    rw [power]
    congr 1
    omega
  have last : ((10 ^ k : Nat) : Rat) * unit = 10 ^ (x.order + 1) := by
    rw [power]
    congr 1
    omega
  rw [← hunit] at value nearest
  rw [value, ← first, ← last]
  refine nearest.abs_mul_bounds pos _ _ ?_ ?_
  · rw [first]
    exact x.pow_order_le hx
  · rw [last]
    exact x.lt_pow_order

/-- A rounded number is a multiple of its last digit, also where it was carried. -/
theorem toRat_roundSignificant_idem :
    ((x.roundSignificant k).roundSignificant k).toRat = (x.roundSignificant k).toRat := by
  by_cases zero : x.mantissa = 0
  · have same := x.roundSignificant_of_zero k zero
    rw [same, same]
  · have unit : (10 : Rat) ^ (x.order - k + 1) ≠ 0 := by positivity
    obtain ⟨low, high⟩ := x.roundSignificant_bounds k hk zero
    obtain ⟨m, once, -⟩ := x.exists_nearest_roundSignificant k zero
    obtain ⟨n, twice, nearest⟩ :=
      (x.roundSignificant k).exists_nearest_of_bounds k x.order hk low high
    rw [once, mul_div_cancel_right₀ _ unit] at nearest
    rw [twice, nearest.unique (nearest_intCast m), once]

/-- Between two powers of ten the digits kept have one unit. Where there is a power of ten between
the numbers, none of them is rounded past it. -/
theorem toRat_roundSignificant_mono_of_pos (hx : 0 < x.toRat) (h : x.toRat ≤ y.toRat) :
    (x.roundSignificant k).toRat ≤ (y.roundSignificant k).toRat := by
  have ten : (1 : Rat) < 10 := by norm_num
  have nonzero : x.mantissa ≠ 0 := mantissa_ne_zero hx.ne'
  have nonzero' : y.mantissa ≠ 0 := mantissa_ne_zero (hx.trans_le h).ne'
  have orders : x.order ≤ y.order := by
    have low := x.pow_order_le nonzero
    have high := y.lt_pow_order
    rw [abs_of_pos hx] at low
    rw [abs_of_pos (hx.trans_le h)] at high
    have next := (zpow_lt_zpow_iff_right₀ ten).1 (low.trans_lt (h.trans_lt high))
    omega
  rcases orders.eq_or_lt with same | less
  · obtain ⟨m, value, nearest⟩ := x.exists_nearest_roundSignificant k nonzero
    obtain ⟨n, value', nearest'⟩ := y.exists_nearest_roundSignificant k nonzero'
    rw [same] at value nearest
    have below : m ≤ n := nearest.mono nearest' (by gcongr)
    rw [value, value']
    gcongr
  · calc
      (x.roundSignificant k).toRat ≤ |(x.roundSignificant k).toRat| := le_abs_self _
      _ ≤ 10 ^ (x.order + 1) := (x.roundSignificant_bounds k hk nonzero).2
      _ ≤ 10 ^ y.order := zpow_le_zpow_right₀ ten.le (by omega)
      _ ≤ |(y.roundSignificant k).toRat| := (y.roundSignificant_bounds k hk nonzero').1
      _ = (y.roundSignificant k).toRat :=
        abs_of_nonneg (y.roundSignificant_nonneg k (hx.le.trans h))

theorem toRat_roundSignificant_mono (h : x.toRat ≤ y.toRat) :
    (x.roundSignificant k).toRat ≤ (y.roundSignificant k).toRat := by
  rcases lt_or_ge 0 x.toRat with positive | nonpos
  · exact x.toRat_roundSignificant_mono_of_pos y k hk positive h
  · rcases lt_or_ge y.toRat 0 with negative | nonneg
    · have mirrored := (-y).toRat_roundSignificant_mono_of_pos (-x) k hk (by
        rw [toRat_neg]
        linarith) (by
        rw [toRat_neg, toRat_neg]
        linarith)
      rw [roundSignificant_neg, roundSignificant_neg, toRat_neg, toRat_neg] at mirrored
      linarith
    · exact (x.roundSignificant_nonpos k nonpos).trans (y.roundSignificant_nonneg k nonneg)

/-- What is rounded to significant digits is the nearest multiple of the last of them, a tie going
away from zero. A rounded number is not changed by rounding it again, and no two numbers change
their order. -/
theorem roundSignificant_laws :
    (x.toRat ≠ 0 → 10 ^ x.order ≤ |x.toRat| ∧ |x.toRat| < 10 ^ (x.order + 1) ∧
      ∃ n : Int, (x.roundSignificant k).toRat = n * 10 ^ (x.order - k + 1) ∧
        Nearest n (x.toRat / 10 ^ (x.order - k + 1))) ∧
    ((x.roundSignificant k).roundSignificant k).sameValue (x.roundSignificant k) ∧
    (x.compare y ≠ .gt → (x.roundSignificant k).compare (y.roundSignificant k) ≠ .gt) := by
  refine ⟨?_, sameValue_iff_toRat.2 (x.toRat_roundSignificant_idem k hk), ?_⟩
  · intro hx
    have nonzero := mantissa_ne_zero hx
    exact ⟨x.pow_order_le nonzero, x.lt_pow_order, x.exists_nearest_roundSignificant k nonzero⟩
  · intro h
    rw [Ne, compare_gt_iff, not_lt] at h ⊢
    exact x.toRat_roundSignificant_mono y k hk h

end Kept

end Rounding

/-- At three digits -9.995 is a tie that is carried to -10, where the last digit weighs ten times as
much, and -9.99 stays behind it. -/
theorem roundSignificant_laws_carry :
    let x : Decimal := ⟨-9995, 3⟩
    let y : Decimal := ⟨-99900, 4⟩
    0 < 3 ∧ x.toRat ≠ 0 ∧ x.compare y ≠ .gt ∧ x.roundSignificant 3 = ⟨-1000, 2⟩ ∧
      Nearest (-1000) (x.toRat / 10 ^ (-2 : Int)) ∧
      (⟨-1000, 2⟩ : Decimal).roundSignificant 3 = ⟨-100, 1⟩ ∧
      (⟨-100, 1⟩ : Decimal).sameValue ⟨-1000, 2⟩ ∧
      y.roundSignificant 3 = ⟨-999, 2⟩ ∧ (⟨-1000, 2⟩ : Decimal).compare ⟨-999, 2⟩ ≠ .gt := by
  intro x y
  have nonzero : x.toRat ≠ 0 := toRat_ne_zero (by decide)
  have ordered : x.compare y ≠ .gt := by decide +kernel
  have once : x.roundSignificant 3 = ⟨-1000, 2⟩ := by decide +kernel
  have twice : (⟨-1000, 2⟩ : Decimal).roundSignificant 3 = ⟨-100, 1⟩ := by decide +kernel
  have other : y.roundSignificant 3 = ⟨-999, 2⟩ := by decide +kernel
  have place : x.order - (3 : Nat) + 1 = -2 := by decide +kernel
  obtain ⟨nearest, again, mono⟩ := roundSignificant_laws x y 3 (by decide)
  obtain ⟨-, -, n, value, near⟩ := nearest nonzero
  have kept := mono ordered
  rw [place] at value near
  rw [once] at value again kept
  rw [twice] at again
  rw [other] at kept
  have multiple : n = -1000 := by
    rw [toRat_eq_div] at value
    have scaled : (n : Rat) = -1000 := by
      norm_num at value
      linarith
    exact_mod_cast scaled
  rw [multiple] at near
  exact ⟨by decide, nonzero, ordered, once, near, twice, again, other, kept⟩

end Reckoner.Decimal
