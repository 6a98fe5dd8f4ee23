import Mathlib.Algebra.Order.Archimedean.Basic
import Reckoner.Decimal.Operations
import Reckoner.Proofs.Decimal.Significant

namespace Reckoner.Decimal

open Numeric

/-- A fraction is rounded to the nearest multiple of the last place. -/
theorem nearest_ofRat (r : Rat) (scale : Nat) :
    Nearest (ofRat r scale).mantissa (r * 10 ^ scale) := by
  have quotient : r * 10 ^ scale = ((r.num * pow10 scale : Int) : Rat) / (r.den : Nat) := by
    push_cast
    rw [cast_pow10, mul_div_right_comm, Rat.num_div_den]
  rw [quotient]
  exact nearest_halfAway _ _ r.den_pos

/-- A number is rounded to the nearest multiple of the last place, too. -/
theorem nearest_round (x : Decimal) (scale : Nat) :
    Nearest (x.round scale).mantissa (x.toRat * 10 ^ scale) := by
  rw [round]
  split
  · rename_i kept
    rw [← x.mantissaAt_eq scale kept]
    exact nearest_intCast _
  · rename_i dropped
    have split : x.scale = x.scale - scale + scale := by omega
    have quotient : x.toRat * 10 ^ scale = (x.mantissa : Rat) / (pow10 (x.scale - scale) : Nat) := by
      rw [toRat_eq_div, split, Nat.add_sub_cancel, pow_add, cast_pow10]
      field_simp
    rw [quotient]
    exact nearest_halfAway _ _ (pow10_pos _)

@[simp] theorem round_scale (x : Decimal) (scale : Nat) : (x.round scale).scale = scale := by
  rw [round]
  split <;> rfl

/-- A quotient at a fixed scale is the nearest multiple of the last place. -/
theorem exists_nearest_divide (x y : Decimal) (scale : Nat) (hy : y.toRat ≠ 0) :
    ∃ m : Int, x.divide? y scale = some ⟨m, scale⟩ ∧
      Nearest m (x.toRat * 10 ^ scale / y.toRat) := by
  have divisor : ¬y.isZero := by rwa [isZero_iff]
  have exact : x.toRat * 10 ^ scale / y.toRat = x.toRat / y.toRat * 10 ^ scale :=
    mul_div_right_comm _ _ _
  rw [divide?, if_neg divisor, exact]
  exact ⟨_, rfl, nearest_ofRat _ scale⟩

/-- The fraction in lowest terms is rounded as the mantissa is, since there is only one nearest
multiple. -/
theorem ofRat_toRat (x : Decimal) (scale : Nat) : ofRat x.toRat scale = x.round scale := by
  ext
  · exact (nearest_ofRat x.toRat scale).unique (x.nearest_round scale)
  · exact (x.round_scale scale).symm

theorem divide_one (x : Decimal) (scale : Nat) : x.divide? one scale = some (x.round scale) := by
  have value : one.toRat = 1 := isOne_iff.1 (by decide)
  have divisor : ¬one.isZero := by decide
  rw [divide?, if_neg divisor, value, div_one, ofRat_toRat]

/-- Rounding to a fixed scale is one function. A quotient by any number but zero is found and is the
nearest multiple of the last place, a tie going away from zero, and a number is rounded to the same
pair as it stands, as a fraction in lowest terms, and as its quotient by one. -/
theorem fixedScale_rounding :
    (∀ (x y : Decimal) (scale : Nat), y.toRat ≠ 0 → ∃ m : Int,
      x.divide? y scale = some ⟨m, scale⟩ ∧ Nearest m (x.toRat * 10 ^ scale / y.toRat)) ∧
    ∀ (x : Decimal) (scale : Nat),
      ofRat x.toRat scale = x.round scale ∧ x.divide? one scale = some (x.round scale) :=
  ⟨exists_nearest_divide, fun x scale => ⟨x.ofRat_toRat scale, x.divide_one scale⟩⟩

/-- Minus one eighth is a tie at two places. Rounded, it is the same pair as a quotient, as a number
with a place more than is kept, and as that number divided by one. -/
theorem fixedScale_rounding_tie :
    let x : Decimal := ⟨-10, 1⟩
    let y : Decimal := ⟨8, 0⟩
    let eighth : Decimal := ⟨-1250, 4⟩
    y.toRat ≠ 0 ∧ x.divide? y 2 = some ⟨-13, 2⟩ ∧ Nearest (-13) (x.toRat * 10 ^ 2 / y.toRat) ∧
      eighth.round 2 = ⟨-13, 2⟩ ∧ ofRat eighth.toRat 2 = eighth.round 2 ∧
      eighth.divide? one 2 = some (eighth.round 2) := by
  intro x y eighth
  have nonzero : y.toRat ≠ 0 := toRat_ne_zero (by decide)
  have computed : x.divide? y 2 = some ⟨-13, 2⟩ := by decide +kernel
  obtain ⟨m, found, nearest⟩ := fixedScale_rounding.1 x y 2 nonzero
  obtain ⟨fraction, quotient⟩ := fixedScale_rounding.2 eighth 2
  have same : m = -13 := congrArg mantissa (Option.some.inj (found.symm.trans computed))
  rw [same] at nearest
  exact ⟨nonzero, computed, nearest, by decide +kernel, fraction, quotient⟩

/-- How many places a quotient is given before it is rounded to significant digits. -/
def quotientPlaces (x y : Decimal) (k : Nat) : Nat :=
  toWord (k + 2 - (x.order - y.order)).toNat

/-- The quotient before it is rounded to significant digits. -/
def placedQuotient (x y : Decimal) (k : Nat) : Decimal :=
  ofRat (x.toRat / y.toRat) (x.quotientPlaces y k)

section Quotient

variable (x y : Decimal) (k : Nat) (hx : x.mantissa ≠ 0) (hy : y.mantissa ≠ 0)

include hx hy

theorem divideSignificant_eq :
    x.divideSignificant? y k = some ((x.placedQuotient y k).roundSignificant k) := by
  have dividend : ¬x.isZero := by rwa [isZero, beq_iff_eq]
  have divisor : ¬y.isZero := by rwa [isZero, beq_iff_eq]
  rw [divideSignificant?, if_neg divisor, if_neg dividend, divide?, if_neg divisor,
    Option.map_some]
  rfl

theorem exists_quotient_order :
    ∃ order : Int, 10 ^ order ≤ |x.toRat / y.toRat| ∧ |x.toRat / y.toRat| < 10 ^ (order + 1) := by
  have positive : 0 < |x.toRat / y.toRat| :=
    abs_pos.2 (div_ne_zero (toRat_ne_zero hx) (toRat_ne_zero hy))
  exact exists_mem_Ico_zpow positive (by norm_num)

section Order

variable (room : k + 2 - (x.order - y.order) < wordSize) (order : Int)
  (high : |x.toRat / y.toRat| < 10 ^ (order + 1))

include room high

/-- The order of a quotient is at most one less than the orders tell, so two digits or more are
placed behind the last one kept. -/
theorem order_add_quotientPlaces_ge : (k + 2 : Int) ≤ order + 1 + x.quotientPlaces y k := by
  have ten : (1 : Rat) < 10 := by norm_num
  have least : (10 : Rat) ^ (x.order - (y.order + 1)) < |x.toRat / y.toRat| := by
    rw [abs_div, zpow_sub₀ (by norm_num)]
    exact div_lt_div₀' (x.pow_order_le hx) y.lt_pow_order (abs_pos.2 (toRat_ne_zero hx))
      (abs_pos.2 (toRat_ne_zero hy))
  have orders := (zpow_lt_zpow_iff_right₀ ten).1 (least.trans high)
  have places : (k + 2 - (x.order - y.order)).toNat < wordSize := by
    rw [wordSize] at room ⊢
    omega
  rw [quotientPlaces, toWord_of_lt places]
  omega

variable (low : 10 ^ order ≤ |x.toRat / y.toRat|)

include low

/-- Rounding the quotient at first may carry it to the next power of ten, and no further. -/
theorem placedQuotient_bounds :
    10 ^ order ≤ |(x.placedQuotient y k).toRat| ∧
      |(x.placedQuotient y k).toRat| ≤ 10 ^ (order + 1) := by
  let unit : Rat := (10 ^ x.quotientPlaces y k)⁻¹
  have enough := x.order_add_quotientPlaces_ge y k hx hy room order high
  have nearest := nearest_ofRat (x.toRat / y.toRat) (x.quotientPlaces y k)
  rw [← div_inv_eq_mul] at nearest
  have value : (x.placedQuotient y k).toRat = (x.placedQuotient y k).mantissa * unit := by
    rw [toRat_eq_div, div_eq_mul_inv]
    rfl
  -- Both powers are multiples of the last place of the quotient.
  obtain ⟨first, hfirst⟩ := exists_natCast_zpow (K := Rat) order (x.quotientPlaces y k) (by omega)
  obtain ⟨last, hlast⟩ :=
    exists_natCast_zpow (K := Rat) (order + 1) (x.quotientPlaces y k) (by omega)
  have least : first * unit = 10 ^ order := by
    rw [hfirst, mul_inv_cancel_right₀ (by positivity)]
  have most : last * unit = 10 ^ (order + 1) := by
    rw [hlast, mul_inv_cancel_right₀ (by positivity)]
  rw [value, ← least, ← most]
  refine nearest.abs_mul_bounds (by positivity) _ _ ?_ ?_
  · rwa [least]
  · rwa [most]

/-- Placing the quotient before it is rounded to significant digits moves each tie by half of the
last place. -/
theorem exists_nearestEarly_quotient (hk : 0 < k) :
    let unit : Rat := 10 ^ (order - k + 1)
    ∃ n : Int, ((x.placedQuotient y k).roundSignificant k).toRat = n * unit ∧
      NearestEarly (1 / (2 * (unit * 10 ^ x.quotientPlaces y k))) n (x.toRat / y.toRat / unit) := by
  intro unit
  let places : Rat := 10 ^ x.quotientPlaces y k
  have enough := x.order_add_quotientPlaces_ge y k hx hy room order high
  have behind : 0 < order - k + 1 + x.quotientPlaces y k := by omega
  obtain ⟨least, most⟩ := x.placedQuotient_bounds y k hx hy room order high low
  obtain ⟨n, half, some, hhalf, value, second⟩ :=
    (x.placedQuotient y k).exists_nearest_mantissa k order hk least most behind
  change (2 * half : Rat) = unit * places at hhalf
  have first : Nearest (x.placedQuotient y k).mantissa (x.toRat / y.toRat * places) :=
    nearest_ofRat _ _
  have scaled : x.toRat / y.toRat * places = x.toRat / y.toRat / unit * (2 * half) := by
    have nonzero : unit ≠ 0 := by positivity
    rw [hhalf, ← mul_assoc, div_mul_cancel₀ _ nonzero]
  rw [scaled] at first
  have early := nearestEarly_of_twice some first second
  rw [hhalf] at early
  exact ⟨n, value, early⟩

end Order

end Quotient

/-- The quotient with k significant digits is a multiple of the last digit kept, as long as a word
counts the places it is given at first. It is the nearest one but just in front of a tie, where half
of the place rounded at first is enough to go away from zero. -/
theorem divideSignificant_nearest_iff (x y : Decimal) (k : Nat) (hx : x.mantissa ≠ 0)
    (hy : y.mantissa ≠ 0) (hk : 0 < k) (room : k + 2 - (x.order - y.order) < wordSize) :
    let r := x.toRat / y.toRat
    ∃ (q : Decimal) (order n : Int), x.divideSignificant? y k = some q ∧
      10 ^ order ≤ |r| ∧ |r| < 10 ^ (order + 1) ∧
      let unit : Rat := 10 ^ (order - k + 1)
      let early : Rat := 1 / (2 * (unit * 10 ^ x.quotientPlaces y k))
      q.toRat = n * unit ∧ early ≤ 1 / 200 ∧ NearestEarly early n (r / unit) ∧
        (Nearest n (r / unit) ↔
          ∀ m : Nat, ¬(m + 1 / 2 - early ≤ |r / unit| ∧ |r / unit| < m + 1 / 2)) := by
  intro r
  obtain ⟨order, low, high⟩ := x.exists_quotient_order y hx hy
  obtain ⟨n, value, nearest⟩ := x.exists_nearestEarly_quotient y k hx hy room order high low hk
  refine ⟨_, order, n, x.divideSignificant_eq y k hx hy, low, high, value, ?_, nearest,
    nearest.nearest_iff (by positivity)⟩
  have enough := x.order_add_quotientPlaces_ge y k hx hy room order high
  have hundred : (100 : Rat) ≤ 10 ^ (order - k + 1) * 10 ^ x.quotientPlaces y k := by
    calc
      (100 : Rat) = 10 ^ (2 : Int) := by norm_num
      _ ≤ 10 ^ (order - k + 1 + x.quotientPlaces y k) :=
        zpow_le_zpow_right₀ (by norm_num) (by omega)
      _ = _ := by rw [zpow_add₀ (by norm_num), zpow_natCast]
  rw [div_le_div_iff₀ (by positivity) (by norm_num)]
  linarith

/-- Minus an eighth is a tie at two digits, and it goes away from zero. -/
theorem divideSignificant_nearest_iff_tie :
    let x : Decimal := ⟨-1, 0⟩
    let y : Decimal := ⟨8, 0⟩
    x.mantissa ≠ 0 ∧ y.mantissa ≠ 0 ∧ 0 < 2 ∧ (2 : Nat) + 2 - (x.order - y.order) < wordSize ∧
      x.divideSignificant? y 2 = some ⟨-13, 2⟩ ∧
      Nearest (-13) (x.toRat / y.toRat / 10 ^ (-2 : Int)) := by
  intro x y
  have ten : (1 : Rat) < 10 := by norm_num
  have computed : x.divideSignificant? y 2 = some ⟨-13, 2⟩ := by decide +kernel
  have quotient : x.toRat / y.toRat = -1 / 8 := by
    rw [toRat_eq_div, toRat_eq_div]
    norm_num [x, y]
  have magnitude : |(-1 / 8 : Rat)| = 1 / 8 := by norm_num [abs_div]
  have room : (2 : Nat) + 2 - (x.order - y.order) < wordSize := by decide +kernel
  obtain ⟨q, order, n, result, low, high, value, small, -, iff⟩ :=
    x.divideSignificant_nearest_iff y 2 (by decide) (by decide) (by decide) room
  rw [quotient, magnitude] at low high
  have tenth : order = -1 := by
    have below : (10 : Rat) ^ order < 10 ^ (0 : Int) := low.trans_lt (by norm_num)
    have above : (10 : Rat) ^ (-1 : Int) < 10 ^ (order + 1) := lt_trans (by norm_num) high
    have := (zpow_lt_zpow_iff_right₀ ten).1 below
    have := (zpow_lt_zpow_iff_right₀ ten).1 above
    omega
  have place : order - (2 : Nat) + 1 = -2 := by omega
  rw [place] at value small iff
  have same : q = ⟨-13, 2⟩ := Option.some.inj (result.symm.trans computed)
  have rounded : n = -13 := by
    rw [same, toRat_eq_div] at value
    have scaled : (n : Rat) = -13 := by
      norm_num at value
      linarith
    exact_mod_cast scaled
  rw [rounded] at iff
  refine ⟨by decide, by decide, by decide, room, computed, iff.2 ?_⟩
  have half : |x.toRat / y.toRat / 10 ^ (-2 : Int)| = 25 / 2 := by
    rw [quotient, abs_div, magnitude]
    norm_num
  rintro m ⟨early, tie⟩
  rw [half] at early tie
  have above : (12 : Rat) < m := by linarith
  have below : (m : Rat) < 13 := by linarith
  norm_cast at above below
  omega

/-- At thirty digits 1 / 107 ends in 121 followed by 4953..., and the place rounded at first carries
it to 122, so a negative power of 107 is one off. Where a word does not count the places, an eighth
is cut to a tenth. -/
theorem divideSignificant_not_nearest :
    let r := one.toRat / toRat ⟨107, 0⟩
    let unit : Rat := 10 ^ (-3 - 30 + 1 : Int)
    let q : Decimal := ⟨934579439252336448598130841122, 32⟩
    one.divideSignificant? ⟨107, 0⟩ 30 = some q ∧ power ⟨107, 0⟩ ⟨-1, 0⟩ = .ok q ∧
      10 ^ (-3 : Int) ≤ |r| ∧ |r| < 10 ^ (-3 + 1 : Int) ∧
      Nearest 934579439252336448598130841121 (r / unit) ∧
      (∀ n : Int, q.toRat = n * unit → ¬Nearest n (r / unit)) ∧
      one.divideSignificant? ⟨8, 0⟩ 4294967295 = some ⟨1, 1⟩ := by
  intro r unit q
  have quotient : r = 1 / 107 := by
    change one.toRat / toRat ⟨107, 0⟩ = 1 / 107
    rw [toRat_eq_div, toRat_eq_div]
    norm_num [one]
  have magnitude : |r| = 1 / 107 := by
    rw [quotient]
    norm_num [abs_div]
  have nearest : Nearest 934579439252336448598130841121 (r / unit) := by
    rw [quotient, nearest_iff_of_nonneg (by positivity)]
    norm_num [unit]
  rw [magnitude]
  have eighth : one.divideSignificant? ⟨8, 0⟩ 4294967295 = some ⟨1, 1⟩ := by decide +kernel
  refine ⟨by decide +kernel, by decide +kernel, by norm_num, by norm_num, nearest, ?_, eighth⟩
  intro n value other
  rw [← nearest.unique other, toRat_eq_div] at value
  norm_num [q, unit] at value

end Reckoner.Decimal
