import Mathlib.Algebra.Order.Field.Power
import Mathlib.Tactic.LinearCombination
import Reckoner.Proofs.Decimal.Significant
import Reckoner.Proofs.Decimal.SquareRoot

namespace Reckoner

namespace Numeric

theorem lt_floorSqrt_succ_square (n : Nat) : n < (floorSqrt n + 1) * (floorSqrt n + 1) := by
  rw [floorSqrt_eq_sqrt]
  exact Nat.lt_succ_sqrt n

end Numeric

namespace Decimal

open Numeric

theorem cast_radicand (x : Decimal) (places : Nat) (h : x.scale ≤ 2 * places) :
    (x.radicand places : Rat) = |x.toRat| * 10 ^ (2 * places) := by
  have split : (10 : Rat) ^ (2 * places) = 10 ^ (2 * places - x.scale) * 10 ^ x.scale := by
    rw [← pow_add, Nat.sub_add_cancel h]
  rw [radicand, abs_toRat, split]
  push_cast
  rw [cast_pow10]
  field_simp

/-- The floored root of a number, before it is rounded to significant digits. -/
def cutRoot (x : Decimal) (k : Nat) : Decimal :=
  mk (floorSqrt (x.radicand (x.rootPlaces k))) (x.rootPlaces k)

theorem cutRoot_toRat (x : Decimal) (k : Nat) :
    (x.cutRoot k).toRat * 10 ^ x.rootPlaces k = floorSqrt (x.radicand (x.rootPlaces k)) := by
  rw [toRat_eq_div]
  exact div_mul_cancel₀ _ (by positivity)

section Root

variable (x : Decimal) (k : Nat) (hx : 0 < x.toRat)

include hx

theorem cast_radicand_rootPlaces :
    (x.radicand (x.rootPlaces k) : Rat) = x.toRat * (10 ^ x.rootPlaces k) ^ 2 := by
  rw [x.cast_radicand _ (x.le_rootPlaces k).2, abs_of_pos hx, mul_comm 2, pow_mul]

theorem cutRoot_square_le : (x.cutRoot k).toRat ^ 2 ≤ x.toRat := by
  have places : (0 : Rat) < (10 ^ x.rootPlaces k) ^ 2 := by positivity
  have floored : (floorSqrt (x.radicand (x.rootPlaces k)) : Rat) *
      floorSqrt (x.radicand (x.rootPlaces k)) ≤ x.radicand (x.rootPlaces k) := by
    exact_mod_cast floorSqrt_mul_self_le _
  rw [x.cast_radicand_rootPlaces k hx, ← x.cutRoot_toRat k, ← sq, mul_pow] at floored
  exact le_of_mul_le_mul_right floored places

/-- The order of a root is half of that of the number. -/
theorem cutRoot_bounds :
    10 ^ (x.order / 2) ≤ (x.cutRoot k).toRat ∧ (x.cutRoot k).toRat < 10 ^ (x.order / 2 + 1) := by
  have ten : (1 : Rat) ≤ 10 := by norm_num
  have nonzero : x.mantissa ≠ 0 := mantissa_ne_zero hx.ne'
  have first := x.pow_order_le nonzero
  have last := x.lt_pow_order
  rw [abs_of_pos hx] at first last
  have least : ((10 : Rat) ^ (x.order / 2)) ^ 2 ≤ x.toRat := by
    rw [← zpow_natCast, ← zpow_mul]
    exact (zpow_le_zpow_right₀ ten (by omega)).trans first
  have most : x.toRat < ((10 : Rat) ^ (x.order / 2 + 1)) ^ 2 := by
    rw [← zpow_natCast, ← zpow_mul]
    exact last.trans_le (zpow_le_zpow_right₀ ten (by omega))
  constructor
  · have places : (0 : Rat) < 10 ^ x.rootPlaces k := by positivity
    have enough := (x.le_rootPlaces k).1
    obtain ⟨m, hm⟩ := exists_natCast_zpow (K := Rat) (x.order / 2) (x.rootPlaces k) (by omega)
    have square : m * m ≤ x.radicand (x.rootPlaces k) := by
      have scaled : (m * m : Rat) ≤ x.radicand (x.rootPlaces k) := by
        rw [x.cast_radicand_rootPlaces k hx, hm, ← sq, mul_pow]
        exact mul_le_mul_of_nonneg_right least (by positivity)
      exact_mod_cast scaled
    have below : (m : Rat) ≤ floorSqrt (x.radicand (x.rootPlaces k)) := by
      exact_mod_cast (le_floorSqrt_iff m _).2 square
    rw [hm, ← x.cutRoot_toRat k] at below
    exact le_of_mul_le_mul_right below places
  · exact lt_of_pow_lt_pow_left₀ 2 (by positivity) ((x.cutRoot_square_le k hx).trans_lt most)

/-- How the floored root is rounded, in units of its last place: by at most half of the last digit
kept, which is an integer. -/
theorem exists_rounded_cutRoot (hk : 0 < k) :
    let root : Nat := floorSqrt (x.radicand (x.rootPlaces k))
    ∃ (n : Int) (half : Nat), 0 < n ∧ (x.sqrt k).toRat = n * 10 ^ (x.order / 2 - k + 1) ∧
      (2 * half : Rat) = 10 ^ (x.order / 2 - k + 1) * 10 ^ x.rootPlaces k ∧
      2 * half * n ≤ root + half ∧ root + 1 ≤ 2 * half * n + half := by
  intro root
  let unit : Rat := 10 ^ (x.order / 2 - k + 1)
  let places : Rat := 10 ^ x.rootPlaces k
  have enough := (x.le_rootPlaces k).1
  have behind : 0 < x.order / 2 - k + 1 + x.rootPlaces k := by omega
  obtain ⟨low, high⟩ := x.cutRoot_bounds k hx
  have pos : 0 < (x.cutRoot k).toRat := lt_of_lt_of_le (by positivity) low
  obtain ⟨n, half, some, hhalf, value, nearest⟩ :=
    (x.cutRoot k).exists_nearest_mantissa k (x.order / 2) hk (by rwa [abs_of_pos pos])
      (by rw [abs_of_pos pos]; exact high.le) behind
  change (2 * half : Rat) = unit * places at hhalf
  change Nearest n (((root : Int) : Rat) / (2 * half)) at nearest
  have whole : 2 * half ≤ root := by
    have digit : unit ≤ (x.cutRoot k).toRat :=
      (zpow_le_zpow_right₀ (by norm_num) (by omega)).trans low
    have scaled : (2 * half : Rat) ≤ root := by
      rw [hhalf, ← x.cutRoot_toRat k]
      exact mul_le_mul_of_nonneg_right digit (by positivity)
    exact_mod_cast scaled
  obtain ⟨sign, least, most⟩ := nearest.bounds some
  rw [Nat.abs_cast] at least most
  have positive : 0 < n := by
    have natural : 0 ≤ n := nonneg_of_mul_nonneg_left sign (by omega)
    refine lt_of_le_of_ne natural ?_
    rintro rfl
    simp only [abs_zero, mul_zero] at most
    omega
  rw [abs_of_pos positive] at least most
  have nonzero : x.mantissa ≠ 0 := mantissa_ne_zero hx.ne'
  have rounded : (x.sqrt k).toRat = n * unit := by
    rw [x.sqrt_eq_of_ne_zero k nonzero]
    exact value
  exact ⟨n, half, positive, rounded, hhalf, least, most⟩

/-- Rounding the floored root is rounding the root: no tie lies between the two. -/
theorem exists_root_bounds (hk : 0 < k) :
    let unit : Rat := 10 ^ (x.order / 2 - k + 1)
    ∃ n : Int, 0 < n ∧ (x.sqrt k).toRat = n * unit ∧ (n * unit - unit / 2) ^ 2 ≤ x.toRat ∧
      x.toRat < (n * unit + unit / 2) ^ 2 := by
  intro unit
  let places : Rat := 10 ^ x.rootPlaces k
  let root : Nat := floorSqrt (x.radicand (x.rootPlaces k))
  have square : (0 : Rat) < places ^ 2 := by positivity
  have radicand := x.cast_radicand_rootPlaces k hx
  obtain ⟨n, half, positive, rounded, hhalf, least, most⟩ := x.exists_rounded_cutRoot k hx hk
  change (2 * half : Rat) = unit * places at hhalf
  refine ⟨n, positive, rounded, ?_, ?_⟩
  · have scaled : (n * unit - unit / 2) * places = 2 * half * n - half := by
      linear_combination (1 / 2 - n : Rat) * hhalf
    have natural : (0 : Rat) ≤ 2 * half * n - half := by
      have : (half : Int) ≤ 2 * half * n := by nlinarith
      have : (half : Rat) ≤ 2 * half * n := by exact_mod_cast this
      linarith
    have below : (2 * half * n - half : Rat) ≤ root := by
      have : (2 * half * n : Rat) ≤ root + half := by exact_mod_cast least
      linarith
    refine le_of_mul_le_mul_right ?_ square
    calc
      (n * unit - unit / 2) ^ 2 * places ^ 2 = (2 * half * n - half) ^ 2 := by
        rw [← mul_pow, scaled]
      _ ≤ (root : Rat) ^ 2 := pow_le_pow_left₀ natural below 2
      _ ≤ x.radicand (x.rootPlaces k) := by
        rw [sq]
        exact_mod_cast floorSqrt_mul_self_le _
      _ = x.toRat * places ^ 2 := radicand
  · have scaled : (n * unit + unit / 2) * places = 2 * half * n + half := by
      linear_combination (-1 / 2 - n : Rat) * hhalf
    have above : (root + 1 : Rat) ≤ 2 * half * n + half := by exact_mod_cast most
    refine lt_of_mul_lt_mul_right ?_ square.le
    calc
      x.toRat * places ^ 2 = x.radicand (x.rootPlaces k) := radicand.symm
      _ < (root + 1 : Rat) ^ 2 := by
        rw [sq]
        exact_mod_cast lt_floorSqrt_succ_square _
      _ ≤ (2 * half * n + half) ^ 2 := pow_le_pow_left₀ (by positivity) above 2
      _ = (n * unit + unit / 2) ^ 2 * places ^ 2 := by rw [← mul_pow, scaled]

/-- A root with no more significant digits than are kept is found. -/
theorem sqrt_of_exact (hk : 0 < k) (m : Nat) (j : Int) (hm : m < 10 ^ k)
    (hroot : (m * 10 ^ j : Rat) ^ 2 = x.toRat) : (x.sqrt k).toRat = m * 10 ^ j := by
  let unit : Rat := 10 ^ (x.order / 2 - k + 1)
  have ten : (1 : Rat) < 10 := by norm_num
  have pos : (0 : Rat) < unit := by positivity
  have natural : (0 : Rat) ≤ m * 10 ^ j := by positivity
  obtain ⟨n, positive, rounded, low, high⟩ := x.exists_root_bounds k hx hk
  change (n * unit - unit / 2) ^ 2 ≤ x.toRat at low
  change x.toRat < (n * unit + unit / 2) ^ 2 at high
  rw [← hroot] at low high
  have one : (1 : Rat) ≤ n := by exact_mod_cast positive
  have below : n * unit - unit / 2 ≤ m * 10 ^ j :=
    le_of_pow_le_pow_left₀ two_ne_zero natural low
  have above : m * 10 ^ j < n * unit + unit / 2 := lt_of_pow_lt_pow_left₀ 2 (by positivity) high
  -- The digits of the root end in front of the last one kept.
  obtain ⟨i, multiple⟩ : ∃ i : Nat, (m * 10 ^ j : Rat) = (m * 10 ^ i : Nat) * unit := by
    have least : (10 : Rat) ^ (x.order / 2) ≤ m * 10 ^ j := by
      have cut := x.cutRoot_square_le k hx
      rw [← hroot] at cut
      exact (x.cutRoot_bounds k hx).1.trans (le_of_pow_le_pow_left₀ two_ne_zero natural cut)
    have most : (m * 10 ^ j : Rat) < 10 ^ (k + j) := by
      rw [zpow_add₀ (by norm_num), zpow_natCast]
      exact mul_lt_mul_of_pos_right (by exact_mod_cast hm) (by positivity)
    have order := (zpow_lt_zpow_iff_right₀ ten).1 (least.trans_lt most)
    refine ⟨(j - (x.order / 2 - k + 1)).toNat, ?_⟩
    rw [Nat.cast_mul, Nat.cast_pow, ← zpow_natCast, Int.toNat_of_nonneg (by omega), mul_assoc,
      Nat.cast_ofNat, ← zpow_add₀ (by norm_num), sub_add_cancel]
  have same := eq_of_near_multiples n (m * 10 ^ i : Nat) (m * 10 ^ j : Rat) unit pos
    (abs_le.2 ⟨by linarith, by linarith⟩) (by rw [multiple]; simp [pos])
  rw [rounded, same, multiple]
  rfl

end Root

/-- The square root is the true root rounded to significant digits, a half going up, and the true
root itself where that has no more digits. -/
theorem sqrt_rounded (x : Decimal) (k : Nat) (hx : 0 < x.toRat) (hk : 0 < k) :
    let unit : Rat := 10 ^ (x.order / 2 - k + 1)
    let root := (x.sqrt k).toRat
    (∃ n : Int, root = n * unit) ∧ 0 < root ∧ (root - unit / 2) ^ 2 ≤ x.toRat ∧
      x.toRat < (root + unit / 2) ^ 2 ∧
      ∀ (m : Nat) (j : Int), m < 10 ^ k → (m * 10 ^ j : Rat) ^ 2 = x.toRat → root = m * 10 ^ j := by
  intro unit root
  obtain ⟨n, positive, rounded, low, high⟩ := x.exists_root_bounds k hx hk
  change root = n * unit at rounded
  change (n * unit - unit / 2) ^ 2 ≤ x.toRat at low
  change x.toRat < (n * unit + unit / 2) ^ 2 at high
  rw [← rounded] at low high
  have pos : 0 < root := by
    rw [rounded]
    exact mul_pos (by exact_mod_cast positive) (by positivity)
  exact ⟨⟨n, rounded⟩, pos, low, high, x.sqrt_of_exact k hx hk⟩

/-- The root of 99.95 is 9.9974..., which three digits carry to the next power of ten. -/
theorem sqrt_rounded_carry :
    let x : Decimal := ⟨9995, 2⟩
    0 < x.toRat ∧ 0 < 3 ∧ x.sqrt 3 = ⟨1000, 2⟩ ∧ x.order / 2 - (3 : Nat) + 1 = -2 ∧
      ((x.sqrt 3).toRat - 10 ^ (-2 : Int) / 2) ^ 2 ≤ x.toRat ∧
      x.toRat < ((x.sqrt 3).toRat + 10 ^ (-2 : Int) / 2) ^ 2 := by
  intro x
  have positive : 0 < x.toRat := by
    rw [toRat_eq_div]
    norm_num [x]
  have place : x.order / 2 - (3 : Nat) + 1 = -2 := by decide +kernel
  obtain ⟨-, -, low, high, -⟩ := x.sqrt_rounded 3 positive (by decide)
  rw [place] at low high
  exact ⟨positive, by decide, by decide +kernel, place, low, high⟩

end Decimal

end Reckoner
