import Mathlib.Data.Rat.Cast.Order
import Mathlib.Data.Real.Basic
import Mathlib.Tactic.NormNum
import Reckoner.Numeric.Binary
import Reckoner.Proofs.Numeric.Rounding

namespace Reckoner.Numeric

/-- A power of two as the quotient of a power that is written and one that is divided by. -/
theorem two_zpow_eq (e : Int) : (2 : Rat) ^ e = pow2 e.toNat / pow2 (-e).toNat := by
  have split : e = (e.toNat : Int) - (-e).toNat := by omega
  have power (n : Nat) : ((pow2 n : Nat) : Rat) = 2 ^ n := by simp [pow2]
  rw [power, power, ← zpow_natCast, ← zpow_natCast, ← zpow_sub₀ two_ne_zero, ← split]

theorem two_zpow_binaryOrder_le (n d : Nat) (hn : 0 < n) (hd : 0 < d) :
    (2 : Rat) ^ binaryOrder n d ≤ n / d := by
  let e : Int := (n.log2 : Int) - d.log2
  have pos : (0 : Rat) < d := Nat.cast_pos.2 hd
  change (2 : Rat) ^ (if d * pow2 e.toNat ≤ n * pow2 (-e).toNat then e else e - 1) ≤ n / d
  split
  · rename_i fits
    have below : (0 : Rat) < pow2 (-e).toNat := Nat.cast_pos.2 (pow2_pos _)
    rw [two_zpow_eq, div_le_div_iff₀ below pos, mul_comm]
    exact_mod_cast fits
  · have low : (2 : Rat) ^ n.log2 ≤ n := by
      exact_mod_cast Nat.log2_self_le (Nat.ne_of_gt hn)
    have high : (d : Rat) ≤ 2 ^ (d.log2 + 1) := by
      exact_mod_cast Nat.lt_log2_self.le
    have split : e - 1 = (n.log2 : Int) - ((d.log2 + 1 : Nat) : Int) := by omega
    rw [split, zpow_sub₀ two_ne_zero, zpow_natCast, zpow_natCast]
    gcongr

/-- A fraction as its sign and its magnitude. -/
theorem sign_mul_magnitude (r : Rat) : r = r.num.sign * ((r.num.natAbs : Rat) / r.den) := by
  obtain ⟨n, hn⟩ : ∃ n, n = r.num.natAbs := ⟨_, rfl⟩
  have whole : r.num.sign * (n : Int) = r.num := hn ▸ Int.sign_mul_natAbs r.num
  have parts : (r.num.sign : Rat) * n = r.num := by exact_mod_cast whole
  rw [← hn, ← mul_div_assoc, parts, Rat.num_div_den]

theorem abs_sign_le_one (n : Int) : |(n.sign : Rat)| ≤ 1 := by
  rcases Int.sign_trichotomy n with h | h | h <;> simp [h]

/-- The nearest integer of either sign, a half going to the even neighbour. -/
theorem abs_sign_mul_halfEven_sub_le (r : Rat) :
    |((r.num.sign * halfEven r.num.natAbs r.den : Int) : Rat) - r| ≤ 1 / 2 := by
  have half := abs_div_sub_halfEven_le (K := Rat) r.num.natAbs r.den r.den_pos
  have difference : ((r.num.sign * halfEven r.num.natAbs r.den : Int) : Rat) - r =
      -(r.num.sign * ((r.num.natAbs : Rat) / r.den - halfEven r.num.natAbs r.den)) := by
    nth_rewrite 4 [sign_mul_magnitude r]
    rw [Int.cast_mul, Int.cast_natCast]
    ring
  rw [difference, abs_neg, abs_mul]
  calc
    _ ≤ 1 * (1 / 2 : Rat) := by
      gcongr
      exact abs_sign_le_one _
    _ = 1 / 2 := one_mul _

/-- Rounding to binary digits moves a value by at most half a unit of the last of them. -/
theorem abs_roundBinary_sub_le (bits : Nat) (r : Rat) :
    |roundBinary bits r - r| ≤ |r| / 2 ^ bits := by
  rcases eq_or_ne r 0 with rfl | hr
  · simp [roundBinary, halfEven]
  let n := r.num.natAbs
  let e := binaryOrder n r.den - bits + 1
  let q := halfEven (n * pow2 (-e).toNat) (r.den * pow2 e.toNat)
  have hn : 0 < n := Int.natAbs_pos.2 (Rat.num_ne_zero.2 hr)
  have positive (m : Nat) : (0 : Rat) < pow2 m := Nat.cast_pos.2 (pow2_pos m)
  have den : (0 : Rat) < r.den := Nat.cast_pos.2 r.den_pos
  have scale : (0 : Rat) < 2 ^ e := zpow_pos two_pos e
  have magnitude : (n : Rat) / r.den = |r| := by
    rw [← Rat.num_div_den |r|]
    simp [n, Rat.num_abs_eq_abs_num, Nat.cast_natAbs]
  have sign : r = r.num.sign * (n / r.den) := sign_mul_magnitude r
  have rounded : roundBinary bits r = r.num.sign * (q * 2 ^ e) := by
    rw [roundBinary, Rat.mkRat_eq_div, two_zpow_eq]
    push_cast
    ring
  have near : |(n : Rat) / r.den / 2 ^ e - q| ≤ 1 / 2 := by
    have half := abs_div_sub_halfEven_le (K := Rat) (n * pow2 (-e).toNat) (r.den * pow2 e.toNat)
      (Nat.mul_pos r.den_pos (pow2_pos _))
    have same : (n : Rat) / r.den / 2 ^ e =
        ((n * pow2 (-e).toNat : Nat) : Rat) / (r.den * pow2 e.toNat : Nat) := by
      rw [two_zpow_eq]
      push_cast
      field_simp [(positive _).ne']
    rw [same]
    exact half
  have unit : (2 : Rat) ^ e * 2 ^ bits ≤ 2 * |r| := by
    have exponent : (2 : Rat) ^ e * 2 ^ bits = 2 * 2 ^ binaryOrder n r.den := by
      rw [← zpow_natCast, ← zpow_add₀ two_ne_zero, ← zpow_one_add₀ two_ne_zero]
      congr 1
      omega
    rw [exponent, ← magnitude]
    gcongr
    exact two_zpow_binaryOrder_le n r.den hn r.den_pos
  have difference : roundBinary bits r - r =
      -(r.num.sign * (2 ^ e * ((n : Rat) / r.den / 2 ^ e - q))) := by
    rw [rounded, mul_sub, mul_div_cancel₀ _ scale.ne']
    nth_rewrite 2 [sign]
    ring
  have unsigned := abs_sign_le_one r.num
  rw [difference, abs_neg, abs_mul, abs_mul, abs_of_pos scale, le_div_iff₀ (by positivity)]
  calc
    |(r.num.sign : Rat)| * (2 ^ e * |(n : Rat) / r.den / 2 ^ e - q|) * 2 ^ bits ≤
        1 * (2 ^ e * (1 / 2)) * 2 ^ bits := by gcongr
    _ = 2 ^ e * 2 ^ bits / 2 := by ring
    _ ≤ |r| := by linarith

/-- The relative error of 53 binary digits, for a value that is only known approximately. -/
theorem toBinary64_near (r : Rat) (x error bound : ℝ) (near : |(r : ℝ) - x| ≤ error)
    (size : |x| + error ≤ bound) : |(toBinary64 r : ℝ) - x| ≤ error + bound / 10 ^ 15 := by
  have rounding : |(toBinary64 r : ℝ) - r| ≤ |(r : ℝ)| / 2 ^ 53 := by
    have cast := (Rat.cast_le (K := ℝ)).2 (abs_roundBinary_sub_le 53 r)
    push_cast at cast
    exact cast
  have magnitude : |(r : ℝ)| ≤ bound := by linarith [abs_sub_abs_le_abs_sub (r : ℝ) x]
  have digits : |(r : ℝ)| / 2 ^ 53 ≤ bound / 10 ^ 15 := by
    have power : (10 : ℝ) ^ 15 ≤ 2 ^ 53 := by norm_num
    gcongr
    exact (abs_nonneg _).trans magnitude
  calc
    |(toBinary64 r : ℝ) - x| ≤ |(toBinary64 r : ℝ) - r| + |(r : ℝ) - x| := abs_sub_le _ _ _
    _ ≤ error + bound / 10 ^ 15 := by linarith

theorem abs_toBinary64_le (r : Rat) (bound : ℝ) (h : |(r : ℝ)| ≤ bound) :
    |(toBinary64 r : ℝ)| ≤ bound + bound / 10 ^ 15 := by
  have near := toBinary64_near r 0 bound bound (by rwa [sub_zero]) (by simp)
  rwa [sub_zero] at near

end Reckoner.Numeric
