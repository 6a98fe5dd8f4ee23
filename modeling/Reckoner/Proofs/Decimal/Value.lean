import Reckoner.Decimal.Rounding
import Reckoner.Fault
import Reckoner.Proofs.Text.Digits

namespace Reckoner.Decimal

open Numeric Text

/-- Without trailing zeros behind the point. -/
def Normal (x : Decimal) : Prop :=
  x.scale = 0 ∨ ¬(10 : Int) ∣ x.mantissa

theorem dropZeros_normal (m : Int) (scale : Nat) : (dropZeros m scale).Normal := by
  induction scale generalizing m with
  | zero => exact .inl rfl
  | succ scale ih =>
    rw [dropZeros]
    split
    · exact ih (m / 10)
    · rename_i rest
      exact .inr fun divides => rest (Int.emod_eq_zero_of_dvd divides)

theorem normalize_normal (x : Decimal) : x.normalize.Normal := by
  rw [normalize]
  split
  · exact .inl rfl
  · exact dropZeros_normal x.mantissa x.scale

theorem normalize_of_normal (x : Decimal) (h : x.Normal) : x.normalize = x := by
  obtain ⟨m, scale⟩ := x
  by_cases zero : m = 0
  · -- Zero is divisible by ten, so only its scale can make it normal.
    subst zero
    rcases h with rfl | h
    · rfl
    · exact absurd (Int.dvd_zero 10) h
  · rw [normalize, if_neg zero]
    cases scale with
    | zero => rfl
    | succ scale =>
      have last : ¬m % 10 = 0 := by
        rcases h with h | h
        · contradiction
        · exact fun divides => h (Int.dvd_of_emod_eq_zero divides)
      exact if_neg last

/-- The same value with more zeros behind the point. -/
def pad (x : Decimal) (k : Nat) : Decimal :=
  ⟨x.mantissa * pow10 k, x.scale + k⟩

@[simp] theorem pad_mantissa (x : Decimal) (k : Nat) :
    (x.pad k).mantissa = x.mantissa * pow10 k := rfl

@[simp] theorem pad_scale (x : Decimal) (k : Nat) : (x.pad k).scale = x.scale + k := rfl

theorem natAbs_pad (x : Decimal) (k : Nat) :
    (x.pad k).mantissa.natAbs = x.mantissa.natAbs * pow10 k := by
  rw [pad_mantissa, Int.natAbs_mul, Int.natAbs_natCast]

theorem pow10_cast_pos (k : Nat) : (0 : Int) < pow10 k :=
  Int.natCast_pos.2 (pow10_pos k)

theorem pow10_cast_add (m n : Nat) : (pow10 (m + n) : Int) = pow10 m * pow10 n := by
  rw [pow10_add, Int.natCast_mul]

theorem sameValue_symm {x y : Decimal} (h : x.sameValue y) : y.sameValue x := by
  rw [sameValue_iff] at h ⊢
  rw [Nat.max_comm]
  exact h.symm

theorem pad_of_scale_le {x y : Decimal} (h : x.sameValue y) (hs : x.scale ≤ y.scale) :
    y = x.pad (y.scale - x.scale) := by
  rw [sameValue_iff, Nat.max_eq_right hs, mantissaAt_self] at h
  ext
  · exact h.symm
  · simp only [pad_scale]
    omega

/-- Two numbers of one value are one number with more zeros behind the point. -/
theorem exists_pad {x y : Decimal} (h : x.sameValue y) : ∃ (z : Decimal) (i j : Nat),
    x = z.pad i ∧ y = z.pad j := by
  have same (z : Decimal) : z = z.pad 0 := by simp [pad]
  rcases Nat.le_total x.scale y.scale with hs | hs
  · exact ⟨x, 0, _, same x, pad_of_scale_le h hs⟩
  · exact ⟨y, _, 0, pad_of_scale_le (sameValue_symm h) hs, same y⟩

theorem eq_of_pad {α : Type} {x y : Decimal} (h : x.sameValue y) (f : Decimal → α)
    (hf : ∀ x k, f (x.pad k) = f x) : f x = f y := by
  obtain ⟨z, i, j, rfl, rfl⟩ := exists_pad h
  rw [hf, hf]

theorem mul_pow10_eq_zero (m : Int) (k : Nat) : m * pow10 k = 0 ↔ m = 0 := by
  have pos := pow10_cast_pos k
  rw [Int.mul_eq_zero]
  omega

theorem isZero_pad (x : Decimal) (k : Nat) : (x.pad k).isZero = x.isZero := by
  rw [Bool.eq_iff_iff, isZero, isZero, beq_iff_eq, beq_iff_eq, pad_mantissa, mul_pow10_eq_zero]

theorem isNegative_pad (x : Decimal) (k : Nat) : (x.pad k).isNegative = x.isNegative := by
  have pos := pow10_cast_pos k
  rw [isNegative, isNegative, pad_mantissa, decide_eq_decide]
  constructor
  · intro h
    exact Int.neg_of_mul_neg_left h pos
  · intro h
    exact Int.mul_neg_of_neg_of_pos h pos

/-- Zero is left out where its leading digit would be asked for. -/
theorem eq_of_pad_of_ne_zero {α : Type} {x y : Decimal} (h : x.sameValue y)
    (hx : x.mantissa ≠ 0) (f : Decimal → α)
    (hf : ∀ x k, x.mantissa ≠ 0 → f (x.pad k) = f x) : f x = f y := by
  obtain ⟨z, i, j, rfl, rfl⟩ := exists_pad h
  have hz : z.mantissa ≠ 0 := fun zero => hx ((mul_pow10_eq_zero _ i).2 zero)
  rw [hf z i hz, hf z j hz]

theorem abs_pad (x : Decimal) (k : Nat) : (x.pad k).abs = x.abs.pad k := by
  ext
  · rw [abs, natAbs_pad, Int.natCast_mul]
    rfl
  · rfl

theorem natPow_pad (x : Decimal) (k n : Nat) (room : (x.pad k).scale * n < wordSize) :
    (x.pad k).natPow n = (x.natPow n).pad (k * n) := by
  ext
  · have scaled : (pow10 k : Int) ^ n = pow10 (k * n) := by
      rw [← Int.natCast_pow]
      exact congrArg Nat.cast (Nat.pow_mul 10 k n).symm
    change (x.mantissa * pow10 k) ^ n = x.mantissa ^ n * pow10 (k * n)
    rw [Int.mul_pow, scaled]
  · rw [pad_scale, Nat.add_mul] at room
    simp only [natPow, pad_scale, Nat.add_mul, toWord_of_lt room,
      toWord_of_lt (Nat.lt_of_le_of_lt (Nat.le_add_right _ _) room)]

theorem isInteger_pad (x : Decimal) (k : Nat) : (x.pad k).isInteger = x.isInteger := by
  have pos := pow10_cast_pos k
  rw [Bool.eq_iff_iff, isInteger, isInteger, beq_iff_eq, beq_iff_eq, pad_mantissa, pad_scale,
    pow10_cast_add, Int.mul_comm x.mantissa, Int.mul_comm (pow10 x.scale : Int),
    Int.mul_tmod_mul_of_pos _ _ pos, Int.mul_eq_zero]
  omega

theorem tdiv_pow10_pad (m : Int) (scale k : Nat) :
    (m * pow10 k).tdiv (pow10 (scale + k)) = m.tdiv (pow10 scale) := by
  rw [pow10_cast_add, Int.mul_tdiv_mul_of_pos_left _ _ (pow10_cast_pos k)]

theorem truncate_pad (x : Decimal) (k : Nat) : (x.pad k).truncate = x.truncate :=
  tdiv_pow10_pad x.mantissa x.scale k

/-- Digits behind the last place asked for are cut off, and zeros among them are no loss. -/
theorem toFixed_pad (x : Decimal) (k p : Nat) : (x.pad k).toFixed p = x.toFixed p := by
  rw [toFixed, toFixed, mantissaAt, mantissaAt, pad_mantissa, pad_scale]
  by_cases all : x.scale + k ≤ p
  · have split : p - x.scale = k + (p - (x.scale + k)) := by omega
    rw [if_pos all, if_pos (by omega), split, pow10_cast_add, Int.mul_assoc]
  · rw [if_neg all]
    by_cases some : x.scale ≤ p
    · have split : k = p - x.scale + (x.scale + k - p) := by omega
      have digits : (pow10 k : Int) = pow10 (p - x.scale) * pow10 (x.scale + k - p) := by
        rw [← pow10_cast_add, ← split]
      have pos := pow10_cast_pos (x.scale + k - p)
      rw [if_pos some, digits, ← Int.mul_assoc, Int.mul_tdiv_cancel _ (Int.ne_of_gt pos)]
    · have split : x.scale + k - p = x.scale - p + k := by omega
      rw [if_neg some, split, tdiv_pow10_pad]

theorem toRat_pad (x : Decimal) (k : Nat) : (x.pad k).toRat = x.toRat := by
  rw [toRat, toRat, pad_mantissa, pad_scale, pow10_add]
  exact Rat.mkRat_mul_right (Nat.ne_of_gt (pow10_pos k))

theorem compare_mul_right (a b : Int) (c : Nat) (hc : 0 < c) :
    Ord.compare (a * c) (b * c) = Ord.compare a b := by
  have pos : (0 : Int) < c := Int.natCast_pos.2 hc
  simp only [Ord.compare, compareOfLessAndEq, Int.mul_lt_mul_right pos,
    Int.mul_eq_mul_right_iff (Int.ne_of_gt pos)]

/-- Numbers compare as their mantissas do once both are at the sum of the scales. -/
theorem compare_eq (x y : Decimal) :
    x.compare y =
      Ord.compare (x.mantissa * pow10 y.scale) (y.mantissa * pow10 x.scale) := by
  let low := min x.scale y.scale
  have sum (m : Int) (s t : Nat) (hs : low + max x.scale y.scale = s + t)
      (ht : t ≤ max x.scale y.scale) (hl : low ≤ s) :
      m * pow10 (max x.scale y.scale - t) * pow10 low = m * pow10 s := by
    have split : s = max x.scale y.scale - t + low := by omega
    rw [Int.mul_assoc, ← pow10_cast_add, ← split]
  have total : low + max x.scale y.scale = x.scale + y.scale := by omega
  rw [← sum x.mantissa y.scale x.scale (by omega) (by omega) (by omega),
    ← sum y.mantissa x.scale y.scale (by omega) (by omega) (by omega),
    compare_mul_right _ _ _ (pow10_pos low)]
  rfl

theorem compare_pad (x y : Decimal) (k : Nat) : (x.pad k).compare y = x.compare y := by
  rw [compare_eq, compare_eq, pad_mantissa, pad_scale, pow10_cast_add, ← Int.mul_assoc,
    Int.mul_assoc x.mantissa, Int.mul_comm (pow10 k : Int), ← Int.mul_assoc,
    compare_mul_right _ _ _ (pow10_pos k)]

theorem sameValue_pad (x y : Decimal) (k : Nat) : (x.pad k).sameValue y = x.sameValue y := by
  rw [sameValue, sameValue, compare_pad]

theorem sameValue_trans {x y z : Decimal} (hxy : x.sameValue y) (hyz : y.sameValue z) :
    x.sameValue z := by
  obtain ⟨w, i, j, rfl, rfl⟩ := exists_pad hxy
  rw [sameValue_pad] at hyz ⊢
  exact hyz

theorem sameValue_pad_pad (x : Decimal) (i j : Nat) : (x.pad i).sameValue (x.pad j) := by
  rw [sameValue_pad]
  apply sameValue_symm
  rw [sameValue_pad]
  exact x.sameValue_refl

theorem isOne_pad (x : Decimal) (k : Nat) : (x.pad k).isOne = x.isOne :=
  x.sameValue_pad one k

section LeadingDigit

variable (x : Decimal) (k : Nat) (hx : x.mantissa ≠ 0)

include hx

theorem digitCount_pad : (x.pad k).digitCount = x.digitCount + k := by
  have pos : 0 < x.mantissa.natAbs := Int.natAbs_pos.2 hx
  rw [digitCount, natAbs_pad, Text.digitCount, digits_mul_pow10 _ k pos, List.length_append,
    List.length_replicate]
  rfl

theorem order_pad : (x.pad k).order = x.order := by
  rw [order, order, x.digitCount_pad k hx, pad_scale]
  omega

end LeadingDigit

end Reckoner.Decimal
