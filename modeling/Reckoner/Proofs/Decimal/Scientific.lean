import Mathlib.Data.List.DropRight
import Reckoner.Decimal.Scientific
import Reckoner.Proofs.Decimal.Literal

namespace Reckoner

open Text Numeric

namespace Numeric

theorem halfEven_mul (q d : Nat) (hd : 0 < d) : halfEven (q * d) d = q := by
  have quotient : q * d / d = q := Nat.mul_div_cancel q hd
  have remainder : q * d % d = 0 := Nat.mul_mod_left q d
  have kept : ¬(d < 2 * 0 ∨ (2 * 0 = d ∧ q % 2 = 1)) := by omega
  rw [halfEven, quotient, remainder, if_neg kept]

theorem halfEven_bounds (n d : Nat) : n / d ≤ halfEven n d ∧ halfEven n d ≤ n / d + 1 := by
  rw [halfEven]
  split <;> omega

end Numeric

namespace Decimal

theorem dropTrailingZeros_append_zeros (cs : List Char) (k : Nat) :
    dropTrailingZeros (cs ++ List.replicate k '0') = dropTrailingZeros cs := by
  have zeros : ∀ c ∈ List.replicate k '0', (c == '0') = true := by
    intro c hc
    rw [List.eq_of_mem_replicate hc]
    rfl
  rw [dropTrailingZeros, List.reverse_append, List.reverse_replicate,
    List.dropWhile_append_of_pos zeros]
  rfl

theorem dropTrailingZeros_idem (cs : List Char) :
    dropTrailingZeros (dropTrailingZeros cs) = dropTrailingZeros cs :=
  List.rdropWhile_idempotent _ cs

theorem dropTrailingZeros_prefix (cs : List Char) : dropTrailingZeros cs <+: cs :=
  List.rdropWhile_prefix (· == '0') cs

/-- A number with many digits has as many as are shown after rounding, and one more where all of
them carry. -/
theorem halfEven_leading (m : Nat) (hm : 0 < m) (h : scientificDigits < Text.digitCount m) :
    pow10 (scientificDigits - 1) ≤ halfEven m (pow10 (Text.digitCount m - scientificDigits)) ∧
      halfEven m (pow10 (Text.digitCount m - scientificDigits)) ≤ pow10 scientificDigits := by
  let j := Text.digitCount m - scientificDigits
  have count : Text.digitCount m = j + scientificDigits := by omega
  have low : pow10 (scientificDigits - 1) * pow10 j ≤ m := by
    have first := pow10_digitCount_le hm
    have split : Text.digitCount m - 1 = scientificDigits - 1 + j := by
      rw [count, scientificDigits]
      omega
    rwa [split, pow10_add] at first
  have high : m < pow10 j * pow10 scientificDigits := by
    have last := lt_pow10_digitCount m
    rwa [count, pow10_add] at last
  have least : pow10 (scientificDigits - 1) ≤ m / pow10 j :=
    (Nat.le_div_iff_mul_le (pow10_pos j)).2 low
  have below : m / pow10 j < pow10 scientificDigits := Nat.div_lt_of_lt_mul high
  -- Rounding adds at most one, so it reaches one digit more only where every digit carries.
  have rounded := halfEven_bounds m (pow10 j)
  change pow10 (scientificDigits - 1) ≤ halfEven m (pow10 j) ∧
    halfEven m (pow10 j) ≤ pow10 scientificDigits
  omega

/-- The leading digits are few enough, and none of them stands behind the last digit of the number
itself. -/
theorem leadingDigits_bounds (x : Decimal) (hx : x.mantissa ≠ 0) :
    0 < x.leadingDigits.1 ∧ Text.digitCount x.leadingDigits.1 ≤ scientificDigits ∧
      (Text.digitCount x.leadingDigits.1 : Int) ≤ x.scale + x.leadingDigits.2 + 1 := by
  have pos : 0 < x.mantissa.natAbs := Int.natAbs_pos.2 hx
  by_cases short : x.digitCount ≤ scientificDigits
  · rw [leadingDigits, if_pos short]
    refine ⟨pos, short, ?_⟩
    change (x.digitCount : Int) ≤ x.scale + (x.digitCount - 1 - x.scale) + 1
    omega
  · have rounded := halfEven_leading _ pos (Nat.lt_of_not_le short)
    let j := x.digitCount - scientificDigits
    change _ ≤ halfEven _ (pow10 j) ∧ halfEven _ (pow10 j) ≤ _ at rounded
    rw [leadingDigits, if_neg short]
    by_cases carry : halfEven x.mantissa.natAbs (pow10 j) = pow10 scientificDigits
    · have digits : Text.digitCount (pow10 (scientificDigits - 1)) = scientificDigits := by decide
      rw [if_pos carry]
      refine ⟨pow10_pos _, Nat.le_of_eq digits, ?_⟩
      simp only [digits]
      omega
    · have fits : Text.digitCount (halfEven x.mantissa.natAbs (pow10 j)) ≤ scientificDigits :=
        (digitCount_le_iff (by decide)).2 (Nat.lt_of_le_of_ne rounded.2 carry)
      rw [if_neg carry]
      refine ⟨Nat.lt_of_lt_of_le (pow10_pos _) rounded.1, fits, ?_⟩
      change (Text.digitCount (halfEven x.mantissa.natAbs (pow10 j)) : Int) ≤ _
      omega

theorem leadingDigits_of_short (x : Decimal) (v k : Nat) (hv : 0 < v)
    (hshort : Text.digitCount v ≤ scientificDigits) (hx : x.mantissa.natAbs = v * pow10 k) :
    ∃ i, x.leadingDigits = (v * pow10 i, (Text.digitCount v : Int) + k - 1 - x.scale) := by
  have count : x.digitCount = Text.digitCount v + k := by
    rw [digitCount, Text.digitCount, hx, digits_mul_pow10 v k hv, List.length_append,
      List.length_replicate, Text.digitCount]
  by_cases few : x.digitCount ≤ scientificDigits
  · refine ⟨k, ?_⟩
    rw [leadingDigits, if_pos few, hx, count, Int.natCast_add]
  · -- What rounding cuts off are zeros behind the digits of v, so nothing is lost.
    let j := x.digitCount - scientificDigits
    have inside : k = k - j + j := by omega
    have shifted : x.mantissa.natAbs = v * pow10 (k - j) * pow10 j := by
      rw [hx, Nat.mul_assoc, ← pow10_add, ← inside]
    have exact : halfEven x.mantissa.natAbs (pow10 j) = v * pow10 (k - j) := by
      rw [shifted, halfEven_mul _ _ (pow10_pos j)]
    have eight : Text.digitCount (v * pow10 (k - j)) = scientificDigits := by
      rw [Text.digitCount, digits_mul_pow10 v _ hv, List.length_append, List.length_replicate,
        ← Text.digitCount]
      omega
    have below := lt_pow10_digitCount (v * pow10 (k - j))
    rw [eight] at below
    have uncarried : ¬v * pow10 (k - j) = pow10 scientificDigits := Nat.ne_of_lt below
    refine ⟨k - j, ?_⟩
    rw [leadingDigits, if_neg few]
    change (if halfEven x.mantissa.natAbs (pow10 j) = _ then _ else
      (halfEven x.mantissa.natAbs (pow10 j), _)) = _
    rw [exact, if_neg uncarried, count, Int.natCast_add]

end Decimal

namespace Literal

/-- A literal as scientific notation writes it: one digit other than zero before the point, and few
behind it, the last of them no zero. -/
structure Normal (l : Literal) : Prop where
  first : ∃ d, l.whole = [d] ∧ d ≠ '0'
  digits : allDigits (l.whole ++ l.fraction)
  last : Decimal.dropTrailingZeros l.fraction = l.fraction
  short : l.fraction.length < Decimal.scientificDigits

def chars (l : Literal) : List Char :=
  signed l.negative (pointed l.whole l.fraction ++ 'e' :: Decimal.integerChars l.exponent)

theorem mark_mem_chars (l : Literal) : 'e' ∈ l.chars := by
  have tail : 'e' ∈ pointed l.whole l.fraction ++ 'e' :: Decimal.integerChars l.exponent :=
    List.mem_append_right _ List.mem_cons_self
  rw [chars, signed]
  split
  · exact List.mem_cons_of_mem _ tail
  · exact tail

theorem toDecimal_scale (l : Literal) :
    l.toDecimal.scale = (l.fraction.length - l.exponent).toNat := rfl

theorem natAbs_toDecimal (l : Literal) :
    l.toDecimal.mantissa.natAbs =
      digitsValue (l.whole ++ l.fraction) * pow10 (-(l.fraction.length - l.exponent)).toNat := by
  rw [toDecimal]
  simp only [Int.natAbs_mul, Int.natAbs_natCast]
  cases l.negative with
  | true => rw [if_pos rfl, Int.natAbs_neg, Int.natAbs_natCast]
  | false => rw [if_neg Bool.false_ne_true, Int.natAbs_natCast]

namespace Normal

variable {l : Literal} (h : l.Normal)

include h

theorem whole_ne_nil : l.whole ≠ [] := by
  obtain ⟨d, hd, -⟩ := h.first
  rw [hd]
  exact List.cons_ne_nil d []

theorem read_chars :
    read l.chars = if l.exponent.natAbs ≤ maxExponent then some l else none := by
  have all := (allDigits_append _ _).1 h.digits
  exact read_pointed_exponent l.negative l.whole l.fraction all.1 h.whole_ne_nil all.2 l.exponent

theorem mem_chars (c : Char) (hc : c ∈ l.chars) :
    c = '-' ∨ c.isDigit ∨ c = '.' ∨ c = 'e' := by
  have all := (allDigits_append _ _).1 h.digits
  rcases mem_signed _ _ c hc with hc | hc
  · exact .inl hc
  · rcases List.mem_append.1 hc with hc | hc
    · rcases (pointed_chars _ _ all.1 h.whole_ne_nil all.2).2 c hc with hc | hc
      · exact .inr (.inl hc)
      · exact .inr (.inr (.inl hc))
    · rcases List.mem_cons.1 hc with hc | hc
      · exact .inr (.inr (.inr hc))
      · rcases mem_signed _ _ c hc with hc | hc
        · exact .inl hc
        · exact .inr (.inl (List.all_eq_true.1 (allDigits_digits _) c hc))

theorem digits_value :
    Text.digits (digitsValue (l.whole ++ l.fraction)) = l.whole ++ l.fraction := by
  obtain ⟨d, hd, hne⟩ := h.first
  have all := h.digits
  rw [hd, List.singleton_append] at all ⊢
  exact digits_digitsValue d l.fraction hne all

theorem value_pos : 0 < digitsValue (l.whole ++ l.fraction) := by
  apply Nat.pos_of_ne_zero
  intro zero
  obtain ⟨d, hd, hne⟩ := h.first
  have text := h.digits_value
  rw [zero, hd, List.singleton_append] at text
  obtain ⟨first, -⟩ := List.cons.inj (show '0' :: [] = d :: l.fraction from text)
  exact hne first.symm

theorem digitCount_value :
    digitCount (digitsValue (l.whole ++ l.fraction)) = l.fraction.length + 1 := by
  obtain ⟨d, hd, -⟩ := h.first
  rw [Text.digitCount, h.digits_value, hd, List.length_append, List.length_singleton, Nat.add_comm]

theorem mantissa_ne_zero : l.toDecimal.mantissa ≠ 0 := by
  have pos := Nat.mul_pos h.value_pos (pow10_pos (-(l.fraction.length - l.exponent)).toNat)
  rw [← l.natAbs_toDecimal] at pos
  exact Int.natAbs_pos.1 pos

theorem isNegative_toDecimal : l.toDecimal.isNegative = l.negative := by
  have pos := h.value_pos
  have power := pow10_pos (-(l.fraction.length - l.exponent)).toNat
  rw [Decimal.isNegative, toDecimal]
  cases l.negative with
  | true =>
    have below : -(digitsValue (l.whole ++ l.fraction) : Int) < 0 := by omega
    have product := Int.mul_neg_of_neg_of_pos below (Int.natCast_pos.2 power)
    simpa only [if_true, decide_eq_true_eq] using product
  | false =>
    have product := Int.mul_nonneg (Int.natCast_nonneg (digitsValue (l.whole ++ l.fraction)))
      (Int.natCast_nonneg (pow10 (-(l.fraction.length - l.exponent)).toNat))
    simpa only [Bool.false_eq_true, if_false, decide_eq_false_iff_not, Int.not_lt] using product

end Normal

end Literal

namespace Decimal

open Literal

/-- What the scientific text of a number other than zero writes. -/
def scientificLiteral (x : Decimal) : Literal :=
  let (n, exponent) := x.leadingDigits
  ⟨x.isNegative, (digits n).take 1, dropTrailingZeros ((digits n).drop 1), exponent⟩

theorem scientificChars_eq (x : Decimal) (hx : x.mantissa ≠ 0) :
    x.scientificChars = x.scientificLiteral.chars := by
  have nonzero : ¬x.isZero := by rwa [isZero, beq_iff_eq]
  rw [scientificChars, if_neg nonzero]
  rfl

theorem scientificLiteral_normal (x : Decimal) (hx : x.mantissa ≠ 0) :
    x.scientificLiteral.Normal ∧
      (x.scientificLiteral.fraction.length : Int) ≤ x.scale + x.scientificLiteral.exponent := by
  obtain ⟨pos, few, inside⟩ := x.leadingDigits_bounds hx
  obtain ⟨d, cs, hcs, hd, all⟩ := exists_digits_cons _ pos
  have front := dropTrailingZeros_prefix cs
  have length : (dropTrailingZeros cs).length ≤ cs.length := front.length_le
  have count : Text.digitCount x.leadingDigits.1 = cs.length + 1 := by
    rw [Text.digitCount, hcs, List.length_cons]
  have literal : x.scientificLiteral =
      ⟨x.isNegative, [d], dropTrailingZeros cs, x.leadingDigits.2⟩ := by
    rw [scientificLiteral]
    simp only [hcs, List.take_succ_cons, List.take_zero, List.drop_succ_cons, List.drop_zero]
  rw [count] at few inside
  rw [literal]
  constructor
  · refine ⟨⟨d, rfl, hd⟩, ?_, dropTrailingZeros_idem cs, ?_⟩
    · rw [List.singleton_append, allDigits_cons]
      obtain ⟨first, rest⟩ := (allDigits_cons d cs).1 all
      refine ⟨first, List.all_eq_true.2 fun c hc => ?_⟩
      exact List.all_eq_true.1 rest c (front.subset hc)
    · exact Nat.lt_of_lt_of_le (Nat.lt_succ_of_le length) few
  · change ((dropTrailingZeros cs).length : Int) ≤ x.scale + x.leadingDigits.2
    omega

/-- What scientific notation wrote once, it writes again. -/
theorem scientificLiteral_toDecimal (l : Literal) (h : l.Normal) :
    l.toDecimal.scientificLiteral = l := by
  have count := h.digitCount_value
  have short : Text.digitCount (digitsValue (l.whole ++ l.fraction)) ≤ scientificDigits := by
    rw [count]
    exact h.short
  obtain ⟨i, leading⟩ :=
    l.toDecimal.leadingDigits_of_short _ _ h.value_pos short l.natAbs_toDecimal
  have exponent : (Text.digitCount (digitsValue (l.whole ++ l.fraction)) : Int) +
      (-(l.fraction.length - l.exponent)).toNat - 1 - l.toDecimal.scale = l.exponent := by
    rw [count, toDecimal_scale]
    omega
  rw [exponent] at leading
  obtain ⟨d, hd, -⟩ := h.first
  have text : digits (digitsValue (l.whole ++ l.fraction) * pow10 i) =
      d :: (l.fraction ++ List.replicate i '0') := by
    rw [digits_mul_pow10 _ _ h.value_pos, h.digits_value, hd]
    rfl
  rw [scientificLiteral]
  simp only [leading, text, h.isNegative_toDecimal, List.take_succ_cons, List.take_zero,
    List.drop_succ_cons, List.drop_zero, dropTrailingZeros_append_zeros, h.last, ← hd]

end Decimal

end Reckoner
