import Mathlib.Data.Int.Log
import Mathlib.Data.Rat.Floor
import Reckoner.Proofs.Decimal.Significant
import Reckoner.Proofs.Display.Readback

namespace Reckoner

open Text Numeric

namespace Numeric

/-- A factor of both parts of a quotient does not change how it is rounded. -/
theorem halfEven_mul_mul (n d c : Nat) (hc : 0 < c) : halfEven (n * c) (d * c) = halfEven n d := by
  have rest : n * c % (d * c) = n % d * c := Nat.mul_mod_mul_right c n d
  have twice : 2 * (n % d * c) = 2 * (n % d) * c := (Nat.mul_assoc 2 _ c).symm
  rw [halfEven, halfEven, Nat.mul_div_mul_right _ _ hc, rest, twice]
  simp only [Nat.mul_lt_mul_right hc, Nat.mul_right_cancel_iff hc]

/-- A number rounded to significant digits, a half going to the even neighbour. -/
def RoundedEven (digits : Nat) (x rounded : Rat) : Prop :=
  let unit : Rat := 10 ^ (Int.log 10 |x| - digits + 1)
  ∃ n : Int, rounded = n * unit ∧ NearestEven n (x / unit)

end Numeric

namespace Literal

/-- The number that a literal denotes. -/
def value (l : Literal) : Rat :=
  signedValue l.negative (l.whole ++ l.fraction) / 10 ^ l.fraction.length * 10 ^ l.exponent

/-- A literal with one digit other than zero in front of the point and at most seven behind it, the
last of them no zero, that denotes a number rounded to as many digits. -/
structure ShowsRounded (l : Literal) (x : Rat) : Prop where
  sign : l.negative = decide (x < 0)
  first : ∃ d, l.whole = [d] ∧ d.isDigit ∧ d ≠ '0'
  digits : allDigits l.fraction
  short : l.fraction.length ≤ 7
  last : l.fraction.getLast? ≠ some '0'
  rounded : RoundedEven 8 x l.value

theorem toRat_toDecimal (l : Literal) : l.toDecimal.toRat = l.value := by
  have ten : (10 : Rat) ≠ 0 := by norm_num
  rw [toDecimal_eq, value]
  split
  · rename_i within
    have scale : (10 : Rat) ^ (l.fraction.length - l.exponent).toNat =
        10 ^ l.fraction.length / 10 ^ l.exponent := by
      rw [← zpow_natCast, Int.toNat_of_nonneg (by omega), zpow_sub₀ ten, zpow_natCast]
    rw [Decimal.toRat_eq_div, scale, div_div_eq_mul_div, mul_div_right_comm]
  · rename_i beyond
    have zeros : (10 : Rat) ^ (l.exponent - l.fraction.length).toNat =
        10 ^ l.exponent / 10 ^ l.fraction.length := by
      rw [← zpow_natCast, Int.toNat_of_nonneg (by omega), zpow_sub₀ ten, zpow_natCast]
    rw [Decimal.toRat_eq_div, pow_zero, div_one, Int.cast_mul, Int.cast_natCast, cast_pow10, zeros]
    ring

end Literal

namespace Decimal

open Literal

theorem exists_trailing_zeros (cs : List Char) :
    ∃ k, cs = dropTrailingZeros cs ++ List.replicate k '0' := by
  let zeros := List.rtakeWhile (· == '0') cs
  have all : zeros = List.replicate zeros.length '0' := by
    rw [List.eq_replicate_iff]
    refine ⟨rfl, ?_⟩
    intro c hc
    have zero := List.mem_rtakeWhile_imp (p := (· == '0')) hc
    exact eq_of_beq zero
  refine ⟨zeros.length, ?_⟩
  rw [← all]
  exact List.rdropWhile_append_rtakeWhile.symm

theorem dropTrailingZeros_last (cs : List Char) : (dropTrailingZeros cs).getLast? ≠ some '0' := by
  intro last
  obtain ⟨before, hcs⟩ := List.getLast?_eq_some_iff.1 last
  have nonempty : List.rdropWhile (· == '0') cs ≠ [] := by
    change dropTrailingZeros cs ≠ []
    rw [hcs]
    exact List.append_ne_nil_of_right_ne_nil _ (List.cons_ne_nil _ _)
  have zero : (List.rdropWhile (· == '0') cs).getLast nonempty = '0' :=
    List.getLast_of_getLast?_eq_some last
  apply List.rdropWhile_last_not _ cs nonempty
  rw [zero]
  rfl

/-- The last of the digits that scientific notation shows. -/
def scientificUnit (x : Decimal) : Rat := 10 ^ (x.order - scientificDigits + 1)

theorem scientificUnit_pos (x : Decimal) : 0 < x.scientificUnit := by
  rw [scientificUnit]
  positivity

/-- In units of the last digit shown a number is its mantissa without the digits dropped, or with
zeros for those it lacks. -/
theorem abs_toRat_div_scientificUnit (x : Decimal) :
    |x.toRat| / x.scientificUnit =
      x.mantissa.natAbs * 10 ^ ((scientificDigits : Int) - x.digitCount) := by
  have ten : (10 : Rat) ≠ 0 := by norm_num
  have places : x.order - scientificDigits + 1 =
      -(x.scale : Int) - ((scientificDigits : Int) - x.digitCount) := by
    rw [order]
    omega
  rw [x.abs_toRat, scientificUnit, places, zpow_sub₀ ten, zpow_neg, zpow_natCast]
  field_simp

/-- The number that the leading digits show, with the point where the exponent puts it. -/
def leadingValue (x : Decimal) : Rat :=
  x.leadingDigits.1 * 10 ^ (x.leadingDigits.2 - Text.digitCount x.leadingDigits.1 + 1)

theorem leadingValue_of_short (x : Decimal) (short : x.digitCount ≤ scientificDigits) :
    x.leadingValue = |x.toRat| := by
  have leading : x.leadingDigits = (x.mantissa.natAbs, x.order) := by
    rw [leadingDigits, if_pos short]
    rfl
  have places : x.order - Text.digitCount x.mantissa.natAbs + 1 = -(x.scale : Int) := by
    rw [order, digitCount]
    omega
  rw [leadingValue, leading, places, x.abs_toRat, zpow_neg, zpow_natCast, div_eq_mul_inv]

theorem leadingValue_of_long (x : Decimal) (hx : x.mantissa ≠ 0)
    (long : scientificDigits < x.digitCount) :
    x.leadingValue =
      halfEven x.mantissa.natAbs (pow10 (x.digitCount - scientificDigits)) * x.scientificUnit := by
  have ten : (10 : Rat) ≠ 0 := by norm_num
  have positive : 0 < x.mantissa.natAbs := Int.natAbs_pos.2 hx
  let rounded := halfEven x.mantissa.natAbs (pow10 (x.digitCount - scientificDigits))
  change x.leadingValue = rounded * x.scientificUnit
  have leading : x.leadingDigits =
      if rounded = pow10 scientificDigits then (pow10 (scientificDigits - 1), x.order + 1)
      else (rounded, x.order) := by
    rw [leadingDigits, if_neg (Nat.not_le_of_lt long)]
    rfl
  rw [leadingValue, leading, scientificUnit]
  split
  · rename_i carry
    have count : Text.digitCount (pow10 (scientificDigits - 1)) = scientificDigits := by decide
    have next : x.order + 1 - scientificDigits + 1 = x.order - scientificDigits + 1 + 1 := by omega
    have digits : pow10 scientificDigits = pow10 (scientificDigits - 1) * 10 := rfl
    rw [carry, count, next, zpow_add_one₀ ten, digits]
    push_cast
    ring
  · rename_i uncarried
    obtain ⟨low, high⟩ := halfEven_leading _ positive long
    have count : Text.digitCount rounded = scientificDigits :=
      digitCount_eq_of_bounds rounded _ (by decide) low (Nat.lt_of_le_of_ne high uncarried)
    rw [count]

section Rounded

variable (x : Decimal) (hx : x.mantissa ≠ 0)

include hx

/-- The order is the exponent of the largest power of ten that is not above the number. -/
theorem order_eq_log : x.order = Int.log 10 |x.toRat| := by
  have positive : 0 < |x.toRat| := abs_pos.2 (x.toRat_ne_zero hx)
  have low := (Int.zpow_le_iff_le_log (b := 10) (by decide) positive).1 (x.pow_order_le hx)
  have high := (Int.lt_zpow_iff_log_lt (b := 10) (by decide) positive).1 x.lt_pow_order
  omega

/-- The leading digits show the nearest number of units of the last of them, a half going to the
even one. -/
theorem exists_nearestEven_leadingValue :
    ∃ n : Int, x.leadingValue = n * x.scientificUnit ∧
      NearestEven n (|x.toRat| / x.scientificUnit) := by
  have quotient := x.abs_toRat_div_scientificUnit
  by_cases short : x.digitCount ≤ scientificDigits
  · let zeros := scientificDigits - x.digitCount
    have places : (scientificDigits : Int) - x.digitCount = zeros := by omega
    have whole : |x.toRat| / x.scientificUnit = (x.mantissa.natAbs * 10 ^ zeros : Int) := by
      rw [quotient, places, zpow_natCast]
      push_cast
      rw [Nat.cast_natAbs, Int.cast_abs]
    refine ⟨x.mantissa.natAbs * 10 ^ zeros, ?_, ?_⟩
    · rw [x.leadingValue_of_short short, ← whole, div_mul_cancel₀ _ x.scientificUnit_pos.ne']
    · rw [whole]
      exact nearestEven_intCast _
  · have long := Nat.lt_of_not_le short
    let dropped := x.digitCount - scientificDigits
    have places : (scientificDigits : Int) - x.digitCount = -(dropped : Int) := by omega
    refine ⟨halfEven x.mantissa.natAbs (pow10 dropped), ?_, ?_⟩
    · rw [x.leadingValue_of_long hx long, Int.cast_natCast]
    · have exact : |x.toRat| / x.scientificUnit = x.mantissa.natAbs / (pow10 dropped : Nat) := by
        rw [quotient, places, zpow_neg, zpow_natCast, cast_pow10, div_eq_mul_inv]
      rw [exact]
      exact nearestEven_halfEven _ _ (pow10_pos dropped)

theorem exists_leading_digits : ∃ (d : Char) (k : Nat), x.scientificLiteral.whole = [d] ∧
    digits x.leadingDigits.1 = d :: (x.scientificLiteral.fraction ++ List.replicate k '0') := by
  obtain ⟨pos, -, -⟩ := x.leadingDigits_bounds hx
  obtain ⟨d, cs, hcs, -, -⟩ := exists_digits_cons _ pos
  obtain ⟨k, hk⟩ := exists_trailing_zeros cs
  have literal : x.scientificLiteral =
      ⟨x.isNegative, [d], dropTrailingZeros cs, x.leadingDigits.2⟩ := by
    rw [scientificLiteral]
    simp only [hcs, List.take_succ_cons, List.take_zero, List.drop_succ_cons, List.drop_zero]
  refine ⟨d, k, ?_, ?_⟩
  · rw [literal]
  · rw [literal, hcs]
    exact congrArg (d :: ·) hk

/-- Dropping the zeros at the end of the digits does not change what they show. -/
theorem value_scientificLiteral :
    x.scientificLiteral.value = if x.isNegative then -x.leadingValue else x.leadingValue := by
  obtain ⟨d, k, whole, written⟩ := x.exists_leading_digits hx
  have ten : (10 : Rat) ≠ 0 := by norm_num
  let l := x.scientificLiteral
  let shown := digitsValue (l.whole ++ l.fraction)
  have digits : x.leadingDigits.1 = shown * pow10 k := by
    have zeros := digitsValue_zeros k []
    rw [List.append_nil] at zeros
    rw [← digitsValue_digits x.leadingDigits.1, written, ← List.singleton_append, ← whole,
      ← List.append_assoc, digitsValue_append, zeros, List.length_replicate]
    rfl
  have count : Text.digitCount x.leadingDigits.1 = l.fraction.length + k + 1 := by
    rw [Text.digitCount, written, List.length_cons, List.length_append, List.length_replicate]
  have magnitude : x.leadingValue = shown / 10 ^ l.fraction.length * 10 ^ l.exponent := by
    have places : x.leadingDigits.2 - ((l.fraction.length + k + 1 : Nat) : Int) + 1 =
        l.exponent - l.fraction.length - k := by
      change l.exponent - _ + 1 = _
      omega
    rw [leadingValue, count, places, digits, zpow_sub₀ ten, zpow_sub₀ ten, zpow_natCast,
      zpow_natCast]
    push_cast
    rw [cast_pow10]
    field_simp
  have value : l.value = signedValue x.isNegative (l.whole ++ l.fraction) /
      10 ^ l.fraction.length * 10 ^ l.exponent := rfl
  rw [value, magnitude, signedValue]
  split
  · push_cast
    ring
  · rfl

/-- Scientific notation rounds to eight significant digits, a half going to the even neighbour. -/
theorem roundedEven_scientificLiteral :
    RoundedEven scientificDigits x.toRat x.scientificLiteral.value := by
  obtain ⟨n, value, nearest⟩ := x.exists_nearestEven_leadingValue hx
  have place : (10 : Rat) ^ (Int.log 10 |x.toRat| - scientificDigits + 1) = x.scientificUnit := by
    rw [← x.order_eq_log hx, scientificUnit]
  rw [RoundedEven, place, x.value_scientificLiteral hx, value]
  split
  · rename_i negative
    have below := isNegative_iff.1 negative
    refine ⟨-n, by push_cast; ring, ?_⟩
    rw [abs_of_neg below, neg_div] at nearest
    rw [← neg_neg (x.toRat / _)]
    exact nearestEven_neg nearest
  · rename_i natural
    rw [isNegative_iff, not_lt] at natural
    rw [abs_of_nonneg natural] at nearest
    exact ⟨n, rfl, nearest⟩

/-- Zeros behind the point are none of the leading digits, or zeros at the end of them. -/
theorem exists_leadingDigits_pad (k : Nat) :
    ∃ i, (x.pad k).leadingDigits = (x.leadingDigits.1 * pow10 i, x.leadingDigits.2) := by
  have positive : 0 < x.mantissa.natAbs := Int.natAbs_pos.2 hx
  by_cases short : x.digitCount ≤ scientificDigits
  · obtain ⟨i, padded⟩ := (x.pad k).leadingDigits_of_short _ k positive short (x.natAbs_pad k)
    have exponent : (Text.digitCount x.mantissa.natAbs : Int) + k - 1 - (x.pad k).scale =
        x.digitCount - 1 - x.scale := by
      rw [pad_scale, digitCount]
      omega
    refine ⟨i, ?_⟩
    rw [padded, exponent, leadingDigits, if_pos short]
  · have long : ¬(x.pad k).digitCount ≤ scientificDigits := by
      rw [x.digitCount_pad k hx]
      omega
    have dropped : x.digitCount + k - scientificDigits = x.digitCount - scientificDigits + k := by
      omega
    have exponent : ((x.digitCount + k : Nat) : Int) - 1 - ((x.scale + k : Nat) : Int) =
        x.digitCount - 1 - x.scale := by omega
    refine ⟨0, ?_⟩
    rw [pow10_zero, Nat.mul_one, leadingDigits, leadingDigits, if_neg long, if_neg short,
      x.digitCount_pad k hx, dropped, pow10_add, x.natAbs_pad,
      halfEven_mul_mul _ _ _ (pow10_pos k), pad_scale, exponent]

theorem scientific_pad (k : Nat) : (x.pad k).scientific = x.scientific := by
  obtain ⟨i, leading⟩ := x.exists_leadingDigits_pad hx k
  obtain ⟨pos, -, -⟩ := x.leadingDigits_bounds hx
  obtain ⟨d, cs, hcs, -, -⟩ := exists_digits_cons _ pos
  have zeros : digits (x.leadingDigits.1 * pow10 i) = d :: (cs ++ List.replicate i '0') := by
    rw [digits_mul_pow10 _ i pos, hcs, List.cons_append]
  rw [scientific, scientific, scientificChars, scientificChars, x.isZero_pad, x.isNegative_pad]
  simp only [leading, hcs, zeros, List.take_succ_cons, List.take_zero, List.drop_succ_cons,
    List.drop_zero, dropTrailingZeros_append_zeros]

theorem showsRounded_scientificLiteral : x.scientificLiteral.ShowsRounded x.toRat := by
  obtain ⟨normal, -⟩ := x.scientificLiteral_normal hx
  obtain ⟨d, whole, nonzero⟩ := normal.first
  obtain ⟨front, behind⟩ := (allDigits_append _ _).1 normal.digits
  rw [whole, allDigits_cons] at front
  refine ⟨?_, ⟨d, whole, front.1, nonzero⟩, behind, Nat.le_of_lt_succ normal.short,
    dropTrailingZeros_last _, x.roundedEven_scientificLiteral hx⟩
  rw [Bool.eq_iff_iff, decide_eq_true_iff]
  exact isNegative_iff

end Rounded

/-- Scientific notation is one text for each value, shows it rounded to eight significant digits,
and is read back as what it shows while literals may have its exponent. -/
theorem scientific_rounded (x : Decimal) (hx : x.mantissa ≠ 0) :
    ∃ l : Literal, l.ShowsRounded x.toRat ∧ x.scientific = String.ofList l.chars ∧
      (∀ y, x.sameValue y → y.scientific = x.scientific) ∧
      (|l.exponent| ≤ 10000 → ∃ y, readDisplayed x.scientific = .ok y ∧ y.toRat = l.value) := by
  have text : x.scientific = String.ofList x.scientificLiteral.chars :=
    congrArg String.ofList (x.scientificChars_eq hx)
  refine ⟨x.scientificLiteral, x.showsRounded_scientificLiteral hx, text, ?_, ?_⟩
  · intro y same
    exact (eq_of_pad_of_ne_zero same hx scientific fun z k hz => z.scientific_pad hz k).symm
  · intro bounded
    have inside : x.scientificLiteral.exponent.natAbs ≤ Literal.maxExponent := by
      rw [Int.abs_eq_natAbs] at bounded
      exact_mod_cast bounded
    refine ⟨x.scientificLiteral.toDecimal, ?_, toRat_toDecimal _⟩
    rw [text, readDisplayed_normal _ (x.scientificLiteral_normal hx).1, if_pos inside]

/-- A tie behind eight nines goes to the even side, carries through all of them and leaves one
digit. -/
theorem scientific_rounded_carry :
    let x : Decimal := ⟨-9999999950, 3⟩
    x.mantissa ≠ 0 ∧ x.scientific = "-1e7" ∧
      ∃ l : Literal, l.ShowsRounded x.toRat ∧ "-1e7" = String.ofList l.chars ∧
        (∀ y, x.sameValue y → y.scientific = "-1e7") ∧
        (|l.exponent| ≤ 10000 → ∃ y, readDisplayed "-1e7" = .ok y ∧ y.toRat = l.value) := by
  intro x
  have nonzero : x.mantissa ≠ 0 := by decide
  have shown : x.scientific = "-1e7" := by decide
  have general := x.scientific_rounded nonzero
  rw [shown] at general
  exact ⟨nonzero, shown, general⟩

end Decimal

end Reckoner
