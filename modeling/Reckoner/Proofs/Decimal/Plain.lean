import Reckoner.Decimal.Plain
import Reckoner.Proofs.Decimal.Literal

namespace Reckoner.Decimal

open Text Numeric Literal

theorem plainChars_eq (x : Decimal) :
    ∃ whole fraction, x.plainChars = signed x.isNegative (pointed whole fraction) ∧
      whole ≠ [] ∧ allDigits whole ∧ allDigits fraction ∧ fraction.length = x.scale ∧
      digitsValue (whole ++ fraction) = x.mantissa.natAbs := by
  let cs := padDigits (x.scale + 1) (digits x.mantissa.natAbs)
  have long : x.scale < cs.length := by
    simp only [cs, padDigits, List.length_append, List.length_replicate]
    omega
  -- The point only cuts the padded digits in two, so what holds of all of them holds of both.
  have split := List.take_append_drop (cs.length - x.scale) cs
  have all : allDigits cs := by
    refine (allDigits_append _ _).2 ⟨?_, allDigits_digits _⟩
    exact List.all_eq_true.2 fun c hc => by rw [List.eq_of_mem_replicate hc]; rfl
  have value : digitsValue cs = x.mantissa.natAbs := by
    simp only [cs, padDigits, digitsValue_zeros, digitsValue_digits]
  have behind : (cs.drop (cs.length - x.scale)).length = x.scale := by
    rw [List.length_drop]
    omega
  rw [← split, allDigits_append] at all
  refine ⟨cs.take (cs.length - x.scale), cs.drop (cs.length - x.scale), ?_, ?_, all.1, all.2,
    behind, by rw [split, value]⟩
  · have none : cs.drop (cs.length - x.scale) = [] ↔ x.scale = 0 := by
      rw [← List.length_eq_zero_iff, behind]
    rw [plainChars, pointed]
    simp only [none]
    rfl
  · intro h
    have empty := congrArg List.length h
    rw [List.length_take, List.length_nil] at empty
    omega

theorem plainChars_natural (n : Nat) : plainChars ⟨n, 0⟩ = digits n := by
  have one : 0 + 1 - (digits n).length = 0 := by
    have pos := digitCount_pos n
    rw [Text.digitCount] at pos
    omega
  have sign : isNegative ⟨n, 0⟩ = false := decide_eq_false (Int.not_lt.2 (Int.natCast_nonneg n))
  rw [plainChars, sign, signed, if_neg Bool.false_ne_true, if_pos rfl, Int.natAbs_natCast,
    padDigits, one, List.replicate_zero, List.nil_append, Nat.sub_zero, List.take_length]

theorem mem_plainChars (x : Decimal) (c : Char) (h : c ∈ x.plainChars) :
    c = '-' ∨ c.isDigit ∨ c = '.' := by
  obtain ⟨whole, fraction, htext, hne, hw, hf, -, -⟩ := x.plainChars_eq
  rw [htext] at h
  rcases mem_signed _ _ c h with h | h
  · exact .inl h
  · exact .inr ((pointed_chars whole fraction hw hne hf).2 c h)

theorem isBlank_of_mem_plainChars (x : Decimal) (c : Char) (hc : c ∈ x.plainChars) :
    isBlank c = false := by
  rcases x.mem_plainChars c hc with rfl | h | rfl
  · rfl
  · exact isBlank_of_isDigit c h
  · rfl

theorem isWord_plainChars (x : Decimal) : IsWord x.plainChars := by
  refine ⟨?_, x.isBlank_of_mem_plainChars⟩
  obtain ⟨whole, fraction, htext, hne, hw, hf, -, -⟩ := x.plainChars_eq
  obtain ⟨c, cs, hbody, -⟩ := (pointed_chars whole fraction hw hne hf).1
  rw [htext, hbody]
  cases x.isNegative <;> simp [signed]

/-- A positional text reads back as the pair that it writes. -/
theorem ofChars_plainChars (x : Decimal) : ofChars? x.plainChars = some x := by
  obtain ⟨whole, fraction, htext, hne, hw, hf, hscale, hvalue⟩ := x.plainChars_eq
  have sign : (if x.isNegative then -(x.mantissa.natAbs : Int) else x.mantissa.natAbs) =
      x.mantissa := signed_natAbs x.mantissa
  have places : (x.scale : Int) - 0 = x.scale := Int.sub_zero _
  have none : (-(x.scale : Int)).toNat = 0 := by omega
  rw [ofChars?, htext, read_pointed _ whole fraction hw hne hf, Option.map_some, toDecimal]
  simp only [hvalue, hscale, sign, places, none, Int.toNat_natCast, pow10_zero, Int.natCast_one,
    Int.mul_one]

theorem toList_plain (x : Decimal) : x.plain.toList = x.plainChars := String.toList_ofList

/-- The plain text of a pair is a literal of that very pair, with all its zeros. -/
theorem ofLiteral_plain (m : Int) (scale : Nat) :
    ofLiteral? (plain ⟨m, scale⟩) = some ⟨m, scale⟩ := by
  rw [ofLiteral?, toList_plain, ofChars_plainChars]

end Reckoner.Decimal
