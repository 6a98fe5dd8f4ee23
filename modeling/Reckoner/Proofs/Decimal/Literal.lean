import Reckoner.Decimal.Scientific
import Reckoner.Proofs.Decimal.LiteralGrammar

namespace Reckoner

open Text

namespace Literal

theorem spellsSign_signed (negative : Bool) : SpellsSign negative (signed negative []) := by
  cases negative with
  | true => exact .minus
  | false => exact .absent

theorem signed_append (negative : Bool) (cs : List Char) :
    signed negative cs = signed negative [] ++ cs := by
  cases negative <;> rfl

theorem signed_natAbs (n : Int) :
    (if decide (n < 0) then -(n.natAbs : Int) else n.natAbs) = n := by
  simp only [decide_eq_true_eq]
  split <;> omega

theorem readInteger_integerChars (n : Int) : readInteger (Decimal.integerChars n) = some n := by
  have spelt := SpellsInteger.digits _ _ (digits n.natAbs) (spellsSign_signed (n < 0))
    (allDigits_digits _) (digits_ne_nil _)
  have value : signedValue (n < 0) (digits n.natAbs) = n := by
    rw [signedValue, digitsValue_digits, signed_natAbs]
  rw [value, ← signed_append] at spelt
  exact (readInteger_iff _ n).2 spelt

theorem readExponent_integerChars (n : Int) :
    readExponent (Decimal.integerChars n) =
      if n.natAbs ≤ maxExponent then some n else none := by
  rw [readExponent, readInteger_integerChars]
  rfl

/-- Digits with a point among them, unless none are behind it. -/
def pointed (whole fraction : List Char) : List Char :=
  if fraction = [] then whole else whole ++ '.' :: fraction

section Reading

variable (negative : Bool) (whole fraction : List Char) (hw : allDigits whole) (hne : whole ≠ [])
  (hf : allDigits fraction)

include hw hne hf

theorem spellsDigits_pointed : SpellsDigits whole fraction (pointed whole fraction) := by
  rw [pointed]
  split
  · rename_i empty
    rw [empty]
    exact .unpointed hw hne
  · exact .pointed fraction hw hf (.inl hne)

theorem pointed_chars :
    (∃ c cs, pointed whole fraction = c :: cs ∧ c.isDigit) ∧
      ∀ c ∈ pointed whole fraction, c.isDigit ∨ c = '.' := by
  refine ⟨?_, (spellsDigits_pointed whole fraction hw hne hf).chars.2⟩
  obtain ⟨c, cs, rfl⟩ := List.exists_cons_of_ne_nil hne
  have first := ((allDigits_cons c cs).1 hw).1
  rw [pointed]
  split
  · exact ⟨c, cs, rfl, first⟩
  · exact ⟨c, cs ++ '.' :: fraction, rfl, first⟩

theorem read_pointed :
    read (signed negative (pointed whole fraction)) = some ⟨negative, whole, fraction, 0⟩ := by
  have spelt := spellsDigits_pointed whole fraction hw hne hf
  refine read_of_spells _ _ ⟨_, _, [], ?_, spellsSign_signed negative, spelt, .absent⟩
  rw [List.append_nil, ← signed_append]

theorem read_pointed_exponent (e : Int) :
    read (signed negative (pointed whole fraction ++ 'e' :: Decimal.integerChars e)) =
      if e.natAbs ≤ maxExponent then some ⟨negative, whole, fraction, e⟩ else none := by
  have spelt := spellsDigits_pointed whole fraction hw hne hf
  have marked := splitFirst_append isMark _ (Decimal.integerChars e) 'e' spelt.unmarked rfl
  rw [signed_append, spelt.read negative _ _ _ (spellsSign_signed negative) marked,
    Option.elim_some, readExponent_integerChars]
  by_cases h : e.natAbs ≤ maxExponent <;> simp [h]

end Reading

/-- Digits may be missing on one side of the point. -/
theorem read_point (negative : Bool) (whole fraction : List Char) (hw : allDigits whole)
    (hf : allDigits fraction) (hne : whole ≠ [] ∨ fraction ≠ []) :
    read (signed negative (whole ++ '.' :: fraction)) = some ⟨negative, whole, fraction, 0⟩ := by
  refine read_of_spells _ _ ⟨_, _, [], ?_, spellsSign_signed negative,
    .pointed fraction hw hf hne, .absent⟩
  rw [List.append_nil, ← signed_append]

end Literal

end Reckoner
