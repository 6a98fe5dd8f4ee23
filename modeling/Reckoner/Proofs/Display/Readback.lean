import Reckoner.Display.Limits
import Reckoner.Proofs.Decimal.Plain
import Reckoner.Proofs.Decimal.Scientific

namespace Reckoner

open Text Numeric

theorem readDisplayed_ofList (cs : List Char) (h : ∀ c ∈ cs, isBlank c = false) :
    readDisplayed (String.ofList cs) =
      (Decimal.ofChars? cs).elim (.error (.unrecognisedWord (String.ofList cs))) .ok := by
  rw [readDisplayed, String.toList_ofList, trim_of_no_blank cs h]
  cases Decimal.ofChars? cs <;> rfl

theorem isBlank_of_written (c : Char) (h : c = '-' ∨ c.isDigit ∨ c = '.' ∨ c = 'e') :
    isBlank c = false := by
  rcases h with rfl | h | rfl | rfl
  · rfl
  · exact isBlank_of_isDigit c h
  · rfl
  · rfl

theorem readDisplayed_plain (x : Decimal) : readDisplayed x.plain = .ok x := by
  rw [Decimal.plain, readDisplayed_ofList _ x.isBlank_of_mem_plainChars, x.ofChars_plainChars,
    Option.elim_some]

theorem readDisplayed_normal (l : Literal) (h : l.Normal) :
    readDisplayed (String.ofList l.chars) =
      if l.exponent.natAbs ≤ Literal.maxExponent then .ok l.toDecimal
      else .error (.unrecognisedWord (String.ofList l.chars)) := by
  have solid : ∀ c ∈ l.chars, isBlank c = false := fun c hc =>
    isBlank_of_written c (h.mem_chars c hc)
  rw [readDisplayed_ofList _ solid, Decimal.ofChars?, h.read_chars]
  by_cases bounded : l.exponent.natAbs ≤ Literal.maxExponent
  · rw [if_pos bounded, if_pos bounded, Option.map_some, Option.elim_some]
  · rw [if_neg bounded, if_neg bounded, Option.map_none, Option.elim_none]

namespace Limits

variable (l : Limits) (x : Decimal)

/-- Whether a number is shown in scientific notation. Zero is not: its text there is its positional
one. -/
def Scientific : Prop :=
  l.fits x.plainChars = false ∧ x.scale < l.maxScale ∧ x.mantissa ≠ 0

theorem formatChars_of_fits (h : l.fits x.plainChars) : l.formatChars x = x.plainChars := by
  rw [formatChars, if_pos h]

theorem formatChars_of_not_fits (hfit : l.fits x.plainChars = false) (hs : x.scale < l.maxScale) :
    l.formatChars x = x.scientificChars := by
  rw [formatChars, hfit, if_neg Bool.false_ne_true, if_neg (Nat.not_le_of_lt hs)]

theorem format_scientific (h : l.Scientific x) :
    l.format x = String.ofList x.scientificLiteral.chars := by
  obtain ⟨hfit, hs, hx⟩ := h
  rw [format, l.formatChars_of_not_fits x hfit hs, x.scientificChars_eq hx]

theorem roundedChars_stable :
    ∃ z : Decimal, l.roundedChars x = z.plainChars ∧ l.formatChars z = z.plainChars := by
  let rounded := x.round l.maxScale
  have scale : rounded.scale = l.maxScale := by
    simp only [rounded, Decimal.round]
    split <;> rfl
  -- Rounding to the scale that a number has keeps it, so the second text is the first one.
  have again : rounded.round l.maxScale = rounded := by
    rw [Decimal.round, if_pos (Nat.le_of_eq scale), ← scale, rounded.mantissaAt_self]
  by_cases short : l.fits rounded.normalize.plainChars
  · refine ⟨rounded.normalize, ?_, l.formatChars_of_fits _ short⟩
    change (if l.fits rounded.normalize.plainChars then _ else _) = _
    rw [if_pos short]
  · refine ⟨rounded, ?_, ?_⟩
    · change (if l.fits rounded.normalize.plainChars then _ else _) = _
      rw [if_neg short]
    · rw [formatChars]
      by_cases full : l.fits rounded.plainChars
      · rw [if_pos full]
      · rw [if_neg full, if_pos (Nat.le_of_eq scale.symm), roundedChars]
        simp only [again, if_neg short]

/-- Every other text is a positional one, of a number that is shown by the same text. -/
theorem format_positional (h : ¬l.Scientific x) :
    ∃ z : Decimal, l.format x = z.plain ∧ l.format z = z.plain := by
  have lift (z : Decimal) (first : l.formatChars x = z.plainChars)
      (second : l.formatChars z = z.plainChars) : l.format x = z.plain ∧ l.format z = z.plain :=
    ⟨congrArg String.ofList first, congrArg String.ofList second⟩
  cases full : l.fits x.plainChars with
  | true =>
    have same := l.formatChars_of_fits x full
    exact ⟨x, lift x same same⟩
  | false =>
    by_cases hs : l.maxScale ≤ x.scale
    · obtain ⟨z, first, second⟩ := l.roundedChars_stable x
      have branch : l.formatChars x = l.roundedChars x := by
        rw [formatChars, full, if_neg Bool.false_ne_true, if_pos hs]
      exact ⟨z, lift z (branch.trans first) second⟩
    · have below := Nat.lt_of_not_le hs
      have zero : x.mantissa = 0 := Classical.not_not.1 fun hx => h ⟨full, below, hx⟩
      have text : x.scientificChars = Decimal.zero.plainChars := by
        have isZero : x.isZero := by rw [Decimal.isZero, zero, beq_self_eq_true]
        rw [Decimal.scientificChars, if_pos isZero]
        rfl
      refine ⟨Decimal.zero, lift _ ?_ ?_⟩
      · rw [l.formatChars_of_not_fits x full below, text]
      · cases short : l.fits Decimal.zero.plainChars with
        | true => exact l.formatChars_of_fits _ short
        | false =>
          have positive : 0 < l.maxScale := Nat.lt_of_le_of_lt (Nat.zero_le _) below
          rw [l.formatChars_of_not_fits _ short positive]
          rfl

theorem readDisplayed_scientific (h : l.Scientific x) :
    readDisplayed (l.format x) =
      if x.leadingDigits.2.natAbs ≤ Literal.maxExponent then .ok x.scientificLiteral.toDecimal
      else .error (.unrecognisedWord (l.format x)) := by
  have normal := (x.scientificLiteral_normal h.2.2).1
  rw [l.format_scientific x h, readDisplayed_normal _ normal]
  rfl

theorem exists_readDisplayed_iff (h : l.Scientific x) :
    (∃ y, readDisplayed (l.format x) = .ok y) ↔
      x.leadingDigits.2.natAbs ≤ Literal.maxExponent := by
  rw [l.readDisplayed_scientific x h]
  by_cases bounded : x.leadingDigits.2.natAbs ≤ Literal.maxExponent
  · rw [if_pos bounded]
    exact ⟨fun _ => bounded, fun _ => ⟨_, rfl⟩⟩
  · rw [if_neg bounded]
    refine ⟨fun ⟨y, hy⟩ => ?_, fun inside => absurd inside bounded⟩
    cases hy

/-- Every displayed text reads back, unless it is a scientific one whose exponent no literal may
have. -/
theorem readDisplayed_format_iff :
    (∃ y, readDisplayed (l.format x) = .ok y) ↔
      (l.Scientific x → x.leadingDigits.2.natAbs ≤ Literal.maxExponent) := by
  by_cases h : l.Scientific x
  · rw [l.exists_readDisplayed_iff x h]
    exact ⟨fun bounded _ => bounded, fun bounded => bounded h⟩
  · obtain ⟨z, first, -⟩ := l.format_positional x h
    have back : readDisplayed (l.format x) = .ok z := by rw [first, readDisplayed_plain]
    exact ⟨fun _ hs => absurd hs h, fun _ => ⟨z, back⟩⟩

theorem scientific_pow10 (k : Nat) (hs : 0 < l.maxScale) (hk : l.maxLength ≤ k) :
    l.Scientific ⟨pow10 k, 0⟩ ∧ (Decimal.leadingDigits ⟨pow10 k, 0⟩).2 = k := by
  have digits := digits_mul_pow10 1 k Nat.one_pos
  have length : (Decimal.plainChars ⟨pow10 k, 0⟩).length = k + 1 := by
    rw [Nat.one_mul] at digits
    rw [Decimal.plainChars_natural, digits, List.length_append, List.length_replicate, Nat.add_comm]
    rfl
  have long : l.fits (Decimal.plainChars ⟨pow10 k, 0⟩) = false := by
    rw [fits, length]
    exact decide_eq_false (by omega)
  have positive : (pow10 k : Int) ≠ 0 := Int.natCast_ne_zero.2 (Nat.ne_of_gt (pow10_pos k))
  obtain ⟨i, leading⟩ := Decimal.leadingDigits_of_short ⟨pow10 k, 0⟩ 1 k Nat.one_pos (by decide)
    (by rw [Int.natAbs_natCast, Nat.one_mul])
  have one : digitCount 1 = 1 := by decide
  refine ⟨⟨long, hs, positive⟩, ?_⟩
  rw [leading, one]
  change ((1 : Nat) : Int) + k - 1 - ((0 : Nat) : Int) = k
  omega

/-- The product of large literals is shown with an exponent beyond those that are read. -/
theorem readDisplayed_format_overflow :
    ¬∃ y, readDisplayed (Limits.format {} ⟨pow10 10001, 0⟩) = .ok y := by
  obtain ⟨h, exponent⟩ := scientific_pow10 {} 10001 (by decide) (by decide)
  rw [exists_readDisplayed_iff {} _ h, exponent]
  decide

/-- The number read from a scientific text has no more digits behind the point, so the next text is
scientific as well unless the whole number now fits. -/
theorem format_scientific_again (h : l.Scientific x) :
    l.format x.scientificLiteral.toDecimal = l.format x ↔
      l.fits x.scientificLiteral.toDecimal.plainChars = false := by
  obtain ⟨normal, inside⟩ := x.scientificLiteral_normal h.2.2
  let y := x.scientificLiteral.toDecimal
  have scale : y.scale < l.maxScale := by
    have kept : y.scale ≤ x.scale := by
      rw [Literal.toDecimal_scale]
      omega
    exact Nat.lt_of_le_of_lt kept h.2.1
  have text := l.format_scientific x h
  cases fits : l.fits y.plainChars with
  | true =>
    refine iff_of_false (fun same => ?_) (by decide)
    have chars : l.formatChars y = x.scientificLiteral.chars := by
      rw [text, format] at same
      exact String.ofList_injective same
    -- A positional text has no exponent's mark.
    have mark := x.scientificLiteral.mark_mem_chars
    rw [← chars, l.formatChars_of_fits y fits] at mark
    rcases y.mem_plainChars 'e' mark with hc | hc | hc <;> contradiction
  | false =>
    have again := l.format_scientific y ⟨fits, scale, normal.mantissa_ne_zero⟩
    rw [Decimal.scientificLiteral_toDecimal _ normal] at again
    exact iff_of_true (again.trans text.symm) rfl

/-- A text that is read back is shown again as the same text, except where the text is scientific
and the number read from it, which has fewer digits, is short enough to be shown in full. -/
theorem format_reread_iff (y : Decimal) (h : readDisplayed (l.format x) = .ok y) :
    l.format y = l.format x ↔ ¬(l.Scientific x ∧ l.fits y.plainChars) := by
  by_cases hs : l.Scientific x
  · rw [l.readDisplayed_scientific x hs] at h
    split at h
    · obtain rfl := Except.ok.inj h
      rw [l.format_scientific_again x hs, ← Bool.not_eq_true]
      exact ⟨fun unfit ⟨_, fits⟩ => unfit fits, fun none fits => none ⟨hs, fits⟩⟩
    · cases h
  · obtain ⟨z, first, second⟩ := l.format_positional x hs
    rw [first, readDisplayed_plain] at h
    obtain rfl := Except.ok.inj h
    exact ⟨fun _ both => hs both.1, fun _ => second.trans first.symm⟩

/-- Fourteen digits do not fit, neither before rounding nor after it. -/
theorem format_reread_long :
    readDisplayed (Limits.format {} ⟨12345678123456, 0⟩) = .ok ⟨12345678000000, 0⟩ ∧
      Limits.format {} ⟨12345678000000, 0⟩ = Limits.format {} ⟨12345678123456, 0⟩ := by
  have back : readDisplayed (Limits.format {} ⟨12345678123456, 0⟩) = .ok ⟨12345678000000, 0⟩ := by
    decide
  refine ⟨back, (format_reread_iff {} _ _ back).2 ?_⟩
  rintro ⟨-, fits⟩
  exact absurd fits (by decide)

/-- A scientific text whose number is then shown in full. -/
theorem format_reread_short :
    Limits.format {} ⟨1234567812345, 5⟩ = "1.2345678e7" ∧
      readDisplayed "1.2345678e7" = .ok ⟨12345678, 0⟩ ∧
      Limits.format {} ⟨12345678, 0⟩ = "12345678" := by
  decide

end Limits

end Reckoner
