import Reckoner.Proofs.Decimal.Value

namespace Reckoner.Decimal

open Numeric

/-- Each zero that is dropped was one behind the point. -/
theorem exists_pad_dropZeros (m : Int) (scale : Nat) :
    ∃ k, mk m scale = (dropZeros m scale).pad k := by
  induction scale generalizing m with
  | zero => exact ⟨0, by simp [dropZeros, pad]⟩
  | succ scale ih =>
    rw [dropZeros]
    split
    · rename_i divides
      obtain ⟨k, dropped⟩ := ih (m / 10)
      have digits : m / 10 = (dropZeros (m / 10) scale).mantissa * pow10 k :=
        congrArg mantissa dropped
      have places : scale = (dropZeros (m / 10) scale).scale + k := congrArg Decimal.scale dropped
      refine ⟨k + 1, ?_⟩
      ext
      · rw [pad_mantissa, pow10_succ, Int.natCast_mul, ← Int.mul_assoc, ← digits]
        exact (Int.ediv_mul_cancel (Int.dvd_of_emod_eq_zero divides)).symm
      · rw [pad_scale]
        change scale + 1 = _
        omega
    · exact ⟨0, by simp [pad]⟩

section Value

variable (x y : Decimal)

theorem exists_pad_normalize : ∃ k, x = x.normalize.pad k := by
  rw [normalize]
  split
  · rename_i none
    refine ⟨x.scale, ?_⟩
    ext
    · simpa [zero] using none
    · simp [zero]
  · exact exists_pad_dropZeros x.mantissa x.scale

theorem normalize_sameValue : x.normalize.sameValue x := by
  obtain ⟨k, padded⟩ := x.exists_pad_normalize
  apply sameValue_symm
  rw [padded, sameValue_pad, ← padded]
  exact x.normalize.sameValue_refl

/-- A number without trailing zeros has not been given any. -/
theorem eq_zero_of_normal_pad (k : Nat) (h : (x.pad k).Normal) : k = 0 := by
  rcases h with whole | last
  · rw [pad_scale] at whole
    omega
  · cases k with
    | zero => rfl
    | succ k =>
      have divides : (10 : Int) ∣ (x.pad (k + 1)).mantissa := by
        rw [pad_mantissa, pow10_succ, Int.natCast_mul]
        exact Int.dvd_mul_of_dvd_right (Int.dvd_mul_left _ _)
      exact absurd divides last

variable {x y}

/-- Every spelling of a number is one without trailing zeros, with some of them. -/
theorem Normal.exists_pad (hx : x.Normal) (h : x.sameValue y) : ∃ k, y = x.pad k := by
  obtain ⟨z, i, j, rfl, rfl⟩ := Decimal.exists_pad h
  have none := z.eq_zero_of_normal_pad i hx
  subst none
  exact ⟨j, by simp [pad]⟩

theorem Normal.unique (hx : x.Normal) (hy : y.Normal) (h : x.sameValue y) : x = y := by
  obtain ⟨k, rfl⟩ := hx.exists_pad h
  have none := x.eq_zero_of_normal_pad k hy
  subst none
  simp [pad]

end Value

/-- The normal form has the value of the number, and the smallest scale that any pair with this
value has. Numbers are equal when their normal forms are the same pair. -/
theorem normalize_canonical (x y : Decimal) :
    x.normalize.sameValue x ∧ (y.sameValue x → x.normalize.scale ≤ y.scale) ∧
      (x.sameValue y ↔ x.normalize = y.normalize) := by
  refine ⟨x.normalize_sameValue, ?_, ?_, ?_⟩
  · intro same
    obtain ⟨k, rfl⟩ :=
      x.normalize_normal.exists_pad (sameValue_trans x.normalize_sameValue (sameValue_symm same))
    exact Nat.le_add_right _ _
  · intro same
    have forms : x.normalize.sameValue y.normalize :=
      sameValue_trans (sameValue_trans x.normalize_sameValue same)
        (sameValue_symm y.normalize_sameValue)
    exact x.normalize_normal.unique y.normalize_normal forms
  · intro forms
    have left := sameValue_symm x.normalize_sameValue
    rw [forms] at left
    exact sameValue_trans left y.normalize_sameValue

/-- Zeros in front of the point belong to the number: -1200.500 and -1200.50 have one normal form,
and so do 0.00 and 0. -/
theorem normalize_canonical_zeros :
    let x : Decimal := ⟨-1200500, 3⟩
    let y : Decimal := ⟨-120050, 2⟩
    let z : Decimal := ⟨0, 2⟩
    y.sameValue x ∧ x.normalize = ⟨-12005, 1⟩ ∧ x.normalize.scale ≤ y.scale ∧
      x.normalize = y.normalize ∧ z.sameValue zero ∧ z.normalize = zero.normalize ∧
      ¬x.sameValue z := by
  intro x y z
  have same : y.sameValue x := by decide +kernel
  have value : x.normalize = ⟨-12005, 1⟩ := by decide +kernel
  have zeros : z.sameValue zero := by decide +kernel
  have apart : x.normalize ≠ z.normalize := by decide +kernel
  obtain ⟨-, least, forms⟩ := normalize_canonical x y
  exact ⟨same, value, least same, forms.1 (sameValue_symm same), zeros,
    (normalize_canonical z zero).2.2.1 zeros, mt (normalize_canonical x z).2.2.1 apart⟩

end Reckoner.Decimal
