import Reckoner.Decimal.Elementary
import Reckoner.Proofs.Decimal.Arithmetic

namespace Reckoner.Decimal

open FixedPoint

section Turns

variable (x y : Decimal) (turns : Int) (h : y.toRat = x.toRat + 360 * turns)

include h

/-- Of an angle only the part of a turn that is left counts, however the angle is written. -/
theorem radians_of_turns (p : Nat) : radians y p = radians x p := by
  have rest : (y.residue 360).toRat = (x.residue 360).toRat :=
    toRat_residue_of_multiple x 360 (by decide) y turns h
  have digits : (y.residue 360).toFixed p = (x.residue 360).toFixed p :=
    eq_of_pad (sameValue_iff_toRat.2 rest) (·.toFixed p) fun z k => z.toFixed_pad k p
  rw [radians, radians, digits]

theorem sinDegrees_of_turns (scale : Nat) : y.sinDegrees scale = x.sinDegrees scale := by
  simp only [sinDegrees, radians_of_turns x y turns h]

theorem cosDegrees_of_turns (scale : Nat) : y.cosDegrees scale = x.cosDegrees scale := by
  simp only [cosDegrees, radians_of_turns x y turns h]

theorem tanDegrees_of_turns (scale : Nat) : y.tanDegrees? scale = x.tanDegrees? scale := by
  simp only [tanDegrees?, radians_of_turns x y turns h]

end Turns

/-- Adding whole turns to an angle, or taking them off, changes neither its sine nor its cosine nor
its tangent, and moves no pole. -/
theorem trigonometry_periodic (x : Decimal) (turns : Int) (scale : Nat) :
    let turned := x + ofInt (360 * turns)
    turned.sinDegrees scale = x.sinDegrees scale ∧
      turned.cosDegrees scale = x.cosDegrees scale ∧
      turned.tanDegrees? scale = x.tanDegrees? scale := by
  intro turned
  have added : (ofInt (360 * turns)).toRat = 360 * turns := by
    rw [toRat_eq_div, ofInt, pow_zero, div_one]
    push_cast
    rfl
  have value : turned.toRat = x.toRat + 360 * turns := by rw [toRat_add, added]
  exact ⟨sinDegrees_of_turns x turned turns value scale,
    cosDegrees_of_turns x turned turns value scale,
    tanDegrees_of_turns x turned turns value scale⟩

end Reckoner.Decimal
