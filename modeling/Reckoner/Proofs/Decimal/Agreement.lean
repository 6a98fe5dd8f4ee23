import Reckoner.Proofs.Decimal.Arithmetic

namespace Reckoner

/-- The same fault, or results that are related. -/
def Agree {α : Type} (R : α → α → Prop) : Except Fault α → Except Fault α → Prop
  | .ok x, .ok y => R x y
  | .error f, .error g => f = g
  | _, _ => False

namespace Agree

variable {α β : Type} {R : α → α → Prop} {S : β → β → Prop}

instance [DecidableRel R] : DecidableRel (Agree R)
  | .ok x, .ok y => inferInstanceAs (Decidable (R x y))
  | .error f, .error g => inferInstanceAs (Decidable (f = g))
  | .ok _, .error _ | .error _, .ok _ => .isFalse id

theorem error (f : Fault) : Agree R (.error f) (.error f) := rfl

theorem refl (h : ∀ x, R x x) (r : Except Fault α) : Agree R r r := by
  cases r with
  | ok x => exact h x
  | error f => rfl

theorem bind {r s : Except Fault α} {f g : α → Except Fault β} (h : Agree R r s)
    (next : ∀ x y, R x y → Agree S (f x) (g y)) : Agree S (r >>= f) (s >>= g) := by
  match r, s with
  | .ok x, .ok y => exact next x y h
  | .error f, .error g => exact h

end Agree

namespace Decimal

/-- Equality by value as a relation. -/
def SameValue (x y : Decimal) : Prop := x.sameValue y

instance : DecidableRel SameValue := fun x y => inferInstanceAs (Decidable (x.sameValue y = true))

theorem SameValue.of_toRat {x y : Decimal} (h : x.toRat = y.toRat) : SameValue x y :=
  sameValue_iff_toRat.2 h

theorem SameValue.toRat {x y : Decimal} (h : SameValue x y) : x.toRat = y.toRat :=
  sameValue_iff_toRat.1 h

end Decimal

/-- Two results that agree by value: the same fault, or numbers of one value. -/
abbrev SameOutcome : Except Fault Decimal → Except Fault Decimal → Prop := Agree Decimal.SameValue

namespace SameOutcome

theorem refl (r : Except Fault Decimal) : SameOutcome r r := Agree.refl Decimal.sameValue_refl r

/-- Two decisions on one condition, whose second parts are compared where it fails. -/
theorem ite (c : Prop) [Decidable c] (r s t : Except Fault Decimal) (h : ¬c → SameOutcome s t) :
    SameOutcome (if c then r else s) (if c then r else t) := by
  by_cases hc : c
  · rw [if_pos hc, if_pos hc]
    exact refl r
  · rw [if_neg hc, if_neg hc]
    exact h hc

end SameOutcome

end Reckoner
