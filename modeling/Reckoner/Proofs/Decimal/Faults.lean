import Reckoner.Decimal.Operations

namespace Reckoner

/-- A result that is not refused as badly formed. -/
def NeverSyntactic {α : Type} (r : Except Fault α) : Prop :=
  ∀ f, r = .error f → f.kind = .mathematical

theorem neverSyntactic_error {α : Type} (f : Fault) (hf : f.kind = .mathematical) :
    NeverSyntactic (.error f : Except Fault α) := by
  intro g h
  injection h with h
  rw [← h, hf]

theorem NeverSyntactic.ite {α : Type} (c : Prop) [Decidable c] (a b : Except Fault α)
    (ha : NeverSyntactic a) (hb : NeverSyntactic b) : NeverSyntactic (if c then a else b) := by
  by_cases h : c
  · rw [if_pos h]
    exact ha
  · rw [if_neg h]
    exact hb

theorem NeverSyntactic.bind {α β : Type} (r : Except Fault α) (next : α → Except Fault β)
    (hr : NeverSyntactic r) (hn : ∀ x, NeverSyntactic (next x)) : NeverSyntactic (r >>= next) := by
  cases r with
  | error f => exact neverSyntactic_error f (hr f rfl)
  | ok x => exact hn x

namespace Decimal

end Decimal

end Reckoner
