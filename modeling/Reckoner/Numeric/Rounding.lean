namespace Reckoner.Numeric

/-- The integer nearest to n / d; a half goes away from zero. -/
def halfAway (n : Int) (d : Nat) : Int :=
  n.sign * ((2 * n.natAbs + d) / (2 * d) : Nat)

/-- The natural number nearest to n / d; a half goes to the even neighbour. -/
def halfEven (n d : Nat) : Nat :=
  let q := n / d
  let r := n % d
  if d < 2 * r ∨ (2 * r = d ∧ q % 2 = 1) then q + 1 else q

@[simp] theorem halfAway_zero (d : Nat) : halfAway 0 d = 0 := by simp [halfAway]

theorem halfAway_neg (n : Int) (d : Nat) : halfAway (-n) d = -halfAway n d := by
  rw [halfAway, Int.sign_neg, Int.natAbs_neg, Int.neg_mul, halfAway]

theorem halfAway_of_nonneg {n : Int} (hn : 0 ≤ n) (d : Nat) :
    halfAway n d = ((2 * n.natAbs + d) / (2 * d) : Nat) := by
  rcases Int.lt_or_eq_of_le hn with h | h
  · simp [halfAway, Int.sign_eq_one_of_pos h]
  · subst h
    rcases Nat.eq_zero_or_pos d with hd | hd
    · simp [halfAway, hd]
    · simp [halfAway, Nat.div_eq_of_lt (show d < 2 * d by omega)]

end Reckoner.Numeric
