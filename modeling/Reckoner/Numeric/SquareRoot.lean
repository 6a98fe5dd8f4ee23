import Reckoner.Numeric.Powers

namespace Reckoner.Numeric

/-- Newton's step from above: the guesses fall until they reach the floor of the root. -/
def lowerGuess (n guess : Nat) : Nat :=
  let next := (guess + n / guess) / 2
  if next < guess then lowerGuess n next else guess
termination_by guess

/-- The floor of the square root. The first guess is a power of two above the root. -/
def floorSqrt (n : Nat) : Nat :=
  if n ≤ 1 then n else lowerGuess n (pow2 (n.log2 / 2 + 1))

private theorem lowerGuess_mul_self_le {n : Nat} (hn : 0 < n) (guess : Nat) (hg : 0 < guess) :
    lowerGuess n guess * lowerGuess n guess ≤ n := by
  induction guess using Nat.strongRecOn with
  | ind guess ih =>
    unfold lowerGuess
    simp only
    split
    · rename_i h
      refine ih _ h ?_
      by_cases h1 : guess = 1
      · subst h1
        rw [Nat.div_one]
        omega
      · generalize n / guess = q
        omega
    · exact (Nat.le_div_iff_mul_le hg).1 (by omega)

theorem floorSqrt_mul_self_le (n : Nat) : floorSqrt n * floorSqrt n ≤ n := by
  unfold floorSqrt
  split
  · have : n = 0 ∨ n = 1 := by omega
    rcases this with rfl | rfl <;> simp
  · exact lowerGuess_mul_self_le (by omega) _ (pow2_pos _)

end Reckoner.Numeric
