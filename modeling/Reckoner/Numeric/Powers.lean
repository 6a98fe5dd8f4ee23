namespace Reckoner.Numeric

def pow10 (n : Nat) : Nat := Nat.pow 10 n

def pow2 (n : Nat) : Nat := Nat.pow 2 n

def pow5 (n : Nat) : Nat := Nat.pow 5 n

@[simp] theorem pow10_zero : pow10 0 = 1 := rfl

theorem pow10_succ (n : Nat) : pow10 (n + 1) = pow10 n * 10 := rfl

theorem pow10_pos (n : Nat) : 0 < pow10 n := Nat.pow_pos (by decide)

theorem pow10_add (m n : Nat) : pow10 (m + n) = pow10 m * pow10 n := Nat.pow_add 10 m n

theorem pow2_pos (n : Nat) : 0 < pow2 n := Nat.pow_pos (by decide)

end Reckoner.Numeric
