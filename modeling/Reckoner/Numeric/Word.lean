namespace Reckoner.Numeric

/-- Scales and numbers of digits are words of 32 bits. -/
def wordSize : Nat := 4294967296

/-- What a word keeps of a sum or a product; the carry is lost. -/
def toWord (n : Nat) : Nat := n % wordSize

theorem toWord_of_lt {n : Nat} (h : n < wordSize) : toWord n = n := Nat.mod_eq_of_lt h

end Reckoner.Numeric
