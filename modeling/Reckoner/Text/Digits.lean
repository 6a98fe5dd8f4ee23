import Reckoner.Numeric.Powers

namespace Reckoner.Text

open Numeric

/-- The decimal digits of a number, the most significant first; zero has the digit 0. -/
def digits (n : Nat) : List Char :=
  Nat.toDigits 10 n

/-- The number that a run of decimal digits denotes; the empty run denotes zero. -/
def digitsValue (cs : List Char) : Nat :=
  Nat.ofDigitChars 10 cs 0

def digitCount (n : Nat) : Nat :=
  (digits n).length

def allDigits (cs : List Char) : Bool :=
  cs.all Char.isDigit

/-- Digits behind a minus sign, which only negative numbers carry. -/
def signed (negative : Bool) (cs : List Char) : List Char :=
  if negative then '-' :: cs else cs

@[simp] theorem digitsValue_digits (n : Nat) : digitsValue (digits n) = n :=
  Nat.ofDigitChars_ten_toDigits

theorem allDigits_digits (n : Nat) : allDigits (digits n) = true :=
  List.all_eq_true.2 fun c hc =>
    Nat.isDigit_of_mem_toDigits (b := 10) (n := n) (c := c) (by decide) (by decide) hc

theorem digitCount_pos (n : Nat) : 0 < digitCount n :=
  Nat.length_toDigits_pos

theorem digitCount_le_iff {n k : Nat} (hk : 0 < k) : digitCount n ≤ k ↔ n < pow10 k :=
  Nat.length_toDigits_le_iff (by decide) hk

theorem pow10_digitCount_le {n : Nat} (hn : 0 < n) : pow10 (digitCount n - 1) ≤ n := by
  rcases Nat.eq_zero_or_pos (digitCount n - 1) with h | h
  · rw [h]; exact hn
  · refine Nat.le_of_not_lt fun hlt => ?_
    have := (digitCount_le_iff h).2 hlt
    omega

theorem lt_pow10_digitCount (n : Nat) : n < pow10 (digitCount n) :=
  (digitCount_le_iff (digitCount_pos n)).1 (Nat.le_refl _)

theorem digitsValue_append (a b : List Char) :
    digitsValue (a ++ b) = digitsValue a * pow10 b.length + digitsValue b := by
  rw [digitsValue, Nat.ofDigitChars_append, Nat.ofDigitChars_eq_ofDigitChars_zero]
  rw [Nat.mul_comm]
  rfl

theorem digitsValue_zeros (k : Nat) (cs : List Char) :
    digitsValue (List.replicate k '0' ++ cs) = digitsValue cs := by
  rw [digitsValue, Nat.ofDigitChars_append, Nat.ofDigitChars_replicate_zero]
  simp [digitsValue]

end Reckoner.Text
