import Reckoner.Text.Digits
import Reckoner.Text.Blank

namespace Reckoner.Text

open Numeric

theorem allDigits_cons (c : Char) (cs : List Char) :
    allDigits (c :: cs) ↔ c.isDigit ∧ allDigits cs := by
  rw [allDigits, List.all_cons, Bool.and_eq_true, allDigits]

theorem allDigits_append (a b : List Char) : allDigits (a ++ b) ↔ allDigits a ∧ allDigits b := by
  rw [allDigits, List.all_append, Bool.and_eq_true, allDigits, allDigits]

theorem mem_signed (negative : Bool) (cs : List Char) (c : Char) (h : c ∈ signed negative cs) :
    c = '-' ∨ c ∈ cs := by
  cases negative with
  | true => exact List.mem_cons.1 h
  | false => exact .inr h

theorem digits_ne_nil (n : Nat) : digits n ≠ [] := Nat.toDigits_ne_nil

theorem digits_append_digit (n d : Nat) (hn : 0 < n) (hd : d < 10) :
    digits (10 * n + d) = digits n ++ [d.digitChar] := by
  have joined := Nat.toDigits_append_toDigits (b := 10) (by decide) hn hd
  rw [digits, ← joined, Nat.toDigits_of_lt_base hd]
  rfl

theorem digits_mul_pow10 (n k : Nat) (hn : 0 < n) :
    digits (n * pow10 k) = digits n ++ List.replicate k '0' := by
  induction k with
  | zero => simp
  | succ k ih =>
    have shifted : n * pow10 (k + 1) = 10 * (n * pow10 k) + 0 := by
      rw [pow10_succ, ← Nat.mul_assoc]
      omega
    have pos : 0 < n * pow10 k := Nat.mul_pos hn (pow10_pos k)
    rw [shifted, digits_append_digit _ 0 pos (by decide), ih, List.append_assoc,
      List.replicate_succ']
    rfl

theorem isDigit_bounds (c : Char) (h : c.isDigit) : 48 ≤ c.toNat ∧ c.toNat ≤ 57 :=
  Char.isDigit_iff_toNat.1 h

theorem digitChar_of_isDigit (c : Char) (h : c.isDigit) :
    c.toNat - '0'.toNat < 10 ∧ (c.toNat - '0'.toNat).digitChar = c := by
  obtain ⟨low, high⟩ := isDigit_bounds c h
  have bound : c.toNat - 48 < 10 := by omega
  refine ⟨bound, Char.toNat_inj.1 ?_⟩
  change (c.toNat - 48).digitChar.toNat = c.toNat
  rw [Nat.toNat_digitChar_of_lt_ten bound]
  omega

theorem isBlank_of_isDigit (c : Char) (h : c.isDigit) : isBlank c = false := by
  have bounds := isDigit_bounds c h
  simp only [isBlank, Bool.or_eq_false_iff, Bool.and_eq_false_iff, decide_eq_false_iff_not,
    beq_eq_false_iff_ne]
  omega

theorem trim_of_no_blank (cs : List Char) (h : ∀ c ∈ cs, isBlank c = false) : trim cs = cs := by
  have kept (ds : List Char) (hds : ∀ c ∈ ds, isBlank c = false) : ds.dropWhile isBlank = ds := by
    cases ds with
    | nil => rfl
    | cons d ds => rw [List.dropWhile_cons_of_neg (by rw [hds d List.mem_cons_self]; decide)]
  have reversed : ∀ c ∈ cs.reverse, isBlank c = false := fun c hc => h c (List.mem_reverse.1 hc)
  rw [trim, kept cs h, kept cs.reverse reversed, List.reverse_reverse]

theorem digitsValue_lt (cs : List Char) (h : allDigits cs) :
    digitsValue cs < pow10 cs.length := by
  induction cs with
  | nil => exact Nat.one_pos
  | cons c cs ih =>
    rw [allDigits_cons] at h
    have rest := ih h.2
    have digit : digitsValue [c] < 10 := by
      have one : digitsValue [c] = c.toNat - '0'.toNat := by
        rw [digitsValue, Nat.ofDigitChars_cons, Nat.mul_zero, Nat.zero_add, Nat.ofDigitChars_nil]
      rw [one]
      exact (digitChar_of_isDigit c h.1).1
    have scaled := Nat.mul_le_mul_right (pow10 cs.length) (Nat.le_of_lt_succ digit)
    rw [← List.singleton_append, digitsValue_append, List.length_append, List.length_singleton,
      Nat.add_comm 1, pow10_succ]
    omega

/-- The first digits of a number are its quotient by a power of ten. -/
theorem digitsValue_take_bounds (n k : Nat) :
    let head := (digits n).take k
    digitsValue head * pow10 (digitCount n - head.length) ≤ n ∧
      n < (digitsValue head + 1) * pow10 (digitCount n - head.length) := by
  intro head
  let tail := (digits n).drop k
  have split : digitsValue head * pow10 tail.length + digitsValue tail = n := by
    rw [← digitsValue_append, List.take_append_drop, digitsValue_digits]
  have rest : tail.length = digitCount n - head.length := by
    rw [List.length_drop, List.length_take, digitCount]
    omega
  have some : allDigits tail := by
    have whole : allDigits (head ++ tail) := by
      rw [List.take_append_drop]
      exact allDigits_digits n
    have both := (allDigits_append head tail).1 whole
    exact both.2
  have few := digitsValue_lt tail some
  rw [rest] at split few
  rw [Nat.add_one_mul]
  omega

theorem digits_append (n : Nat) (cs : List Char) (hn : 0 < n) (h : allDigits cs) :
    digits n ++ cs = digits (Nat.ofDigitChars 10 cs n) := by
  -- The number so far grows with each digit that is read, so the induction is over all of them.
  induction cs generalizing n with
  | nil => rw [List.append_nil, Nat.ofDigitChars_nil]
  | cons c cs ih =>
    rw [allDigits_cons] at h
    obtain ⟨bound, hc⟩ := digitChar_of_isDigit c h.1
    have next := digits_append_digit n _ hn bound
    rw [hc] at next
    have rest := ih (10 * n + (c.toNat - '0'.toNat)) (by omega) h.2
    rw [Nat.ofDigitChars_cons, ← rest, next, List.append_assoc, List.singleton_append]

theorem digits_digitsValue (c : Char) (cs : List Char) (hc : c ≠ '0') (h : allDigits (c :: cs)) :
    digits (digitsValue (c :: cs)) = c :: cs := by
  rw [allDigits_cons] at h
  obtain ⟨bound, hchar⟩ := digitChar_of_isDigit c h.1
  have pos : 0 < c.toNat - '0'.toNat := by
    apply Nat.pos_of_ne_zero
    intro zero
    rw [zero] at hchar
    exact hc hchar.symm
  have first : digits (c.toNat - '0'.toNat) = [c] := by
    rw [digits, Nat.toDigits_of_lt_base bound, hchar]
  have joined := digits_append _ cs pos h.2
  rw [first, List.singleton_append] at joined
  rw [digitsValue, Nat.ofDigitChars_cons, Nat.mul_zero, Nat.zero_add, joined]

theorem lt_digitCount_of_le (n k : Nat) (h : pow10 k ≤ n) : k < digitCount n := by
  refine Nat.lt_of_not_le fun few => ?_
  rcases Nat.eq_zero_or_pos k with rfl | hk
  · exact Nat.not_lt_of_le few (digitCount_pos n)
  · exact Nat.not_lt_of_le h ((digitCount_le_iff hk).1 few)

/-- The power of ten below a number tells how many digits it has. -/
theorem digitCount_eq_of_bounds (n k : Nat) (hk : 0 < k) (low : pow10 (k - 1) ≤ n)
    (high : n < pow10 k) : digitCount n = k := by
  have most : digitCount n ≤ k := (digitCount_le_iff hk).2 high
  have least : k - 1 < digitCount n := lt_digitCount_of_le n (k - 1) low
  omega

/-- The digits of a positive number begin with one other than zero. -/
theorem exists_digits_cons (n : Nat) (hn : 0 < n) :
    ∃ d cs, digits n = d :: cs ∧ d ≠ '0' ∧ allDigits (d :: cs) := by
  cases h : digits n with
  | nil => exact absurd h (digits_ne_nil n)
  | cons d cs =>
    have all := allDigits_digits n
    rw [h] at all
    refine ⟨d, cs, rfl, ?_, all⟩
    rintro rfl
    -- Without its first zero the text would write the same number with too few digits.
    have value : n = digitsValue cs := by
      rw [← digitsValue_digits n, h]
      exact digitsValue_zeros 1 cs
    have short : n < pow10 cs.length := by
      rw [value]
      exact digitsValue_lt cs ((allDigits_cons _ cs).1 all).2
    have count : digitCount n = cs.length + 1 := by rw [digitCount, h, List.length_cons]
    have low := pow10_digitCount_le hn
    rw [count, Nat.add_sub_cancel] at low
    omega

end Reckoner.Text
