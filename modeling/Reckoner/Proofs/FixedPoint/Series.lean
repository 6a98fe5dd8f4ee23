import Mathlib.Algebra.BigOperators.Group.Finset.Basic
import Mathlib.Algebra.BigOperators.Ring.Finset
import Mathlib.Algebra.Order.BigOperators.Group.Finset
import Mathlib.Analysis.Normed.Group.InfiniteSum
import Mathlib.Analysis.SpecificLimits.Basic
import Mathlib.Data.Real.Basic
import Reckoner.FixedPoint.Series
import Reckoner.Proofs.Numeric.Rounding

namespace Reckoner.FixedPoint.Series

open Finset

/-- The term of index k. -/
def nth (s : Series) (k : Nat) : Int := s.term (s.carried k) k

/-- How many terms are looked at in fixed point with p digits. -/
def limit (p : Nat) : Nat := 2 * p + 64

/-- Behind a term that is zero there are no others. -/
def Vanishing (s : Series) : Prop := ∀ k, s.nth k = 0 → s.nth (k + 1) = 0

/-- Behind one of the first n terms that is zero there are no others up to that of index n. -/
def VanishingBelow (s : Series) (n : Nat) : Prop := ∀ k < n, s.nth k = 0 → s.nth (k + 1) = 0

theorem Vanishing.below {s : Series} (hs : s.Vanishing) (n : Nat) : s.VanishingBelow n :=
  fun k _ => hs k

theorem termsFrom_succ (s : Series) (n k : Nat) : s.termsFrom (n + 1) (s.carried k) k =
    if s.nth k = 0 then [] else s.nth k :: s.termsFrom n (s.carried (k + 1)) (k + 1) := rfl

/-- Where the first term that is not looked at is zero, looking at more of them finds no others. -/
theorem termsFrom_of_end (s : Series) (n more k : Nat) (ends : s.nth (k + n) = 0) :
    s.termsFrom (n + more) (s.carried k) k = s.termsFrom n (s.carried k) k := by
  induction n generalizing k with
  | zero =>
    rw [Nat.zero_add]
    cases more with
    | zero => rfl
    | succ more => exact if_pos ends
  | succ n ih =>
    have next : s.nth (k + 1 + n) = 0 := by rwa [Nat.add_assoc, Nat.add_comm 1]
    rw [Nat.add_right_comm n 1 more, termsFrom_succ, termsFrom_succ, ih (k + 1) next]

theorem terms_of_end (s : Series) (p more : Nat) (ends : s.nth (limit p) = 0) :
    s.termsFrom (limit p + more) s.start 0 = s.terms p := by
  have first : s.nth (0 + limit p) = 0 := by rwa [Nat.zero_add]
  exact s.termsFrom_of_end (limit p) more 0 first

theorem VanishingBelow.nth_add {s : Series} {n k i : Nat} (hs : s.VanishingBelow n)
    (hk : s.nth k = 0) (inside : k + i ≤ n) : s.nth (k + i) = 0 := by
  induction i with
  | zero => exact hk
  | succ i ih => exact hs (k + i) inside (ih (Nat.le_of_succ_le inside))

theorem VanishingBelow.sum_termsFrom {s : Series} {n k : Nat} (hs : s.VanishingBelow (k + n)) :
    (s.termsFrom n (s.carried k) k).foldr (· + ·) 0 = ∑ i ∈ range n, s.nth (k + i) := by
  induction n generalizing k with
  | zero => rfl
  | succ n ih =>
    rw [termsFrom_succ]
    by_cases hk : s.nth k = 0
    · have none : ∀ i ∈ range (n + 1), s.nth (k + i) = 0 := by
        intro i hi
        have inside := mem_range.1 hi
        exact hs.nth_add hk (by omega)
      rw [if_pos hk, sum_eq_zero none, List.foldr_nil]
    · have shifted (i : Nat) : s.nth (k + (i + 1)) = s.nth (k + 1 + i) := by
        rw [Nat.add_assoc, Nat.add_comm 1]
      have rest : s.VanishingBelow (k + 1 + n) := by
        rwa [Nat.add_assoc, Nat.add_comm 1]
      rw [if_neg hk, List.foldr_cons, ih rest, sum_range_succ', Int.add_comm]
      simp only [shifted, Nat.add_zero]

/-- Terms behind the first zero add nothing, so the sum is over all that are looked at. -/
theorem VanishingBelow.sum_eq {s : Series} {p : Nat} (hs : s.VanishingBelow (limit p)) :
    s.sum p = ∑ k ∈ range (limit p), s.nth k := by
  have first : s.VanishingBelow (0 + limit p) := by rwa [Nat.zero_add]
  have h := first.sum_termsFrom
  simp only [Nat.zero_add] at h
  exact h

theorem sum_sub_sum_eq {s : Series} {p n : Nat} (h : s.sum p = ∑ k ∈ range n, s.nth k)
    (a : Nat → ℝ) : ∑ k ∈ range n, a k - s.sum p = ∑ k ∈ range n, (a k - s.nth k) := by
  rw [h, Int.cast_sum, sum_sub_distrib]

/-- If each term is near its exact value, the sum is as near as all of them together. -/
theorem VanishingBelow.sum_between {s : Series} {p : Nat} (hs : s.VanishingBelow (limit p))
    (a : Nat → ℝ) (lo hi : ℝ) (h : ∀ k < limit p, lo ≤ a k - s.nth k ∧ a k - s.nth k ≤ hi) :
    limit p * lo ≤ ∑ k ∈ range (limit p), a k - s.sum p ∧
      ∑ k ∈ range (limit p), a k - s.sum p ≤ limit p * hi := by
  have low := card_nsmul_le_sum (range (limit p)) (fun k => a k - s.nth k) lo
    fun k hk => (h k (mem_range.1 hk)).1
  have high := sum_le_card_nsmul (range (limit p)) (fun k => a k - s.nth k) hi
    fun k hk => (h k (mem_range.1 hk)).2
  rw [card_range, nsmul_eq_mul] at low high
  rw [sum_sub_sum_eq hs.sum_eq]
  exact ⟨low, high⟩

/-- If each term is near its exact value, the sum is as near as all these errors together. -/
theorem VanishingBelow.abs_sum_sub_le {s : Series} {p : Nat} (hs : s.VanishingBelow (limit p))
    (a error : Nat → ℝ) (h : ∀ k < limit p, |a k - s.nth k| ≤ error k) :
    |∑ k ∈ range (limit p), a k - s.sum p| ≤ ∑ k ∈ range (limit p), error k := by
  rw [sum_sub_sum_eq hs.sum_eq]
  exact (abs_sum_le_sum_abs _ _).trans (sum_le_sum fun k hk => h k (mem_range.1 hk))

/-- Where each term is at most half of the one before, what is left of a series is at most twice
its next term. -/
theorem abs_sub_sum_le_of_halving (a : Nat → ℝ) (value : ℝ) (n : Nat) (sums : HasSum a value)
    (halves : ∀ k, n ≤ k → 2 * |a (k + 1)| ≤ |a k|) :
    |value - ∑ k ∈ range n, a k| ≤ 2 * |a n| := by
  have rest := (hasSum_nat_add_iff' n).2 sums
  have falls (k : Nat) : |a (k + n)| ≤ 2 * |a n| / 2 / 2 ^ k := by
    induction k with
    | zero => simp
    | succ k ih =>
      have step := halves (k + n) (Nat.le_add_left n k)
      rw [Nat.add_right_comm k 1 n, pow_succ, ← div_div]
      linarith
  rw [← rest.tsum_eq, ← Real.norm_eq_abs]
  exact tsum_of_norm_bounded (hasSum_geometric_two' _) falls

/-- The loop reads n terms, none of which is zero, and ends where it finds that the next one is. -/
structure StopsAt (s : Series) (n : Nat) : Prop where
  reads : ∀ k < n, s.nth k ≠ 0
  stops : s.nth n = 0

theorem StopsAt.le {s : Series} {n k : Nat} (h : s.StopsAt n) (hk : s.nth k = 0) : n ≤ k := by
  by_contra before
  exact h.reads k (Nat.lt_of_not_le before) hk

/-- How many terms the loop of a series adds to the first one. -/
def added (s : Series) (p : Nat) : Nat := (s.terms p).tail.length

/-- The loop adds n terms, and ends where it finds that the next is zero. -/
structure EndsAfter (s : Series) (n : Nat) : Prop where
  adds : ∀ k, 0 < k → k ≤ n → s.nth k ≠ 0
  ends : s.nth (n + 1) = 0

theorem nth_of_lt_length (s : Series) (n k i : Nat)
    (hi : i < (s.termsFrom n (s.carried k) k).length) : s.nth (k + i) ≠ 0 := by
  induction n generalizing k i with
  | zero => exact absurd hi (Nat.not_lt_zero i)
  | succ n ih =>
    rw [termsFrom_succ] at hi
    split at hi
    · exact absurd hi (Nat.not_lt_zero i)
    · rename_i hk
      cases i with
      | zero => exact hk
      | succ i =>
        rw [Nat.add_comm i, ← Nat.add_assoc]
        exact ih (k + 1) i (Nat.lt_of_succ_lt_succ hi)

theorem nth_length_of_end (s : Series) (n k : Nat) (ends : s.nth (k + n) = 0) :
    s.nth (k + (s.termsFrom n (s.carried k) k).length) = 0 := by
  induction n generalizing k with
  | zero => exact ends
  | succ n ih =>
    rw [termsFrom_succ]
    split
    · assumption
    · rw [Nat.add_comm n, ← Nat.add_assoc] at ends
      rw [List.length_cons, Nat.add_comm _ 1, ← Nat.add_assoc]
      exact ih (k + 1) ends

/-- Where the first term that is not looked at is zero, the loop has ended by itself. -/
theorem stopsAt_length (s : Series) (p : Nat) (whole : s.nth (limit p) = 0) :
    s.StopsAt (s.terms p).length := by
  constructor
  · intro k inside
    have nonzero := s.nth_of_lt_length (limit p) 0 k inside
    rwa [Nat.zero_add] at nonzero
  · have zero := s.nth_length_of_end (limit p) 0 (by rwa [Nat.zero_add])
    rwa [Nat.zero_add] at zero

/-- Where the loop ends by itself, the sum is over the terms that it reads. -/
theorem StopsAt.sum_eq {s : Series} {p n : Nat} (stop : s.StopsAt n) (inside : n ≤ limit p) :
    s.sum p = ∑ k ∈ range n, s.nth k := by
  obtain ⟨more, count⟩ := Nat.exists_eq_add_of_le inside
  have ends : s.nth (0 + n) = 0 := by rw [Nat.zero_add, stop.stops]
  have below : s.VanishingBelow (0 + n) := by
    intro k hk zero
    rw [Nat.zero_add] at hk
    exact absurd zero (stop.reads k hk)
  have read := s.termsFrom_of_end n more 0 ends
  have total := below.sum_termsFrom
  rw [← read, ← count] at total
  simp only [Nat.zero_add] at total
  exact total

theorem Vanishing.endsAfter_added {s : Series} (hs : s.Vanishing) (p : Nat)
    (whole : s.nth (limit p) = 0) : s.EndsAfter (s.added p) := by
  obtain ⟨reads, stops⟩ := s.stopsAt_length p whole
  have count : s.added p = (s.terms p).length - 1 := List.length_tail
  rw [count]
  constructor
  · intro k _ inside
    exact reads k (by omega)
  · -- A series whose first term is zero has no others, and the loop finds that at once.
    rcases Nat.eq_zero_or_pos (s.terms p).length with none | some
    · rw [none] at stops ⊢
      exact hs 0 stops
    · rwa [Nat.sub_add_cancel some]

theorem Vanishing.nth_of_le {s : Series} (hs : s.Vanishing) {n : Nat} (ends : s.nth n = 0) {k : Nat}
    (hk : n ≤ k) : s.nth k = 0 := by
  obtain ⟨i, rfl⟩ := Nat.exists_eq_add_of_le hk
  exact (hs.below (n + i)).nth_add ends le_rfl

/-- The sum is over the terms in front of any that is zero. -/
theorem Vanishing.sum_eq_of_end {s : Series} (hs : s.Vanishing) (p n : Nat)
    (whole : s.nth (limit p) = 0) (ends : s.nth n = 0) : s.sum p = ∑ k ∈ range n, s.nth k := by
  rw [(hs.below (limit p)).sum_eq]
  rcases le_total n (limit p) with less | more
  · exact eventually_constant_sum (fun _ hk => hs.nth_of_le ends hk) less
  · exact (eventually_constant_sum (fun _ hk => hs.nth_of_le whole hk) more).symm

theorem sum_abs_le_of_halving (a : Nat → ℝ) (c n : Nat)
    (halves : ∀ k, c ≤ k → 2 * |a (k + 1)| ≤ |a k|) :
    ∑ j ∈ range n, |a (c + j)| ≤ 2 * |a c| := by
  induction n generalizing c with
  | zero =>
    rw [range_zero, sum_empty]
    positivity
  | succ n ih =>
    have rest := ih (c + 1) fun k hk => halves k (Nat.le_of_succ_le hk)
    have first := halves c le_rfl
    have shifted : ∀ j ∈ range n, |a (c + (j + 1))| = |a (c + 1 + j)| := by
      intro j _
      rw [Nat.add_assoc, Nat.add_comm 1]
    rw [sum_range_succ', Nat.add_zero, sum_congr rfl shifted]
    linarith

/-- Where the exact terms fall to a half from one to the next, those behind the last computed one
are together at most twice as much as the first of them, and this one is an error. -/
theorem Vanishing.abs_partial_sum_sub_le {s : Series} (hs : s.Vanishing) (p n c N : Nat)
    (whole : s.nth (limit p) = 0) (ends : s.nth n = 0) (hc : n ≤ c) (hN : n ≤ N)
    (a error : Nat → ℝ) (h : ∀ k, |a k - s.nth k| ≤ error k)
    (halves : ∀ k, c ≤ k → 2 * |a (k + 1)| ≤ |a k|) :
    |∑ k ∈ range N, a k - s.sum p| ≤ ∑ k ∈ range c, error k + 2 * error c := by
  have behind (j : Nat) : |a (c + j) - s.nth (c + j)| = |a (c + j)| := by
    rw [hs.nth_of_le ends (hc.trans (Nat.le_add_right c j)), Int.cast_zero, sub_zero]
  have tail : ∑ j ∈ range N, |a (c + j) - s.nth (c + j)| ≤ 2 * error c := by
    have first := h c
    rw [hs.nth_of_le ends hc, Int.cast_zero, sub_zero] at first
    simp only [behind]
    exact (sum_abs_le_of_halving a c N halves).trans (by linarith)
  rw [sum_sub_sum_eq (hs.sum_eq_of_end p N whole (hs.nth_of_le ends hN))]
  calc
    |∑ k ∈ range N, (a k - s.nth k)| ≤ ∑ k ∈ range N, |a k - s.nth k| := abs_sum_le_sum_abs _ _
    _ ≤ ∑ k ∈ range (c + N), |a k - s.nth k| :=
      sum_le_sum_of_subset_of_nonneg (range_mono (Nat.le_add_left N c)) fun _ _ _ => abs_nonneg _
    _ = ∑ k ∈ range c, |a k - s.nth k| + ∑ j ∈ range N, |a (c + j) - s.nth (c + j)| :=
      sum_range_add _ c N
    _ ≤ ∑ k ∈ range c, error k + 2 * error c := add_le_add (sum_le_sum fun k _ => h k) tail

/-- The errors of the terms that are looked at, and one digit for those that are not. -/
theorem VanishingBelow.sum_near {s : Series} {p : Nat} (hs : s.VanishingBelow (limit p))
    (a error : Nat → ℝ) (value : ℝ) (sums : HasSum a value)
    (h : ∀ k < limit p, |10 ^ p * a k - s.nth k| ≤ error k)
    (halves : ∀ k, limit p ≤ k → 2 * |a (k + 1)| ≤ |a k|)
    (small : 10 ^ p * (2 * |a (limit p)|) ≤ 1) :
    |10 ^ p * value - s.sum p| ≤ ∑ k ∈ range (limit p), error k + 1 := by
  have pos : (0 : ℝ) < 10 ^ p := by positivity
  have computed := hs.abs_sum_sub_le (fun k => 10 ^ p * a k) error h
  have rest := abs_sub_sum_le_of_halving a value (limit p) sums halves
  have scaled : |10 ^ p * value - ∑ k ∈ range (limit p), 10 ^ p * a k| ≤ 1 := by
    rw [← mul_sum, ← mul_sub, abs_mul, abs_of_pos pos]
    exact (mul_le_mul_of_nonneg_left rest pos.le).trans small
  have split := abs_sub_le (10 ^ p * value) (∑ k ∈ range (limit p), 10 ^ p * a k) (s.sum p)
  linarith

end Reckoner.FixedPoint.Series
