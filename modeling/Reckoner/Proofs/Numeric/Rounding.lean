import Mathlib.Algebra.Order.Field.Basic
import Mathlib.Data.Int.Cast.Lemmas
import Mathlib.Data.Nat.Cast.Order.Field
import Mathlib.Tactic.FieldSimp
import Mathlib.Tactic.Linarith
import Mathlib.Tactic.Positivity
import Mathlib.Tactic.Ring
import Reckoner.Numeric.Powers
import Reckoner.Numeric.Rounding

namespace Reckoner.Numeric

@[simp] theorem cast_pow10 {K : Type*} [Semiring K] (n : Nat) : (pow10 n : K) = 10 ^ n := by
  have power : pow10 n = 10 ^ n := rfl
  rw [power]
  push_cast
  rfl

variable {K : Type*} [Field K] [LinearOrder K] [IsStrictOrderedRing K]

/-- A power of ten is an integer once it is moved up by enough places. -/
theorem exists_natCast_zpow (unit : Int) (places : Nat) (h : 0 ≤ unit + places) :
    ∃ n : Nat, (n : K) = 10 ^ unit * 10 ^ places := by
  obtain ⟨e, he⟩ := Int.eq_ofNat_of_zero_le h
  refine ⟨10 ^ e, ?_⟩
  rw [← zpow_natCast, ← zpow_add₀ (by norm_num), he, zpow_natCast]
  push_cast
  rfl

/-- Above 1 it is an even one. -/
theorem exists_half (unit : Int) (places : Nat) (h : 0 < unit + places) :
    ∃ half : Nat, 0 < half ∧ (2 * half : K) = 10 ^ unit * 10 ^ places := by
  obtain ⟨e, he⟩ : ∃ e : Nat, unit + places = e + 1 := ⟨(unit + places - 1).toNat, by omega⟩
  refine ⟨5 * 10 ^ e, by positivity, ?_⟩
  rw [← zpow_natCast, ← zpow_add₀ (by norm_num), he, zpow_add_one₀ (by norm_num), zpow_natCast]
  push_cast
  ring

/-- What is lost when a quotient is cut. -/
theorem div_sub_tdiv (n d : Int) (hd : 0 < d) :
    (n : K) / d - (n.tdiv d : Int) = (n.tmod d : Int) / d := by
  have pos : (0 : K) < d := Int.cast_pos.2 hd
  have split : (d : K) * (n.tdiv d : Int) + (n.tmod d : Int) = n := by
    exact_mod_cast Int.mul_tdiv_add_tmod n d
  field_simp
  linarith

/-- A quotient is cut by less than one. -/
theorem abs_div_sub_tdiv_lt (n d : Int) (hd : 0 < d) : |(n : K) / d - (n.tdiv d : Int)| < 1 := by
  have pos : (0 : K) < d := Int.cast_pos.2 hd
  have low : (-(d : K)) < (n.tmod d : Int) := by exact_mod_cast Int.lt_tmod_of_pos n hd
  have high : ((n.tmod d : Int) : K) < d := by exact_mod_cast Int.tmod_lt_of_pos n hd
  rw [div_sub_tdiv n d hd, abs_div, abs_of_pos pos, div_lt_one pos, abs_lt]
  exact ⟨low, high⟩

/-- The quotient of a number that is not negative is cut downward. -/
theorem tdiv_le_div (n d : Int) (hn : 0 ≤ n) (hd : 0 < d) : ((n.tdiv d : Int) : K) ≤ n / d := by
  have pos : (0 : K) < d := Int.cast_pos.2 hd
  have rest : (0 : K) ≤ (n.tmod d : Int) := by exact_mod_cast Int.tmod_nonneg d hn
  have loss := div_sub_tdiv (K := K) n d hd
  have nonneg : (0 : K) ≤ (n.tmod d : Int) / d := by positivity
  linarith

theorem div_lt_tdiv_add_one (n d : Int) (hd : 0 < d) : (n : K) / d < (n.tdiv d : Int) + 1 := by
  have loss := (abs_lt.1 (abs_div_sub_tdiv_lt (K := K) n d hd)).2
  linarith

/-- A quotient vanishes when the number is smaller than the divisor. -/
theorem tdiv_eq_zero_iff (n d : Int) (hd : 0 < d) : n.tdiv d = 0 ↔ |n| < d := by
  rw [← Int.natAbs_eq_zero, Int.natAbs_tdiv, Int.abs_eq_natAbs]
  change n.natAbs / d.natAbs = 0 ↔ _
  rw [Nat.div_eq_zero_iff]
  omega

theorem abs_tdiv_mul_le (n d : Int) (hd : 0 < d) : |n.tdiv d| * d ≤ |n| := by
  rw [Int.abs_eq_natAbs, Int.natAbs_tdiv, Int.abs_eq_natAbs, Int.eq_natAbs_of_nonneg hd.le]
  exact_mod_cast Nat.div_mul_le_self n.natAbs d.natAbs

theorem abs_tdiv_le (n d : Int) (hd : 0 < d) : |((n.tdiv d : Int) : K)| ≤ |(n : K)| / d := by
  have pos : (0 : K) < d := Int.cast_pos.2 hd
  rw [le_div_iff₀ pos]
  exact_mod_cast abs_tdiv_mul_le n d hd

/-- How far a number is from a multiple of 1 / u, in such units. -/
theorem mul_abs_sub_div (u t z : K) (hu : 0 < u) : u * |t - z / u| = |u * t - z| := by
  have scaled : u * t - z = u * (t - z / u) := by rw [mul_sub, mul_div_cancel₀ _ hu.ne']
  rw [scaled, abs_mul, abs_of_pos hu]

/-- The integer nearest to a number; of two that are equally near, the one farther from zero. -/
structure Nearest (n : Int) (r : K) : Prop where
  near : |r - n| ≤ 1 / 2
  tie : |r - n| = 1 / 2 → |r| < |(n : K)|

omit [IsStrictOrderedRing K] in
theorem nearest_neg {n : Int} {r : K} (h : Nearest n r) : Nearest (-n) (-r) := by
  have mirrored : -r - ((-n : Int) : K) = -(r - n) := by
    push_cast
    ring
  constructor
  · rw [mirrored, abs_neg]
    exact h.near
  · rw [mirrored, abs_neg, abs_neg, Int.cast_neg, abs_neg]
    exact h.tie

theorem cast_nonneg_of_neg_one_lt {n : Int} (h : (-1 : K) < n) : (0 : K) ≤ n := by
  have above : -1 < n := by exact_mod_cast h
  exact_mod_cast (by omega : 0 ≤ n)

theorem nearest_iff_of_nonneg {n : Int} {r : K} (hr : 0 ≤ r) :
    Nearest n r ↔ n ≤ r + 1 / 2 ∧ r < n + 1 / 2 := by
  constructor
  · intro h
    obtain ⟨low, high⟩ := abs_le.1 h.near
    refine ⟨by linarith, lt_of_le_of_ne (by linarith) ?_⟩
    intro half
    -- Of the two neighbours of a tie the lower one is nearer to zero.
    have tie : |r - n| = 1 / 2 := by
      rw [half, add_sub_cancel_left]
      exact abs_of_pos (by norm_num)
    have nonneg : (0 : K) ≤ n := cast_nonneg_of_neg_one_lt (by linarith)
    have farther := h.tie tie
    rw [abs_of_nonneg hr, abs_of_nonneg nonneg] at farther
    linarith
  · rintro ⟨low, high⟩
    refine ⟨abs_le.2 ⟨by linarith, by linarith⟩, ?_⟩
    intro tie
    rcases (abs_eq (by norm_num)).1 tie with half | half
    · linarith
    · rw [abs_of_nonneg hr]
      exact (by linarith : r < n).trans_le (le_abs_self _)

/-- The nearest integer has the sign of the number, and its magnitude is nearest to that of it. -/
theorem nearest_iff {n : Int} {r : K} :
    Nearest n r ↔ 0 ≤ n * r ∧ |(n : K)| ≤ |r| + 1 / 2 ∧ |r| < |(n : K)| + 1 / 2 := by
  have nonneg (n : Int) (r : K) (hr : 0 ≤ r) :
      Nearest n r ↔ 0 ≤ n * r ∧ |(n : K)| ≤ |r| + 1 / 2 ∧ |r| < |(n : K)| + 1 / 2 := by
    rw [nearest_iff_of_nonneg hr, abs_of_nonneg hr]
    constructor
    · rintro ⟨low, high⟩
      have natural : (0 : K) ≤ n := cast_nonneg_of_neg_one_lt (by linarith)
      rw [abs_of_nonneg natural]
      exact ⟨mul_nonneg natural hr, low, high⟩
    · rintro ⟨sign, low, high⟩
      have natural : (0 : K) ≤ n := by
        by_contra negative
        rw [not_le] at negative
        have zero : r = 0 := by nlinarith
        rw [abs_of_neg negative, zero] at low
        have natural : (0 : K) ≤ n := cast_nonneg_of_neg_one_lt (by linarith)
        linarith
      rw [abs_of_nonneg natural] at low high
      exact ⟨low, high⟩
  rcases le_total 0 r with hr | hr
  · exact nonneg n r hr
  · have mirrored := nonneg (-n) (-r) (by linarith)
    rw [Int.cast_neg, neg_mul_neg, abs_neg, abs_neg] at mirrored
    rw [← mirrored]
    constructor
    · exact nearest_neg
    · intro h
      have back := nearest_neg h
      rwa [neg_neg, neg_neg] at back

theorem Nearest.unique {m n : Int} {r : K} (hm : Nearest m r) (hn : Nearest n r) : m = n := by
  have nonneg (m n : Int) (r : K) (hr : 0 ≤ r) (hm : Nearest m r) (hn : Nearest n r) : m = n := by
    obtain ⟨low, high⟩ := (nearest_iff_of_nonneg hr).1 hm
    obtain ⟨low', high'⟩ := (nearest_iff_of_nonneg hr).1 hn
    have le : (m : K) < n + 1 := by linarith
    have ge : (n : K) < m + 1 := by linarith
    norm_cast at le ge
    omega
  rcases le_total 0 r with hr | hr
  · exact nonneg m n r hr hm hn
  · have same := nonneg (-m) (-n) (-r) (by linarith) (nearest_neg hm) (nearest_neg hn)
    omega

/-- A larger number is not rounded to a smaller integer. -/
theorem Nearest.mono {m n : Int} {r s : K} (hm : Nearest m r) (hn : Nearest n s) (h : r ≤ s) :
    m ≤ n := by
  rcases h.eq_or_lt with rfl | less
  · exact (hm.unique hn).le
  · -- Only a tie is half an integer away from its neighbour, and one number is not two ties.
    have low := (abs_le.1 hm.near).1
    have high := (abs_le.1 hn.near).2
    have below : (m : K) < n + 1 := by linarith
    have next : m < n + 1 := by exact_mod_cast below
    exact Int.lt_add_one_iff.1 next

theorem nearest_intCast (n : Int) : Nearest n (n : K) := by
  constructor
  · rw [sub_self, abs_zero]
    norm_num
  · intro tie
    rw [sub_self, abs_zero] at tie
    norm_num at tie

/-- Dividing by an even number, the ties are integers, so the bounds of what is rounded to n are
known to a whole one. -/
theorem Nearest.bounds {m n : Int} {half : Nat} (hh : 0 < half)
    (h : Nearest n ((m : K) / (2 * half))) :
    0 ≤ n * m ∧ 2 * half * |n| ≤ |m| + half ∧ |m| + 1 ≤ 2 * half * |n| + half := by
  have pos : (0 : K) < 2 * half := by
    have : (0 : K) < half := Nat.cast_pos.2 hh
    linarith
  obtain ⟨sign, low, high⟩ := nearest_iff.1 h
  rw [abs_div, abs_of_pos pos] at low high
  rw [← mul_div_assoc] at sign
  have least : 2 * half * |(n : K)| ≤ |(m : K)| + half := by
    rw [← sub_le_iff_le_add, le_div_iff₀ pos] at low
    linarith
  have most : |(m : K)| < 2 * half * |(n : K)| + half := by
    rw [div_lt_iff₀ pos] at high
    linarith
  have product : (0 : K) ≤ n * m := by
    have := mul_nonneg sign pos.le
    rwa [div_mul_cancel₀ _ pos.ne'] at this
  refine ⟨by exact_mod_cast product, by exact_mod_cast least, ?_⟩
  have strict : |m| < 2 * half * |n| + half := by exact_mod_cast most
  omega

/-- The nearest integer where a number counts as a tie already a little in front of one. -/
structure NearestEarly (early : K) (n : Int) (r : K) : Prop where
  sign : 0 ≤ n * r
  low : |(n : K)| ≤ |r| + 1 / 2 + early
  high : |r| < |(n : K)| + 1 / 2 - early

/-- It is the nearest integer but for the numbers that count too early. -/
theorem NearestEarly.nearest_iff {early : K} {n : Int} {r : K} (h : NearestEarly early n r)
    (positive : 0 ≤ early) :
    Nearest n r ↔ ∀ m : Nat, ¬(m + 1 / 2 - early ≤ |r| ∧ |r| < m + 1 / 2) := by
  obtain ⟨sign, low, high⟩ := h
  rw [Numeric.nearest_iff]
  constructor
  · rintro ⟨-, least, -⟩ m ⟨from_below, before⟩
    -- The tie in front of which the number lies would be both above and below the integer.
    have above : (m : K) < |(n : K)| := by linarith
    have below : |(n : K)| < m + 1 := by linarith
    norm_cast at above below
    omega
  · intro apart
    refine ⟨sign, ?_, by linarith⟩
    by_contra early_tie
    rw [not_le] at early_tie
    have nonzero : 0 < n.natAbs := by
      rw [Int.natAbs_pos]
      rintro rfl
      rw [Int.cast_zero, abs_zero] at early_tie
      linarith [abs_nonneg r]
    have before : ((n.natAbs - 1 : Nat) : K) = |(n : K)| - 1 := by
      rw [Nat.cast_pred nonzero, Nat.cast_natAbs, Int.cast_abs]
    apply apart (n.natAbs - 1)
    rw [before]
    constructor <;> linarith

theorem Nearest.natCast_le_abs {n : Int} {r : K} (h : Nearest n r) (a : Nat) (ha : a ≤ |r|) :
    (a : K) ≤ |(n : K)| := by
  obtain ⟨-, -, high⟩ := nearest_iff.1 h
  have above : (a : K) < |(n : K)| + 1 := by linarith
  have next : (a : Int) < |n| + 1 := by exact_mod_cast above
  exact_mod_cast Int.lt_add_one_iff.1 next

theorem Nearest.abs_le_natCast {n : Int} {r : K} (h : Nearest n r) (b : Nat) (hb : |r| < b) :
    |(n : K)| ≤ b := by
  obtain ⟨-, low, -⟩ := nearest_iff.1 h
  have below : |(n : K)| < b + 1 := by linarith
  have next : |n| < (b : Int) + 1 := by exact_mod_cast below
  exact_mod_cast Int.lt_add_one_iff.1 next

/-- Rounding to a multiple of a unit passes no multiple. -/
theorem Nearest.abs_mul_bounds {n : Int} {r unit : K} (h : Nearest n (r / unit)) (pos : 0 < unit)
    (a b : Nat) (low : a * unit ≤ |r|) (high : |r| < b * unit) :
    a * unit ≤ |n * unit| ∧ |n * unit| ≤ b * unit := by
  have scaled : |r / unit| = |r| / unit := by rw [abs_div, abs_of_pos pos]
  rw [abs_mul, abs_of_pos pos]
  constructor
  · refine mul_le_mul_of_nonneg_right (h.natCast_le_abs a ?_) pos.le
    rwa [scaled, le_div_iff₀ pos]
  · refine mul_le_mul_of_nonneg_right (h.abs_le_natCast b ?_) pos.le
    rwa [scaled, div_lt_iff₀ pos]

/-- Rounding to an integer and then to an even number of them meets each tie half an integer too
early. -/
theorem nearestEarly_of_twice {m n : Int} {half : Nat} {r : K} (hh : 0 < half)
    (first : Nearest m (r * (2 * half))) (second : Nearest n ((m : K) / (2 * half))) :
    NearestEarly (1 / (2 * (2 * half)) : K) n r := by
  have pos : (0 : K) < 2 * half := by
    have : (0 : K) < half := Nat.cast_pos.2 hh
    linarith
  obtain ⟨sign, low, high⟩ := Numeric.nearest_iff.1 first
  obtain ⟨sign', low', high'⟩ := second.bounds hh
  rw [abs_mul, abs_of_pos pos] at low high
  have least : 2 * half * |(n : K)| ≤ |(m : K)| + half := by exact_mod_cast low'
  have most : |(m : K)| + 1 ≤ 2 * half * |(n : K)| + half := by exact_mod_cast high'
  have whole : 1 / (2 * (2 * half)) * (2 * half) = (1 / 2 : K) := by field_simp
  constructor
  · have outer : (0 : K) ≤ n * m := by exact_mod_cast sign'
    have inner : 0 ≤ m * r := by
      rw [← mul_assoc] at sign
      exact nonneg_of_mul_nonneg_left sign pos
    rcases eq_or_ne m 0 with rfl | hm
    · -- What rounds to zero first rounds to zero.
      have zero : n = 0 := by
        have small : 2 * half * |n| ≤ half := by simpa using low'
        by_contra nonzero
        have one : 1 ≤ |n| := Int.one_le_abs nonzero
        nlinarith
      simp [zero]
    · have square : (0 : K) < (m : K) * m := mul_self_pos.2 (by exact_mod_cast hm)
      have both : (0 : K) ≤ (n * r) * (m * m) := by
        calc
          (0 : K) ≤ (n * m) * (m * r) := mul_nonneg outer inner
          _ = (n * r) * (m * m) := by ring
      exact nonneg_of_mul_nonneg_left both square
  · refine le_of_mul_le_mul_right ?_ pos
    linarith
  · refine lt_of_mul_lt_mul_right ?_ pos.le
    linarith

/-- Rounding finds the nearest integer. -/
theorem nearest_halfAway (n : Int) (d : Nat) (hd : 0 < d) :
    Nearest (halfAway n d) ((n : K) / d) := by
  have pos : (0 : K) < d := Nat.cast_pos.2 hd
  have nonneg (m : Nat) : Nearest (halfAway m d) (((m : Int) : K) / d) := by
    let q := (2 * m + d) / (2 * d)
    have low : (2 * d * q : K) ≤ 2 * m + d := by exact_mod_cast Nat.mul_div_le (2 * m + d) (2 * d)
    have high : (2 * m + d : K) < 2 * d * (q + 1) := by
      exact_mod_cast Nat.lt_mul_div_succ (2 * m + d) (by omega : 0 < 2 * d)
    have rounded : ((halfAway m d : Int) : K) = q := by
      rw [halfAway_of_nonneg (Int.natCast_nonneg m), Int.natAbs_natCast, Int.cast_natCast]
    have above : (q : K) - 1 / 2 ≤ m / d := by
      rw [le_div_iff₀ pos]
      linarith
    have below : (m : K) / d < q + 1 / 2 := by
      rw [div_lt_iff₀ pos]
      linarith
    rw [nearest_iff_of_nonneg (by positivity), rounded, Int.cast_natCast]
    exact ⟨by linarith, below⟩
  obtain ⟨m, rfl | rfl⟩ := n.eq_nat_or_neg
  · exact nonneg m
  · rw [halfAway_neg, Int.cast_neg, neg_div]
    exact nearest_neg (nonneg m)

/-- Only one multiple of a unit is less than half of it away. -/
theorem eq_of_near_multiples (m n : Int) (x unit : K) (pos : 0 < unit)
    (hm : |x - m * unit| ≤ unit / 2) (hn : |x - n * unit| < unit / 2) : m = n := by
  have close : |((m - n : Int) : K)| < 1 := by
    have product : |((m - n : Int) : K) * unit| < 1 * unit := by
      have difference : ((m - n : Int) : K) * unit = (x - n * unit) - (x - m * unit) := by
        push_cast
        ring
      rw [difference]
      exact (abs_sub _ _).trans_lt (by linarith)
    rw [abs_mul, abs_of_pos pos] at product
    exact lt_of_mul_lt_mul_right product pos.le
  have integral : |m - n| < 1 := by exact_mod_cast close
  have zero := Int.abs_lt_one_iff.1 integral
  omega

/-- Rounding that prefers an even neighbour moves a quotient by at most a half too. -/
theorem abs_div_sub_halfEven_le (n d : Nat) (hd : 0 < d) :
    |(n : K) / d - halfEven n d| ≤ 1 / 2 := by
  have pos : (0 : K) < d := Nat.cast_pos.2 hd
  have split : (d * (n / d : Nat) + (n % d : Nat) : K) = n := by exact_mod_cast Nat.div_add_mod n d
  have quotient : (n : K) / d = (n / d : Nat) + (n % d : Nat) / d := by
    rw [← split]
    field_simp
  have rest : ((n % d : Nat) : K) < d := by exact_mod_cast Nat.mod_lt n hd
  have some : (0 : K) ≤ (n % d : Nat) / d := by positivity
  have part : ((n % d : Nat) : K) / d < 1 := (div_lt_one pos).2 rest
  rw [halfEven, quotient]
  split
  · rename_i up
    have half : (d : K) ≤ 2 * (n % d : Nat) := by
      have : d ≤ 2 * (n % d) := by omega
      exact_mod_cast this
    have least : (1 : K) / 2 ≤ (n % d : Nat) / d := by
      rw [le_div_iff₀ pos]
      linarith
    push_cast
    rw [abs_le]
    constructor <;> linarith
  · rename_i down
    have half : (2 * (n % d : Nat) : K) ≤ d := by
      have : 2 * (n % d) ≤ d := by omega
      exact_mod_cast this
    have most : ((n % d : Nat) : K) / d ≤ 1 / 2 := by
      rw [div_le_iff₀ pos]
      linarith
    rw [abs_le]
    constructor <;> linarith

/-- The integer nearest to a number; of two that are equally near, the even one. -/
structure NearestEven (n : Int) (r : K) : Prop where
  near : |r - n| ≤ 1 / 2
  tie : |r - n| = 1 / 2 → Even n

omit [IsStrictOrderedRing K] in
theorem nearestEven_neg {n : Int} {r : K} (h : NearestEven n r) : NearestEven (-n) (-r) := by
  have mirrored : -r - ((-n : Int) : K) = -(r - n) := by
    push_cast
    ring
  constructor
  · rw [mirrored, abs_neg]
    exact h.near
  · intro tie
    rw [mirrored, abs_neg] at tie
    exact (h.tie tie).neg

theorem nearestEven_intCast (n : Int) : NearestEven n (n : K) := by
  constructor
  · rw [sub_self, abs_zero]
    norm_num
  · intro tie
    rw [sub_self, abs_zero] at tie
    norm_num at tie

/-- A quotient is as far from both its neighbours where the remainder is half of the divisor. -/
theorem two_mul_mod_of_tie (n d q : Nat) (hd : 0 < d) (hq : q = n / d ∨ q = n / d + 1)
    (tie : |(n : K) / d - q| = 1 / 2) : 2 * (n % d) = d := by
  have pos : (0 : K) < d := Nat.cast_pos.2 hd
  have product : 2 * ((n : K) - q * d) = 2 * d * ((n : K) / d - q) := by field_simp
  have scaled : |2 * ((n : K) - q * d)| = d := by
    rw [product, abs_mul, tie, abs_of_pos (by linarith)]
    ring
  have integral : |2 * ((n : Int) - q * d)| = d := by exact_mod_cast scaled
  have split := Nat.div_add_mod n d
  have rest := Nat.mod_lt n hd
  have multiple : q * d = d * (n / d) ∨ q * d = d * (n / d) + d := by
    rcases hq with rfl | rfl
    · exact .inl (Nat.mul_comm _ _)
    · exact .inr (by rw [Nat.add_one_mul, Nat.mul_comm])
  have cast : ((q * d : Nat) : Int) = q * d := Nat.cast_mul q d
  rw [← cast, Int.abs_eq_natAbs] at integral
  omega

/-- Rounding that prefers an even neighbour finds the nearest integer and keeps to its preference.
-/
theorem nearestEven_halfEven (n d : Nat) (hd : 0 < d) :
    NearestEven (halfEven n d : Int) ((n : K) / d) := by
  refine ⟨by exact_mod_cast abs_div_sub_halfEven_le (K := K) n d hd, ?_⟩
  intro tie
  rw [Int.cast_natCast] at tie
  rw [Int.even_coe_nat]
  rw [halfEven] at tie ⊢
  split at tie
  · rename_i up
    have half := two_mul_mod_of_tie n d _ hd (.inr rfl) tie
    have odd : n / d % 2 = 1 := by omega
    rw [if_pos up]
    exact (Nat.odd_iff.2 odd).add_one
  · rename_i down
    have half := two_mul_mod_of_tie n d _ hd (.inl rfl) tie
    rw [if_neg down]
    exact Nat.even_iff.2 (by omega)

end Reckoner.Numeric
