import Reckoner.Proofs.Expression.Juxtaposition

namespace Reckoner.Token

/-- A prefix of a list is empty, and then closes nothing, or goes on behind the first token. -/
theorem exists_overclosed_cons (n : Nat) (t : Token) (ts : List Token) :
    (∃ p, p <+: t :: ts ∧ n + p.count openParen < p.count closeParen) ↔
      ∃ p, p <+: ts ∧ n + [t].count openParen + p.count openParen <
        [t].count closeParen + p.count closeParen := by
  have split (x : Token) (p : List Token) : (t :: p).count x = [t].count x + p.count x := by
    rw [← List.singleton_append, List.count_append]
  constructor
  · rintro ⟨p, hp, more⟩
    rcases List.prefix_cons_iff.1 hp with rfl | ⟨q, rfl, hq⟩
    · simp at more
    · rw [split openParen, split closeParen] at more
      exact ⟨q, hq, by omega⟩
  · rintro ⟨p, hp, more⟩
    refine ⟨t :: p, List.cons_prefix_cons.2 ⟨rfl, hp⟩, ?_⟩
    rw [split openParen, split closeParen]
    omega

/-- There is no depth where some of the first tokens close more parentheses than are open. -/
theorem depth_eq_none_iff (n : Nat) (ts : List Token) :
    depth? n ts = none ↔ ∃ p, p <+: ts ∧ n + p.count openParen < p.count closeParen := by
  induction ts generalizing n with
  | nil => simp [depth?]
  | cons t ts ih =>
    rw [exists_overclosed_cons]
    cases t with
    | openParen =>
      change depth? (n + 1) ts = none ↔
        ∃ p, p <+: ts ∧ n + 1 + p.count openParen < 0 + p.count closeParen
      rw [ih]
      simp only [Nat.zero_add]
    | closeParen =>
      change (if n = 0 then none else depth? (n - 1) ts) = none ↔
        ∃ p, p <+: ts ∧ n + p.count openParen < 1 + p.count closeParen
      by_cases first : n = 0
      · rw [if_pos first, first]
        exact iff_of_true rfl ⟨[], List.nil_prefix, by decide⟩
      · rw [if_neg first, ih]
        refine exists_congr fun p => and_congr_right fun _ => ?_
        omega
    | _ =>
      change depth? n ts = none ↔ ∃ p, p <+: ts ∧ n + p.count openParen < 0 + p.count closeParen
      rw [ih]
      simp only [Nat.zero_add]

/-- Of the tokens that never wait, a token releases itself if it is a number, and else none. -/
theorem filter_shift (waiting : List Token) (t : Token) (out behind : List Token)
    (hw : ∀ x ∈ waiting, x.waits) (h : shift? waiting t = some (out, behind)) :
    out.filter (!·.waits) = [t].filter isNumber ∧ ∀ x ∈ behind, x.waits := by
  have none (ts : List Token) (hts : ∀ x ∈ ts, x.waits) : ts.filter (!·.waits) = [] := by
    simpa [List.filter_eq_nil_iff] using hts
  by_cases ht : t.waits
  · have other : t.isNumber = false := by
      cases t with
      | num x => contradiction
      | _ => rfl
    rw [shift_of_waits waiting t ht] at h
    simp only [Option.some.injEq, Prod.mk.injEq] at h
    obtain ⟨rfl, rfl⟩ := h
    have kept := mem_of_takeWhile_or_dropWhile (releases t) waiting
    refine ⟨?_, List.forall_mem_cons.2 ⟨ht, fun x hx => hw x (kept x (.inr hx))⟩⟩
    rw [none _ fun x hx => hw x (kept x (.inl hx))]
    simp [other]
  · cases t with
    | num x =>
      simp only [shift?, Option.some.injEq, Prod.mk.injEq] at h
      obtain ⟨rfl, rfl⟩ := h
      exact ⟨rfl, hw⟩
    | closeParen =>
      obtain ⟨hs, -⟩ | ⟨inner, outer, rfl, -, hs⟩ := shift_closeParen waiting
      · simp [hs] at h
      · rw [hs] at h
        simp only [Option.some.injEq, Prod.mk.injEq] at h
        obtain ⟨rfl, rfl⟩ := h
        obtain ⟨hi, ho⟩ := List.forall_mem_append.1 hw
        exact ⟨none _ hi, fun x hx => ho x (List.mem_cons_of_mem _ hx)⟩
    | _ => exact absurd rfl ht

/-- What comes out of a list and never waits are its numbers, in their order. -/
theorem filter_arrange (waiting ts out : List Token) (hw : ∀ x ∈ waiting, x.waits)
    (h : arrange waiting ts = .ok out) : out.filter (!·.waits) = ts.filter isNumber := by
  induction ts generalizing waiting out with
  | nil =>
    rw [arrange_nil] at h
    injection h with h
    rw [← h]
    simpa [List.filter_eq_nil_iff] using hw
  | cons t ts ih =>
    obtain ⟨first, behind, rest, hs, hr, rfl⟩ := arrange_cons_ok waiting t ts out h
    obtain ⟨number, hb⟩ := filter_shift waiting t first behind hw hs
    rw [List.filter_append, number, ih behind rest hb hr, ← List.filter_append,
      List.singleton_append]

/-- What postfix order keeps of a list: its numbers in their order, and every other token, but that
each closing parenthesis vanishes with one that opens. -/
structure Rearranges (ts out : List Token) : Prop where
  numbers : out.filter isNumber = ts.filter isNumber
  closed : closeParen ∉ out
  opened : (out.count openParen : Int) = ts.count openParen - ts.count closeParen
  perm : (out ++ vanished ts).Perm ts

theorem rearranges_of_toPostfix (ts out : List Token) (h : toPostfix ts = .ok out) :
    Rearranges ts out := by
  have operands := filter_arrange [] ts out (List.forall_mem_nil _) h
  have perm : (out ++ vanished ts).Perm ts := arrange_perm [] ts out h
  refine ⟨?_, ?_, ?_, perm⟩
  · have never (x : Token) : (x.isNumber && !x.waits) = x.isNumber := by cases x <;> rfl
    have both := congrArg (List.filter isNumber) operands
    simpa only [List.filter_filter, never, Bool.and_self] using both
  · intro hx
    have number : closeParen ∈ ts.filter isNumber := by
      rw [← operands]
      exact List.mem_filter.2 ⟨hx, rfl⟩
    exact absurd (List.mem_filter.1 number).2 (by decide)
  · have count := perm.count_eq openParen
    rw [vanished, List.count_append, List.count_append, List.count_replicate_self,
      List.count_replicate, if_neg (by decide)] at count
    omega

/-- Postfix order is refused where some of the first tokens close more parentheses than they open,
and only there; else it rearranges the tokens. -/
theorem toPostfix_rearranges (ts : List Token) :
    match toPostfix ts with
    | .error f => f.report = ⟨.syntactic, "unopened parenthesis"⟩ ∧
        ∃ p, p <+: ts ∧ p.count openParen < p.count closeParen
    | .ok out => (∀ p, p <+: ts → p.count closeParen ≤ p.count openParen) ∧ Rearranges ts out := by
  have overclosed := depth_eq_none_iff 0 ts
  simp only [Nat.zero_add] at overclosed
  cases h : toPostfix ts with
  | error f =>
    obtain rfl := arrange_error [] ts f h
    exact ⟨rfl, overclosed.1 (depth_toPostfix_error ts _ h)⟩
  | ok out =>
    refine ⟨fun p hp => Nat.le_of_not_lt fun more => ?_, rearranges_of_toPostfix ts out h⟩
    have none := overclosed.2 ⟨p, hp, more⟩
    rw [depth_toPostfix ts out h] at none
    contradiction

end Reckoner.Token
