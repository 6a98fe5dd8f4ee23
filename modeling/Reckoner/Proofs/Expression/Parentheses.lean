import Reckoner.Proofs.Expression.Conservation

namespace Reckoner

namespace Token

/-- The tokens in front of the first open parenthesis. -/
def front (ts : List Token) : List Token :=
  ts.takeWhile (!·.isOpenParen)

/-- The fault of a postfix list with an open parenthesis: one of what is computed in front of it
comes first. -/
def frontFault (ts : List Token) : Fault :=
  match (front ts).foldlM step [] with
  | .error f => f
  | .ok _ => .unclosedParenthesis

/-- A run ends at the first open parenthesis, or before. -/
theorem run_of_open (ts : List Token) (values : List Decimal) (h : openParen ∈ ts) :
    ts.foldlM step values =
      (front ts).foldlM step values >>= fun _ => .error .unclosedParenthesis := by
  induction ts generalizing values with
  | nil => contradiction
  | cons t ts ih =>
    by_cases ho : t = openParen
    · rw [ho]
      rfl
    · have kept : (!t.isOpenParen) = true := by
        cases t with
        | openParen => contradiction
        | _ => rfl
      have rest : openParen ∈ ts := (List.mem_cons.1 h).resolve_left (Ne.symm ho)
      have split : front (t :: ts) = t :: front ts := List.takeWhile_cons_of_pos kept
      rw [split, List.foldlM_cons, List.foldlM_cons]
      cases step values t with
      | error f => rfl
      | ok next => exact ih next rest

theorem evaluatePostfix_of_open (ts : List Token) (h : openParen ∈ ts) :
    evaluatePostfix ts = .error (frontFault ts) := by
  rw [evaluatePostfix, run_of_open ts [] h, frontFault]
  cases (front ts).foldlM step [] <;> rfl

/-- Parentheses that do not balance are refused on the way to postfix order, or one of them is left
open there. -/
theorem toPostfix_of_unbalanced (ts : List Token) (hb : balanced ts = false) :
    toPostfix ts = .error .unopenedParenthesis ∨
      ∃ out, toPostfix ts = .ok out ∧ openParen ∈ out := by
  cases hr : toPostfix ts with
  | error f =>
    left
    rw [arrange_error [] ts f hr]
  | ok out =>
    right
    refine ⟨out, rfl, Decidable.byContradiction fun none => ?_⟩
    have depth := depth_toPostfix ts out hr
    rw [(opens_eq_zero_iff out).2 none] at depth
    rw [balanced, depth] at hb
    contradiction

end Token

open Token

/-- An expression whose parentheses do not balance has no value. One that closes a parenthesis too
early is refused for that; else the fault is that of the first parenthesis left open, or one met in
front of it in postfix order. -/
theorem evaluate_of_unbalanced (s : String) (ts : List Token) (hs : tokens s = .ok ts)
    (hb : balanced ts = false) :
    ∃ f, evaluate s = .error f ∧
      (depth? 0 ts = none → f = .unopenedParenthesis) ∧
      ∀ out, toPostfix ts = .ok out → f = frontFault out := by
  obtain refused | ⟨out, arranged, left⟩ := toPostfix_of_unbalanced ts hb
  · refine ⟨.unopenedParenthesis, ?_, fun _ => rfl, ?_⟩
    · rw [evaluate, hs]
      change toPostfix ts >>= _ = _
      rw [refused]
      rfl
    · intro out arranged
      rw [refused] at arranged
      contradiction
  · refine ⟨frontFault out, ?_, ?_, ?_⟩
    · rw [evaluate, hs]
      change toPostfix ts >>= _ = _
      rw [arranged]
      change evaluatePostfix out >>= _ = _
      rw [evaluatePostfix_of_open out left]
      rfl
    · intro early
      have depth := depth_toPostfix ts out arranged
      rw [early] at depth
      contradiction
    · intro other harranged
      rw [arranged] at harranged
      injection harranged with same
      rw [same]

/-- In 2 ÷ ( 0 the quotient waits behind the open parenthesis, so it is not computed. -/
theorem evaluate_of_unbalanced_waiting :
    let ts : List Token := [.num (.ofInt 2), .binary .div, .openParen, .num .zero]
    tokens "2 ÷ ( 0" = .ok ts ∧ balanced ts = false ∧
      ∃ f, evaluate "2 ÷ ( 0" = .error f ∧
        (depth? 0 ts = none → f = .unopenedParenthesis) ∧
        ∀ out, toPostfix ts = .ok out → f = frontFault out := by
  intro ts
  have read : tokens "2 ÷ ( 0" = .ok ts := rfl
  have open_left : balanced ts = false := rfl
  exact ⟨read, open_left, evaluate_of_unbalanced _ ts read open_left⟩

/-- Inside a parenthesis that is never closed, a division by zero is met first. -/
theorem evaluate_unclosed_quotient :
    let ts : List Token := [.openParen, .num .one, .binary .div, .num .zero]
    tokens "( 1 ÷ 0" = .ok ts ∧ balanced ts = false ∧
      evaluate "( 1 ÷ 0" = .error .divisionByZero ∧
      Fault.divisionByZero.kind = .mathematical := by
  intro ts
  exact ⟨rfl, rfl, rfl, rfl⟩

end Reckoner
