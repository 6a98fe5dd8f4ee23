import Reckoner.Proofs.Expression.Arrangement
import Reckoner.Proofs.Expression.Traversal

namespace Reckoner.Token

theorem takeWhile_releases_append (t : Token) (inner outer : List Token) :
    (inner ++ openParen :: outer).takeWhile (releases t) = inner.takeWhile (releases t) := by
  induction inner with
  | nil => exact List.takeWhile_cons_of_neg (by simp)
  | cons x inner ih =>
    by_cases h : releases t x
    · rw [List.cons_append, List.takeWhile_cons_of_pos h, List.takeWhile_cons_of_pos h, ih]
    · rw [List.cons_append, List.takeWhile_cons_of_neg h, List.takeWhile_cons_of_neg h]

theorem dropWhile_releases_append (t : Token) (inner outer : List Token) :
    (inner ++ openParen :: outer).dropWhile (releases t) =
      inner.dropWhile (releases t) ++ openParen :: outer := by
  induction inner with
  | nil => exact List.dropWhile_cons_of_neg (by simp)
  | cons x inner ih =>
    by_cases h : releases t x
    · rw [List.cons_append, List.dropWhile_cons_of_pos h, List.dropWhile_cons_of_pos h, ih]
    · rw [List.cons_append, List.dropWhile_cons_of_neg h, List.dropWhile_cons_of_neg h,
        List.cons_append]

/-- What waits below an open parenthesis is out of reach, as long as nothing closes it. -/
theorem shift_above_openParen (inner outer out behind : List Token) (t : Token)
    (h : shift? inner t = some (out, behind)) :
    shift? (inner ++ openParen :: outer) t = some (out, behind ++ openParen :: outer) := by
  have front := takeWhile_releases_append t inner outer
  have back := dropWhile_releases_append t inner outer
  cases t with
  | num x =>
    simp only [shift?, Option.some.injEq, Prod.mk.injEq] at h ⊢
    obtain ⟨rfl, rfl⟩ := h
    exact ⟨rfl, rfl⟩
  | closeParen =>
    simp only [shift?, front, back] at h ⊢
    cases hd : inner.dropWhile (releases closeParen) with
    | nil => simp [hd] at h
    | cons p rest =>
      simp only [hd, Option.some.injEq, Prod.mk.injEq] at h
      obtain ⟨rfl, rfl⟩ := h
      rfl
  | _ =>
    simp only [shift?, front, back, Option.some.injEq, Prod.mk.injEq] at h ⊢
    obtain ⟨rfl, rfl⟩ := h
    exact ⟨rfl, rfl⟩

theorem shiftAll_above_openParen (inner outer out behind ts : List Token)
    (h : shiftAll? inner ts = some (out, behind)) :
    shiftAll? (inner ++ openParen :: outer) ts = some (out, behind ++ openParen :: outer) := by
  induction ts generalizing inner out with
  | nil =>
    simp only [shiftAll?, Option.some.injEq, Prod.mk.injEq] at h ⊢
    obtain ⟨rfl, rfl⟩ := h
    exact ⟨rfl, rfl⟩
  | cons t ts ih =>
    rw [shiftAll?] at h ⊢
    cases hs : shift? inner t with
    | none => simp [hs] at h
    | some p =>
      obtain ⟨first, next⟩ := p
      rw [hs] at h
      obtain ⟨q, hq, heq⟩ := Option.map_eq_some_iff.1 h
      injection heq with hout hbehind
      subst hout hbehind
      rw [shift_above_openParen inner outer first next t hs]
      simp only [ih next q.1 hq, Option.map_some]

/-- A group that leaves no parenthesis open goes to the output as if nothing stood around it. -/
theorem arrange_group (waiting ts after out : List Token) (h : toPostfix ts = .ok out)
    (hopen : openParen ∉ out) :
    arrange waiting (openParen :: (ts ++ closeParen :: after)) =
      emit out (arrange waiting after) := by
  rw [toPostfix, arrange_eq_shiftAll] at h
  cases hs : shiftAll? [] ts with
  | none => simp [hs] at h
  | some p =>
    obtain ⟨first, inner⟩ := p
    rw [hs] at h
    injection h with h
    subst h
    have push : arrange waiting (openParen :: (ts ++ closeParen :: after)) =
        arrange (openParen :: waiting) (ts ++ closeParen :: after) :=
      arrange_push waiting _ openParen rfl fun _ _ => rfl
    have inside : shiftAll? (openParen :: waiting) ts =
        some (first, inner ++ openParen :: waiting) :=
      shiftAll_above_openParen [] waiting first inner ts hs
    have close : arrange (inner ++ openParen :: waiting) (closeParen :: after) =
        emit inner (arrange waiting after) :=
      arrange_closeParen inner waiting after fun hx => hopen (List.mem_append_right first hx)
    rw [push, arrange_append, inside]
    simp only [close, emit_emit]

/-- Lists that run alike between the same neighbours have the same outcome there. -/
theorem evaluatePostfix_emit_congr (out a b : List Token) (r : Except Fault (List Token))
    (h : ∀ values, a.foldlM step values = b.foldlM step values) :
    (emit out (emit a r) >>= evaluatePostfix) = (emit out (emit b r) >>= evaluatePostfix) := by
  cases r with
  | error f => rfl
  | ok rest =>
    change evaluatePostfix (out ++ (a ++ rest)) = evaluatePostfix (out ++ (b ++ rest))
    have runs : (out ++ (a ++ rest)).foldlM step [] = (out ++ (b ++ rest)).foldlM step [] := by
      simp only [List.foldlM_append, h]
    rw [evaluatePostfix, evaluatePostfix, runs]

/-- A group in parentheses may be replaced by its value, whatever stands around it. -/
theorem group_eq_value (before ts after r : List Token) (v : Decimal) (hr : toPostfix ts = .ok r)
    (hv : evaluatePostfix r = .ok (some v)) :
    (toPostfix (before ++ openParen :: (ts ++ closeParen :: after)) >>= evaluatePostfix) =
      (toPostfix (before ++ num v :: after) >>= evaluatePostfix) := by
  obtain ⟨t, rfl, hvalue⟩ := Tree.exists_of_evaluatePostfix r v hv
  have closed : openParen ∉ t.traverse := fun hx => (t.traverse_no_paren _ hx).1 rfl
  have runs (values : List Decimal) :
      t.traverse.foldlM step values = [num v].foldlM step values := by
    rw [t.run_traverse, hvalue]
    rfl
  rw [toPostfix, toPostfix, arrange_append, arrange_append]
  cases shiftAll? [] before with
  | none => rfl
  | some p =>
    obtain ⟨out, waiting⟩ := p
    have group := arrange_group waiting ts after t.traverse hr closed
    simp only [group, arrange_num]
    exact evaluatePostfix_emit_congr out t.traverse [num v] (arrange waiting after) runs

/-- The text 2 × ( 1 + 2 ) ! ( is not well formed, and is refused like 2 × 3 ! ( is. -/
theorem group_eq_value_unclosed :
    let one : Decimal := .one
    let two : Decimal := .ofInt 2
    let sum : List Token := [num one, binary .add, num two]
    let sumPostfix : List Token := [num one, num two, binary .add]
    toPostfix sum = .ok sumPostfix ∧ evaluatePostfix sumPostfix = .ok (some (.ofInt 3)) ∧
      (toPostfix ([num two, binary .mul] ++ openParen ::
          (sum ++ closeParen :: [unary .factorial, openParen])) >>= evaluatePostfix) =
        (toPostfix ([num two, binary .mul] ++ num (.ofInt 3) ::
          [unary .factorial, openParen]) >>= evaluatePostfix) := by
  intro one two sum sumPostfix
  have arranged : toPostfix sum = .ok sumPostfix := rfl
  have evaluated : evaluatePostfix sumPostfix = .ok (some (.ofInt 3)) := rfl
  exact ⟨arranged, evaluated, group_eq_value [num two, binary .mul] sum
    [unary .factorial, openParen] sumPostfix (.ofInt 3) arranged evaluated⟩

end Reckoner.Token
