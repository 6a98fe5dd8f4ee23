import Reckoner.Proofs.Expression.Alternation

namespace Reckoner.Token

theorem opens_eq_zero_iff (ts : List Token) : opens ts = 0 ↔ openParen ∉ ts := by
  rw [opens, List.countP_eq_zero]
  refine ⟨fun h hx => h _ hx rfl, fun h x hx ho => ?_⟩
  cases x with
  | openParen => exact h hx
  | _ => contradiction

/-- A closing parenthesis is refused where no parenthesis is open, and else closes the latest. -/
theorem shift_closeParen (waiting : List Token) :
    (shift? waiting closeParen = none ∧ openParen ∉ waiting) ∨
      ∃ inner outer, waiting = inner ++ openParen :: outer ∧ openParen ∉ inner ∧
        shift? waiting closeParen = some (inner, outer) := by
  have split := List.takeWhile_append_dropWhile (p := releases closeParen) (l := waiting)
  have stop := List.head?_dropWhile_not (releases closeParen) waiting
  have inner : openParen ∉ waiting.takeWhile (releases closeParen) := by
    intro h
    have released : releases closeParen openParen := List.all_eq_true.1 List.all_takeWhile _ h
    simp at released
  cases hd : waiting.dropWhile (releases closeParen) with
  | nil =>
    left
    refine ⟨by simp only [shift?, hd], ?_⟩
    rw [hd, List.append_nil] at split
    rwa [split] at inner
  | cons p outer =>
    right
    rw [hd] at stop split
    obtain rfl : p = openParen := by
      cases p with
      | openParen => rfl
      | _ => contradiction
    exact ⟨_, outer, split.symm, inner, by simp only [shift?, hd]⟩

/-- The pairs of parentheses that postfix order does without, one for each that is closed. -/
def vanished (ts : List Token) : List Token :=
  List.replicate (ts.count closeParen) openParen ++ List.replicate (ts.count closeParen) closeParen

theorem countP_vanished_cons (p : Token → Bool) (t : Token) (ts : List Token) :
    (vanished (t :: ts)).countP p = (vanished [t]).countP p + (vanished ts).countP p := by
  have closed : (t :: ts).count closeParen = [t].count closeParen + ts.count closeParen := by
    rw [← List.singleton_append, List.count_append]
  simp only [vanished, closed, List.countP_append, List.countP_replicate]
  split <;> split <;> omega

/-- What a token releases, leaves waiting and makes vanish is what waited before and the token. -/
theorem shift_perm (waiting : List Token) (t : Token) (out behind : List Token)
    (h : shift? waiting t = some (out, behind)) :
    (out ++ behind ++ vanished [t]).Perm (waiting ++ [t]) := by
  rw [List.perm_iff_count]
  intro x
  by_cases hw : t.waits
  · have kept : vanished [t] = [] := by
      cases t with
      | num x | closeParen => contradiction
      | _ => rfl
    have split := List.takeWhile_append_dropWhile (p := releases t) (l := waiting)
    have count := congrArg (List.count x) split
    rw [shift_of_waits waiting t hw] at h
    simp only [Option.some.injEq, Prod.mk.injEq] at h
    obtain ⟨rfl, rfl⟩ := h
    rw [kept, ← List.singleton_append]
    simp only [List.count_append, List.count_nil] at count ⊢
    omega
  · cases t with
    | num y =>
      have kept : vanished [num y] = [] := rfl
      simp only [shift?, Option.some.injEq, Prod.mk.injEq] at h
      obtain ⟨rfl, rfl⟩ := h
      simp only [kept, List.count_append, List.count_nil]
      omega
    | closeParen =>
      have pair : vanished [closeParen] = [openParen] ++ [closeParen] := rfl
      obtain ⟨hs, -⟩ | ⟨inner, outer, hsplit, -, hs⟩ := shift_closeParen waiting
      · simp [hs] at h
      · rw [hs] at h
        simp only [Option.some.injEq, Prod.mk.injEq] at h
        obtain ⟨rfl, rfl⟩ := h
        rw [hsplit, pair, List.append_cons inner openParen outer]
        simp only [List.count_append]
        omega
    | _ => exact absurd rfl hw

/-- No token is lost or made up, but for the parentheses that vanish. -/
theorem arrange_perm (waiting ts out : List Token) (h : arrange waiting ts = .ok out) :
    (out ++ vanished ts).Perm (waiting ++ ts) := by
  induction ts generalizing waiting out with
  | nil =>
    rw [arrange_nil] at h
    injection h with h
    rw [h]
    exact List.Perm.refl _
  | cons t ts ih =>
    obtain ⟨first, behind, rest, hs, hr, rfl⟩ := arrange_cons_ok waiting t ts out h
    rw [List.append_cons waiting t ts, List.perm_iff_count]
    intro x
    have step := (shift_perm waiting t first behind hs).count_eq x
    have run := (ih behind rest hr).count_eq x
    have gone : (vanished (t :: ts)).count x = (vanished [t]).count x + (vanished ts).count x :=
      countP_vanished_cons (· == x) t ts
    simp only [List.count_append, gone] at step run ⊢
    omega

theorem countP_arrange (p : Token → Bool) (ho : p openParen = false) (hc : p closeParen = false)
    (waiting ts out : List Token) (h : arrange waiting ts = .ok out) :
    out.countP p = waiting.countP p + ts.countP p := by
  have count := (arrange_perm waiting ts out h).countP_eq p
  simpa [vanished, List.countP_append, List.countP_replicate, ho, hc] using count

/-- A shift releases no parenthesis, and those that wait behind it are the open ones. -/
theorem depth_shift (waiting : List Token) (t : Token) (ts : List Token) :
    match shift? waiting t with
    | none => depth? (opens waiting) (t :: ts) = none
    | some (out, behind) => opens out = 0 ∧
        depth? (opens waiting) (t :: ts) = depth? (opens behind) ts := by
  by_cases hw : t.waits
  · rw [shift_of_waits waiting t hw]
    have split := opens_append (waiting.takeWhile (releases t)) (waiting.dropWhile (releases t))
    have kept := opens_dropWhile waiting t
    rw [List.takeWhile_append_dropWhile] at split
    refine ⟨by omega, ?_⟩
    rw [opens_cons, kept]
    cases t with
    | num x | closeParen => contradiction
    | _ => rfl
  · cases t with
    | num x => exact ⟨rfl, rfl⟩
    | closeParen =>
      obtain ⟨hs, hn⟩ | ⟨inner, outer, rfl, hn, hs⟩ := shift_closeParen waiting
      · have none := (opens_eq_zero_iff waiting).2 hn
        simp [hs, depth?, none]
      · have none := (opens_eq_zero_iff inner).2 hn
        simp [hs, depth?, opens_append, opens_cons, isOpenParen, none]
    | _ => exact absurd rfl hw

theorem depth_arrange (waiting ts : List Token) :
    depth? (opens waiting) ts =
      match arrange waiting ts with
      | .ok out => some (opens out)
      | .error _ => none := by
  induction ts generalizing waiting with
  | nil => rw [arrange_nil, depth?]
  | cons t ts ih =>
    have step := depth_shift waiting t ts
    rw [arrange_cons]
    cases hs : shift? waiting t with
    | none => simpa [hs] using step
    | some s =>
      obtain ⟨out, behind⟩ := s
      simp only [hs] at step ⊢
      rw [step.2, ih behind]
      cases arrange behind ts with
      | error f => rfl
      | ok rest => simp [opens_append, step.1]

theorem arrange_error (waiting ts : List Token) (f : Fault) (h : arrange waiting ts = .error f) :
    f = .unopenedParenthesis := by
  rw [arrange_eq_shiftAll] at h
  cases hs : shiftAll? waiting ts with
  | none => simpa [hs] using h.symm
  | some p => simp [hs] at h

theorem depth_toPostfix (ts out : List Token) (h : toPostfix ts = .ok out) :
    depth? 0 ts = some (opens out) := by
  have depth := depth_arrange [] ts
  rw [toPostfix] at h
  rwa [h] at depth

theorem depth_toPostfix_error (ts : List Token) (f : Fault) (h : toPostfix ts = .error f) :
    depth? 0 ts = none := by
  have depth := depth_arrange [] ts
  rw [toPostfix] at h
  rwa [h] at depth

end Reckoner.Token
