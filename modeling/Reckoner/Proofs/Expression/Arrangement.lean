import Reckoner.Expression.Postfix

namespace Reckoner.Token

/-- Puts tokens in front of an arrangement, which stays a fault if it is one. -/
def emit (out : List Token) (r : Except Fault (List Token)) : Except Fault (List Token) :=
  (out ++ ·) <$> r

@[simp] theorem emit_ok (out ts : List Token) : emit out (.ok ts) = .ok (out ++ ts) := rfl

@[simp] theorem emit_error (out : List Token) (f : Fault) : emit out (.error f) = .error f := rfl

@[simp] theorem emit_nil (r : Except Fault (List Token)) : emit [] r = r := by
  cases r <;> rfl

theorem emit_emit (a b : List Token) (r : Except Fault (List Token)) :
    emit a (emit b r) = emit (a ++ b) r := by
  cases r with
  | error f => rfl
  | ok ts => simp

/-- Whether an incoming token releases the latest of those that wait. -/
def releases : (incoming waiting : Token) → Bool
  | closeParen, x => !x.isOpenParen
  | binary op, x => precedes (binary op) x
  | unary .factorial, x => precedes (unary .factorial) x
  | _, _ => false

@[simp] theorem releases_openParen (t : Token) : releases t openParen = false := by
  cases t with
  | unary op => cases op <;> rfl
  | _ => rfl

@[simp] theorem releases_factorial (x : Token) : releases (unary .factorial) x = false := by
  cases x with
  | binary op => cases op <;> rfl
  | unary op => cases op <;> rfl
  | _ => rfl

/-- What one token releases, and what waits behind it. Only a closing parenthesis that closes
nothing has no such pair. -/
def shift? (waiting : List Token) : Token → Option (List Token × List Token)
  | num x => some ([num x], waiting)
  | closeParen =>
    match waiting.dropWhile (releases closeParen) with
    | [] => none
    | _ :: outer => some (waiting.takeWhile (releases closeParen), outer)
  | t => some (waiting.takeWhile (releases t), t :: waiting.dropWhile (releases t))

private theorem takeWhile_never (ts : List Token) : ts.takeWhile (fun _ => false) = [] := by
  cases ts <;> rfl

private theorem dropWhile_never (ts : List Token) : ts.dropWhile (fun _ => false) = ts := by
  cases ts <;> rfl

theorem arrange_nil (waiting : List Token) : arrange waiting [] = .ok waiting := by
  simp only [arrange]

/-- One token at a time: every later fact about arrangements reads this equation only. -/
theorem arrange_cons (waiting : List Token) (t : Token) (ts : List Token) :
    arrange waiting (t :: ts) =
      match shift? waiting t with
      | none => .error .unopenedParenthesis
      | some (out, behind) => emit out (arrange behind ts) := by
  have front (x : Token) : arrange (x :: waiting) ts =
      emit (waiting.takeWhile fun _ => false)
        (arrange (x :: waiting.dropWhile fun _ => false) ts) := by
    rw [takeWhile_never, dropWhile_never, emit_nil]
  cases t with
  | num x => simp only [arrange]; rfl
  | openParen => simp only [arrange]; exact front openParen
  | closeParen =>
    simp only [arrange, shift?]
    change (match waiting.dropWhile (releases closeParen) with | [] => _ | _ :: _ => _) = _
    cases waiting.dropWhile (releases closeParen) with
    | nil => rfl
    | cons p outer => rfl
  | binary op => simp only [arrange]; rfl
  | unary op =>
    cases op with
    | factorial => simp only [arrange]; rfl
    | negate => simp only [arrange]; exact front (unary .negate)
    | root => simp only [arrange]; exact front (unary .root)
  | function f => simp only [arrange]; exact front (function f)

theorem arrange_cons_ok (waiting : List Token) (t : Token) (ts out : List Token)
    (h : arrange waiting (t :: ts) = .ok out) :
    ∃ first behind rest, shift? waiting t = some (first, behind) ∧
      arrange behind ts = .ok rest ∧ out = first ++ rest := by
  rw [arrange_cons] at h
  cases hs : shift? waiting t with
  | none => simp [hs] at h
  | some s =>
    obtain ⟨first, behind⟩ := s
    cases hr : arrange behind ts with
    | error f => simp [hs, hr] at h
    | ok rest =>
      simp only [hs, hr, emit_ok, Except.ok.injEq] at h
      exact ⟨first, behind, rest, rfl, hr, h.symm⟩

/-- What the tokens of a list release in turn, and what waits behind the last of them. -/
def shiftAll? (waiting : List Token) : List Token → Option (List Token × List Token)
  | [] => some ([], waiting)
  | t :: ts =>
    match shift? waiting t with
    | none => none
    | some (out, behind) => (shiftAll? behind ts).map fun p => (out ++ p.1, p.2)

/-- The arrangement of a list in two parts depends on the first one only through what that releases
and leaves waiting. -/
theorem arrange_append (waiting ts rest : List Token) :
    arrange waiting (ts ++ rest) =
      match shiftAll? waiting ts with
      | none => .error .unopenedParenthesis
      | some (out, behind) => emit out (arrange behind rest) := by
  induction ts generalizing waiting with
  | nil => simp only [shiftAll?, List.nil_append, emit_nil]
  | cons t ts ih =>
    rw [List.cons_append, arrange_cons, shiftAll?]
    cases h : shift? waiting t with
    | none => rfl
    | some p =>
      obtain ⟨out, behind⟩ := p
      simp only [ih behind]
      cases shiftAll? behind ts with
      | none => rfl
      | some q => exact emit_emit out q.1 (arrange q.2 rest)

/-- In the end what still waits is released. -/
theorem arrange_eq_shiftAll (waiting ts : List Token) :
    arrange waiting ts =
      match shiftAll? waiting ts with
      | none => .error .unopenedParenthesis
      | some (out, behind) => .ok (out ++ behind) := by
  have h := arrange_append waiting ts []
  rw [List.append_nil] at h
  rw [h]
  cases shiftAll? waiting ts with
  | none => rfl
  | some p => simp only [arrange_nil, emit_ok]

/-- Whether a token waits for its operands: all but numbers and closing parentheses do. -/
def waits : Token → Bool
  | num _ | closeParen => false
  | _ => true

theorem shift_of_waits (waiting : List Token) (t : Token) (ht : t.waits) :
    shift? waiting t =
      some (waiting.takeWhile (releases t), t :: waiting.dropWhile (releases t)) := by
  cases t with
  | num x => simp [waits] at ht
  | closeParen => simp [waits] at ht
  | _ => rfl

/-- Where the latest waiting token is not released, none is. -/
theorem shift_of_guard (waiting : List Token) (t : Token) (ht : t.waits)
    (hg : ∀ x ∈ waiting.head?, releases t x = false) :
    shift? waiting t = some ([], t :: waiting) := by
  rw [shift_of_waits waiting t ht]
  cases waiting with
  | nil => rfl
  | cons x w =>
    have hx : ¬releases t x = true := by simp [hg x rfl]
    rw [List.takeWhile_cons_of_neg hx, List.dropWhile_cons_of_neg hx]

theorem arrange_num (waiting : List Token) (x : Decimal) (rest : List Token) :
    arrange waiting (num x :: rest) = emit [num x] (arrange waiting rest) := by
  rw [arrange_cons]
  rfl

theorem arrange_push (waiting rest : List Token) (t : Token) (ht : t.waits)
    (hg : ∀ x ∈ waiting.head?, releases t x = false) :
    arrange waiting (t :: rest) = arrange (t :: waiting) rest := by
  rw [arrange_cons, shift_of_guard waiting t ht hg]
  exact emit_nil _

/-- A closing parenthesis releases all that waits above the one that it closes. -/
theorem arrange_closeParen (inner outer rest : List Token) (h : openParen ∉ inner) :
    arrange (inner ++ openParen :: outer) (closeParen :: rest) =
      emit inner (arrange outer rest) := by
  have reached : ∀ x ∈ inner, releases closeParen x := by
    intro x hx
    cases x with
    | openParen => exact absurd hx h
    | _ => rfl
  have stop : ¬releases closeParen openParen = true := by simp
  rw [arrange_cons, shift?, List.takeWhile_append_of_pos reached,
    List.dropWhile_append_of_pos reached, List.takeWhile_cons_of_neg stop,
    List.dropWhile_cons_of_neg stop, List.append_nil]

/-- A released token goes first, and the rest is as if it had not waited. -/
theorem shift_cons_of_releases (x : Token) (waiting : List Token) (t : Token)
    (h : releases t x) :
    shift? (x :: waiting) t = (shift? waiting t).map fun p => (x :: p.1, p.2) := by
  have front : (x :: waiting).takeWhile (releases t) = x :: waiting.takeWhile (releases t) :=
    List.takeWhile_cons_of_pos h
  have back : (x :: waiting).dropWhile (releases t) = waiting.dropWhile (releases t) :=
    List.dropWhile_cons_of_pos h
  cases t with
  | num y => simp [releases] at h
  | closeParen =>
    simp only [shift?, front, back]
    cases waiting.dropWhile (releases closeParen) <;> rfl
  | _ => simp only [shift?, front, back]; rfl

theorem mem_of_takeWhile_or_dropWhile (p : Token → Bool) (ts : List Token) (x : Token)
    (h : x ∈ ts.takeWhile p ∨ x ∈ ts.dropWhile p) : x ∈ ts := by
  rw [← List.takeWhile_append_dropWhile (p := p) (l := ts)]
  exact List.mem_append.2 h

end Reckoner.Token
