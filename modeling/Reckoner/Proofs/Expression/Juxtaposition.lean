import Reckoner.Proofs.Expression.Conservation

namespace Reckoner

namespace Token

/-- Whether an operand may begin with a token. -/
def begins : Token → Bool
  | num _ | openParen | unary .negate | unary .root | function _ => true
  | _ => false

/-- Whether an operand may end with a token. -/
def completes : Token → Bool
  | num _ | closeParen | unary .factorial => true
  | _ => false

/-- Whether no operand begins directly behind another one. -/
def separated : List Token → Bool
  | [] => true
  | t :: ts => !(t.completes && ts.head?.any begins) && separated ts

def isNumber : Token → Bool
  | num _ => true
  | _ => false

def numbers (ts : List Token) : Nat := ts.countP isNumber

theorem numbers_cons (x : Token) (ts : List Token) :
    numbers (x :: ts) = numbers ts + if x.isNumber then 1 else 0 := by
  rw [numbers, List.countP_cons, numbers]

/-- The values that a postfix list leaves are its numbers less those that operators join. -/
theorem heights_count (ts : List Token) (n m : Nat) (h : ts.foldlM height? n = some m) :
    m + joins ts = n + numbers ts ∧ opens ts = 0 := by
  -- Each token moves the height by one step, so the start of the induction is any height.
  induction ts generalizing n with
  | nil =>
    injection h with h
    rw [h]
    exact ⟨rfl, rfl⟩
  | cons t ts ih =>
    rw [List.foldlM_cons] at h
    obtain ⟨next, hn, h⟩ := Option.bind_eq_some_iff.1 h
    obtain ⟨count, none⟩ := ih next h
    rw [joins_cons, numbers_cons, opens_cons, none]
    cases t with
    | num x =>
      have more : n + 1 = next := Option.some.inj hn
      change m + joins ts = n + (numbers ts + 1) ∧ 0 = 0
      omega
    | openParen | closeParen => contradiction
    | binary op =>
      have less : 2 ≤ n ∧ n - 1 = next := by simpa [height?] using hn
      change m + (joins ts + 1) = n + numbers ts ∧ 0 = 0
      omega
    | unary op | function f =>
      have same : 1 ≤ n ∧ n = next := by simpa [height?] using hn
      change m + joins ts = n + numbers ts ∧ 0 = 0
      omega

/-- At most how many more numbers than operators stand behind a place. -/
def Place.spare : Place → Nat
  | .operandDue => 1
  | .operandComplete => 0

/-- Between two numbers of a separated list stands an operator, and where exactly one does the
list alternates. -/
theorem alternates_of_separated (ts : List Token) (place : Place) (hs : separated ts)
    (hp : place = .operandComplete → ts.head?.any begins = false) :
    numbers ts ≤ joins ts + place.spare ∧
      (numbers ts = joins ts + place.spare →
        ts.foldlM Place.after? place = some .operandComplete) := by
  have apart : Place.operandDue ≠ .operandComplete := by decide
  have fewer (a b : Nat) (P : Prop) (h : a ≤ b) : a ≤ b + 1 ∧ (a = b + 1 → P) :=
    ⟨by omega, fun same => by omega⟩
  induction ts generalizing place with
  | nil =>
    cases place with
    | operandDue => exact fewer 0 0 _ (Nat.le_refl 0)
    | operandComplete => exact ⟨Nat.le_refl _, fun _ => rfl⟩
  | cons t ts ih =>
    simp only [separated, Bool.and_eq_true, Bool.not_eq_true', Bool.and_eq_false_iff] at hs
    obtain ⟨front, rest⟩ := hs
    have due := ih .operandDue rest fun h => absurd h apart
    have complete (hc : t.completes) := ih .operandComplete rest fun _ =>
      front.resolve_left (by rw [hc]; exact Bool.noConfusion)
    rw [numbers_cons, joins_cons, List.foldlM_cons]
    cases place with
    | operandDue =>
      cases t with
      | num x =>
        obtain ⟨few, scanned⟩ := complete rfl
        exact ⟨Nat.succ_le_succ few, fun same => scanned (Nat.succ.inj same)⟩
      | openParen | function f => exact due
      -- Here the list leaves the alternation, and one number too few is left to make up for it.
      | closeParen => exact fewer _ _ _ (complete rfl).1
      | binary op => exact fewer _ _ _ due.1
      | unary op =>
        cases op with
        | factorial => exact fewer _ _ _ (complete rfl).1
        | negate | root => exact due
    | operandComplete =>
      have later : t.begins = false := hp rfl
      cases t with
      | closeParen => exact complete rfl
      | binary op => exact due
      | unary op =>
        cases op with
        | factorial => exact complete rfl
        | negate | root => contradiction
      | _ => contradiction

theorem Place.begins_completes (place next : Place) (t : Token) (h : place.after? t = some next) :
    (place = .operandComplete → t.begins = false) ∧
      (t.completes → next = .operandComplete) := by
  cases place with
  | operandDue =>
    refine ⟨nofun, fun hc => ?_⟩
    cases t with
    | num x =>
      injection h with h
      exact h.symm
    | closeParen => contradiction
    | unary op => cases op <;> contradiction
    | _ => contradiction
  | operandComplete =>
    cases t with
    | closeParen =>
      injection h with h
      exact ⟨fun _ => rfl, fun _ => h.symm⟩
    | binary op => exact ⟨fun _ => rfl, nofun⟩
    | unary op =>
      cases op with
      | factorial =>
        injection h with h
        exact ⟨fun _ => rfl, fun _ => h.symm⟩
      | negate | root => contradiction
    | _ => contradiction

theorem separated_of_alternates (ts : List Token) (place : Place)
    (h : ts.foldlM Place.after? place = some .operandComplete) :
    separated ts ∧ (place = .operandComplete → ts.head?.any begins = false) := by
  induction ts generalizing place with
  | nil => exact ⟨rfl, fun _ => rfl⟩
  | cons t ts ih =>
    rw [List.foldlM_cons] at h
    obtain ⟨next, hn, h⟩ := Option.bind_eq_some_iff.1 h
    obtain ⟨hs, hp⟩ := ih next h
    obtain ⟨hb, hc⟩ := place.begins_completes next t hn
    refine ⟨?_, hb⟩
    cases hcomplete : t.completes with
    | false => simp [separated, hcomplete, hs]
    | true => simp [separated, hcomplete, hs, hp (hc hcomplete)]

/-- A list whose postfix order has a value is balanced, and alternates unless an operand begins
directly behind another one. -/
theorem wellFormed_iff_of_heights (ts out : List Token) (h : toPostfix ts = .ok out)
    (hh : out.foldlM height? 0 = some 1) :
    balanced ts ∧ (wellFormed ts ↔ separated ts) := by
  obtain ⟨values, closed⟩ := heights_count out 0 1 hh
  have joined : joins out = 0 + joins ts := countP_arrange isBinary rfl rfl [] ts out h
  have numbered : numbers out = 0 + numbers ts := countP_arrange isNumber rfl rfl [] ts out h
  have paired : balanced ts := by
    rw [balanced, beq_iff_eq, depth_toPostfix ts out h, closed]
  refine ⟨paired, fun hw => ?_, fun hs => ?_⟩
  · rw [wellFormed, Bool.and_eq_true, alternates, beq_iff_eq] at hw
    exact (separated_of_alternates ts .operandDue hw.2).1
  · have count : numbers ts = joins ts + 1 := by omega
    have apart : Place.operandDue ≠ .operandComplete := by decide
    obtain ⟨-, scanned⟩ := alternates_of_separated ts .operandDue hs fun h => absurd h apart
    rw [wellFormed, Bool.and_eq_true, alternates, beq_iff_eq]
    exact ⟨paired, scanned count⟩

end Token

open Token

theorem exists_of_evaluate (s : String) (x : Decimal) (h : evaluate s = .ok x) :
    ∃ ts r y, tokens s = .ok ts ∧ toPostfix ts = .ok r ∧ evaluatePostfix r = .ok (some y) ∧
      x = y.normalize := by
  unfold evaluate at h
  cases hs : tokens s with
  | error f => simp [hs, bind, Except.bind] at h
  | ok ts =>
    cases hr : toPostfix ts with
    | error f => simp [hs, hr, bind, Except.bind] at h
    | ok r =>
      cases hv : evaluatePostfix r with
      | error f => simp [hs, hr, hv, bind, Except.bind] at h
      | ok v =>
        cases v with
        | none => simp [hs, hr, hv, bind, Except.bind] at h
        | some y =>
          refine ⟨ts, r, y, rfl, hr, hv, ?_⟩
          simp [hs, hr, hv, bind, Except.bind, pure, Except.pure] at h
          exact h.symm

/-- An expression with a value is balanced, and it is well formed exactly if no operand begins
directly behind another one. -/
theorem evaluate_wellFormed_iff (s : String) (x : Decimal) (h : evaluate s = .ok x) :
    ∃ ts, tokens s = .ok ts ∧ balanced ts ∧ (wellFormed ts ↔ separated ts) := by
  obtain ⟨ts, r, y, hs, hr, hv, -⟩ := exists_of_evaluate s x h
  have heights := height_of_run r [] _ (run_of_evaluatePostfix r _ hv)
  exact ⟨ts, hs, wellFormed_iff_of_heights ts r hr heights⟩

/-- In - ( 2 ) 3 ! × the number 3 stands directly behind the group, and the list has a value. -/
theorem evaluate_wellFormed_iff_postfix :
    evaluate "- ( 2 ) 3 ! ×" = .ok (.ofInt (-12)) ∧
      ∃ ts, tokens "- ( 2 ) 3 ! ×" = .ok ts ∧ balanced ts ∧ (wellFormed ts ↔ separated ts) := by
  have value : evaluate "- ( 2 ) 3 ! ×" = .ok (.ofInt (-12)) := rfl
  exact ⟨value, evaluate_wellFormed_iff _ _ value⟩

/-- A factorial sign where an operand is due takes the operand behind it. -/
theorem evaluate_displaced_factorial :
    let ts : List Token :=
      [.num (.ofInt 2), .binary .add, .unary .factorial, .num (.ofInt 3)]
    evaluate "2 + ! 3" = .ok (.ofInt 8) ∧ tokens "2 + ! 3" = .ok ts ∧ wellFormed ts = false := by
  intro ts
  exact ⟨rfl, rfl, rfl⟩

end Reckoner
