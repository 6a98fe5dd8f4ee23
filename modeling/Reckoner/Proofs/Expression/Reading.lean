import Reckoner.Expression.Words

namespace Reckoner

theorem tokens_joined (ws : List String) (h : ∀ w ∈ ws, Text.IsWord w.toList) :
    tokens (" ".intercalate ws) = Token.ofWords none ws := by
  have space : " ".toList = [' '] := rfl
  have solid : ∀ w ∈ ws.map String.toList, Text.IsWord w := by simpa using h
  have same : (ws.map String.toList).map String.ofList = ws := by
    simp [Function.comp_def]
  rw [tokens, String.toList_intercalate, space, Text.words_intercalate _ solid, same]

namespace Token

theorem ofWords_cons_ok (previous : Option String) (w : String) (ws : List String)
    (ts : List Token) :
    ofWords previous (w :: ws) = .ok ts ↔
      ∃ t rest, ofWord previous w = .ok t ∧ ofWords (some w) ws = .ok rest ∧ ts = t :: rest := by
  rw [ofWords]
  cases ofWord previous w with
  | error f => simp [bind, Except.bind]
  | ok t =>
    cases ofWords (some w) ws with
    | error f => simp [bind, Except.bind]
    | ok rest => simp [bind, Except.bind, pure, Except.pure, eq_comm]

theorem ofWord_literal (previous : Option String) (word : String) (x : Decimal)
    (h : Decimal.ofLiteral? word = some x) : ofWord previous word = .ok (num x) := by
  rw [ofWord, h]

theorem ofWord_symbol (previous : Option String) (op : BinaryOp) :
    ofWord previous op.symbol = ofOperator previous op := by
  cases op <;> rfl

/-- Only operators are read by what stands before them. -/
theorem ofWord_of_not_symbol (p q : Option String) (word : String)
    (h : BinaryOp.ofSymbol? word = none) : ofWord p word = ofWord q word := by
  rw [ofWord, ofWord, h]

theorem ofOperator_ok (previous : Option String) (op : BinaryOp) (t : Token)
    (h : ofOperator previous op = .ok t) :
    (operandDue previous = false ∧ t = binary op) ∨
      (operandDue previous ∧ op = .sub ∧ t = unary .negate) := by
  rw [ofOperator] at h
  split at h
  · rename_i complete
    exact .inl ⟨by simpa using complete, (Except.ok.inj h).symm⟩
  · rename_i due
    split at h
    · rename_i sub
      exact .inr ⟨by simpa using due, sub, (Except.ok.inj h).symm⟩
    · contradiction

/-- Where the token of a word comes from. -/
theorem ofWord_ok (previous : Option String) (word : String) (t : Token)
    (h : ofWord previous word = .ok t) :
    (∃ x, t = num x) ∨ ofFixedWord? word = some t ∨
      (∃ op : BinaryOp, word = op.symbol ∧ ofOperator previous op = .ok t) ∨
      ∃ f, t = function f := by
  rw [ofWord] at h
  split at h
  · rename_i x _
    exact .inl ⟨x, (Except.ok.inj h).symm⟩
  split at h
  · rename_i fixed
    obtain rfl := Except.ok.inj h
    exact .inr (.inl fixed)
  split at h
  · rename_i op symbol
    exact .inr (.inr (.inl ⟨op, (BinaryOp.symbol_of_ofSymbol? symbol).symm, h⟩))
  split at h
  · rename_i f _
    exact .inr (.inr (.inr ⟨f, (Except.ok.inj h).symm⟩))
  · contradiction

theorem ofWord_error (previous : Option String) (word : String) (fault : Fault)
    (h : ofWord previous word = .error fault) :
    (∃ op : BinaryOp, fault = .misplacedOperator op.symbol) ∨
      (fault = .unrecognisedWord word ∧ Decimal.ofLiteral? word = none ∧
        ofFixedWord? word = none ∧ BinaryOp.ofSymbol? word = none ∧
        Function.ofSymbol? word = none) := by
  rw [ofWord] at h
  split at h
  · contradiction
  split at h
  · contradiction
  split at h
  · rename_i op _
    rw [ofOperator] at h
    split at h
    · contradiction
    split at h
    · contradiction
    · exact .inl ⟨op, (Except.error.inj h).symm⟩
  split at h
  · contradiction
  · rename_i literal _ fixed _ operator _ function
    exact .inr ⟨(Except.error.inj h).symm, literal, fixed, operator, function⟩

theorem ofWords_error (previous : Option String) (ws : List String) (fault : Fault)
    (h : ofWords previous ws = .error fault) :
    ∃ w ∈ ws, ∃ before, ofWord before w = .error fault := by
  induction ws generalizing previous with
  | nil => contradiction
  | cons w ws ih =>
    rw [ofWords] at h
    cases first : ofWord previous w with
    | error f =>
      rw [first] at h
      obtain rfl := Except.error.inj h
      exact ⟨w, by simp, previous, first⟩
    | ok t =>
      rw [first] at h
      cases rest : ofWords (some w) ws with
      | error f =>
        rw [rest] at h
        obtain rfl := Except.error.inj h
        obtain ⟨v, hv, before, hf⟩ := ih (some w) rest
        exact ⟨v, by simp [hv], before, hf⟩
      | ok ts =>
        rw [rest] at h
        contradiction

theorem operandDue_symbol (op : BinaryOp) : operandDue (some op.symbol) := by
  simp [operandDue]

/-- A literal is an operand, so none is due behind it. -/
theorem operandDue_of_literal (word : String) (x : Decimal)
    (h : Decimal.ofLiteral? word = some x) : operandDue (some word) = false := by
  have apart : Decimal.ofLiteral? "(" = none := rfl
  have operators (op : BinaryOp) : Decimal.ofLiteral? op.symbol = none := by cases op <;> rfl
  simp only [operandDue, Bool.or_eq_false_iff, beq_eq_false_iff_ne, Option.isSome_eq_false_iff,
    Option.isNone_iff_eq_none]
  constructor
  · rintro rfl
    rw [apart] at h
    contradiction
  · cases symbol : BinaryOp.ofSymbol? word with
    | none => rfl
    | some op =>
      rw [← BinaryOp.symbol_of_ofSymbol? symbol, operators] at h
      contradiction

end Token

end Reckoner
