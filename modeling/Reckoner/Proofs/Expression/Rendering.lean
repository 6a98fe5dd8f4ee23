import Reckoner.Proofs.Decimal.Plain
import Reckoner.Proofs.Expression.Alternation
import Reckoner.Proofs.Expression.Reading

namespace Reckoner

namespace Token

/-- A number without trailing zeros behind the point; every other token as it is. -/
def normalize : Token → Token
  | num x => num x.normalize
  | t => t

/-- Whether a binary operator is refused behind a token: at the start, behind an open parenthesis
and behind another operator. It is not behind a sign, which in a text is a word and no symbol. -/
def operandFollows : Option Token → Bool
  | none => true
  | some t => t.isOpenParen || t.isBinary

/-- A token is read from its own text unless it is a binary operator where that is refused, or the
root, whose text is that of a function. -/
def Legible (before : Option Token) (t : Token) : Prop :=
  (t.isBinary → operandFollows before = false) ∧ t ≠ unary .root

/-- Each token is legible behind the one before it. -/
def AllLegible (before : Option Token) : List Token → Prop
  | [] => True
  | t :: ts => Legible before t ∧ AllLegible (some t) ts

theorem ofFixedWord_ok (word : String) (t : Token) (h : ofFixedWord? word = some t) :
    t.isBinary = false ∧ t ≠ unary .root ∧ (t.isOpenParen → word = "(") := by
  unfold ofFixedWord? at h
  split at h
  case h_7 => contradiction
  all_goals
    obtain rfl := Option.some.inj h
    exact ⟨rfl, by decide, by simp [isOpenParen]⟩

/-- A token that a word stands for is legible, and an operand is due behind its word wherever one
follows the token. -/
theorem legible_of_ofWord (previous : Option String) (before : Option Token) (word : String)
    (t : Token) (h : ofWord previous word = .ok t)
    (hp : operandFollows before → operandDue previous) :
    Legible before t ∧ (operandFollows (some t) → operandDue (some word)) := by
  rcases ofWord_ok previous word t h with ⟨x, rfl⟩ | fixed | ⟨op, rfl, operator⟩ | ⟨f, rfl⟩
  · exact ⟨⟨nofun, nofun⟩, nofun⟩
  · obtain ⟨binary, root, opened⟩ := ofFixedWord_ok word t fixed
    refine ⟨⟨fun hb => ?_, root⟩, fun follows => ?_⟩
    · rw [binary] at hb
      contradiction
    · rw [operandFollows, binary, Bool.or_false] at follows
      rw [opened follows]
      rfl
  · refine ⟨?_, fun _ => operandDue_symbol op⟩
    rcases ofOperator_ok previous op t operator with ⟨complete, rfl⟩ | ⟨-, -, rfl⟩
    · refine ⟨fun _ => Bool.eq_false_iff.2 fun follows => ?_, nofun⟩
      rw [hp follows] at complete
      contradiction
    · exact ⟨nofun, nofun⟩
  · exact ⟨⟨nofun, nofun⟩, nofun⟩

theorem allLegible_of_ofWords (previous : Option String) (before : Option Token)
    (ws : List String) (ts : List Token) (h : ofWords previous ws = .ok ts)
    (hp : operandFollows before → operandDue previous) : AllLegible before ts := by
  induction ws generalizing previous before ts with
  | nil =>
    obtain rfl := Except.ok.inj h
    trivial
  | cons w ws ih =>
    obtain ⟨t, rest, first, later, rfl⟩ := (ofWords_cons_ok previous w ws ts).1 h
    obtain ⟨legible, due⟩ := legible_of_ofWord previous before w t first hp
    exact ⟨legible, ih (some w) (some t) rest later due⟩

theorem ofLiteral_text (x : Decimal) : Decimal.ofLiteral? (num x).text = some x.normalize := by
  rw [Decimal.ofLiteral?, text, Decimal.toList_plain, Decimal.ofChars_plainChars]

theorem operandDue_text (before : Option Token) (h : operandFollows before = false) :
    operandDue (before.map text) = false := by
  cases before with
  | none => contradiction
  | some t =>
    cases t with
    | num x => exact operandDue_of_literal _ _ (ofLiteral_text x)
    | openParen | binary op => contradiction
    | closeParen => rfl
    | unary op => cases op <;> rfl
    | function f => cases f <;> rfl

theorem ofWord_text (before : Option Token) (t : Token) (h : Legible before t) :
    ofWord (before.map text) t.text = .ok t.normalize := by
  obtain ⟨behind, root⟩ := h
  cases t with
  | num x => exact ofWord_literal _ _ _ (ofLiteral_text x)
  | openParen | closeParen => rfl
  | binary op =>
    have complete := operandDue_text before (behind rfl)
    rw [text, ofWord_symbol, ofOperator, complete]
    rfl
  | unary op =>
    cases op with
    | negate | factorial => rfl
    | root => contradiction
  | function f => cases f <;> rfl

/-- Legible tokens are read back from their texts. -/
theorem ofWords_text (before : Option Token) (ts : List Token) (h : AllLegible before ts) :
    ofWords (before.map text) (ts.map text) = .ok (ts.map normalize) := by
  induction ts generalizing before with
  | nil => rfl
  | cons t ts ih =>
    obtain ⟨first, rest⟩ := h
    exact (ofWords_cons_ok _ _ _ _).2 ⟨_, _, ofWord_text before t first, ih (some t) rest, rfl⟩

theorem isWord_text (t : Token) : Text.IsWord t.text.toList := by
  cases t with
  | num x =>
    rw [text, Decimal.toList_plain]
    exact Decimal.isWord_plainChars _
  | openParen | closeParen => decide
  | binary op => cases op <;> decide
  | unary op => cases op <;> decide
  | function f => cases f <;> decide

end Token

open Token

/-- The text of the tokens of an expression has the same tokens, but that numbers have lost their
trailing zeros. -/
theorem tokens_textOfList (s : String) (ts : List Token) (h : tokens s = .ok ts) :
    tokens (textOfList ts) = .ok (ts.map normalize) := by
  have legible := allLegible_of_ofWords none none _ ts h fun _ => rfl
  have solid : ∀ w ∈ ts.map text, Text.IsWord w.toList := by
    intro w hw
    obtain ⟨t, -, rfl⟩ := List.mem_map.1 hw
    exact t.isWord_text
  rw [textOfList, tokens_joined _ solid]
  exact ofWords_text none ts legible

/-- Signs, a number with trailing zeros, an exponent and a constant; the signs get a word of their
own. -/
theorem tokens_textOfList_signs :
    let ts : List Token := [.unary .negate, .unary .negate, .num ⟨250, 2⟩, .binary .sub,
      .unary .negate, .openParen, .num ⟨-1000, 0⟩, .unary .factorial, .closeParen]
    tokens "- minus 2.50 - - ( -1e3 ! )" = .ok ts ∧
      textOfList ts = "minus minus 2.5 - minus ( -1000 ! )" ∧
      tokens (textOfList ts) = .ok (ts.map normalize) := by
  intro ts
  have read : tokens "- minus 2.50 - - ( -1e3 ! )" = .ok ts := rfl
  exact ⟨read, by decide +kernel, tokens_textOfList _ ts read⟩

end Reckoner
