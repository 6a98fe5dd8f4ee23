import Reckoner.Proofs.Expression.Reading
import Reckoner.Proofs.Slate.Pieces

namespace Reckoner

open Text

namespace Line

/-- Digits and points, behind a minus sign if there is one, that write no number: no digit is among
them, or a second point. -/
def Misspelt (w : List Char) : Prop :=
  ∃ negative ds, w = signed negative ds ∧ ds ≠ [] ∧ (∀ c ∈ ds, c.isDigit ∨ c = '.') ∧
    ((∀ c ∈ ds, c.isDigit = false) ∨ 2 ≤ ds.count '.')

/-- The words that stand for an operator, for a parenthesis or for a factorial. -/
def symbols : List String := ["+", "-", "×", "÷", "^", "(", ")", "!"]

/-- The words that name a function or a constant. -/
def names : List String := ["sin", "cos", "tan", "ln", "√", "π", "e"]

/-- What a word of the line may be: a misspelt number, a decimal, a symbol or a name. -/
def Known (w : List Char) : Prop :=
  Misspelt w ∨ (Decimal.ofChars? w).isSome ∨ String.ofList w ∈ symbols ∨ String.ofList w ∈ names

theorem allDigits_of_written (cs : List Char) (h : ∀ c ∈ cs, c.isDigit ∨ c = '.')
    (hp : '.' ∉ cs) : allDigits cs := by
  refine List.all_eq_true.2 fun c hc => (h c hc).resolve_right ?_
  rintro rfl
  exact hp hc

theorem isSome_ofChars_signed (negative : Bool) (ds : List Char)
    (hds : ∀ c ∈ ds, c.isDigit ∨ c = '.') (digit : ∃ c ∈ ds, c.isDigit)
    (hp : ds.count '.' < 2) : (Decimal.ofChars? (signed negative ds)).isSome := by
  rw [Decimal.ofChars?, Option.isSome_map]
  by_cases point : '.' ∈ ds
  · obtain ⟨whole, fraction, rfl, hw⟩ := List.eq_append_cons_of_mem point
    have hf : '.' ∉ fraction := by
      rw [← List.count_eq_zero]
      simp only [List.count_append, List.count_cons_self] at hp
      omega
    have written := List.forall_mem_append.1 hds
    have before := allDigits_of_written whole written.1 hw
    have behind := allDigits_of_written fraction (List.forall_mem_cons.1 written.2).2 hf
    have some : whole ≠ [] ∨ fraction ≠ [] := by
      rw [← not_and_or]
      rintro ⟨rfl, rfl⟩
      simp at digit
    rw [Literal.read_point negative whole fraction before behind some]
    rfl
  · have all := allDigits_of_written ds hds point
    have some : ds ≠ [] := by
      rintro rfl
      simp at digit
    have read := Literal.read_pointed negative ds [] all some rfl
    rw [Literal.pointed, if_pos rfl] at read
    rw [read]
    rfl

theorem known_signed (negative : Bool) (ds : List Char) (hne : ds ≠ [])
    (hds : ∀ c ∈ ds, c.isDigit ∨ c = '.') : Known (signed negative ds) := by
  by_cases wrong : (∀ c ∈ ds, c.isDigit = false) ∨ 2 ≤ ds.count '.'
  · exact .inl ⟨negative, ds, rfl, hne, hds, wrong⟩
  · simp only [not_or, not_forall, Bool.not_eq_false, Nat.not_le, exists_prop] at wrong
    exact .inr (.inl (isSome_ofChars_signed negative ds hds wrong.1 wrong.2))

theorem Numeral.known (p : List Char) (hp : Numeral p) : Known p := by
  cases p with
  | nil => contradiction
  | cons c cs =>
    obtain ⟨first, rest⟩ := hp
    rcases first with rfl | first
    · -- A sign that lost its digits is an operator.
      by_cases lone : cs = []
      · subst lone
        exact .inr (.inr (.inl (by decide)))
      · exact known_signed true cs lone rest
    · exact known_signed false (c :: cs) (by simp) (List.forall_mem_cons.2 ⟨first, rest⟩)

theorem numeral_plainChars (x : Decimal) : Numeral x.plainChars := by
  obtain ⟨whole, fraction, htext, hne, hw, hf, -, -⟩ := x.plainChars_eq
  obtain ⟨⟨c, cs, hbody, -⟩, written⟩ := Literal.pointed_chars whole fraction hw hne hf
  rw [hbody, List.forall_mem_cons] at written
  rw [htext, hbody]
  cases x.isNegative with
  | true => exact ⟨.inl rfl, List.forall_mem_cons.2 written⟩
  | false => exact ⟨.inr written.1, written.2⟩

theorem Piece.known (p w : List Char) (hp : Piece p) (hw : w ∈ words p) : Known w := by
  cases hp with
  | numeral p h =>
    have solid : ∀ c ∈ p, isBlank c = false :=
      fun c hc => (solid_of_written c (h.written p c hc)).1
    have some : p ≠ [] := by
      rintro rfl
      contradiction
    rw [words_of_no_blank some solid, List.mem_singleton] at hw
    rw [hw]
    exact h.known p
  | mark c h =>
    have all : ∀ p ∈ marks.map ([·]), ∀ w ∈ words p,
        String.ofList w ∈ symbols ∨ String.ofList w ∈ names := by
      decide
    exact .inr (.inr (all [c] (List.mem_map_of_mem h) w hw))
  | block p h =>
    have all : ∀ p ∈ blocks, ∀ w ∈ words p,
        String.ofList w ∈ symbols ∨ String.ofList w ∈ names := by
      decide
    exact .inr (.inr (all p h w hw))

end Line

theorem Line.recognised_of_named (w : String) (hw : w ∈ Line.symbols ∨ w ∈ Line.names) :
    (Token.ofFixedWord? w).isSome ∨ (BinaryOp.ofSymbol? w).isSome ∨
      (Function.ofSymbol? w).isSome := by
  have all : ∀ w ∈ Line.symbols ++ Line.names, (Token.ofFixedWord? w).isSome ∨
      (BinaryOp.ofSymbol? w).isSome ∨ (Function.ofSymbol? w).isSome := by
    decide
  exact all w (List.mem_append.2 hw)

/-- A known word that stands for no token is a misspelt number. -/
theorem Line.misspelt_of_known (w : List Char) (hw : Line.Known w) (previous : Option String)
    (fault : Fault) (h : Token.ofWord previous (String.ofList w) = .error fault) :
    (∃ op : BinaryOp, fault = .misplacedOperator op.symbol) ∨
      (Line.Misspelt w ∧ fault = .unrecognisedWord (String.ofList w)) := by
  rcases Token.ofWord_error previous _ fault h with misplaced | ⟨unknown, literal, others⟩
  · exact .inl misplaced
  · rw [Decimal.ofLiteral?, String.toList_ofList] at literal
    rcases hw with misspelt | number | named
    · exact .inr ⟨misspelt, unknown⟩
    · simp [literal] at number
    · have recognised := Line.recognised_of_named _ named
      simp [others] at recognised

namespace Button

/-- Whether a button types a digit or a point as such, or a piece of another kind, if it types a
text. -/
def typesPiece : Button → Bool
  | insert text .digit => text.toList.any fun c => text.toList == [c] && (c.isDigit || c == '.')
  | insert text _ => text.toList ∈ Line.marks.map ([·]) ++ Line.blocks
  | _ => true

theorem typesPiece_of_ofLabel (label : String) (b : Button) (h : ofLabel? label = some b) :
    b.typesPiece := by
  have all : ∀ p ∈ labelled, p.2.typesPiece := by decide
  exact all (label, b) (mem_labelled label b h)

end Button

namespace Slate

theorem holds_insert (s : Slate) (ps : List (List Char)) (text : String) (spacing : Spacing)
    (h : Line.Holds ps s.line.toList) (hk : (Button.insert text spacing).typesPiece) :
    ∃ qs, Line.Holds qs (s.insert text spacing).line.toList := by
  rw [insert_line]
  by_cases digit : spacing = .digit
  · subst digit
    simp only [Button.typesPiece, List.any_eq_true, Bool.and_eq_true, Bool.or_eq_true,
      beq_iff_eq] at hk
    obtain ⟨c, -, htext, hc⟩ := hk
    rw [htext]
    exact h.insert_digit c hc
  · have piece : Line.Piece text.toList := by
      have typed : text.toList ∈ Line.marks.map ([·]) ++ Line.blocks := by
        cases spacing with
        | digit => contradiction
        | word | function | operator => simpa [Button.typesPiece] using hk
      rcases List.mem_append.1 typed with mark | block
      · obtain ⟨c, hc, htext⟩ := List.mem_map.1 mark
        rw [← htext]
        exact .mark c hc
      · exact .block _ block
    exact ⟨_, h.insert text.toList spacing piece digit⟩

theorem holds_insertLast (s : Slate) (ps : List (List Char)) (h : Line.Holds ps s.line.toList) :
    ∃ qs, Line.Holds qs s.insertLast.line.toList := by
  rw [insertLast]
  split
  · rename_i x _
    rw [insert_line, x.toList_plain]
    exact ⟨_, h.insert x.plainChars .word (.numeral _ (Line.numeral_plainChars x)) (by decide)⟩
  · exact ⟨ps, h⟩

theorem holds_press (s : Slate) (ps : List (List Char)) (label : String)
    (h : Line.Holds ps s.line.toList) : ∃ qs, Line.Holds qs (s.press label).line.toList := by
  cases hb : Button.ofLabel? label with
  | none => exact ⟨ps, by rwa [(s.press_of_unknown label hb).2]⟩
  | some b =>
    have typed := Button.typesPiece_of_ofLabel label b hb
    rw [s.press_of_known label b hb]
    cases b with
    | insert text spacing => exact s.holds_insert ps text spacing h typed
    | delete =>
      rw [apply, delete_line]
      exact h.delete
    | clear => exact ⟨[], Line.holds_nil⟩
    | answer => exact s.holds_insertLast ps h
    | equals =>
      rw [apply, equals_line]
      exact ⟨ps, h⟩

theorem holds_pressAll (s : Slate) (ps : List (List Char)) (labels : List String)
    (h : Line.Holds ps s.line.toList) : ∃ qs, Line.Holds qs (s.pressAll labels).line.toList := by
  induction labels generalizing s ps with
  | nil => exact ⟨ps, h⟩
  | cons label labels ih =>
    obtain ⟨qs, held⟩ := s.holds_press ps label h
    exact ih (s.press label) qs held

/-- After any labels, each word of the line is a decimal, an operator, a parenthesis, a function or
a constant, or else a misspelt number, and only such a number is a word without a token. -/
theorem words_known (limits : Limits) (labels : List String) :
    let line := ((new limits).pressAll labels).line
    (∀ w ∈ Text.words line.toList, Line.Known w) ∧
      ∀ fault, tokens line = .error fault →
        (∃ op : BinaryOp, fault = .misplacedOperator op.symbol) ∨
          ∃ w ∈ Text.words line.toList, Line.Misspelt w ∧
            fault = .unrecognisedWord (String.ofList w) := by
  intro line
  obtain ⟨ps, held⟩ := (new limits).holds_pressAll [] labels Line.holds_nil
  have known : ∀ w ∈ Text.words line.toList, Line.Known w := by
    intro w hw
    obtain ⟨p, piece, hp⟩ := held.mem_words w hw
    exact piece.known p w hp
  refine ⟨known, fun fault failed => ?_⟩
  obtain ⟨word, hword, previous, hf⟩ := Token.ofWords_error _ _ fault failed
  obtain ⟨w, hw, rfl⟩ := List.mem_map.1 hword
  rcases Line.misspelt_of_known w (known w hw) previous fault hf with misplaced | misspelt
  · exact .inl misplaced
  · exact .inr ⟨w, hw, misspelt⟩

end Slate

end Reckoner
