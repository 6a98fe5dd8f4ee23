import Reckoner.Proofs.Decimal.Plain
import Reckoner.Proofs.Slate.Run

namespace Reckoner

open Text

namespace Decimal

theorem plainChars_last (x : Decimal) :
    ∃ front c, x.plainChars = front ++ [c] ∧ c.isDigit := by
  obtain ⟨whole, fraction, htext, hne, hw, hf, -, -⟩ := x.plainChars_eq
  simp only [allDigits, List.all_eq_true] at hw hf
  rw [htext]
  -- The last digit is one behind the point if there are any, else one in front of it.
  have ending : ∃ front c, Literal.pointed whole fraction = front ++ [c] ∧ c.isDigit := by
    rcases List.eq_nil_or_concat fraction with rfl | ⟨front, c, rfl⟩
    · rcases List.eq_nil_or_concat whole with rfl | ⟨front, c, rfl⟩
      · exact absurd rfl hne
      · exact ⟨front, c, by simp [Literal.pointed], hw c (by simp)⟩
    · exact ⟨whole ++ '.' :: front, c, by simp [Literal.pointed], hf c (by simp)⟩
  obtain ⟨front, c, hbody, hc⟩ := ending
  refine ⟨signed x.isNegative front, c, ?_, hc⟩
  rw [hbody]
  cases x.isNegative <;> simp [signed]

end Decimal

namespace Line

/-- The line with a blank at its end, unless it is empty. -/
def gapped (line : List Char) : List Char :=
  if lastSatisfies isBlank line then line else spaced line

theorem words_gapped_append (line text : List Char) :
    words (gapped line ++ text) = words line ++ words text := by
  rw [gapped]
  by_cases blank : lastSatisfies isBlank line
  · rw [if_pos blank]
    rcases List.eq_nil_or_concat line with rfl | ⟨front, b, rfl⟩
    · simp
    · have hb : isBlank b := by simpa [lastSatisfies] using blank
      rw [List.concat_eq_append, List.append_assoc, List.singleton_append,
        words_append_blank front text hb, words_append_blank front [] hb, words_nil,
        List.append_nil]
  · rw [if_neg blank, words_spaced_append]

section Ended

variable (front : List Char) (c : Char) (hc : c.isDigit)

include hc

theorem insert_digit_ended (text : List Char) :
    insert (front ++ [c]) text .digit = front ++ [c] ++ text := by
  have joins : lastSatisfies takesDigit (front ++ [c]) := by simp [lastSatisfies, takesDigit, hc]
  rw [insert, if_pos joins]

/-- Behind a digit, whatever is not a digit begins a word of its own. -/
theorem words_insert_ended (text : List Char) (spacing : Spacing) (hs : spacing ≠ .digit) :
    words (insert (front ++ [c]) text spacing) = words (front ++ [c]) ++ words text := by
  have solid := isBlank_of_isDigit c hc
  have apart : c ≠ ' ' := by
    rintro rfl
    contradiction
  have closed (line : List Char) : words (line ++ [' ']) = words line := by
    rw [words_append_blank line [] rfl, words_nil, List.append_nil]
  cases spacing with
  | digit => contradiction
  | word => exact words_gapped_append _ text
  | function =>
    rw [insert, closed]
    exact words_gapped_append _ text
  | operator => rw [insert, closed, dropSpaces_of_ne front c apart, words_spaced_append]

end Ended

end Line

namespace Slate

theorem press_answer_line (s : Slate) (x : Decimal) (hx : s.last = some x) :
    (s.press "ANS").line.toList = Line.gapped s.line.toList ++ x.plainChars := by
  rw [s.press_of_known "ANS" .answer rfl, apply, insertLast, hx]
  simp only [insert_line, x.toList_plain]
  rfl

/-- A recalled result is a word of its own, unless a digit is typed next, which goes on with it. -/
theorem words_answer_insert (s : Slate) (x : Decimal) (label text : String) (spacing : Spacing)
    (hx : s.last = some x) (hk : Button.ofLabel? label = some (.insert text spacing)) :
    Text.words ((s.press "ANS").press label).line.toList =
      if spacing = .digit then
        Text.words s.line.toList ++ [x.plainChars ++ text.toList]
      else Text.words s.line.toList ++ [x.plainChars] ++ History.wordsOf text := by
  obtain ⟨front, c, hplain, hc⟩ := x.plainChars_last
  have recalled := s.press_answer_line x hx
  have solid : ∀ c ∈ x.plainChars, isBlank c = false := x.isBlank_of_mem_plainChars
  have some : x.plainChars ≠ [] := by simp [hplain]
  have line : ((s.press "ANS").press label).line.toList =
      Line.insert (Line.gapped s.line.toList ++ front ++ [c]) text.toList spacing := by
    rw [press_of_known _ label _ hk, apply, insert_line, recalled, hplain, List.append_assoc]
  rw [line]
  by_cases digit : spacing = .digit
  · subst digit
    have typed := Button.typeable_of_ofLabel label text _ hk
    obtain ⟨d, htext, hd⟩ := Line.typeable_digit text.toList typed
    have number : ∀ c ∈ x.plainChars ++ [d], isBlank c = false := by
      simpa [or_imp, forall_and, hd] using solid
    rw [if_pos rfl, Line.insert_digit_ended _ c hc, List.append_assoc _ front, ← hplain,
      List.append_assoc, Line.words_gapped_append, htext,
      words_of_no_blank (List.concat_ne_nil d _) number]
  · rw [if_neg digit, Line.words_insert_ended _ c hc _ _ digit, List.append_assoc _ front,
      ← hplain, Line.words_gapped_append, words_of_no_blank some solid, History.wordsOf]

/-- A negative fraction that is recalled behind an operator, with a function behind it. -/
theorem words_answer_insert_fraction :
    let s := (new {}).pressAll ["1", "-", "5", "÷", "4", "=", "AC", "2", "×"]
    s.last = some ⟨-25, 2⟩ ∧ Button.ofLabel? "sin" = some (.insert "sin (" .function) ∧
      Text.words ((s.press "ANS").press "sin").line.toList =
        ["2", "×", "-0.25", "sin", "("].map String.toList := by
  intro s
  have last : s.last = some ⟨-25, 2⟩ := by decide +kernel
  have words := words_answer_insert s ⟨-25, 2⟩ "sin" "sin (" .function last rfl
  exact ⟨last, rfl, words.trans (by decide +kernel)⟩

/-- A digit typed behind a recalled result changes it. -/
theorem words_answer_digit :
    let s := (new {}).pressAll ["4", "=", "AC"]
    s.last = some ⟨4, 0⟩ ∧ Button.ofLabel? "5" = some (.insert "5" .digit) ∧
      Text.words ((s.press "ANS").press "5").line.toList = [['4', '5']] ∧
      Text.words s.line.toList ++ [Decimal.plainChars ⟨4, 0⟩] ++ History.wordsOf "5" =
        [['4'], ['5']] := by
  decide +kernel

end Slate

end Reckoner
