import Reckoner.Proofs.Expression.Reading
import Reckoner.Proofs.Slate.Recall

namespace Reckoner

open Text

/-- The plain text of a number is one word, the literal of that number. -/
theorem tokens_plain (x : Decimal) : tokens x.plain = .ok [.num x] := by
  obtain ⟨nonempty, solid⟩ := x.isWord_plainChars
  have literal : Decimal.ofLiteral? x.plain = some x := by
    rw [Decimal.ofLiteral?, x.toList_plain, x.ofChars_plainChars]
  have first := Token.ofWord_literal none x.plain x literal
  rw [tokens, x.toList_plain, words_of_no_blank nonempty solid, List.map_singleton]
  exact (Token.ofWords_cons_ok none x.plain [] _).2 ⟨_, [], first, rfl, rfl⟩

theorem evaluate_plain (x : Decimal) : evaluate x.plain = .ok x.normalize := by
  rw [evaluate, tokens_plain]
  rfl

namespace Slate

/-- On a cleared line a recalled result stands alone. -/
theorem clear_answer_line (s : Slate) (x : Decimal) (hx : s.last = some x) :
    ((s.press "AC").press "ANS").line = x.plain := by
  have cleared : s.press "AC" = s.clear := s.press_of_known "AC" .clear rfl
  have recalled := s.clear.press_answer_line x hx
  rw [cleared]
  apply String.toList_inj.1
  rw [recalled, x.toList_plain]
  rfl

/-- A result recalled on a cleared line and evaluated is the result again. -/
theorem Sound.press_recalled {limits : Limits} {s : Slate} (h : Sound limits s) (x : Decimal)
    (hx : s.last = some x) :
    let t := s.pressAll ["AC", "ANS", "="]
    t.last = some x ∧ t.display = limits.format x := by
  let recalled := (s.press "AC").press "ANS"
  have kept : recalled.limits = limits := ((h.press "AC").press "ANS").limits_eq
  have value : evaluate recalled.line = .ok x := by
    rw [s.clear_answer_line x hx, evaluate_plain, x.normalize_of_normal (h.normal x hx)]
  have shown : recalled.press "=" = recalled.showResult x := by
    rw [recalled.press_of_known "=" .equals rfl]
    exact recalled.equals_of_ok x value
  intro t
  have last : t = recalled.showResult x := shown
  rw [last, ← kept]
  exact ⟨rfl, rfl⟩

/-- The plain text of a result evaluates to that result, with the same digits and the same scale,
and so does a result that is recalled on a cleared line. -/
theorem results_stable :
    (∀ expression x, evaluate expression = .ok x → evaluate x.plain = .ok x) ∧
      ∀ (limits : Limits) (labels : List String) (x : Decimal),
        ((new limits).pressAll labels).last = some x →
          let s := (new limits).pressAll (labels ++ ["AC", "ANS", "="])
          s.last = some x ∧ s.display = limits.format x := by
  constructor
  · intro expression x h
    rw [evaluate_plain, x.normalize_of_normal (evaluate_normal expression x h)]
  · intro limits labels x h
    rw [pressAll_append]
    exact ((sound_new limits).pressAll labels).press_recalled x h

/-- A negative fraction, typed and recalled. -/
theorem results_stable_fraction :
    let labels := ["1", "-", "5", "÷", "4", "="]
    let x : Decimal := ⟨-25, 2⟩
    evaluate "1 - 5 ÷ 4" = .ok x ∧ evaluate x.plain = .ok x ∧
      ((new {}).pressAll labels).last = some x ∧
      ((new {}).pressAll (labels ++ ["AC", "ANS", "="])).last = some x ∧
      ((new {}).pressAll (labels ++ ["AC", "ANS", "="])).display = "-0.25" := by
  intro labels x
  have value : evaluate "1 - 5 ÷ 4" = .ok x := by decide +kernel
  have last : ((new {}).pressAll labels).last = some x := by decide +kernel
  obtain ⟨same, shown⟩ := results_stable.2 {} labels x last
  exact ⟨value, results_stable.1 _ x value, last, same, shown.trans (by decide +kernel)⟩

end Slate

end Reckoner
