import Reckoner.Proofs.Decimal.Value
import Reckoner.Proofs.Expression.Juxtaposition
import Reckoner.Proofs.Slate.History

namespace Reckoner

theorem evaluate_normal (expression : String) (x : Decimal) (h : evaluate expression = .ok x) :
    x.Normal := by
  obtain ⟨ts, r, y, -, -, -, rfl⟩ := exists_of_evaluate expression x h
  exact y.normalize_normal

namespace Slate

theorem press_of_known (s : Slate) (label : String) (b : Button)
    (h : Button.ofLabel? label = some b) : s.press label = s.apply b := by
  rw [press, press?, h, Option.map_some, Option.getD_some]

theorem press_of_unknown (s : Slate) (label : String) (h : Button.ofLabel? label = none) :
    s.press? label = none ∧ s.press label = s := by
  have refused : s.press? label = none := by rw [press?, h, Option.map_none]
  exact ⟨refused, by rw [press, refused, Option.getD_none]⟩

theorem equals_of_ok (s : Slate) (x : Decimal) (h : evaluate s.line = .ok x) :
    s.equals = s.showResult x := by
  rw [equals, h]

theorem equals_of_error (s : Slate) (fault : Fault) (h : evaluate s.line = .error fault) :
    s.equals = s.showLabel fault.label := by
  rw [equals, h]

theorem insertLast_frame (s : Slate) : ∃ line, s.insertLast = { s with line := line } := by
  rw [insertLast]
  split
  · exact ⟨_, rfl⟩
  · exact ⟨s.line, rfl⟩

/-- All that a label can do: change the line, clear the line and the display, or evaluate the line.
One that no button carries leaves the line as it was. -/
theorem press_cases (s : Slate) (label : String) :
    (∃ line, s.press label = { s with line := line }) ∨ s.press label = s.clear ∨
      (label = "=" ∧ s.press label = s.equals) := by
  cases h : Button.ofLabel? label with
  | none => exact .inl ⟨s.line, (s.press_of_unknown label h).2⟩
  | some b =>
    rw [s.press_of_known label b h]
    cases b with
    | insert text spacing => exact .inl ⟨_, rfl⟩
    | delete => exact .inl ⟨_, rfl⟩
    | clear => exact .inr (.inl rfl)
    | answer => exact .inl s.insertLast_frame
    | equals =>
      have all : ∀ p ∈ Button.labelled, p.2 = .equals → p.1 = "=" := by decide
      exact .inr (.inr ⟨all _ (Button.mem_labelled label _ h) rfl, rfl⟩)

/-- What a label leaves as it is: an insertion, a recall and a deletion all but the line, clearing
the last result and the limits, an evaluation the line, and all but the display if it fails. -/
def Framed (s : Slate) (label : String) : Prop :=
  match Button.ofLabel? label with
  | some (.insert ..) | some .answer | some .delete =>
    ∃ line, s.press label = { s with line := line }
  | some .clear => s.press label = { s with line := "", display := "" }
  | some .equals =>
    (s.press label).line = s.line ∧
      ∀ fault, evaluate s.line = .error fault → s.press label = { s with display := fault.label }
  | none => s.press? label = none ∧ s.press label = s

theorem framed (s : Slate) (label : String) : s.Framed label := by
  rw [Framed]
  cases h : Button.ofLabel? label with
  | none => exact s.press_of_unknown label h
  | some b =>
    rw [s.press_of_known label b h]
    cases b with
    | insert text spacing => exact ⟨_, rfl⟩
    | delete => exact ⟨_, rfl⟩
    | clear => rfl
    | answer => exact s.insertLast_frame
    | equals => exact ⟨s.equals_line, s.equals_of_error⟩

/-- What the display may show: nothing, the label of a fault, or the last result. -/
def Shows (s : Slate) : Prop :=
  s.display = "" ∨ s.display = "Syntax ERROR" ∨ s.display = "Math ERROR" ∨
    ∃ x, s.last = some x ∧ s.display = s.limits.format x

/-- What every button keeps. -/
structure Sound (limits : Limits) (s : Slate) : Prop where
  limits_eq : s.limits = limits
  normal : ∀ x, s.last = some x → x.Normal
  shows : s.Shows

theorem sound_new (limits : Limits) : Sound limits (new limits) :=
  ⟨rfl, nofun, .inl rfl⟩

theorem shows_label (s : Slate) (fault : Fault) : (s.showLabel fault.label).Shows := by
  change fault.label = "" ∨ fault.label = "Syntax ERROR" ∨ fault.label = "Math ERROR" ∨ _
  rw [Fault.label]
  cases fault.kind with
  | syntactic => exact .inr (.inl rfl)
  | mathematical => exact .inr (.inr (.inl rfl))

theorem Sound.equals {limits : Limits} {s : Slate} (h : Sound limits s) :
    Sound limits s.equals := by
  cases value : evaluate s.line with
  | error fault =>
    rw [s.equals_of_error fault value]
    exact ⟨h.limits_eq, h.normal, s.shows_label fault⟩
  | ok x =>
    rw [s.equals_of_ok x value]
    refine ⟨h.limits_eq, ?_, .inr (.inr (.inr ⟨x, rfl, rfl⟩))⟩
    intro y hy
    obtain rfl := Option.some.inj hy
    exact evaluate_normal s.line x value

theorem Sound.press {limits : Limits} {s : Slate} (h : Sound limits s) (label : String) :
    Sound limits (s.press label) := by
  rcases s.press_cases label with ⟨line, typed⟩ | cleared | ⟨-, evaluated⟩
  · rw [typed]
    exact ⟨h.limits_eq, h.normal, h.shows⟩
  · rw [cleared]
    exact ⟨h.limits_eq, h.normal, .inl rfl⟩
  · rw [evaluated]
    exact h.equals

theorem Sound.pressAll {limits : Limits} {s : Slate} (h : Sound limits s) (labels : List String) :
    Sound limits (s.pressAll labels) := by
  induction labels generalizing s with
  | nil => exact h
  | cons label labels ih => exact ih (h.press label)

/-- The values that evaluations of the line gave while labels were pressed, in order. -/
def results (s : Slate) : List String → List Decimal
  | [] => []
  | label :: labels =>
    let later := (s.press label).results labels
    if label = "=" then (evaluate s.line).toOption.toList ++ later else later

theorem equals_last (s : Slate) : s.equals.last = (evaluate s.line).toOption.or s.last := by
  cases value : evaluate s.line with
  | error fault =>
    rw [s.equals_of_error fault value]
    rfl
  | ok x =>
    rw [s.equals_of_ok x value]
    rfl

theorem press_last (s : Slate) (label : String) :
    (s.press label).last =
      if label = "=" then (evaluate s.line).toOption.or s.last else s.last := by
  by_cases h : label = "="
  · subst h
    rw [if_pos rfl, s.press_of_known "=" .equals rfl]
    exact s.equals_last
  · rw [if_neg h]
    rcases s.press_cases label with ⟨line, typed⟩ | cleared | ⟨evaluates, -⟩
    · rw [typed]
    · rw [cleared]
      rfl
    · contradiction

theorem pressAll_last (s : Slate) (labels : List String) :
    (s.pressAll labels).last = (s.results labels).getLast?.or s.last := by
  induction labels generalizing s with
  | nil => rfl
  | cons label labels ih =>
    rw [pressAll_cons, ih, results, s.press_last label]
    by_cases h : label = "="
    · rw [if_pos h, if_pos h, List.getLast?_append, Option.or_assoc]
      cases (evaluate s.line).toOption <;> rfl
    · rw [if_neg h, if_neg h]

/-- What holds of a slate after any labels, and what one more label leaves as it is. -/
theorem pressAll_sound (limits : Limits) (labels : List String) :
    let s := (new limits).pressAll labels
    Sound limits s ∧ s.last = ((new limits).results labels).getLast? ∧
      ∀ label, s.Framed label := by
  intro s
  refine ⟨(sound_new limits).pressAll labels, ?_, s.framed⟩
  have last := (new limits).pressAll_last labels
  rwa [show (new limits).last = none from rfl, Option.or_none] at last

end Slate

end Reckoner
