import Reckoner.Proofs.Slate.Typing

namespace Reckoner

open Line Text

namespace History

theorem line_cons_ne_nil (p : String × Spacing) (h : History) (hp : typeable p.1.toList p.2) :
    line (p :: h) ≠ [] := by
  obtain ⟨front, c, hline, -⟩ := line_last p h hp
  simp [hline]

theorem lastSatisfies_space (p : Char → Bool) (cs : List Char) :
    lastSatisfies p (cs ++ [' ']) = p ' ' := by
  rw [lastSatisfies, List.getLast?_concat, Option.all_some]

/-- A digit joins the number that a digit typed just before it goes on with, and else begins one
behind a space. -/
theorem tracks_insert_digit (h : History) (cs : List Char) (text : String) (ht : Tracks h cs)
    (hp : typeable text.toList .digit) :
    Tracks ((text, .digit) :: h) (Line.insert cs text.toList .digit) := by
  obtain ⟨typed, hcs⟩ := ht
  refine ⟨List.forall_mem_cons.2 ⟨hp, typed⟩, .inl ?_⟩
  cases h with
  | nil =>
    obtain rfl : cs = [] := by simpa [line] using hcs
    rfl
  | cons p h =>
    have hne := line_cons_ne_nil p h (typed p List.mem_cons_self)
    obtain ⟨front, c, hline, -, hc, -⟩ := line_last p h (typed p List.mem_cons_self)
    rcases hcs with rfl | ⟨rfl, -, hd⟩
    · have last : lastSatisfies takesDigit (line (p :: h)) = continues (text, .digit) (p :: h) := by
        rw [hline, lastSatisfies, List.getLast?_concat, Option.all_some, hc]
        rfl
      rw [Line.insert, last, line_cons _ (p :: h)]
    · have apart : continues (text, .digit) (p :: h) = false := by
        simpa [continues] using hd p rfl
      have blank : takesDigit ' ' := rfl
      rw [Line.insert, lastSatisfies_space, if_pos blank, line_cons _ (p :: h), apart,
        if_neg Bool.false_ne_true, spaced, if_neg hne]

theorem Tracks.gap {h : History} {cs : List Char} (ht : Tracks h cs) :
    (if lastSatisfies isBlank cs then cs else spaced cs) = spaced (line h) := by
  obtain ⟨typed, hcs⟩ := ht
  cases h with
  | nil =>
    obtain rfl : cs = [] := by simpa [line] using hcs
    rfl
  | cons p h =>
    have hne := line_cons_ne_nil p h (typed p List.mem_cons_self)
    obtain ⟨front, c, hline, hblank, -⟩ := line_last p h (typed p List.mem_cons_self)
    rcases hcs with rfl | ⟨rfl, -⟩
    · have last : lastSatisfies isBlank (line (p :: h)) = false := by
        rw [hline, lastSatisfies, List.getLast?_concat, Option.all_some, hblank]
      rw [last, if_neg Bool.false_ne_true]
    · have blank : isBlank ' ' := rfl
      rw [lastSatisfies_space, if_pos blank, spaced, if_neg hne]

theorem tracks_insert (h : History) (cs : List Char) (text : String) (spacing : Spacing)
    (ht : Tracks h cs) (hp : typeable text.toList spacing) :
    Tracks ((text, spacing) :: h) (Line.insert cs text.toList spacing) := by
  have typed : Typed ((text, spacing) :: h) := List.forall_mem_cons.2 ⟨hp, ht.1⟩
  cases spacing with
  | digit => exact tracks_insert_digit h cs text ht hp
  | word => exact ⟨typed, .inl (by rw [Line.insert, ht.gap]; rfl)⟩
  | function =>
    exact ⟨typed, .inr ⟨by rw [Line.insert, ht.gap]; rfl, by simp, by simp⟩⟩
  | operator =>
    exact ⟨typed, .inr ⟨by rw [Line.insert, ht.dropSpaces]; rfl, by simp, by simp⟩⟩

theorem deletedCount_line (p : String × Spacing) (h : History) (ht : Typed (p :: h)) :
    deletedCount (line (p :: h)) = p.1.toList.length := by
  obtain ⟨text, spacing⟩ := p
  rw [line]
  rcases typeable_cases text.toList spacing (ht _ List.mem_cons_self) with
    ⟨c, htext, -, hdigit, -⟩ | ⟨hblock, -⟩
  · simp only [htext]
    apply deletedCount_char
    rintro rfl before d hgap
    -- The parenthesis is no digit, so before it stands the end of an earlier text.
    have apart : continues (text, spacing) h = false := by
      have other : (spacing == .digit) = false := hdigit.symm
      simp [continues, other]
    rw [apart, if_neg Bool.false_ne_true] at hgap
    cases h with
    | nil => simp [line, spaced] at hgap
    | cons q h =>
      have hq := ht q (by simp)
      obtain ⟨front, e, hline, -, -, he⟩ := line_last q h hq
      rw [spaced, if_neg (line_cons_ne_nil q h hq), hline] at hgap
      have last : e = d := by
        have ends := congrArg (List.getLast? ∘ List.dropLast) hgap
        simpa using ends
      exact last ▸ he
  · exact deletedCount_block _ _ hblock

theorem tracks_delete (h : History) (cs : List Char) (ht : Tracks h cs) :
    Tracks h.tail (Line.delete cs) := by
  have typed := ht.1
  have kept := ht.dropSpaces
  cases h with
  | nil =>
    refine ⟨nofun, .inl ?_⟩
    rw [Line.delete, kept]
    rfl
  | cons p h =>
    have rest : Typed h := fun q hq => typed q (List.mem_cons_of_mem p hq)
    have count := deletedCount_line p h typed
    refine ⟨rest, .inl ?_⟩
    rw [Line.delete]
    simp only [kept, count]
    rw [line, List.length_append, Nat.add_sub_cancel, List.take_left]
    split
    · exact dropSpaces_line h rest
    · rw [dropSpaces_spaced, dropSpaces_line h rest, List.tail_cons]

end History

namespace Button

theorem mem_labelled (label : String) (b : Button) (h : ofLabel? label = some b) :
    (label, b) ∈ labelled := by
  obtain ⟨before, behind, hl, -⟩ := List.lookup_eq_some_iff.1 h
  simp [hl]

/-- Whether a button types a text of its kind, if it types one. -/
def typesWell : Button → Bool
  | insert text spacing => typeable text.toList spacing
  | _ => true

theorem typeable_of_ofLabel (label text : String) (spacing : Spacing)
    (h : ofLabel? label = some (.insert text spacing)) : typeable text.toList spacing := by
  have all : ∀ p ∈ labelled, p.2.typesWell := by decide
  exact all (label, .insert text spacing) (mem_labelled label _ h)

theorem eq_ANS_of_ofLabel (label : String) (h : ofLabel? label = some .answer) :
    label = "ANS" := by
  have all : ∀ p ∈ labelled, p.2 = .answer → p.1 = "ANS" := by decide
  exact all (label, .answer) (mem_labelled label _ h) rfl

end Button

namespace Slate

@[simp] theorem insert_line (s : Slate) (text : String) (spacing : Spacing) :
    (s.insert text spacing).line.toList = Line.insert s.line.toList text.toList spacing :=
  String.toList_ofList

@[simp] theorem delete_line (s : Slate) : s.delete.line.toList = Line.delete s.line.toList :=
  String.toList_ofList

@[simp] theorem equals_line (s : Slate) : s.equals.line = s.line := by
  unfold equals
  split <;> rfl

theorem tracks_press (s : Slate) (h : History) (label : String)
    (ht : History.Tracks h s.line.toList) (hl : label ≠ "ANS") :
    History.Tracks (History.press h label) (s.press label).line.toList := by
  rw [History.press, press, press?]
  cases hb : Button.ofLabel? label with
  | none => exact ht
  | some b =>
    cases b with
    | insert text spacing =>
      simp only [Option.map_some, Option.getD_some, apply, insert_line]
      exact History.tracks_insert h _ text spacing ht (Button.typeable_of_ofLabel label _ _ hb)
    | delete =>
      simp only [Option.map_some, Option.getD_some, apply, delete_line]
      exact History.tracks_delete h _ ht
    | clear => exact ⟨nofun, .inl rfl⟩
    | answer => exact absurd (Button.eq_ANS_of_ofLabel label hb) hl
    | equals =>
      simp only [Option.map_some, Option.getD_some, apply, equals_line]
      exact ht

theorem tracks_pressAll (s : Slate) (h : History) (labels : List String)
    (ht : History.Tracks h s.line.toList) (hl : "ANS" ∉ labels) :
    History.Tracks (labels.foldl History.press h) (s.pressAll labels).line.toList := by
  induction labels generalizing s h with
  | nil => exact ht
  | cons label labels ih =>
    simp only [List.mem_cons, not_or] at hl
    exact ih (s.press label) (h.press label) (s.tracks_press h label ht (Ne.symm hl.1)) hl.2

/-- The words on the line are those of the insertions that stand. -/
theorem words_pressAll (limits : Limits) (labels : List String) (h : "ANS" ∉ labels) :
    Text.words ((new limits).pressAll labels).line.toList =
      History.words (History.ofLabels labels) := by
  have start : History.Tracks [] (new limits).line.toList := ⟨nofun, .inl rfl⟩
  exact ((new limits).tracks_pressAll [] labels start h).words

/-- Deletions inside a number, of a function and of the sign behind it. -/
theorem words_pressAll_deletions :
    let labels := ["2", ".", "5", "DEL", "+", "sin", "DEL", "DEL", "7", "x!", "cos", "(", "DEL",
      "?", "=", "π"]
    "ANS" ∉ labels ∧
      Text.words ((new {}).pressAll labels).line.toList =
        History.words (History.ofLabels labels) ∧
      History.words (History.ofLabels labels) =
        ["2.7", "!", "cos", "(", "π"].map String.toList := by
  intro labels
  have noAnswer : "ANS" ∉ labels := by decide
  exact ⟨noAnswer, words_pressAll {} labels noAnswer, rfl⟩

end Slate

end Reckoner
