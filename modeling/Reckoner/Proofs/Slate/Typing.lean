import Reckoner.Slate.History

namespace Reckoner

open Text

namespace Line

theorem dropSpaces_of_ne (front : List Char) (c : Char) (hc : c ≠ ' ') :
    dropSpaces (front ++ [c]) = front ++ [c] := by
  simp [dropSpaces, hc]

theorem dropSpaces_append_space (line : List Char) :
    dropSpaces (line ++ [' ']) = dropSpaces line := by
  simp [dropSpaces]

theorem dropSpaces_spaced (line : List Char) : dropSpaces (spaced line) = dropSpaces line := by
  by_cases h : line = []
  · rw [spaced, if_pos h, h]
  · rw [spaced, if_neg h, dropSpaces_append_space]

theorem words_spaced_append (line text : List Char) :
    words (spaced line ++ text) = words line ++ words text := by
  by_cases h : line = []
  · rw [spaced, if_pos h, h, words_nil, List.nil_append, List.nil_append]
  · rw [spaced, if_neg h, List.append_assoc, List.singleton_append]
    exact words_append_blank line text rfl

theorem words_spaced_last (line word : List Char) (hw : word ≠ [])
    (h : ∀ c ∈ word, isBlank c = false) : words (spaced line ++ word) = words line ++ [word] := by
  rw [words_spaced_append, words_of_no_blank hw h]

/-- What a button types: one character, which goes on with a number if the button is a digit's, or
the name of a function with its parenthesis. -/
def typeable : List Char → Spacing → Bool
  | [c], spacing =>
    !isBlank c && takesDigit c == (spacing == .digit) && c != 'n' && c != 's'
  | text, spacing => blocks.contains text && spacing == .function

theorem typeable_cases (text : List Char) (spacing : Spacing) (h : typeable text spacing) :
    (∃ c, text = [c] ∧ isBlank c = false ∧ takesDigit c = (spacing == .digit) ∧
      c ≠ 'n' ∧ c ≠ 's') ∨ (text ∈ blocks ∧ spacing = .function) := by
  unfold typeable at h
  split at h
  · rename_i c
    simp only [Bool.and_eq_true, Bool.not_eq_true', beq_iff_eq, bne_iff_ne] at h
    exact .inl ⟨c, rfl, h.1.1.1, h.1.1.2, h.1.2, h.2⟩
  · simp only [Bool.and_eq_true, List.contains_iff_mem, beq_iff_eq] at h
    exact .inr h

/-- A typed text ends in a character that shows its kind, and in no letter of a function's name. -/
theorem typeable_last (text : List Char) (spacing : Spacing) (h : typeable text spacing) :
    ∃ front c, text = front ++ [c] ∧ isBlank c = false ∧ takesDigit c = (spacing == .digit) ∧
      c ≠ 'n' ∧ c ≠ 's' := by
  rcases typeable_cases text spacing h with ⟨c, rfl, hc⟩ | ⟨hb, rfl⟩
  · exact ⟨[], c, rfl, hc⟩
  · have closed : ∀ b ∈ blocks, b = b.dropLast ++ ['('] := by decide
    exact ⟨_, '(', closed text hb, rfl, rfl, by decide, by decide⟩

theorem typeable_digit (text : List Char) (h : typeable text .digit) :
    ∃ c, text = [c] ∧ isBlank c = false := by
  rcases typeable_cases text .digit h with ⟨c, rfl, hc, -⟩ | ⟨-, hs⟩
  · exact ⟨c, rfl, hc⟩
  · contradiction

theorem deletedCount_block (front text : List Char) (ht : text ∈ blocks) :
    deletedCount (front ++ text) = text.length := by
  -- No block ends another one, so the block that is found is the one that was typed.
  have apart : ∀ a ∈ blocks, ∀ b ∈ blocks, a.isSuffixOf b → a = b := by decide
  have last : text.isSuffixOf (front ++ text) :=
    List.isSuffixOf_iff_suffix.2 (List.suffix_append front text)
  rw [deletedCount]
  cases hf : blocks.find? (·.isSuffixOf (front ++ text)) with
  | none => exact absurd last (List.find?_eq_none.1 hf text ht)
  | some block =>
    have hb := List.mem_of_find?_eq_some hf
    have found : block <:+ front ++ text := by simpa using List.find?_some hf
    have same : block = text := by
      rcases List.suffix_or_suffix_of_suffix found (List.suffix_append front text) with hs | hs
      · exact apart block hb text ht (List.isSuffixOf_iff_suffix.2 hs)
      · exact (apart text ht block hb (List.isSuffixOf_iff_suffix.2 hs)).symm
    simp only [same]

theorem deletedCount_char (front : List Char) (c : Char)
    (h : c = '(' → ∀ before d, front = before ++ [d, ' '] → d ≠ 'n' ∧ d ≠ 's') :
    deletedCount (front ++ [c]) = 1 := by
  have ends : ∀ b ∈ blocks, ∃ d ∈ ['n', 's'], [d, ' ', '('].isSuffixOf b := by
    rw [blocks, List.forall_mem_cons, List.forall_mem_cons, List.forall_mem_cons,
      List.forall_mem_singleton]
    have n : 'n' ∈ ['n', 's'] := List.mem_cons_self
    have s : 's' ∈ ['n', 's'] := List.mem_cons_of_mem _ List.mem_cons_self
    exact ⟨⟨'n', n, rfl⟩, ⟨'s', s, rfl⟩, ⟨'n', n, rfl⟩, ⟨'n', n, rfl⟩⟩
  have none : blocks.find? (·.isSuffixOf (front ++ [c])) = none := by
    rw [List.find?_eq_none]
    intro b hb hs
    obtain ⟨d, hd, he⟩ := ends b hb
    obtain ⟨before, hbefore⟩ :=
      (List.isSuffixOf_iff_suffix.1 he).trans (List.isSuffixOf_iff_suffix.1 hs)
    have split : (before ++ [d, ' ']) ++ ['('] = front ++ [c] := by simpa using hbefore
    obtain ⟨rfl, hc⟩ := List.append_inj' split rfl
    have named := h (by simpa using hc.symm) before d rfl
    simp [named] at hd
  rw [deletedCount, none]

end Line

namespace History

open Line

/-- Whether an insertion goes on with the number that the one before it began. -/
def continues (p : String × Spacing) (h : History) : Bool :=
  p.2 == .digit && h.head?.any (·.2 == .digit)

theorem continues_iff (p : String × Spacing) (h : History) :
    continues p h ↔ p.2 = .digit ∧ h.head?.any (·.2 == .digit) := by
  rw [continues, Bool.and_eq_true, beq_iff_eq]

/-- The line that insertions leave, without spaces at its end. -/
def line : History → List Char
  | [] => []
  | p :: h => (if continues p h then line h else spaced (line h)) ++ p.1.toList

theorem line_cons (p : String × Spacing) (h : History) :
    line (p :: h) = (if continues p h then line h else spaced (line h)) ++ p.1.toList := rfl

def Typed (h : History) : Prop := ∀ p ∈ h, typeable p.1.toList p.2

theorem line_last (p : String × Spacing) (h : History) (hp : typeable p.1.toList p.2) :
    ∃ front c, line (p :: h) = front ++ [c] ∧ isBlank c = false ∧
      takesDigit c = (p.2 == .digit) ∧ c ≠ 'n' ∧ c ≠ 's' := by
  obtain ⟨front, c, htext, hc⟩ := typeable_last p.1.toList p.2 hp
  refine ⟨(if continues p h then line h else spaced (line h)) ++ front, c, ?_, hc⟩
  rw [line, htext, List.append_assoc]

theorem dropSpaces_line (h : History) (ht : Typed h) : dropSpaces (line h) = line h := by
  cases h with
  | nil => rfl
  | cons p h =>
    obtain ⟨front, c, hline, hblank, -⟩ := line_last p h (ht p List.mem_cons_self)
    rw [hline]
    apply dropSpaces_of_ne
    rintro rfl
    contradiction

/-- The number that digits type is the last word, and stands behind a space. -/
theorem line_number (h : History) (ht : Typed h) (hd : h.head?.any (·.2 == .digit)) :
    ∃ front number, line h = spaced front ++ number ∧ number ≠ [] ∧
      ∀ c ∈ number, isBlank c = false := by
  induction h with
  | nil => contradiction
  | cons p h ih =>
    have digit : p.2 = .digit := by simpa using hd
    obtain ⟨c, htext, hblank⟩ := typeable_digit p.1.toList (digit ▸ ht p List.mem_cons_self)
    by_cases hc : continues p h
    · have rest : Typed h := fun q hq => ht q (List.mem_cons_of_mem p hq)
      obtain ⟨-, more⟩ := (continues_iff p h).1 hc
      obtain ⟨front, number, hline, -, hn⟩ := ih rest more
      have solid := List.forall_mem_append.2 ⟨hn, List.forall_mem_singleton.2 hblank⟩
      refine ⟨front, number ++ [c], ?_, List.concat_ne_nil c number, solid⟩
      rw [line, if_pos hc, hline, htext, List.append_assoc]
    · refine ⟨line h, [c], ?_, List.cons_ne_nil c [], List.forall_mem_singleton.2 hblank⟩
      rw [line, if_neg hc, htext]

theorem words_continues (p : String × Spacing) (h : History) (front : List (List Char))
    (number : List Char) (hc : continues p h) (hw : words h = front ++ [number]) :
    words (p :: h) = front ++ [number ++ p.1.toList] := by
  obtain ⟨text, spacing⟩ := p
  obtain ⟨rfl, more⟩ := (continues_iff _ h).1 hc
  cases h with
  | nil => contradiction
  | cons q h =>
    obtain ⟨before, kind⟩ := q
    obtain rfl : kind = .digit := by simpa using more
    rw [words, hw, List.reverse_append, List.reverse_singleton, List.singleton_append]
    simp only [List.reverse_reverse]

theorem words_of_not_continues (p : String × Spacing) (h : History) (hc : continues p h = false) :
    words (p :: h) = words h ++ wordsOf p.1 := by
  obtain ⟨text, spacing⟩ := p
  rw [words]
  rintro before h' rfl rfl
  simp [continues] at hc

theorem words_line (h : History) (ht : Typed h) : Text.words (line h) = words h := by
  induction h with
  | nil => rfl
  | cons p h ih =>
    have rest : Typed h := fun q hq => ht q (List.mem_cons_of_mem p hq)
    by_cases hc : continues p h
    · obtain ⟨digit, more⟩ := (continues_iff p h).1 hc
      obtain ⟨c, htext, hblank⟩ := typeable_digit p.1.toList (digit ▸ ht p List.mem_cons_self)
      obtain ⟨front, number, hline, hne, hn⟩ := line_number h rest more
      have before : words h = Text.words front ++ [number] := by
        rw [← ih rest, hline, words_spaced_last front number hne hn]
      rw [words_continues p h _ _ hc before, line, if_pos hc, hline, List.append_assoc, htext]
      have solid := List.forall_mem_append.2 ⟨hn, List.forall_mem_singleton.2 hblank⟩
      exact words_spaced_last front (number ++ [c]) (List.concat_ne_nil c number) solid
    · rw [Bool.not_eq_true] at hc
      rw [words_of_not_continues p h hc, line, hc, if_neg Bool.false_ne_true, words_spaced_append,
        ih rest, wordsOf]

/-- The line holds what the history says, with at most one space behind it, and with none behind a
number that may go on. -/
def Tracks (h : History) (cs : List Char) : Prop :=
  Typed h ∧ (cs = line h ∨ (cs = line h ++ [' '] ∧ h ≠ [] ∧ ∀ p ∈ h.head?, p.2 ≠ .digit))

theorem Tracks.dropSpaces {h : History} {cs : List Char} (ht : Tracks h cs) :
    Line.dropSpaces cs = line h := by
  obtain ⟨typed, rfl | ⟨rfl, -⟩⟩ := ht
  · exact dropSpaces_line h typed
  · rw [dropSpaces_append_space, dropSpaces_line h typed]

theorem Tracks.words {h : History} {cs : List Char} (ht : Tracks h cs) :
    Text.words cs = words h := by
  obtain ⟨typed, rfl | ⟨rfl, -⟩⟩ := ht
  · exact words_line h typed
  · rw [words_append_blank (line h) [] rfl, words_nil, List.append_nil, words_line h typed]

end History

end Reckoner
