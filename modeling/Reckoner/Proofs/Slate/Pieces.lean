import Reckoner.Proofs.Slate.Recall

namespace Reckoner

open Text

namespace Line

/-- Digits and points, the first of which may be a minus sign instead. -/
def Numeral : List Char → Prop
  | [] => False
  | c :: cs => (c = '-' ∨ c.isDigit ∨ c = '.') ∧ ∀ d ∈ cs, d.isDigit ∨ d = '.'

/-- The marks that buttons type, one character each. -/
def marks : List Char :=
  ['+', '-', '×', '÷', '^', '(', ')', '!', '√', 'π', 'e']

/-- What stands between two places of the line where a button puts a space. -/
inductive Piece : List Char → Prop
  | numeral (p : List Char) (h : Numeral p) : Piece p
  | mark (c : Char) (h : c ∈ marks) : Piece [c]
  | block (p : List Char) (h : p ∈ blocks) : Piece p

/-- The line that pieces leave, the latest first. -/
def joined : List (List Char) → List Char
  | [] => []
  | p :: ps => spaced (joined ps) ++ p

theorem Numeral.written (p : List Char) (c : Char) (hp : Numeral p) (hc : c ∈ p) :
    c = '-' ∨ c.isDigit ∨ c = '.' := by
  cases p with
  | nil => contradiction
  | cons a as =>
    rcases List.mem_cons.1 hc with rfl | hc
    · exact hp.1
    · exact .inr (hp.2 c hc)

theorem Numeral.concat (p : List Char) (c : Char) (hp : Numeral p) (hc : c.isDigit ∨ c = '.') :
    Numeral (p ++ [c]) := by
  cases p with
  | nil => contradiction
  | cons a as =>
    refine ⟨hp.1, fun d hd => ?_⟩
    rcases List.mem_append.1 hd with hd | hd
    · exact hp.2 d hd
    · rwa [List.mem_singleton.1 hd]

theorem Numeral.of_concat (front : List Char) (c : Char) (hp : Numeral (front ++ [c])) :
    (c = '-' ∨ c.isDigit ∨ c = '.') ∧ (front = [] ∨ Numeral front) := by
  cases front with
  | nil => exact ⟨hp.1, .inl rfl⟩
  | cons a as =>
    obtain ⟨first, rest⟩ := hp
    refine ⟨.inr (rest c (by simp)), .inr ⟨first, fun d hd => ?_⟩⟩
    exact rest d (by simp [hd])

theorem solid_of_written (c : Char) (h : c = '-' ∨ c.isDigit ∨ c = '.') :
    isBlank c = false ∧ c ≠ 'n' ∧ c ≠ 's' ∧ c ≠ '(' := by
  rcases h with rfl | h | rfl
  · decide
  · refine ⟨isBlank_of_isDigit c h, ?_, ?_, ?_⟩ <;> (rintro rfl; contradiction)
  · decide

/-- A piece ends in no blank and in no letter of a function's name, and only a number ends in a
digit or a point. -/
theorem Piece.last (p : List Char) (hp : Piece p) :
    ∃ front c, p = front ++ [c] ∧ isBlank c = false ∧ c ≠ 'n' ∧ c ≠ 's' ∧
      (takesDigit c → Numeral p) := by
  cases hp with
  | numeral p h =>
    rcases List.eq_nil_or_concat p with rfl | ⟨front, c, rfl⟩
    · contradiction
    · rw [List.concat_eq_append] at h ⊢
      obtain ⟨solid, n, s, -⟩ := solid_of_written c (h.of_concat front c).1
      exact ⟨front, c, rfl, solid, n, s, fun _ => h⟩
  | mark c h =>
    have all : marks.all fun c => !isBlank c && c != 'n' && c != 's' && !takesDigit c := by
      decide
    have kept := List.all_eq_true.1 all c h
    simp only [Bool.and_eq_true, Bool.not_eq_true', bne_iff_ne] at kept
    obtain ⟨⟨⟨solid, n⟩, s⟩, apart⟩ := kept
    exact ⟨[], c, rfl, solid, n, s, fun joins => by simp [apart] at joins⟩
  | block p h =>
    have closed : ∀ b ∈ blocks, b = b.dropLast ++ ['('] := by decide
    exact ⟨_, '(', closed p h, rfl, by decide, by decide, nofun⟩

theorem joined_ne_nil (p : List Char) (ps : List (List Char)) (hp : Piece p) :
    joined (p :: ps) ≠ [] := by
  obtain ⟨front, c, rfl, -⟩ := hp.last
  simp [joined]

theorem dropSpaces_joined (ps : List (List Char)) (hps : ∀ p ∈ ps, Piece p) :
    dropSpaces (joined ps) = joined ps := by
  cases ps with
  | nil => rfl
  | cons p ps =>
    obtain ⟨front, c, rfl, hc, -⟩ := (hps p (by simp)).last
    rw [joined, ← List.append_assoc]
    apply dropSpaces_of_ne
    rintro rfl
    contradiction

theorem gapped_joined (ps : List (List Char)) (hps : ∀ p ∈ ps, Piece p) :
    gapped (joined ps) = spaced (joined ps) := by
  cases ps with
  | nil => rfl
  | cons p ps =>
    obtain ⟨front, c, rfl, hc, -⟩ := (hps p (by simp)).last
    have solid : lastSatisfies isBlank (joined ((front ++ [c]) :: ps)) = false := by
      simp [joined, lastSatisfies, ← List.append_assoc, hc]
    rw [gapped, solid, if_neg Bool.false_ne_true]

theorem spaced_joined_last (ps : List (List Char)) (hps : ∀ p ∈ ps, Piece p) (before : List Char)
    (d : Char) (h : spaced (joined ps) = before ++ [d, ' ']) : d ≠ 'n' ∧ d ≠ 's' := by
  cases ps with
  | nil => simp [joined, spaced] at h
  | cons p ps =>
    have piece := hps p (by simp)
    obtain ⟨front, c, rfl, -, n, s, -⟩ := piece.last
    rw [spaced, if_neg (joined_ne_nil _ ps piece)] at h
    have last : c = d := by
      have ends := congrArg (List.getLast? ∘ List.dropLast) h
      simpa [joined, ← List.append_assoc] using ends
    exact last ▸ ⟨n, s⟩

theorem lastSatisfies_of_imp {p q : Char → Bool} (cs : List Char) (h : ∀ c, p c → q c)
    (hp : lastSatisfies p cs) : lastSatisfies q cs := by
  rcases List.eq_nil_or_concat cs with rfl | ⟨front, c, rfl⟩
  · rfl
  · simp only [lastSatisfies, List.concat_eq_append, List.getLast?_concat, Option.all_some] at hp ⊢
    exact h c hp

theorem delete_of_kept (line front text : List Char) (kept : dropSpaces line = front ++ text)
    (count : deletedCount (front ++ text) = text.length) : delete line = dropSpaces front := by
  rw [delete]
  simp only [kept, count]
  rw [List.length_append, Nat.add_sub_cancel, List.take_left]

/-- The line holds pieces, with at most one space behind the last. -/
def Holds (ps : List (List Char)) (cs : List Char) : Prop :=
  (∀ p ∈ ps, Piece p) ∧ (cs = joined ps ∨ cs = spaced (joined ps))

theorem holds_nil : Holds [] [] :=
  ⟨List.forall_mem_nil _, .inl rfl⟩

section Typing

variable {ps : List (List Char)} {cs : List Char} (h : Holds ps cs)

include h

theorem Holds.dropSpaces : Line.dropSpaces cs = joined ps := by
  obtain ⟨pieces, rfl | rfl⟩ := h
  · exact dropSpaces_joined ps pieces
  · rw [dropSpaces_spaced, dropSpaces_joined ps pieces]

theorem Holds.gapped : Line.gapped cs = spaced (joined ps) := by
  obtain ⟨pieces, rfl | rfl⟩ := h
  · exact gapped_joined ps pieces
  · cases ps with
    | nil => rfl
    | cons p ps =>
      have blank : isBlank ' ' := rfl
      rw [spaced, if_neg (joined_ne_nil p ps (pieces p (by simp))), Line.gapped,
        History.lastSatisfies_space, if_pos blank]

theorem Holds.cons (p : List Char) (hp : Piece p) : Holds (p :: ps) (joined (p :: ps)) :=
  ⟨List.forall_mem_cons.2 ⟨hp, h.1⟩, .inl rfl⟩

theorem Holds.cons_spaced (p : List Char) (hp : Piece p) :
    Holds (p :: ps) (joined (p :: ps) ++ [' ']) := by
  refine ⟨List.forall_mem_cons.2 ⟨hp, h.1⟩, .inr ?_⟩
  rw [spaced, if_neg (joined_ne_nil p ps hp)]

theorem Holds.insert (text : List Char) (spacing : Spacing) (hp : Piece text)
    (hs : spacing ≠ .digit) : Holds (text :: ps) (Line.insert cs text spacing) := by
  cases spacing with
  | digit => contradiction
  | word =>
    show Holds (text :: ps) (Line.gapped cs ++ text)
    rw [h.gapped]
    exact h.cons text hp
  | function =>
    show Holds (text :: ps) (Line.gapped cs ++ text ++ [' '])
    rw [h.gapped]
    exact h.cons_spaced text hp
  | operator =>
    rw [Line.insert, h.dropSpaces]
    exact h.cons_spaced text hp

/-- A digit or a point goes on with the last piece if that is a number, and else begins one. -/
theorem Holds.insert_digit (c : Char) (hc : c.isDigit ∨ c = '.') :
    ∃ qs, Holds qs (Line.insert cs [c] .digit) := by
  have number : Piece [c] := .numeral [c] ⟨.inr hc, nofun⟩
  rw [Line.insert]
  by_cases joins : lastSatisfies takesDigit cs
  · rw [if_pos joins]
    cases ps with
    | nil =>
      obtain rfl : cs = [] := by simpa [joined, spaced] using h.2
      exact ⟨[[c]], h.cons [c] number⟩
    | cons p ps =>
      obtain ⟨first, rest⟩ := List.forall_mem_cons.1 h.1
      rcases h.2 with rfl | rfl
      · obtain ⟨front, d, rfl, -, -, -, numeral⟩ := first.last
        have digit : takesDigit d := by
          simpa [joined, lastSatisfies, ← List.append_assoc] using joins
        refine ⟨(front ++ [d] ++ [c]) :: ps, ?_⟩
        have whole := (numeral digit).concat _ c hc
        have held := Holds.cons ⟨rest, .inl rfl⟩ _ (.numeral _ whole)
        rwa [joined, ← List.append_assoc] at held
      · exact ⟨[c] :: p :: ps, h.cons [c] number⟩
  · -- Behind a blank a digit would be joined to it, so the last character is no blank either.
    have solid : ¬lastSatisfies isBlank cs := by
      intro blank
      refine joins (lastSatisfies_of_imp cs (fun d hd => ?_) blank)
      simp [takesDigit, hd]
    have gap := h.gapped
    rw [Line.gapped, if_neg solid] at gap
    rw [if_neg joins, gap]
    exact ⟨[c] :: ps, h.cons [c] number⟩

/-- A deletion takes the last piece as a whole, or the last character of a number. -/
theorem Holds.delete : ∃ qs, Holds qs (Line.delete cs) := by
  have kept := h.dropSpaces
  obtain ⟨pieces, -⟩ := h
  cases ps with
  | nil =>
    rw [Line.delete, kept]
    exact ⟨[], holds_nil⟩
  | cons p ps =>
    obtain ⟨piece, rest⟩ := List.forall_mem_cons.1 pieces
    have whole : Holds ps (Line.dropSpaces (spaced (joined ps))) := by
      rw [dropSpaces_spaced, dropSpaces_joined ps rest]
      exact ⟨rest, .inl rfl⟩
    rw [joined] at kept
    cases piece with
    | block p hb =>
      rw [delete_of_kept cs _ p kept (deletedCount_block _ p hb)]
      exact ⟨ps, whole⟩
    | mark c hc =>
      have count := deletedCount_char (spaced (joined ps)) c
        fun _ before d => spaced_joined_last ps rest before d
      rw [delete_of_kept cs _ [c] kept count]
      exact ⟨ps, whole⟩
    | numeral p hp =>
      rcases List.eq_nil_or_concat p with rfl | ⟨front, c, rfl⟩
      · contradiction
      · rw [List.concat_eq_append] at hp kept
        obtain ⟨written, shorter⟩ := hp.of_concat front c
        have closed := (solid_of_written c written).2.2.2
        have count := deletedCount_char (spaced (joined ps) ++ front) c
          fun opened => absurd opened closed
        rw [← List.append_assoc] at kept
        rw [delete_of_kept cs _ [c] kept count]
        rcases shorter with rfl | shorter
        · rw [List.append_nil]
          exact ⟨ps, whole⟩
        · have fewer := List.forall_mem_cons.2 ⟨Piece.numeral front shorter, rest⟩
          refine ⟨front :: ps, fewer, .inl ?_⟩
          exact dropSpaces_joined (front :: ps) fewer

end Typing

theorem mem_words_joined (ps : List (List Char)) (w : List Char) (hw : w ∈ words (joined ps)) :
    ∃ p ∈ ps, w ∈ words p := by
  induction ps with
  | nil => simp [joined] at hw
  | cons p ps ih =>
    rw [joined, words_spaced_append, List.mem_append] at hw
    rcases hw with hw | hw
    · obtain ⟨q, hq, hw⟩ := ih hw
      exact ⟨q, by simp [hq], hw⟩
    · exact ⟨p, by simp, hw⟩

theorem Holds.mem_words {ps : List (List Char)} {cs : List Char} (h : Holds ps cs) (w : List Char)
    (hw : w ∈ words cs) : ∃ p, Piece p ∧ w ∈ words p := by
  have joined : w ∈ words (joined ps) := by
    rcases h.2 with rfl | rfl
    · exact hw
    · rwa [← List.append_nil (spaced _), words_spaced_append, words_nil, List.append_nil] at hw
  obtain ⟨p, hp, hw⟩ := mem_words_joined ps w joined
  exact ⟨p, h.1 p hp, hw⟩

end Line

end Reckoner
