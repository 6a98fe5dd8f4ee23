namespace Reckoner.Text

/-- Unicode's White_Space property, the only characters that separate words. -/
def isBlank (c : Char) : Bool :=
  let n := c.toNat
  (9 ≤ n && n ≤ 13) || n == 0x20 || n == 0x85 || n == 0xA0 || n == 0x1680 ||
    (0x2000 ≤ n && n ≤ 0x200A) || n == 0x2028 || n == 0x2029 || n == 0x202F ||
    n == 0x205F || n == 0x3000

/-- The maximal runs of characters that are not blank, in order. -/
def words (cs : List Char) : List (List Char) :=
  (cs.splitOnP isBlank).filter (· ≠ [])

def trim (cs : List Char) : List Char :=
  ((cs.dropWhile isBlank).reverse.dropWhile isBlank).reverse

@[simp] theorem words_nil : words [] = [] := rfl

/-- A blank cuts the text: the words are those before it and those behind it. -/
theorem words_append_blank (a b : List Char) {s : Char} (hs : isBlank s) :
    words (a ++ s :: b) = words a ++ words b := by
  simp [words, List.splitOnP_append_cons _ _ hs]

theorem words_of_no_blank {w : List Char} (hw : w ≠ []) (h : ∀ c ∈ w, isBlank c = false) :
    words w = [w] := by
  rw [words, List.splitOnP_eq_singleton (by simpa using h)]
  simp [hw]

def IsWord (w : List Char) : Prop := w ≠ [] ∧ ∀ c ∈ w, isBlank c = false

instance (w : List Char) : Decidable (IsWord w) :=
  decidable_of_iff (!w.isEmpty && w.all fun c => !isBlank c) (by simp [IsWord])

/-- Words with a space between neighbours are read back. -/
theorem words_intercalate (ws : List (List Char)) (h : ∀ w ∈ ws, IsWord w) :
    words ([' '].intercalate ws) = ws := by
  induction ws with
  | nil => rfl
  | cons w ws ih =>
    obtain ⟨⟨some, solid⟩, rest⟩ := List.forall_mem_cons.1 h
    have first := words_of_no_blank some solid
    cases ws with
    | nil => rw [List.intercalate_singleton, first]
    | cons v ws =>
      rw [List.intercalate_cons_cons, List.append_assoc, List.singleton_append,
        words_append_blank w _ rfl, first, ih rest, List.singleton_append]

end Reckoner.Text
