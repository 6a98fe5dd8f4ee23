import Reckoner.Slate

namespace Reckoner

namespace Slate

def pressAll (s : Slate) (labels : List String) : Slate :=
  labels.foldl press s

@[simp] theorem pressAll_nil (s : Slate) : s.pressAll [] = s := rfl

@[simp] theorem pressAll_cons (s : Slate) (label : String) (labels : List String) :
    s.pressAll (label :: labels) = (s.press label).pressAll labels := rfl

theorem pressAll_append (s : Slate) (a b : List String) :
    s.pressAll (a ++ b) = (s.pressAll a).pressAll b := by
  simp [pressAll, List.foldl_append]

end Slate

/-- What was typed, the latest first. -/
abbrev History := List (String × Spacing)

namespace History

/-- The insertions that stand after one more label: a deletion takes the latest one back, clearing
takes them all. -/
def press (h : History) (label : String) : History :=
  match Button.ofLabel? label with
  | some (.insert text spacing) => (text, spacing) :: h
  | some .delete => h.tail
  | some .clear => []
  | some .answer | some .equals | none => h

def ofLabels (labels : List String) : History :=
  labels.foldl press []

def wordsOf (text : String) : List (List Char) :=
  Text.words text.toList

/-- The words on the line, in order. A digit goes on with the number that digits typed just before
it began. -/
def words : History → List (List Char)
  | [] => []
  | (text, .digit) :: (before, .digit) :: h =>
    match (words ((before, .digit) :: h)).reverse with
    | number :: rest => rest.reverse ++ [number ++ text.toList]
    | [] => [text.toList]
  | (text, _) :: h => words h ++ wordsOf text

end History

end Reckoner
