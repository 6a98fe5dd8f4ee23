namespace Reckoner

/-- How an insertion is spaced from what stands on the line. -/
inductive Spacing
  /-- Joins the number being typed. -/
  | digit
  /-- A word of its own. -/
  | word
  /-- A word of its own with a space behind it. -/
  | function
  /-- A space on both sides. -/
  | operator
  deriving DecidableEq, Repr

inductive Button
  | insert (text : String) (spacing : Spacing)
  | delete
  | clear
  | answer
  | equals
  deriving DecidableEq, Repr

namespace Button

/-- The buttons with their labels. A digit, an operator, a parenthesis and a constant insert what
the label says; a named function opens the parenthesis of its argument too. -/
def labelled : List (String × Button) :=
  ["0", "1", "2", "3", "4", "5", "6", "7", "8", "9", "."].map (fun l => (l, insert l .digit)) ++
  ["+", "-", "×", "÷", "^", "(", ")"].map (fun l => (l, insert l .operator)) ++
  ["sin", "cos", "tan", "ln"].map (fun l => (l, insert (l ++ " (") .function)) ++
  ["π", "e"].map (fun l => (l, insert l .word)) ++
  [("x!", insert "!" .operator), ("√x", insert "√" .function),
    ("DEL", delete), ("AC", clear), ("ANS", answer), ("=", equals)]

def ofLabel? (label : String) : Option Button :=
  labelled.lookup label

end Button

end Reckoner
