import Reckoner.Display.Limits

namespace Reckoner

/-- A value in a settings document: a count, or anything else. -/
inductive Setting
  | count (n : Nat)
  | other
  deriving DecidableEq, Repr

/-- A settings document for the display: each limit by its name, a list with the scale first, or
anything else. Entries under other names are ignored. -/
inductive Settings
  | named (scale length : Option Setting)
  | listed (entries : List Setting)
  | other
  deriving Repr

namespace Settings

/-- Counts go up to the largest 64-bit word. -/
def maxCount : Nat := Numeric.pow2 64 - 1

/-- A limit in a document, or the default where the document does not give it. Only counts within
bounds are limits. -/
def limit? (default : Nat) : Option Setting → Option Nat
  | none => some default
  | some (.count n) => if n ≤ maxCount then some n else none
  | some .other => none

def ofPair? (scale length : Option Setting) : Option Limits := do
  let defaults : Limits := {}
  return ⟨← limit? defaults.maxScale scale, ← limit? defaults.maxLength length⟩

def limits? : Settings → Option Limits
  | named scale length => ofPair? scale length
  | listed entries => if entries.length ≤ 2 then ofPair? entries[0]? entries[1]? else none
  | other => none

end Settings

end Reckoner
