import Mathlib.Data.List.TakeDrop
import Mathlib.Data.List.TakeWhile
import Reckoner.Decimal.Literal
import Reckoner.Proofs.Text.Digits

namespace Reckoner

open Text Numeric

namespace Literal

/-- The spellings of a sign. None at all stands for plus. -/
inductive SpellsSign : Bool → List Char → Prop
  | absent : SpellsSign false []
  | plus : SpellsSign false ['+']
  | minus : SpellsSign true ['-']

/-- Digits with at most one point, which may have none on one of its sides. -/
inductive SpellsDigits (whole : List Char) : List Char → List Char → Prop
  | unpointed (hw : allDigits whole) (nonempty : whole ≠ []) : SpellsDigits whole [] whole
  | pointed (fraction : List Char) (hw : allDigits whole) (hf : allDigits fraction)
      (nonempty : whole ≠ [] ∨ fraction ≠ []) :
      SpellsDigits whole fraction (whole ++ '.' :: fraction)

/-- The number that digits with a sign denote. -/
def signedValue (negative : Bool) (ds : List Char) : Int :=
  if negative then -(digitsValue ds) else digitsValue ds

/-- An integer of any length, zeros in front included. -/
inductive SpellsInteger : Int → List Char → Prop
  | digits (negative : Bool) (sign ds : List Char) (hs : SpellsSign negative sign)
      (hd : allDigits ds) (nonempty : ds ≠ []) :
      SpellsInteger (signedValue negative ds) (sign ++ ds)

/-- An exponent within the bounds behind its mark. None at all stands for zero. -/
inductive SpellsExponent : Int → List Char → Prop
  | absent : SpellsExponent 0 []
  | marked (mark : Char) (n : Int) (cs : List Char) (hm : mark = 'e' ∨ mark = 'E')
      (hn : SpellsInteger n cs) (bounded : n.natAbs ≤ maxExponent) : SpellsExponent n (mark :: cs)

/-- The texts of a literal: its sign, its digits and its exponent, with nothing between them. -/
def Spells (l : Literal) (cs : List Char) : Prop :=
  ∃ sign digits exponent, cs = sign ++ (digits ++ exponent) ∧ SpellsSign l.negative sign ∧
    SpellsDigits l.whole l.fraction digits ∧ SpellsExponent l.exponent exponent

/-- What marks an exponent. -/
def isMark (c : Char) : Bool := c == 'e' || c == 'E'

theorem splitFirst_of_none (p : Char → Bool) (cs : List Char) (h : ∀ c ∈ cs, p c = false) :
    splitFirst p cs = (cs, none) := by
  have all : ∀ c ∈ cs, (!p c) = true := by simpa using h
  rw [splitFirst, List.span_eq_takeWhile_dropWhile, List.takeWhile_eq_self_iff.2 all,
    List.dropWhile_eq_nil_iff.2 all]

theorem splitFirst_append (p : Char → Bool) (before behind : List Char) (c : Char)
    (h : ∀ c ∈ before, p c = false) (hc : p c) :
    splitFirst p (before ++ c :: behind) = (before, some behind) := by
  have all : ∀ c ∈ before, (!p c) = true := by simpa using h
  rw [splitFirst, List.span_eq_takeWhile_dropWhile, List.takeWhile_append_of_pos all,
    List.dropWhile_append_of_pos all]
  simp [hc]

/-- What is split at the first character of a class joins to the whole again. -/
theorem splitFirst_joins (p : Char → Bool) (cs : List Char) :
    splitFirst p cs = (cs, none) ∨
      ∃ before c behind, splitFirst p cs = (before, some behind) ∧ p c ∧
        cs = before ++ c :: behind := by
  have joined := List.takeWhile_append_dropWhile (p := (!p ·)) (l := cs)
  have first := List.head?_dropWhile_not (!p ·) cs
  rw [splitFirst, List.span_eq_takeWhile_dropWhile]
  cases rest : cs.dropWhile (!p ·) with
  | nil =>
    rw [rest, List.append_nil] at joined
    exact .inl (by simp [joined])
  | cons c behind =>
    rw [rest] at joined first
    exact .inr ⟨_, c, behind, rfl, by simpa using first, joined.symm⟩

/-- The sign that is split off is one, and nothing else is lost. -/
theorem splitSign_spells (cs : List Char) :
    ∃ sign, SpellsSign (splitSign cs).1 sign ∧ cs = sign ++ (splitSign cs).2 := by
  rw [splitSign.eq_def]
  split
  · exact ⟨['-'], .minus, rfl⟩
  · exact ⟨['+'], .plus, rfl⟩
  · exact ⟨[], .absent, rfl⟩

/-- A sign is split off whole in front of a digit or a point. -/
theorem splitSign_append (negative : Bool) (sign cs : List Char) (c : Char)
    (hs : SpellsSign negative sign) (hc : c.isDigit ∨ c = '.') :
    splitSign (sign ++ c :: cs) = (negative, c :: cs) := by
  cases hs with
  | plus => rfl
  | minus => rfl
  | absent =>
    have unsigned (d : Char) (hd : ¬(d.isDigit ∨ d = '.')) (rest : List Char)
        (h : c :: cs = d :: rest) : False := by
      obtain ⟨rfl, -⟩ := List.cons.inj h
      exact hd hc
    rw [List.nil_append, splitSign]
    · exact unsigned '-' (by decide)
    · exact unsigned '+' (by decide)

theorem beq_of_isDigit (c d : Char) (hc : c.isDigit) (hd : d.isDigit = false) :
    (c == d) = false := by
  rw [beq_eq_false_iff_ne]
  rintro rfl
  rw [hc] at hd
  contradiction

theorem readInteger_iff (cs : List Char) (n : Int) :
    readInteger cs = some n ↔ SpellsInteger n cs := by
  constructor
  · intro h
    obtain ⟨sign, hs, hcs⟩ := splitSign_spells cs
    rcases splitSign cs with ⟨negative, ds⟩
    simp only [readInteger] at h
    split at h
    · rename_i written
      obtain rfl := Option.some.inj h
      have spelt := SpellsInteger.digits _ sign _ hs written.2 written.1
      rwa [← hcs] at spelt
    · contradiction
  · rintro ⟨negative, sign, ds, hs, hd, nonempty⟩
    obtain ⟨c, rest, rfl⟩ := List.exists_cons_of_ne_nil nonempty
    have split := splitSign_append negative sign rest c hs (.inl ((allDigits_cons c rest).1 hd).1)
    simp only [readInteger, split, if_pos (And.intro nonempty hd)]
    rfl

theorem readExponent_iff (cs : List Char) (n : Int) :
    readExponent cs = some n ↔ SpellsInteger n cs ∧ n.natAbs ≤ maxExponent := by
  rw [← readInteger_iff, readExponent]
  cases readInteger cs with
  | none => simp
  | some m =>
    simp only [Option.bind_eq_bind, Option.bind_some, Option.some.injEq]
    split
    · rename_i bounded
      simp only [Option.some.injEq]
      constructor
      · rintro rfl
        exact ⟨rfl, bounded⟩
      · exact And.left
    · rename_i large
      simp only [reduceCtorEq, false_iff]
      rintro ⟨rfl, bounded⟩
      exact large bounded

/-- The text behind the digits is an exponent if what follows its mark is read as one. -/
theorem spells_exponent (cs before : List Char) (mark : Option (List Char)) (n : Int)
    (hs : splitFirst isMark cs = (before, mark))
    (h : mark.elim (some 0) readExponent = some n) :
    ∃ exponent, SpellsExponent n exponent ∧ cs = before ++ exponent := by
  rcases splitFirst_joins isMark cs with absent | ⟨_, c, e, found, hc, hcs⟩
  · obtain ⟨rfl, rfl⟩ := Prod.mk.inj (hs.symm.trans absent)
    obtain rfl := Option.some.inj h
    exact ⟨[], .absent, by simp⟩
  · obtain ⟨rfl, rfl⟩ := Prod.mk.inj (hs.symm.trans found)
    obtain ⟨hn, bounded⟩ := (readExponent_iff e n).1 h
    exact ⟨c :: e, .marked c n e (by simpa [isMark] using hc) hn bounded, hcs⟩

theorem spells_digits (cs whole : List Char) (point : Option (List Char))
    (hs : splitFirst (· == '.') cs = (whole, point))
    (nonempty : ¬(whole = [] ∧ point.getD [] = [])) (hw : allDigits whole)
    (hf : allDigits (point.getD [])) : SpellsDigits whole (point.getD []) cs := by
  rcases splitFirst_joins (· == '.') cs with absent | ⟨_, c, fraction, found, hc, hcs⟩
  · obtain ⟨rfl, rfl⟩ := Prod.mk.inj (hs.symm.trans absent)
    exact .unpointed hw (by simpa using nonempty)
  · obtain ⟨rfl, rfl⟩ := Prod.mk.inj (hs.symm.trans found)
    obtain rfl : c = '.' := by simpa using hc
    rw [hcs]
    exact .pointed _ hw hf (by simpa [imp_iff_not_or] using nonempty)

/-- Reading with its three splittings made: behind them it only checks the digits and reads the
exponent. -/
theorem read_of_split (cs unsigned digits whole : List Char) (negative : Bool)
    (mark point : Option (List Char)) (signed : splitSign cs = (negative, unsigned))
    (marked : splitFirst isMark unsigned = (digits, mark))
    (pointed : splitFirst (· == '.') digits = (whole, point)) :
    read cs =
      if (whole = [] ∧ point.getD [] = []) ∨ !allDigits whole ∨ !allDigits (point.getD []) then none
      else (mark.elim (some 0) readExponent).map (⟨negative, whole, point.getD [], ·⟩) := by
  change splitFirst (fun c => c == 'e' || c == 'E') unsigned = _ at marked
  simp only [read, signed, marked, pointed]
  split
  · rfl
  · cases mark with
    | none => rfl
    | some e =>
      simp only [Option.elim_some]
      cases readExponent e <;> rfl

theorem spells_of_read (cs : List Char) (l : Literal) (h : read cs = some l) : l.Spells cs := by
  obtain ⟨sign, hsign, hcs⟩ := splitSign_spells cs
  rcases signed : splitSign cs with ⟨negative, unsigned⟩
  rcases marked : splitFirst isMark unsigned with ⟨digits, mark⟩
  rcases pointed : splitFirst (· == '.') digits with ⟨whole, point⟩
  rw [signed] at hsign hcs
  rw [read_of_split cs unsigned digits whole negative mark point signed marked pointed] at h
  split at h
  · contradiction
  rename_i valid
  simp only [not_or, Bool.not_eq_true', Bool.not_eq_false] at valid
  obtain ⟨nonempty, hw, hf⟩ := valid
  obtain ⟨n, hn, rfl⟩ := Option.map_eq_some_iff.1 h
  obtain ⟨exponent, hexponent, behind⟩ := spells_exponent unsigned digits mark n marked hn
  have hdigits := spells_digits digits whole point pointed nonempty hw hf
  refine ⟨sign, digits, exponent, ?_, hsign, hdigits, hexponent⟩
  rw [hcs, behind]

section Digits

variable {whole fraction digits : List Char} (h : SpellsDigits whole fraction digits)

include h

theorem SpellsDigits.chars : digits ≠ [] ∧ ∀ c ∈ digits, c.isDigit ∨ c = '.' := by
  cases h with
  | unpointed hw nonempty =>
    simp only [allDigits, List.all_eq_true] at hw
    exact ⟨nonempty, fun c hc => .inl (hw c hc)⟩
  | pointed _ hw hf =>
    simp only [allDigits, List.all_eq_true] at hw hf
    refine ⟨by simp, ?_⟩
    intro c hc
    simp only [List.mem_append, List.mem_cons] at hc
    rcases hc with hc | hc | hc
    · exact .inl (hw c hc)
    · exact .inr hc
    · exact .inl (hf c hc)

theorem SpellsDigits.unmarked : ∀ c ∈ digits, isMark c = false := by
  intro c hc
  rcases h.chars.2 c hc with digit | rfl
  · rw [isMark, beq_of_isDigit c 'e' digit rfl, beq_of_isDigit c 'E' digit rfl, Bool.or_false]
  · rfl

theorem SpellsDigits.splitFirst :
    ∃ point, splitFirst (· == '.') digits = (whole, point) ∧ point.getD [] = fraction ∧
      ¬(whole = [] ∧ fraction = []) ∧ allDigits whole ∧ allDigits fraction := by
  have apart (ds : List Char) (hd : allDigits ds) : ∀ c ∈ ds, (c == '.') = false := by
    intro c hc
    exact beq_of_isDigit c '.' (List.all_eq_true.1 hd c hc) rfl
  cases h with
  | unpointed hw nonempty =>
    exact ⟨none, splitFirst_of_none _ _ (apart _ hw), rfl, by simpa using nonempty, hw, rfl⟩
  | pointed _ hw hf nonempty =>
    refine ⟨some fraction, splitFirst_append _ _ _ '.' (apart _ hw) rfl, rfl, ?_, hw, hf⟩
    simpa [imp_iff_not_or] using nonempty

/-- A sign and digits are read as such whatever follows them, if it is empty or begins with the mark
of an exponent. -/
theorem SpellsDigits.read (negative : Bool) (sign behind : List Char) (mark : Option (List Char))
    (hs : SpellsSign negative sign)
    (marked : Literal.splitFirst isMark (digits ++ behind) = (digits, mark)) :
    read (sign ++ (digits ++ behind)) =
      (mark.elim (some 0) readExponent).map (⟨negative, whole, fraction, ·⟩) := by
  obtain ⟨point, pointed, rfl, written, hw, hf⟩ := h.splitFirst
  obtain ⟨first, rest, hfirst⟩ := List.exists_cons_of_ne_nil h.chars.1
  have signed : splitSign (sign ++ (digits ++ behind)) = (negative, digits ++ behind) := by
    rw [hfirst, List.cons_append]
    exact splitSign_append negative sign _ first hs (h.chars.2 first (by simp [hfirst]))
  rw [read_of_split _ _ digits whole negative mark point signed marked pointed, if_neg]
  simp [written, hw, hf]

end Digits

theorem read_of_spells (cs : List Char) (l : Literal) (h : l.Spells cs) : read cs = some l := by
  obtain ⟨negative, whole, fraction, n⟩ := l
  obtain ⟨sign, digits, exponent, rfl, hsign, hdigits, hexponent⟩ := h
  cases hexponent with
  | absent =>
    have unmarked := splitFirst_of_none isMark digits hdigits.unmarked
    rw [hdigits.read negative sign [] none hsign (by rw [List.append_nil, unmarked])]
    rfl
  | marked mark _ e hm hn bounded =>
    have marked := splitFirst_append isMark digits e mark hdigits.unmarked
      (by simpa [isMark] using hm)
    rw [hdigits.read negative sign _ (some e) hsign marked, Option.elim_some,
      (readExponent_iff e n).2 ⟨hn, bounded⟩]
    rfl

/-- The digits behind the point, less the exponent, are the scale. Where the exponent is larger, it
writes zeros and no digit is left behind the point. -/
theorem toDecimal_eq (l : Literal) :
    l.toDecimal =
      if l.exponent ≤ l.fraction.length then
        ⟨signedValue l.negative (l.whole ++ l.fraction), (l.fraction.length - l.exponent).toNat⟩
      else
        ⟨signedValue l.negative (l.whole ++ l.fraction) *
          pow10 (l.exponent - l.fraction.length).toNat, 0⟩ := by
  let places : Int := l.fraction.length
  change Decimal.mk (signedValue l.negative _ * pow10 (-(places - l.exponent)).toNat) _ = _
  by_cases within : l.exponent ≤ places
  · have none : (-(places - l.exponent)).toNat = 0 := by omega
    rw [if_pos within, none, pow10_zero, Int.natCast_one, Int.mul_one]
  · have none : (places - l.exponent).toNat = 0 := by omega
    rw [if_neg within, none, Int.neg_sub]

end Literal

namespace Decimal

/-- A text is a literal exactly if it is a sign, digits with at most one point and an exponent
within the bounds, and each of these texts denotes one pair. -/
theorem ofLiteral_eq_some_iff (s : String) (x : Decimal) :
    ofLiteral? s = some x ↔ ∃ l : Literal, l.Spells s.toList ∧
      x =
        let m := Literal.signedValue l.negative (l.whole ++ l.fraction)
        let places : Int := l.fraction.length
        if l.exponent ≤ places then ⟨m, (places - l.exponent).toNat⟩
        else ⟨m * pow10 (l.exponent - places).toNat, 0⟩ := by
  rw [ofLiteral?, ofChars?, Option.map_eq_some_iff]
  constructor
  · rintro ⟨l, h, rfl⟩
    exact ⟨l, Literal.spells_of_read _ l h, l.toDecimal_eq⟩
  · rintro ⟨l, h, rfl⟩
    exact ⟨l, Literal.read_of_spells _ l h, l.toDecimal_eq⟩

end Decimal

end Reckoner
