import Reckoner.Expression.Evaluate
import Reckoner.Proofs.Expression.Reading

namespace Reckoner

namespace Token

/-- The words with those at some positions replaced by the name of the sign. -/
def respell (marked : Nat → Bool) (ws : List String) : List String :=
  ws.mapIdx fun i w => if marked i then "minus" else w

theorem respell_cons (marked : Nat → Bool) (w : String) (ws : List String) :
    respell marked (w :: ws) =
      (if marked 0 then "minus" else w) :: respell (fun i => marked (i + 1)) ws :=
  List.mapIdx_cons

/-- A word behind one that may have been respelled, and that may be respelled itself. Only a minus
that keeps its spelling behind one that does not is read as something else, a difference. -/
theorem ofWord_respell (marked : Bool) (previous respelt : Option String) (w : String) (t : Token)
    (h : ofWord previous w = .ok t) (hm : marked → w = "-" ∧ t = unary .negate)
    (hp : respelt = previous ∨ (previous = some "-" ∧ respelt = some "minus")) :
    ∃ u, ofWord respelt (if marked then "minus" else w) = .ok u ∧
      (u = t ↔ (respelt ≠ previous → w = "-" → marked)) := by
  cases marked with
  | true =>
    obtain ⟨-, rfl⟩ := hm rfl
    have named : ofWord respelt "minus" = .ok (unary .negate) := rfl
    exact ⟨unary .negate, named, by simp⟩
  | false =>
    rcases hp with rfl | ⟨rfl, rfl⟩
    · exact ⟨t, h, by simp⟩
    · by_cases minus : w = "-"
      · subst minus
        obtain rfl : unary .negate = t := Except.ok.inj h
        exact ⟨binary .sub, rfl, by simp⟩
      · have same : ofWord (some "minus") w = ofWord (some "-") w := by
          cases symbol : BinaryOp.ofSymbol? w with
          | none => exact ofWord_of_not_symbol _ _ w symbol
          | some op =>
            -- Behind a minus every other operator is misplaced, and so is not a token.
            obtain rfl := BinaryOp.symbol_of_ofSymbol? symbol
            cases op <;> contradiction
        exact ⟨t, same.trans h, by simp [minus]⟩

/-- Words behind one that may have been respelled. They keep their tokens exactly if every minus
directly behind a respelled one is respelled too. -/
theorem ofWords_respell (marked : Nat → Bool) (previous respelt : Option String)
    (ws : List String) (ts : List Token) (h : ofWords previous ws = .ok ts)
    (hm : ∀ i, marked i → ws[i]? = some "-" ∧ ts[i]? = some (unary .negate))
    (hp : respelt = previous ∨ (previous = some "-" ∧ respelt = some "minus")) :
    ∃ us, ofWords respelt (respell marked ws) = .ok us ∧
      (us = ts ↔ (respelt ≠ previous → ws[0]? = some "-" → marked 0) ∧
        ∀ i, marked i → ws[i + 1]? = some "-" → marked (i + 1)) := by
  induction ws generalizing marked previous respelt ts with
  | nil =>
    obtain rfl := Except.ok.inj h
    exact ⟨[], rfl, by simp⟩
  | cons w ws ih =>
    obtain ⟨t, rest, first, later, rfl⟩ := (ofWords_cons_ok previous w ws ts).1 h
    have here : marked 0 → w = "-" ∧ t = unary .negate := by simpa using hm 0
    have next : some (if marked 0 then "minus" else w) = some w ∨
        (some w = some "-" ∧ some (if marked 0 then "minus" else w) = some "minus") := by
      by_cases m : marked 0
      · exact .inr ⟨by rw [(here m).1], by rw [if_pos m]⟩
      · exact .inl (by rw [if_neg m])
    obtain ⟨u, hu, same⟩ := ofWord_respell (marked 0) previous respelt w t first here hp
    obtain ⟨us, hus, sames⟩ := ih (fun i => marked (i + 1)) (some w) _ rest later
      (fun i hi => hm (i + 1) hi) next
    refine ⟨u :: us, ?_, ?_⟩
    · rw [respell_cons]
      exact (ofWords_cons_ok _ _ _ _).2 ⟨u, us, hu, hus, rfl⟩
    · have changed : some (if marked 0 then "minus" else w) ≠ some w ↔ marked 0 := by
        by_cases m : marked 0
        · rw [if_pos m, (here m).1]
          exact iff_of_true (by decide) m
        · rw [if_neg m]
          exact iff_of_false (fun apart => apart rfl) m
      rw [List.cons.injEq, same, sames, changed]
      simp only [List.getElem?_cons_zero, List.getElem?_cons_succ, Option.some.injEq]
      exact and_congr_right fun _ => Nat.and_forall_add_one
        (p := fun i => marked i → ws[i]? = some "-" → marked (i + 1))

end Token

open Token

/-- The two spellings of the sign, a minus where an operand is due and its name. Signs may take the
name anywhere, as long as each minus directly behind such a sign takes it too: behind the name, a
minus is read as a difference. -/
theorem tokens_respell_iff (ws : List String) (ts : List Token) (marked : Nat → Bool)
    (hw : ∀ w ∈ ws, Text.IsWord w.toList) (h : tokens (" ".intercalate ws) = .ok ts)
    (hm : ∀ i, marked i → ws[i]? = some "-" ∧ ts[i]? = some (.unary .negate)) :
    ∃ us, tokens (" ".intercalate (respell marked ws)) = .ok us ∧
      (us = ts ↔ ∀ i, marked i → ws[i + 1]? = some "-" → marked (i + 1)) := by
  have solid : ∀ w ∈ respell marked ws, Text.IsWord w.toList := by
    intro w hmem
    obtain ⟨i, hi, rfl⟩ := List.mem_mapIdx.1 hmem
    split
    · decide
    · exact hw _ (List.getElem_mem hi)
  rw [tokens_joined ws hw] at h
  obtain ⟨us, hus, same⟩ := ofWords_respell marked none none ws ts h hm (.inl rfl)
  refine ⟨us, by rw [tokens_joined _ solid, hus], ?_⟩
  rw [same]
  simp

/-- The last two of three signs behind a product take the name. -/
theorem tokens_respell_iff_product :
    let ws := ["2", "×", "-", "-", "-", "3"]
    let ts : List Token := [.num (.ofInt 2), .binary .mul, .unary .negate, .unary .negate,
      .unary .negate, .num (.ofInt 3)]
    let marked : Nat → Bool := fun i => i == 3 || i == 4
    (∀ w ∈ ws, Text.IsWord w.toList) ∧ tokens (" ".intercalate ws) = .ok ts ∧
      (∀ i, marked i → ws[i]? = some "-" ∧ ts[i]? = some (.unary .negate)) ∧
      ∃ us, tokens (" ".intercalate (respell marked ws)) = .ok us ∧
        (us = ts ↔ ∀ i, marked i → ws[i + 1]? = some "-" → marked (i + 1)) := by
  intro ws ts marked
  have solid : ∀ w ∈ ws, Text.IsWord w.toList := by decide
  have line : " ".intercalate ws = "2 × - - - 3" := by decide +kernel
  have read : tokens (" ".intercalate ws) = .ok ts := by
    rw [line]
    rfl
  have signs : ∀ i, marked i → ws[i]? = some "-" ∧ ts[i]? = some (.unary .negate) := by
    intro i hi
    have position : i = 3 ∨ i = 4 := by simpa [marked] using hi
    rcases position with rfl | rfl <;> exact ⟨rfl, rfl⟩
  exact ⟨solid, read, signs, tokens_respell_iff ws ts marked solid read signs⟩

/-- Of two signs only the first takes the name, and the second is a difference without a left
operand. -/
theorem tokens_respell_first :
    let ws := ["-", "-", "3"]
    let ts : List Token := [.unary .negate, .unary .negate, .num (.ofInt 3)]
    tokens (" ".intercalate ws) = .ok ts ∧ ws[0]? = some "-" ∧ ts[0]? = some (.unary .negate) ∧
      respell (· == 0) ws = ["minus", "-", "3"] ∧
      tokens (" ".intercalate (respell (· == 0) ws)) =
        .ok [.unary .negate, .binary .sub, .num (.ofInt 3)] ∧
      evaluate "- - 3" = .ok (.ofInt 3) ∧
      evaluate "minus - 3" = .error (.missingUnaryOperand "minus") := by
  intro ws ts
  have line : " ".intercalate ws = "- - 3" := by decide +kernel
  have respelt : " ".intercalate (respell (· == 0) ws) = "minus - 3" := by decide +kernel
  rw [line, respelt]
  exact ⟨rfl, rfl, rfl, rfl, rfl, rfl, rfl⟩

end Reckoner
