import Reckoner.Expression.Tree

namespace Reckoner

open Token

theorem Tree.traverse_no_paren (t : Tree) (x : Token) (hx : x ∈ t.traverse) :
    x ≠ .openParen ∧ x ≠ .closeParen := by
  induction t with
  | num y => simp_all [traverse]
  | binary op l r ihl ihr =>
    simp only [traverse, List.mem_append, List.mem_singleton] at hx
    rcases hx with (hx | hx) | rfl
    · exact ihl hx
    · exact ihr hx
    · simp
  | unary op t ih =>
    simp only [traverse, List.mem_append, List.mem_singleton] at hx
    rcases hx with hx | rfl
    · exact ih hx
    · simp
  | function f t ih =>
    simp only [traverse, List.mem_append, List.mem_singleton] at hx
    rcases hx with hx | rfl
    · exact ih hx
    · simp

/-- Running the traversal of a tree pushes its value, whatever lies below it. -/
theorem Tree.run_traverse (t : Tree) (values : List Decimal) :
    t.traverse.foldlM step values = (· :: values) <$> t.value := by
  induction t generalizing values with
  | num x => rfl
  | binary op l r ihl ihr =>
    rw [traverse, List.foldlM_append, List.foldlM_append, ihl, value]
    cases l.value with
    | error f => rfl
    | ok x =>
      change ((r.traverse.foldlM step (x :: values)) >>= _) = _
      rw [ihr]
      cases r.value with
      | error f => rfl
      | ok y =>
        change List.foldlM step (y :: x :: values) [.binary op] = (· :: values) <$> op.apply x y
        cases h : op.apply x y <;> simp [step, h]
  | unary op t ih =>
    rw [traverse, List.foldlM_append, ih, value]
    cases t.value with
    | error f => rfl
    | ok x =>
      change List.foldlM step (x :: values) [.unary op] = (· :: values) <$> op.apply x
      cases h : op.apply x <;> simp [step, h]
  | function f t ih =>
    rw [traverse, List.foldlM_append, ih, value]
    cases t.value with
    | error g => rfl
    | ok x =>
      change List.foldlM step (x :: values) [.function f] = (· :: values) <$> f.apply x
      cases h : f.apply x <;> simp [step, h]

/-- How many values one token leaves of a number of values, if it does not lack operands. -/
def Token.height? (n : Nat) : Token → Option Nat
  | num _ => some (n + 1)
  | binary _ => if 2 ≤ n then some (n - 1) else none
  | unary _ | function _ => if 1 ≤ n then some n else none
  | openParen | closeParen => none

theorem pushed_of_ok (rest after : List Decimal) (r : Except Fault Decimal)
    (h : (· :: rest) <$> r = .ok after) : ∃ x, r = .ok x ∧ after = x :: rest := by
  cases r with
  | error f => contradiction
  | ok x =>
    injection h with h
    exact ⟨x, rfl, h.symm⟩

/-- The number of values does not depend on what they are. -/
theorem Token.height_of_step (values after : List Decimal) (t : Token)
    (h : step values t = .ok after) : height? values.length t = some after.length := by
  cases t with
  | num x =>
    injection h with h
    rw [← h]
    rfl
  | openParen => contradiction
  | closeParen =>
    match values with
    | [] | [_] | _ :: _ :: _ => contradiction
  | binary op =>
    match values with
    | [] | [_] => contradiction
    | y :: x :: rest =>
      obtain ⟨v, -, rfl⟩ := pushed_of_ok rest after _ h
      simp [height?]
  | unary op =>
    match values with
    | [] => contradiction
    | x :: rest =>
      obtain ⟨v, -, rfl⟩ := pushed_of_ok rest after _ h
      simp [height?]
  | function f =>
    match values with
    | [] => contradiction
    | x :: rest =>
      obtain ⟨v, -, rfl⟩ := pushed_of_ok rest after _ h
      simp [height?]

theorem Token.height_of_run (ts : List Token) (values after : List Decimal)
    (h : ts.foldlM step values = .ok after) :
    ts.foldlM height? values.length = some after.length := by
  induction ts generalizing values with
  | nil =>
    injection h with h
    rw [h]
    rfl
  | cons t ts ih =>
    rw [List.foldlM_cons] at h ⊢
    cases hs : step values t with
    | error f =>
      rw [hs] at h
      contradiction
    | ok next =>
      rw [hs] at h
      rw [height_of_step values next t hs]
      exact ih next h

/-- The traversals of trees one behind the other, the latest tree first. -/
def Tree.traverseAll (trees : List Tree) : List Token :=
  trees.reverse.flatMap traverse

theorem Tree.traverseAll_cons (t : Tree) (trees : List Tree) :
    traverseAll (t :: trees) = traverseAll trees ++ t.traverse := by
  simp [traverseAll]

/-- A token with enough operands joins the latest trees to one. -/
theorem Tree.exists_traverseAll_of_height (trees : List Tree) (t : Token) (n : Nat)
    (h : height? trees.length t = some n) :
    ∃ after : List Tree, after.length = n ∧ traverseAll after = traverseAll trees ++ [t] := by
  cases t with
  | num x =>
    injection h with h
    exact ⟨num x :: trees, h, traverseAll_cons (num x) trees⟩
  | openParen => contradiction
  | closeParen => contradiction
  | binary op =>
    match trees with
    | [] | [_] => contradiction
    | r :: l :: rest =>
      obtain rfl : rest.length + 1 = n := by simpa [height?] using h
      refine ⟨binary op l r :: rest, rfl, ?_⟩
      simp only [traverseAll_cons, traverse, List.append_assoc]
  | unary op =>
    match trees with
    | [] => contradiction
    | x :: rest =>
      obtain rfl : rest.length + 1 = n := by simpa [height?] using h
      refine ⟨unary op x :: rest, rfl, ?_⟩
      simp only [traverseAll_cons, traverse, List.append_assoc]
  | function f =>
    match trees with
    | [] => contradiction
    | x :: rest =>
      obtain rfl : rest.length + 1 = n := by simpa [height?] using h
      refine ⟨function f x :: rest, rfl, ?_⟩
      simp only [traverseAll_cons, traverse, List.append_assoc]

theorem Tree.exists_traverseAll_of_heights (ts : List Token) (trees : List Tree) (n : Nat)
    (h : ts.foldlM height? trees.length = some n) :
    ∃ after : List Tree, after.length = n ∧ traverseAll after = traverseAll trees ++ ts := by
  -- The trees play the part of the values: what has been read so far is always their traversal.
  induction ts generalizing trees with
  | nil =>
    injection h with h
    exact ⟨trees, h, (List.append_nil _).symm⟩
  | cons t ts ih =>
    rw [List.foldlM_cons] at h
    obtain ⟨m, hm, h⟩ := Option.bind_eq_some_iff.1 h
    obtain ⟨next, rfl, hnext⟩ := exists_traverseAll_of_height trees t m hm
    obtain ⟨after, hlength, hafter⟩ := ih next h
    refine ⟨after, hlength, ?_⟩
    rw [hafter, hnext, List.append_assoc, List.singleton_append]

/-- A list that leaves one value of none is the traversal of a tree. -/
theorem Tree.exists_traverse_of_heights (ts : List Token) (h : ts.foldlM height? 0 = some 1) :
    ∃ t : Tree, t.traverse = ts := by
  obtain ⟨trees, hlength, htrees⟩ := exists_traverseAll_of_heights ts [] 1 h
  obtain ⟨t, rfl⟩ := List.length_eq_one_iff.1 hlength
  exact ⟨t, by simpa [traverseAll] using htrees⟩

theorem Tree.evaluatePostfix_traverse (t : Tree) :
    evaluatePostfix t.traverse = some <$> t.value := by
  rw [evaluatePostfix, run_traverse]
  cases t.value <;> rfl

theorem Token.run_of_evaluatePostfix (ts : List Token) (r : Option Decimal)
    (h : evaluatePostfix ts = .ok r) : ts.foldlM step [] = .ok r.toList := by
  unfold evaluatePostfix at h
  cases hr : ts.foldlM step [] with
  | error f =>
    rw [hr] at h
    contradiction
  | ok values =>
    rw [hr] at h
    match values with
    | [] =>
      injection h with h
      rw [← h]
      rfl
    | [x] =>
      injection h with h
      rw [← h]
      rfl
    | _ :: _ :: _ => contradiction

theorem Tree.exists_of_evaluatePostfix (ts : List Token) (x : Decimal)
    (h : evaluatePostfix ts = .ok (some x)) : ∃ t : Tree, t.traverse = ts ∧ t.value = .ok x := by
  have height := height_of_run ts [] _ (run_of_evaluatePostfix ts _ h)
  obtain ⟨t, rfl⟩ := exists_traverse_of_heights ts height
  refine ⟨t, rfl, ?_⟩
  rw [evaluatePostfix_traverse] at h
  cases hv : t.value with
  | error f =>
    rw [hv] at h
    contradiction
  | ok y =>
    rw [hv] at h
    injection h with h
    injection h with h
    rw [h]

/-- Postfix lists with a value are the traversals of trees with a value, only the empty list has
none without being a fault, and the first fault of a tree is that of its traversal. -/
theorem evaluatePostfix_iff_tree (ts : List Token) :
    (∀ x, evaluatePostfix ts = .ok (some x) ↔ ∃ t : Tree, t.traverse = ts ∧ t.value = .ok x) ∧
    (evaluatePostfix ts = .ok none ↔ ts = []) ∧
    ∀ t : Tree, t.traverse = ts → ∀ f, t.value = .error f → evaluatePostfix ts = .error f := by
  refine ⟨fun x => ⟨Tree.exists_of_evaluatePostfix ts x, ?_⟩, ⟨fun h => ?_, ?_⟩, ?_⟩
  · rintro ⟨t, rfl, hv⟩
    rw [t.evaluatePostfix_traverse, hv]
    rfl
  · have height := height_of_run ts [] _ (run_of_evaluatePostfix ts _ h)
    obtain ⟨trees, hlength, htrees⟩ := Tree.exists_traverseAll_of_heights ts [] 0 height
    obtain rfl := List.eq_nil_of_length_eq_zero hlength
    exact htrees.symm
  · rintro rfl
    rfl
  · rintro t rfl f hv
    rw [t.evaluatePostfix_traverse, hv]
    rfl

/-- In 1 ÷ 0 + ln (-1) both operands have a fault, and the left one is met. -/
theorem evaluatePostfix_left_fault :
    let t : Tree := .binary .add (.binary .div (.num .one) (.num .zero))
      (.function .ln (.num (.ofInt (-1))))
    t.value = .error .divisionByZero ∧
      evaluatePostfix t.traverse = .error .divisionByZero := by
  intro t
  have fault : t.value = .error .divisionByZero := rfl
  exact ⟨fault, (evaluatePostfix_iff_tree t.traverse).2.2 t rfl _ fault⟩

end Reckoner
