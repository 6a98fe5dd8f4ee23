import Reckoner.Expression.Grammar
import Reckoner.Proofs.Expression.Arrangement
import Reckoner.Proofs.Expression.Traversal

namespace Reckoner

open Token

/-- The operators outside parentheses that an expression of a level may hold, by how tightly they
bind. A power is as loose as the sign that its exponent may have. -/
def Level.has : Level → Token → Prop
  | .sum, x => 1 ≤ x.rank
  | .product, x => 2 ≤ x.rank
  | .signed, x | .power, x => 3 ≤ x.rank
  | .applied, x => 5 ≤ x.rank
  | .closed, x => x = .unary .factorial

theorem Token.releases_of_rank_lt (op : BinaryOp) (x : Token)
    (h : (binary op).rank < x.rank) : releases (binary op) x := by
  have hx : x.isOpenParen = false := by
    cases x with
    | openParen => simp [rank] at h
    | _ => rfl
  simp [releases, precedes, hx, h]

/-- Of two operators that bind equally the earlier one goes first, unless they are powers. -/
theorem Token.releases_of_rank_le (op : BinaryOp) (x : Token) (ho : op ≠ .pow)
    (h : (binary op).rank ≤ x.rank) : releases (binary op) x := by
  rcases Nat.lt_or_eq_of_le h with hlt | heq
  · exact releases_of_rank_lt op x hlt
  · have hx : x.isOpenParen = false := by
      cases x with
      | openParen => cases op <;> simp [rank] at heq
      | _ => rfl
    have ha : (binary op).associativity = .left := by
      cases op with
      | pow => exact absurd rfl ho
      | _ => rfl
    simp [releases, precedes, hx, heq, ha]

theorem Token.not_releases_of_rank_lt (t x : Token) (h : x.rank < t.rank) :
    releases t x = false := by
  cases t with
  | closeParen => simp [rank] at h
  | binary op =>
    have hlt : ¬(binary op).rank < x.rank := by omega
    have heq : x.rank ≠ (binary op).rank := by omega
    simp [releases, precedes, hlt, heq]
  | unary op =>
    cases op with
    | factorial =>
      have hlt : ¬(unary .factorial).rank < x.rank := by omega
      have heq : x.rank ≠ (unary .factorial).rank := by omega
      simp [releases, precedes, hlt, heq]
    | _ => rfl
  | _ => rfl

/-- No operator of the level releases what waits in front of the expression. -/
def Guards (L : Level) (waiting : List Token) : Prop :=
  ∀ op, L.has (.binary op) → ∀ x ∈ waiting.head?, releases (.binary op) x = false

/-- A waiting token goes to the output before anything of what follows does. -/
def Released (x : Token) (rest : List Token) : Prop :=
  ∀ waiting, arrange (x :: waiting) rest = emit [x] (arrange waiting rest)

/-- What follows the expression releases every operator that the expression leaves waiting. -/
def Follows (L : Level) (rest : List Token) : Prop := ∀ x, L.has x → Released x rest

theorem released_nil (x : Token) : Released x [] := by
  intro waiting
  rw [arrange_nil, arrange_nil, emit_ok, List.singleton_append]

theorem released_of_releases (x t : Token) (rest : List Token) (h : releases t x) :
    Released x (t :: rest) := by
  intro waiting
  rw [arrange_cons, arrange_cons, shift_cons_of_releases x waiting t h]
  cases shift? waiting t with
  | none => rfl
  | some p => exact (emit_emit [x] p.1 (arrange p.2 rest)).symm

theorem arrange_factorial (waiting rest : List Token) :
    arrange waiting (unary .factorial :: rest) = arrange (unary .factorial :: waiting) rest :=
  arrange_push waiting rest (unary .factorial) rfl fun x _ => releases_factorial x

/-- Of two factorials in a row the later one is released first. They are equal, so this order does
not show. -/
theorem released_factorial (rest : List Token) (h : Released (unary .factorial) rest) :
    Released (unary .factorial) (unary .factorial :: rest) := by
  intro waiting
  rw [arrange_factorial, h, arrange_factorial]

/-- The tokens of an expression release exactly its traversal, between a guarded stack and a
releasing rest. -/
def Arranges (L : Level) (ts : List Token) (t : Tree) : Prop :=
  ∀ waiting rest, Guards L waiting → Follows L rest →
    arrange waiting (ts ++ rest) = emit t.traverse (arrange waiting rest)

theorem Arranges.of_tighter (L M : Level) (ts : List Token) (t : Tree) (h : Arranges M ts t)
    (hm : ∀ x, M.has x → L.has x) : Arranges L ts t := by
  intro waiting rest hg hf
  exact h waiting rest (fun op ho => hg op (hm _ ho)) (fun x hx => hf x (hm x hx))

/-- The operator releases the left operand's operators and is guarded from the right one's. -/
theorem Arranges.binary (L M N : Level) (a b : List Token) (l r : Tree) (op : BinaryOp)
    (hl : Arranges M a l) (hr : Arranges N b r) (ho : L.has (.binary op))
    (hm : ∀ x, M.has x → L.has x ∧ releases (.binary op) x)
    (hn : ∀ x, N.has x → L.has x ∧ releases x (.binary op) = false) :
    Arranges L (a ++ .binary op :: b) (.binary op l r) := by
  intro waiting rest hg hf
  have left : arrange waiting (a ++ .binary op :: (b ++ rest)) =
      emit l.traverse (arrange waiting (.binary op :: (b ++ rest))) := by
    apply hl waiting
    · exact fun q hq => hg q (hm _ hq).1
    · exact fun x hx => released_of_releases x _ _ (hm x hx).2
  have push : arrange waiting (.binary op :: (b ++ rest)) =
      arrange (.binary op :: waiting) (b ++ rest) :=
    arrange_push waiting _ (.binary op) rfl (hg op ho)
  have right : arrange (.binary op :: waiting) (b ++ rest) =
      emit r.traverse (arrange (.binary op :: waiting) rest) := by
    apply hr (.binary op :: waiting)
    · intro q hq x hx
      obtain rfl : Token.binary op = x := by simpa using hx
      exact (hn _ hq).2
    · exact fun x hx => hf x (hn x hx).1
  rw [List.append_assoc, List.cons_append, left, push, right, hf _ ho waiting, emit_emit,
    emit_emit, Tree.traverse, List.append_assoc]

/-- Operators that group to the left, with a right operand of a tighter level. -/
theorem Arranges.groupedLeft (L N : Level) (a b : List Token) (l r : Tree) (op : BinaryOp)
    (hl : Arranges L a l) (hr : Arranges N b r) (ho : op ≠ .pow)
    (hL : ∀ x, L.has x ↔ (Token.binary op).rank ≤ x.rank)
    (hN : ∀ x, N.has x → (Token.binary op).rank < x.rank) :
    Arranges L (a ++ .binary op :: b) (.binary op l r) := by
  apply hl.binary L L N a b l r op hr
  · exact (hL _).2 (Nat.le_refl _)
  · exact fun x hx => ⟨hx, releases_of_rank_le op x ho ((hL x).1 hx)⟩
  · intro x hx
    have tighter := hN x hx
    exact ⟨(hL x).2 (Nat.le_of_lt tighter), not_releases_of_rank_lt x _ tighter⟩

/-- The right operand of a power may be a power or a sign. Neither releases the power, the one
because it groups to the right, the other because it stands in front of its operand. -/
theorem Arranges.power (a b : List Token) (l r : Tree) (hl : Arranges .applied a l)
    (hr : Arranges .signed b r) : Arranges .power (a ++ .binary .pow :: b) (.binary .pow l r) := by
  apply hl.binary .power .applied .signed a b l r .pow hr
  · exact Nat.le_succ 3
  · intro x hx
    have tight : 5 ≤ x.rank := hx
    exact ⟨Nat.le_trans (Nat.le_add_right 3 2) tight, releases_of_rank_lt .pow x tight⟩
  · refine fun x hx => ⟨hx, ?_⟩
    cases x with
    | binary op =>
      cases op with
      | pow => decide
      | _ => exact absurd (show 3 ≤ _ from hx) (by decide)
    | unary op => cases op <;> rfl
    | closeParen => exact absurd hx (Nat.not_succ_le_zero 2)
    | _ => rfl

/-- An operator in front of its operand waits until what follows releases it. -/
theorem Arranges.front (L : Level) (ts : List Token) (t node : Tree) (x : Token)
    (h : Arranges L ts t) (hx : L.has x) (hw : x.waits) (hr : ∀ y, releases x y = false)
    (hn : node.traverse = t.traverse ++ [x])
    (hg : ∀ op, L.has (.binary op) → releases (.binary op) x = false) :
    Arranges L (x :: ts) node := by
  intro waiting rest _ hf
  have push : arrange waiting (x :: (ts ++ rest)) = arrange (x :: waiting) (ts ++ rest) :=
    arrange_push waiting _ x hw fun y _ => hr y
  have operand : arrange (x :: waiting) (ts ++ rest) =
      emit t.traverse (arrange (x :: waiting) rest) := by
    apply h (x :: waiting) rest _ hf
    intro op ho y hy
    obtain rfl : x = y := by simpa using hy
    exact hg op ho
  rw [List.cons_append, push, operand, hf x hx waiting, emit_emit, hn]

theorem Arranges.factorial (ts : List Token) (t : Tree) (h : Arranges .closed ts t) :
    Arranges .closed (ts ++ [.unary .factorial]) (.unary .factorial t) := by
  intro waiting rest hg hf
  have released : Released (.unary .factorial) rest := hf _ rfl
  have operand : arrange waiting (ts ++ .unary .factorial :: rest) =
      emit t.traverse (arrange waiting (.unary .factorial :: rest)) := by
    apply h waiting _ hg
    intro x hx
    rw [show x = .unary .factorial from hx]
    exact released_factorial rest released
  rw [List.append_assoc, List.singleton_append, operand, arrange_factorial, released, emit_emit,
    Tree.traverse]

theorem Arranges.num (x : Decimal) : Arranges .closed [.num x] (.num x) := by
  intro waiting rest _ _
  exact arrange_num waiting x rest

/-- The parentheses seclude the expression from what stands around them. -/
theorem Arranges.parens (ts : List Token) (t : Tree) (h : Arranges .sum ts t) :
    Arranges .closed (.openParen :: (ts ++ [.closeParen])) t := by
  intro waiting rest _ _
  have push : arrange waiting (.openParen :: (ts ++ .closeParen :: rest)) =
      arrange (.openParen :: waiting) (ts ++ .closeParen :: rest) :=
    arrange_push waiting _ .openParen rfl fun _ _ => rfl
  have inside : arrange (.openParen :: waiting) (ts ++ .closeParen :: rest) =
      emit t.traverse (arrange (.openParen :: waiting) (.closeParen :: rest)) := by
    apply h
    · intro op _ x hx
      obtain rfl : openParen = x := by simpa using hx
      rfl
    · -- Of what may wait, the closing parenthesis spares only an open one, which has no rank.
      intro x hx
      apply released_of_releases
      cases x with
      | openParen => exact absurd hx (Nat.not_succ_le_zero 0)
      | _ => rfl
  have close : arrange (.openParen :: waiting) (.closeParen :: rest) =
      emit [] (arrange waiting rest) := arrange_closeParen [] waiting rest (by simp)
  rw [List.cons_append, List.append_assoc, List.singleton_append, push, inside, close, emit_nil]

theorem Token.binary_rank_le (op : BinaryOp) : (binary op).rank ≤ 4 := by
  cases op <;> decide

/-- Functions and roots stand in front of a tight operand, with no operator outside parentheses. -/
theorem Arranges.applied (ts : List Token) (t node : Tree) (x : Token)
    (h : Arranges .applied ts t) (hx : 5 ≤ x.rank) (hw : x.waits) (hr : ∀ y, releases x y = false)
    (hn : node.traverse = t.traverse ++ [x]) : Arranges .applied (x :: ts) node := by
  apply h.front .applied ts t node x hx hw hr hn
  intro op ho
  have bound : 5 ≤ (Token.binary op).rank := ho
  have := binary_rank_le op
  omega

theorem arranges_of_derives (L : Level) (ts : List Token) (t : Tree) (h : Derives L ts t) :
    Arranges L ts t := by
  -- The stack and the rest vary with each operand, so both are part of what is proved.
  induction h with
  | sum hop _ _ ihl ihr =>
    rcases hop with rfl | rfl <;>
      exact ihl.groupedLeft _ _ _ _ _ _ _ ihr (by decide) (fun _ => Iff.rfl) fun _ hx => hx
  | product hop _ _ ihl ihr =>
    rcases hop with rfl | rfl <;>
      exact ihl.groupedLeft _ _ _ _ _ _ _ ihr (by decide) (fun _ => Iff.rfl) fun _ hx => hx
  | negate _ ih =>
    apply ih.front .signed _ _ (.unary .negate _) (.unary .negate) (Nat.le_refl 3) rfl
      (fun _ => rfl) rfl
    intro op ho
    cases op with
    | pow => decide
    | _ => exact absurd ho (by simp [Level.has, Token.rank])
  | power _ _ ihl ihr => exact ihl.power _ _ _ _ ihr
  | function f _ ih =>
    exact ih.applied _ _ (.function f _) (.function f) (Nat.le_refl 5) rfl (fun _ => rfl) rfl
  | root _ ih =>
    exact ih.applied _ _ (.unary .root _) (.unary .root) (Nat.le_refl 5) rfl (fun _ => rfl) rfl
  | factorial _ ih => exact ih.factorial
  | num x => exact .num x
  | parens _ ih => exact ih.parens
  | ofClosed _ ih =>
    apply ih.of_tighter .applied .closed
    intro x hx
    rw [show x = Token.unary .factorial from hx]
    exact Nat.le_refl 5
  | ofProduct _ ih => exact ih.of_tighter .sum .product _ _ fun _ hx => Nat.le_of_succ_le hx
  | ofSigned _ ih => exact ih.of_tighter .product .signed _ _ fun _ hx => Nat.le_of_succ_le hx
  | ofPower _ ih => exact ih.of_tighter .signed .power _ _ fun _ hx => hx
  | ofApplied _ ih =>
    exact ih.of_tighter .power .applied _ _ fun x hx => by simp only [Level.has] at *; omega

/-- Postfix order is the traversal of the tree that the grammar gives. -/
theorem toPostfix_of_derives (ts : List Token) (t : Tree) (h : Derives .sum ts t) :
    toPostfix ts = .ok t.traverse ∧
      ∀ x ∈ t.traverse, x ≠ .openParen ∧ x ≠ .closeParen := by
  refine ⟨?_, t.traverse_no_paren⟩
  have arranged := arranges_of_derives .sum ts t h [] [] (fun _ _ x hx => by simp at hx)
    fun x _ => released_nil x
  rw [List.append_nil] at arranged
  rw [toPostfix, arranged, arrange_nil, emit_ok, List.append_nil]

/-- The text 2 ^ - 3 ^ 2 × sin ( 3 ) !, with a sign and a power in the exponent. -/
theorem toPostfix_signed_exponent :
    let two : Decimal := .ofInt 2
    let three : Decimal := .ofInt 3
    let ts : List Token :=
      [.num two, .binary .pow, .unary .negate, .num three, .binary .pow, .num two, .binary .mul,
        .function .sin, .openParen, .num three, .closeParen, .unary .factorial]
    let t : Tree :=
      .binary .mul
        (.binary .pow (.num two) (.unary .negate (.binary .pow (.num three) (.num two))))
        (.function .sin (.unary .factorial (.num three)))
    Derives .sum ts t ∧ toPostfix ts = .ok t.traverse ∧
      ∀ x ∈ t.traverse, x ≠ .openParen ∧ x ≠ .closeParen := by
  intro two three ts t
  have number (x : Decimal) : Derives .signed [.num x] (.num x) :=
    .ofPower (.ofApplied (.ofClosed (.num x)))
  have exponent : Derives .signed [.unary .negate, .num three, .binary .pow, .num two]
      (.unary .negate (.binary .pow (.num three) (.num two))) :=
    .negate (.ofPower (.power (.ofClosed (.num three)) (number two)))
  have sine : Derives .applied
      [.function .sin, .openParen, .num three, .closeParen, .unary .factorial]
      (.function .sin (.unary .factorial (.num three))) :=
    .function .sin (.ofClosed (.factorial (.parens (.ofProduct (.ofSigned (number three))))))
  have derived : Derives .sum ts t :=
    .ofProduct (.product (.inl rfl)
      (.ofSigned (.ofPower (.power (.ofClosed (.num two)) exponent)))
      (.ofPower (.ofApplied sine)))
  exact ⟨derived, toPostfix_of_derives ts t derived⟩

end Reckoner
