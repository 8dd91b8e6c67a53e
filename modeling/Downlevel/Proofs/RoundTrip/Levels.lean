import Downlevel.Proofs.RoundTrip.Suffixes

/-! The levels at which operands are printed and read, and what may stand behind them. -/

namespace Downlevel

open Printer

namespace Operator

variable {op : Operator}

/-- Operators between operands bind at least as tightly as the comma and less tightly than those
with a single operand, and none but assignments binds as tightly as they do. -/
theorem IsInfix.precedence (isInfix : op.IsInfix) :
    Precedence.comma ≤ op.precedence ∧ op.precedence < Precedence.unary
      ∧ op.precedence ≠ Precedence.yielding ∧ op.precedence ≠ Precedence.conditional
      ∧ (op.precedence = Precedence.assignment → op.isAssignment = true) :=
  isInfix.elim (P := fun op => Precedence.comma ≤ op.precedence
      ∧ op.precedence < Precedence.unary ∧ op.precedence ≠ Precedence.yielding
      ∧ op.precedence ≠ Precedence.conditional
      ∧ (op.precedence = Precedence.assignment → op.isAssignment = true)) (by decide)

/-- Operators in front of an operand bind alike. -/
theorem IsLeading.precedence (isLeading : op.IsLeading) : op.precedence = Precedence.unary :=
  isLeading.elim (P := fun op => op.precedence = Precedence.unary) (by decide)

/-- Operators behind an operand bind alike. -/
theorem IsTrailing.precedence (isTrailing : op.IsTrailing) : op.precedence = Precedence.update := by
  rcases isTrailing with rfl | rfl <;> rfl

/-- Only a comma binds less tightly than what is handed out. -/
theorem IsInfix.yielding_le (isInfix : op.IsInfix) (noComma : op ≠ .comma) :
    Precedence.yielding ≤ op.precedence :=
  isInfix.elim (P := fun op => op ≠ .comma → Precedence.yielding ≤ op.precedence)
    (by decide) noComma

/-- At the levels of the logical operators there are no others. -/
theorem IsInfix.logical (isInfix : op.IsInfix) :
    (op.precedence = Precedence.logicalOr → op = .logicalOr)
      ∧ (op.precedence = Precedence.logicalAnd → op = .logicalAnd) :=
  isInfix.elim (P := fun op => (op.precedence = Precedence.logicalOr → op = .logicalOr)
      ∧ (op.precedence = Precedence.logicalAnd → op = .logicalAnd)) (by decide)

/-- The right side of an assignment may be an assignment. -/
theorem rightLevel_of_isAssignment (assigns : op.isAssignment = true) :
    rightLevel op = Precedence.assignment := by
  cases op <;> first | rfl | cases assigns

/-- Operators that bind as tightly group alike. -/
theorem associativity_congr {op other : Operator} (same : op.precedence = other.precedence) :
    op.associativity = other.associativity := by
  unfold associativity
  rw [same]

end Operator

/-- The level at which the operand at the end of a shape is read, if nothing closes it. -/
def Shape.tailLevel? : Shape → Option Nat
  | .binary op _ _ => some (rightLevel op)
  | .unary _ _ => some Precedence.unary
  | .cond .. => some Precedence.assignment
  | _ => none

/-- What stands behind the shape is not taken by the operand at its end. -/
def Shape.IsClosedBy (shape : Shape) (after : List Lexeme) : Prop :=
  ∀ level, shape.tailLevel? = some level → Ends level after

/-- The expression can be read at the level without parentheses. -/
structure Expr.FitsAt (e : Expr) (level : Nat) : Prop where
  tight : level ≤ e.shape.level
  bound : level ≤ Precedence.unary
  /-- The operands of a conditional are read more loosely than it holds together. -/
  other : level ≠ Precedence.conditional
  /-- At this level the right operand of nullish coalescing is read. -/
  apart : level = Precedence.nullish + 1 → isLogical e = false

namespace Expr.IsOperation

variable {e : Expr}

/-- The operand at the end of an operation is read at least as tightly as it holds together, except
for the last one of a conditional. -/
theorem tail (isOperation : e.IsOperation) {level : Nat} (found : e.shape.tailLevel? = some level) :
    e.shape.level ≤ Precedence.unary ∧ (e.shape.level ≤ level
      ∨ e.shape.level = Precedence.conditional ∧ level = Precedence.assignment) := by
  -- Every operation with an operand on its right ends at the level of its operator.
  have infixTail {op : Operator} (isInfix : op.IsInfix) (same : rightLevel op = level) :
      op.precedence ≤ Precedence.unary ∧ (op.precedence ≤ level
        ∨ op.precedence = Precedence.conditional ∧ level = Precedence.assignment) := by
    refine ⟨isInfix.precedence.2.1.le, .inl ?_⟩
    rw [← same, rightLevel]
    split <;> omega
  cases isOperation with
  | binary isInfix => exact infixTail isInfix (Option.some.inj found)
  | assign assigns =>
    exact infixTail (Operator.isInfix_of_isAssignment assigns) (Option.some.inj found)
  | unary isLeading =>
    have same := isLeading.precedence
    exact ⟨same.le, .inl (same.le.trans (Option.some.inj found).le)⟩
  | cond => exact ⟨Nat.le_of_ble_eq_true rfl, .inr ⟨rfl, (Option.some.inj found).symm⟩⟩
  | _ => cases found

/-- What ends an expression of the level closes one that is read there. -/
theorem closed_of_ends (isOperation : e.IsOperation) {level : Nat} (fits : e.FitsAt level)
    {after : List Lexeme} (ends : Ends level after) : e.shape.IsClosedBy after := by
  intro tail found
  have tight := fits.tight
  refine ends.mono ?_
  rcases (isOperation.tail found).2 with le | ⟨isCond, rfl⟩
  · exact tight.trans le
  · have other := fits.other
    rw [isCond] at tight
    exact Nat.le_of_lt_succ (lt_of_le_of_ne tight other)

/-- Operands without an operator at either end are closed by anything. -/
theorem closed_of_tight (isOperation : e.IsOperation) (tight : Precedence.update ≤ e.shape.level)
    (after : List Lexeme) : e.shape.IsClosedBy after := by
  intro level found
  exact absurd (isOperation.tail found).1 (Nat.not_le_of_lt tight)

/-- An operand that is no comma holds together at least as tightly as an assignment. -/
theorem level_of_yielding (isOperation : e.IsOperation) (tight : Precedence.yielding ≤ e.shape.level) :
    Precedence.assignment ≤ e.shape.level := by
  -- Only the comma is looser than an assignment and yields, and this is none.
  cases isOperation with
  | binary isInfix => exact lt_of_le_of_ne tight isInfix.precedence.2.2.1.symm
  | assign assigns =>
    have isInfix := Operator.isInfix_of_isAssignment assigns
    exact lt_of_le_of_ne tight isInfix.precedence.2.2.1.symm
  | unary isLeading =>
    refine Nat.le_trans ?_ isLeading.precedence.ge
    decide
  | update isTrailing =>
    refine Nat.le_trans ?_ isTrailing.precedence.ge
    decide
  | _ => exact Nat.le_of_ble_eq_true rfl

/-- No operation holds together less tightly than the comma. -/
theorem comma_le_level (isOperation : e.IsOperation) : Precedence.comma ≤ e.shape.level := by
  cases isOperation with
  | binary isInfix => exact isInfix.precedence.1
  | assign assigns => exact (Operator.isInfix_of_isAssignment assigns).precedence.1
  | unary isLeading =>
    refine Nat.le_trans ?_ isLeading.precedence.ge
    decide
  | update isTrailing =>
    refine Nat.le_trans ?_ isTrailing.precedence.ge
    decide
  | _ => exact Nat.le_of_ble_eq_true rfl

/-- A logical operation holds together as tightly as a logical operator. -/
theorem not_logical (tight : Precedence.logicalAnd < e.shape.level) : isLogical e = false := by
  obtain ⟨origin, shape⟩ := e
  cases shape with
  | binary op left right =>
    cases op <;> first | rfl | exact absurd tight (Nat.not_lt_of_ge (Nat.le_of_ble_eq_true rfl))
  | _ => rfl

end Expr.IsOperation

namespace Operator

variable {op : Operator} {left : Expr}

/-- The left operand is printed at least as tightly as the grouping of its operator asks for. -/
theorem IsInfix.leftLevel_le (isInfix : op.IsInfix) (left : Expr) :
    leftLevel op ≤ leftOperandLevel op left := by
  -- A side that needs more than its level asks for that of a unary operator, or for parentheses.
  have loose : leftLevel op ≤ Precedence.unary := by
    have := isInfix.precedence.2.1
    unfold leftLevel
    split <;> omega
  have wide : Precedence.unary ≤ Precedence.update ∧ Precedence.unary ≤ always := by decide
  unfold leftOperandLevel
  repeat' split
  · exact loose.trans wide.2
  · exact loose.trans wide.1
  · exact Nat.le_refl _

/-- The left operand binds at least as tightly as its operator. -/
theorem precedence_le_leftLevel (op : Operator) : op.precedence ≤ leftLevel op := by
  unfold leftLevel
  split <;> omega

/-- The right operand binds at least as tightly as its operator. -/
theorem precedence_le_rightLevel (op : Operator) : op.precedence ≤ rightLevel op := by
  unfold rightLevel
  split <;> omega

/-- What is read at the end of the left operand binds more tightly than the operator. -/
theorem IsInfix.closes_left (isInfix : op.IsInfix) (noAssign : op.isAssignment = false)
    (isLeft : left.IsOperation) (bare : leftOperandLevel op left ≤ left.shape.level)
    (more : List Lexeme) : left.shape.IsClosedBy (Lexeme.ofOperator op :: more) := by
  intro level found
  refine ⟨_, _, rfl, TokenKind.endsAt_of_lt isInfix.kind ?_⟩
  obtain ⟨-, loose, -, noCond, assigns⟩ := isInfix.precedence
  have tight : leftLevel op ≤ left.shape.level := (isInfix.leftLevel_le left).trans bare
  -- What is tighter on the left, or groups to the left at the same level, ends before the operator.
  have infixTail {inner : Operator} (tight : leftLevel op ≤ inner.precedence)
      (same : rightLevel inner = level) : op.precedence < level := by
    subst same
    unfold leftLevel at tight
    unfold rightLevel
    by_cases alike : op.precedence = inner.precedence
    · rw [associativity_congr alike] at tight
      cases grouping : inner.associativity with
      | left =>
        rw [if_neg (by decide)]
        omega
      | right =>
        rw [grouping, if_neg (by decide)] at tight
        omega
    · split at tight <;> split <;> omega
  -- An operation that ends in an operand may take the operator for its own.
  cases isLeft with
  | binary => exact infixTail tight (Option.some.inj found)
  | assign => exact infixTail tight (Option.some.inj found)
  | unary => exact loose.trans_eq (Option.some.inj found)
  | cond =>
    obtain rfl : Precedence.assignment = level := Option.some.inj found
    have below : op.precedence ≤ Precedence.conditional := (precedence_le_leftLevel op).trans tight
    have other : op.precedence ≠ Precedence.assignment := by
      intro same
      rw [assigns same] at noAssign
      cases noAssign
    exact lt_of_le_of_ne (Nat.le_of_lt_succ (lt_of_le_of_ne below noCond)) other
  | _ => cases found

end Operator

/-- The bare left operand of an operator is read at each level at which its operation is. -/
theorem Expr.FitsAt.left {origin : Origin} {op : Operator} {left right : Expr} {level : Nat}
    (fits : Expr.FitsAt ⟨origin, .binary op left right⟩ level) (isInfix : op.IsInfix)
    (bare : leftOperandLevel op left ≤ left.shape.level) : left.FitsAt level := by
  -- The left side is printed as tight as its operator at least, so it fits wherever that does.
  have tight : op.precedence ≤ left.shape.level :=
    (Operator.precedence_le_leftLevel op).trans ((isInfix.leftLevel_le left).trans bare)
  refine ⟨Nat.le_trans fits.tight tight, fits.bound, fits.other, fun meets => ?_⟩
  have noLogical : isLogical ⟨origin, .binary op left right⟩ = false := fits.apart meets
  have above : Precedence.logicalOr ≤ op.precedence := meets.ge.trans fits.tight
  have noOr : op.precedence ≠ Precedence.logicalOr := by
    intro same
    rw [isInfix.logical.1 same] at noLogical
    cases noLogical
  have noAnd : op.precedence ≠ Precedence.logicalAnd := by
    intro same
    rw [isInfix.logical.2 same] at noLogical
    cases noLogical
  refine Expr.IsOperation.not_logical (Nat.lt_of_lt_of_le ?_ tight)
  exact lt_of_le_of_ne (lt_of_le_of_ne above noOr.symm) noAnd.symm

/-- Behind a bare logical operand there is no nullish coalescing, and no operator that binds as
tightly as the tighter one but that one itself. -/
theorem Operator.IsInfix.behind_logical {op : Operator} {left : Expr} (isInfix : op.IsInfix)
    (bare : leftOperandLevel op left ≤ left.shape.level) (logical : isLogical left = true)
    (other : op ≠ .logicalAnd) :
    op.precedence < Precedence.logicalAnd ∧ op ≠ .nullishCoalescing := by
  -- A logical side at this level would have been put in parentheses.
  have tight : op.precedence ≤ left.shape.level :=
    (Operator.precedence_le_leftLevel op).trans ((isInfix.leftLevel_le left).trans bare)
  have loose : left.shape.level ≤ Precedence.logicalAnd := by
    by_contra above
    rw [Expr.IsOperation.not_logical (Nat.lt_of_not_le above)] at logical
    cases logical
  refine ⟨lt_of_le_of_ne (tight.trans loose) fun same => other (isInfix.logical.2 same), ?_⟩
  rintro rfl
  rw [leftOperandLevel, if_pos ⟨rfl, logical⟩] at bare
  exact absurd bare (Nat.not_le_of_lt (by
    refine Nat.lt_of_le_of_lt loose ?_
    decide))

/-- Right operands are read at levels at which any operation can be, and next to nullish coalescing
only at its own. -/
theorem Operator.IsInfix.rightLevel {op : Operator} (isInfix : op.IsInfix) :
    rightLevel op ≤ Precedence.unary ∧ Printer.rightLevel op ≠ Precedence.conditional
      ∧ (Printer.rightLevel op = Precedence.nullish + 1 → op = .nullishCoalescing) :=
  isInfix.elim (P := fun op => Printer.rightLevel op ≤ Precedence.unary
      ∧ Printer.rightLevel op ≠ Precedence.conditional
      ∧ (Printer.rightLevel op = Precedence.nullish + 1 → op = .nullishCoalescing))
    (by decide)

/-- The bare right operand of an operator is read at the level of that operand. -/
theorem Operator.IsInfix.fitsAt_right {op : Operator} {right : Expr} (isInfix : op.IsInfix)
    (bare : rightOperandLevel op right ≤ right.shape.level) :
    right.FitsAt (Printer.rightLevel op) := by
  obtain ⟨bound, other, nullish⟩ := isInfix.rightLevel
  -- The right side needs its level at least, and a logical one below `??` needs parentheses.
  have le : Printer.rightLevel op ≤ rightOperandLevel op right := by
    unfold rightOperandLevel
    split
    · exact bound.trans (by decide)
    · exact Nat.le_refl _
  refine ⟨le.trans bare, bound, other, fun meets => ?_⟩
  cases logical : isLogical right with
  | false => rfl
  | true =>
    rw [rightOperandLevel, if_pos ⟨nullish meets, logical⟩] at bare
    have loose : right.shape.level ≤ Precedence.logicalAnd := by
      by_contra above
      rw [Expr.IsOperation.not_logical (Nat.lt_of_not_le above)] at logical
      cases logical
    exact absurd (bare.trans loose) (by decide)

/-- An operation that holds together tightly enough is read at the level, unless others are read there
that hold together less tightly. -/
theorem Expr.fitsAt {e : Expr} {level : Nat} (tight : level ≤ e.shape.level)
    (plain : level = Precedence.assignment ∨ level = Precedence.unary) : e.FitsAt level := by
  rcases plain with rfl | rfl
  · exact ⟨tight, by decide, by decide, fun same => absurd same (by decide)⟩
  · exact ⟨tight, by decide, by decide, fun same => absurd same (by decide)⟩

/-- Every operation is read as a whole expression. -/
theorem Expr.IsOperation.fitsAt_comma {e : Expr} (isOperation : e.IsOperation) :
    e.FitsAt Precedence.comma where
  tight := isOperation.comma_le_level
  bound := by decide
  other := by decide
  apart := fun same => absurd same (by decide)

/-- What is read at the end of a test binds more tightly than a conditional. -/
theorem Expr.IsOperation.closed_test {test : Expr} (isTest : test.IsOperation)
    (bare : Precedence.conditional + 1 ≤ test.shape.level) (more : List Lexeme) :
    test.shape.IsClosedBy (.ofSymbol .question :: more) := by
  intro level found
  refine ⟨_, _, rfl, decide_eq_true ?_⟩
  rcases (isTest.tail found).2 with le | ⟨isCond, -⟩
  · exact bare.trans le
  · rw [isCond] at bare
    exact absurd bare (Nat.not_succ_le_self _)

end Downlevel
