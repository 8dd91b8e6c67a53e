import Downlevel.Tree

/-! Where an expression needs parentheses, decided by the levels that the grammar reads with. -/

namespace Downlevel

/-- Where the first token of an expression stands. Some tokens would be misread there. -/
inductive Place
  | statementStart
  | arrowBody
  | exportDefault
  | elsewhere
deriving DecidableEq

/-- How tightly an expression of the shape holds together. -/
def Shape.level : Shape → Nat
  | .binary op .. | .unary op _ | .update op _ => op.precedence
  | .cond .. => Precedence.conditional
  | .arrow _ | .yield .. => Precedence.assignment
  -- A constructor call always has its arguments written out, so it holds like a call.
  | .new .. | .call .. | .member .. | .computed .. | .tagged .. | .importCall _ => Precedence.access
  | _ => Precedence.primary

namespace Printer

/-- A level above all others, so that parentheses are always written. -/
def always : Nat :=
  Precedence.primary + 1

/-- The least level of the left operand. -/
def leftLevel (op : Operator) : Nat :=
  if op.associativity = .left then op.precedence else op.precedence + 1

/-- The least level of the right operand. -/
def rightLevel (op : Operator) : Nat :=
  if op.associativity = .right then op.precedence else op.precedence + 1

/-- Whether an expression is a logical operation, which nullish coalescing cannot take bare. -/
def isLogical : Expr → Bool
  | ⟨_, .binary op ..⟩ => op == .logicalOr || op == .logicalAnd
  | _ => false

/-- Whether an expression has an operator in front, which cannot be the base of a power. -/
def isUnary : Expr → Bool
  | ⟨_, .unary ..⟩ => true
  | _ => false

/-- The least level of the left operand, given that operand. -/
def leftOperandLevel (op : Operator) (left : Expr) : Nat :=
  if op = .nullishCoalescing ∧ isLogical left then always
  else if op = .exponentiation ∧ isUnary left then Precedence.update
  else leftLevel op

/-- The least level of the right operand, given that operand. -/
def rightOperandLevel (op : Operator) (right : Expr) : Nat :=
  if op = .nullishCoalescing ∧ isLogical right then always else rightLevel op

/-- Whether an object pattern or literal comes first and would be read as a block. -/
def startsWithBrace : Expr → Bool
  | ⟨_, .objectPattern ..⟩ | ⟨_, .object _⟩ => true
  | _ => false

/-- Whether an expression needs parentheses: it holds together less tightly than it has to, or its
first token would be misread, or `in` would be taken as part of a loop head. -/
def needsParens (place : Place) (noIn : Bool) (level : Nat) (shape : Shape) : Bool :=
  if shape.level < level then true
  else
    match shape with
    | .binary .isIn .. => noIn
    | .binary .assignment left _ =>
      startsWithBrace left && (place == .statementStart || place == .arrowBody)
    | .function .. | .classExpr .. => place == .statementStart || place == .exportDefault
    | .object _ => place == .statementStart || place == .arrowBody
    | .call _ isPure .. => isPure && Precedence.construction ≤ level
    | _ => false

/-- Whether a number is written with digits only, so that a dot behind it would belong to it. -/
def isInteger : Expr → Bool
  | ⟨_, .num text⟩ => text.toList.all fun c => '0' ≤ c && c ≤ '9'
  | _ => false

/-- The least level of the object of an access, call or tag. A chain ends at its parentheses, so
only a link of the same chain may follow it bare. -/
def targetLevel (link : ChainLink) (dotFollows : Bool) (target : Expr) : Nat :=
  if (!link.isChained && target.isChained) || (dotFollows && isInteger target) then always
  else Precedence.construction

mutual

/-- Whether a call comes first on the way down the left side, where it would be taken as the
arguments of a constructor. -/
def callsOnSpine : Expr → Bool
  | ⟨_, shape⟩ => shapeCallsOnSpine shape

/-- The same for a shape. -/
def shapeCallsOnSpine : Shape → Bool
  | .call .. | .importCall _ => true
  | .member _ object _ => callsOnSpine object
  | .computed _ object _ => callsOnSpine object
  | .tagged tag .. => callsOnSpine tag
  | _ => false

end

/-- The least level of the callee of a constructor. -/
def calleeLevel (callee : Expr) : Nat :=
  if callsOnSpine callee || callee.isChained then always else Precedence.construction

/-- Whether an operator in front of its operand is a word. -/
def isWordOperator (op : Operator) : Bool :=
  op == .typeof || op == .void || op == .delete || op == .await

/-- Signs that would run together into one token. -/
def signsCollide (outer inner : Operator) : Bool :=
  let isMinus (op : Operator) := op == .unaryNegation || op == .prefixDecrement
  let isPlus (op : Operator) := op == .unaryPlus || op == .prefixIncrement
  (isMinus outer && isMinus inner) || (isPlus outer && isPlus inner)

/-- What separates an operator from the operand behind it. -/
def unaryGap (op : Operator) (operand : Expr) : String :=
  let collides := match operand.shape with
    | .unary inner _ => signsCollide op inner
    | _ => false
  if isWordOperator op || collides then " " else ""

end Printer

end Downlevel
