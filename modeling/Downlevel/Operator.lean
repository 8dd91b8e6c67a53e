import Downlevel.Token

/-! Operators with their spelling, precedence and associativity. -/

namespace Downlevel

/-- Everything in an expression that binds its operands with a precedence. -/
inductive Operator
  | addition
  | assignment
  | assignmentAddition
  | assignmentBitwiseAnd
  | assignmentBitwiseLeftShift
  | assignmentBitwiseOr
  | assignmentBitwiseRightShift
  | assignmentBitwiseUnsignedRightShift
  | assignmentBitwiseXor
  | assignmentDivision
  | assignmentExponentiation
  | assignmentLogicalAnd
  | assignmentLogicalOr
  | assignmentMultiplication
  | assignmentNullishCoalescing
  | assignmentRemainder
  | assignmentSubtraction
  | await
  | bitwiseAnd
  | bitwiseLeftShift
  | bitwiseNot
  | bitwiseOr
  | bitwiseRightShift
  | bitwiseUnsignedRightShift
  | bitwiseXor
  | call
  | comma
  | computedMemberAccess
  | conditional
  | delete
  | division
  | equality
  | exponentiation
  | greaterThan
  | greaterThanOrEqual
  | isIn
  | inequality
  | instanceof
  | lessThan
  | lessThanOrEqual
  | logicalAnd
  | logicalNot
  | logicalOr
  | memberAccess
  | multiplication
  | new
  | nullishCoalescing
  | optionalChainingCall
  | optionalChainingComputedMemberAccess
  | optionalChainingMemberAccess
  | postfixDecrement
  | postfixIncrement
  | prefixDecrement
  | prefixIncrement
  | remainder
  | strictEquality
  | strictInequality
  | subtraction
  | typeof
  | unaryNegation
  | unaryPlus
  | void
  | yield
  | yieldDelegated
deriving DecidableEq

/-- Which of two equal operators in a row takes the operand between them. -/
inductive Associativity
  | left
  | right
deriving DecidableEq

/-- The name an associativity is reported under. -/
def Associativity.name : Associativity → String
  | .left => "Left"
  | .right => "Right"

/-! The levels of precedence, loosest first. -/

namespace Precedence

/-- The comma operator binds loosest. -/
abbrev comma : Nat := 1

/-- Yields bind tighter than commas only. -/
abbrev yielding : Nat := 2

/-- Assignments of every kind. -/
abbrev assignment : Nat := 3

/-- The conditional operator. -/
abbrev conditional : Nat := 4

/-- Nullish coalescing. -/
abbrev nullish : Nat := 5

/-- Logical or. -/
abbrev logicalOr : Nat := 6

/-- Logical and. -/
abbrev logicalAnd : Nat := 7

/-- Exponentiation, the tightest binary operator. -/
abbrev exponentiation : Nat := 16

/-- Operators in front of their operand. -/
abbrev unary : Nat := 17

/-- Operators behind their operand. -/
abbrev update : Nat := 18

/-- Constructor calls. -/
abbrev construction : Nat := 19

/-- Member accesses and calls. -/
abbrev access : Nat := 20

/-- Operands that no operator can split. -/
abbrev primary : Nat := 21

end Precedence

namespace Operator

/-- Every operator, in the order of the constructors, which is the order of their names. -/
def all : List Operator :=
  [.addition, .assignment, .assignmentAddition, .assignmentBitwiseAnd,
    .assignmentBitwiseLeftShift, .assignmentBitwiseOr, .assignmentBitwiseRightShift,
    .assignmentBitwiseUnsignedRightShift, .assignmentBitwiseXor, .assignmentDivision,
    .assignmentExponentiation, .assignmentLogicalAnd, .assignmentLogicalOr,
    .assignmentMultiplication, .assignmentNullishCoalescing, .assignmentRemainder,
    .assignmentSubtraction, .await, .bitwiseAnd, .bitwiseLeftShift, .bitwiseNot, .bitwiseOr,
    .bitwiseRightShift, .bitwiseUnsignedRightShift, .bitwiseXor, .call, .comma,
    .computedMemberAccess, .conditional, .delete, .division, .equality, .exponentiation,
    .greaterThan, .greaterThanOrEqual, .isIn, .inequality, .instanceof, .lessThan,
    .lessThanOrEqual, .logicalAnd, .logicalNot, .logicalOr, .memberAccess, .multiplication,
    .new, .nullishCoalescing, .optionalChainingCall, .optionalChainingComputedMemberAccess,
    .optionalChainingMemberAccess, .postfixDecrement, .postfixIncrement, .prefixDecrement,
    .prefixIncrement, .remainder, .strictEquality, .strictInequality, .subtraction, .typeof,
    .unaryNegation, .unaryPlus, .void, .yield, .yieldDelegated]

/-- The name an operator is reported under. -/
def name : Operator → String
  | .addition => "Addition"
  | .assignment => "Assignment"
  | .assignmentAddition => "AssignmentAddition"
  | .assignmentBitwiseAnd => "AssignmentBitwiseAnd"
  | .assignmentBitwiseLeftShift => "AssignmentBitwiseLeftShift"
  | .assignmentBitwiseOr => "AssignmentBitwiseOr"
  | .assignmentBitwiseRightShift => "AssignmentBitwiseRightShift"
  | .assignmentBitwiseUnsignedRightShift => "AssignmentBitwiseUnsignedRightShift"
  | .assignmentBitwiseXor => "AssignmentBitwiseXor"
  | .assignmentDivision => "AssignmentDivision"
  | .assignmentExponentiation => "AssignmentExponentiation"
  | .assignmentLogicalAnd => "AssignmentLogicalAnd"
  | .assignmentLogicalOr => "AssignmentLogicalOr"
  | .assignmentMultiplication => "AssignmentMultiplication"
  | .assignmentNullishCoalescing => "AssignmentNullishCoalescing"
  | .assignmentRemainder => "AssignmentRemainder"
  | .assignmentSubtraction => "AssignmentSubtraction"
  | .await => "Await"
  | .bitwiseAnd => "BitwiseAnd"
  | .bitwiseLeftShift => "BitwiseLeftShift"
  | .bitwiseNot => "BitwiseNot"
  | .bitwiseOr => "BitwiseOr"
  | .bitwiseRightShift => "BitwiseRightShift"
  | .bitwiseUnsignedRightShift => "BitwiseUnsignedRightShift"
  | .bitwiseXor => "BitwiseXor"
  | .call => "Call"
  | .comma => "Comma"
  | .computedMemberAccess => "ComputedMemberAccess"
  | .conditional => "Conditional"
  | .delete => "Delete"
  | .division => "Division"
  | .equality => "Equality"
  | .exponentiation => "Exponentiation"
  | .greaterThan => "GreaterThan"
  | .greaterThanOrEqual => "GreaterThanOrEqual"
  | .isIn => "In"
  | .inequality => "Inequality"
  | .instanceof => "Instanceof"
  | .lessThan => "LessThan"
  | .lessThanOrEqual => "LessThanOrEqual"
  | .logicalAnd => "LogicalAnd"
  | .logicalNot => "LogicalNot"
  | .logicalOr => "LogicalOr"
  | .memberAccess => "MemberAccess"
  | .multiplication => "Multiplication"
  | .new => "New"
  | .nullishCoalescing => "NullishCoalescing"
  | .optionalChainingCall => "OptionalChainingCall"
  | .optionalChainingComputedMemberAccess => "OptionalChainingComputedMemberAccess"
  | .optionalChainingMemberAccess => "OptionalChainingMemberAccess"
  | .postfixDecrement => "PostfixDecrement"
  | .postfixIncrement => "PostfixIncrement"
  | .prefixDecrement => "PrefixDecrement"
  | .prefixIncrement => "PrefixIncrement"
  | .remainder => "Remainder"
  | .strictEquality => "StrictEquality"
  | .strictInequality => "StrictInequality"
  | .subtraction => "Subtraction"
  | .typeof => "Typeof"
  | .unaryNegation => "UnaryNegation"
  | .unaryPlus => "UnaryPlus"
  | .void => "Void"
  | .yield => "Yield"
  | .yieldDelegated => "YieldDelegated"

/-- How an operator is spelled; accesses and calls have no spelling of their own. -/
def text : Operator → String
  | .addition => "+"
  | .assignment => "="
  | .assignmentAddition => "+="
  | .assignmentBitwiseAnd => "&="
  | .assignmentBitwiseLeftShift => "<<="
  | .assignmentBitwiseOr => "|="
  | .assignmentBitwiseRightShift => ">>="
  | .assignmentBitwiseUnsignedRightShift => ">>>="
  | .assignmentBitwiseXor => "^="
  | .assignmentDivision => "/="
  | .assignmentExponentiation => "**="
  | .assignmentLogicalAnd => "&&="
  | .assignmentLogicalOr => "||="
  | .assignmentMultiplication => "*="
  | .assignmentNullishCoalescing => "??="
  | .assignmentRemainder => "%="
  | .assignmentSubtraction => "-="
  | .await => "await"
  | .bitwiseAnd => "&"
  | .bitwiseLeftShift => "<<"
  | .bitwiseNot => "~"
  | .bitwiseOr => "|"
  | .bitwiseRightShift => ">>"
  | .bitwiseUnsignedRightShift => ">>>"
  | .bitwiseXor => "^"
  | .call => ""
  | .comma => ","
  | .computedMemberAccess => ""
  | .conditional => "?"
  | .delete => "delete"
  | .division => "/"
  | .equality => "=="
  | .exponentiation => "**"
  | .greaterThan => ">"
  | .greaterThanOrEqual => ">="
  | .isIn => "in"
  | .inequality => "!="
  | .instanceof => "instanceof"
  | .lessThan => "<"
  | .lessThanOrEqual => "<="
  | .logicalAnd => "&&"
  | .logicalNot => "!"
  | .logicalOr => "||"
  | .memberAccess => ""
  | .multiplication => "*"
  | .new => "new"
  | .nullishCoalescing => "??"
  | .optionalChainingCall => ""
  | .optionalChainingComputedMemberAccess => ""
  | .optionalChainingMemberAccess => ""
  | .postfixDecrement => "--"
  | .postfixIncrement => "++"
  | .prefixDecrement => "--"
  | .prefixIncrement => "++"
  | .remainder => "%"
  | .strictEquality => "==="
  | .strictInequality => "!=="
  | .subtraction => "-"
  | .typeof => "typeof"
  | .unaryNegation => "-"
  | .unaryPlus => "+"
  | .void => "void"
  | .yield => "yield"
  | .yieldDelegated => "yield*"

/-- The binary operator that a compound assignment applies. -/
def compound? : Operator → Option Operator
  | .assignmentAddition => some .addition
  | .assignmentBitwiseAnd => some .bitwiseAnd
  | .assignmentBitwiseLeftShift => some .bitwiseLeftShift
  | .assignmentBitwiseOr => some .bitwiseOr
  | .assignmentBitwiseRightShift => some .bitwiseRightShift
  | .assignmentBitwiseUnsignedRightShift => some .bitwiseUnsignedRightShift
  | .assignmentBitwiseXor => some .bitwiseXor
  | .assignmentDivision => some .division
  | .assignmentExponentiation => some .exponentiation
  | .assignmentLogicalAnd => some .logicalAnd
  | .assignmentLogicalOr => some .logicalOr
  | .assignmentMultiplication => some .multiplication
  | .assignmentNullishCoalescing => some .nullishCoalescing
  | .assignmentRemainder => some .remainder
  | .assignmentSubtraction => some .subtraction
  | _ => none

/-- Plain and compound assignments write their left operand. -/
def isAssignment (op : Operator) : Bool :=
  op == .assignment || op.compound?.isSome

/-- How tightly an operator binds. -/
def precedence : Operator → Nat
  | .comma => Precedence.comma
  | .yield | .yieldDelegated => Precedence.yielding
  | .assignment | .assignmentAddition | .assignmentBitwiseAnd | .assignmentBitwiseLeftShift
  | .assignmentBitwiseOr | .assignmentBitwiseRightShift
  | .assignmentBitwiseUnsignedRightShift | .assignmentBitwiseXor | .assignmentDivision
  | .assignmentExponentiation | .assignmentLogicalAnd | .assignmentLogicalOr
  | .assignmentMultiplication | .assignmentNullishCoalescing | .assignmentRemainder
  | .assignmentSubtraction => Precedence.assignment
  | .conditional => Precedence.conditional
  | .nullishCoalescing => Precedence.nullish
  | .logicalOr => Precedence.logicalOr
  | .logicalAnd => Precedence.logicalAnd
  | .bitwiseOr => 8
  | .bitwiseXor => 9
  | .bitwiseAnd => 10
  | .equality | .inequality | .strictEquality | .strictInequality => 11
  | .greaterThan | .greaterThanOrEqual | .isIn | .instanceof | .lessThan | .lessThanOrEqual => 12
  | .bitwiseLeftShift | .bitwiseRightShift | .bitwiseUnsignedRightShift => 13
  | .addition | .subtraction => 14
  | .division | .multiplication | .remainder => 15
  | .exponentiation => Precedence.exponentiation
  | .await | .bitwiseNot | .delete | .logicalNot | .prefixDecrement | .prefixIncrement
  | .typeof | .unaryNegation | .unaryPlus | .void => Precedence.unary
  | .postfixDecrement | .postfixIncrement => Precedence.update
  | .new => Precedence.construction
  | .call | .computedMemberAccess | .memberAccess | .optionalChainingCall
  | .optionalChainingComputedMemberAccess | .optionalChainingMemberAccess => Precedence.access

/-- Assignments, conditionals, exponentiation and all that stands in front of its operand group to
the right. -/
def associativity (op : Operator) : Associativity :=
  let level := op.precedence
  if level = Precedence.yielding ∨ level = Precedence.assignment ∨ level = Precedence.conditional
      ∨ level = Precedence.exponentiation ∨ level = Precedence.unary
      ∨ level = Precedence.construction then
    .right
  else
    .left

/-- The operator that a token is between two operands. Accesses, calls, conditionals and the
operators behind their operand are no part of this. -/
def ofInfixToken? : TokenKind → Option Operator
  | .symbol .comma => some .comma
  | .symbol .questionQuestion => some .nullishCoalescing
  | .symbol .barBar => some .logicalOr
  | .symbol .ampersandAmpersand => some .logicalAnd
  | .symbol .bar => some .bitwiseOr
  | .symbol .caret => some .bitwiseXor
  | .symbol .ampersand => some .bitwiseAnd
  | .symbol .equalsEquals => some .equality
  | .symbol .exclamationEquals => some .inequality
  | .symbol .equalsEqualsEquals => some .strictEquality
  | .symbol .exclamationEqualsEquals => some .strictInequality
  | .symbol .chevronLeft => some .lessThan
  | .symbol .chevronLeftEquals => some .lessThanOrEqual
  | .symbol .chevronRight => some .greaterThan
  | .symbol .chevronRightEquals => some .greaterThanOrEqual
  | .keyword .inKw => some .isIn
  | .keyword .instanceofKw => some .instanceof
  | .symbol .chevronLeftChevronLeft => some .bitwiseLeftShift
  | .symbol .chevronRightChevronRight => some .bitwiseRightShift
  | .symbol .chevronRightChevronRightChevronRight => some .bitwiseUnsignedRightShift
  | .symbol .plus => some .addition
  | .symbol .hyphen => some .subtraction
  | .symbol .asterisk => some .multiplication
  | .symbol .slash => some .division
  | .symbol .percent => some .remainder
  | .symbol .asteriskAsterisk => some .exponentiation
  | .symbol .equals => some .assignment
  | .symbol .plusEquals => some .assignmentAddition
  | .symbol .hyphenEquals => some .assignmentSubtraction
  | .symbol .asteriskEquals => some .assignmentMultiplication
  | .symbol .slashEquals => some .assignmentDivision
  | .symbol .percentEquals => some .assignmentRemainder
  | .symbol .asteriskAsteriskEquals => some .assignmentExponentiation
  | .symbol .ampersandEquals => some .assignmentBitwiseAnd
  | .symbol .barEquals => some .assignmentBitwiseOr
  | .symbol .caretEquals => some .assignmentBitwiseXor
  | .symbol .chevronLeftChevronLeftEquals => some .assignmentBitwiseLeftShift
  | .symbol .chevronRightChevronRightEquals => some .assignmentBitwiseRightShift
  | .symbol .chevronRightChevronRightChevronRightEquals => some .assignmentBitwiseUnsignedRightShift
  | .symbol .ampersandAmpersandEquals => some .assignmentLogicalAnd
  | .symbol .barBarEquals => some .assignmentLogicalOr
  | .symbol .questionQuestionEquals => some .assignmentNullishCoalescing
  | _ => none

/-- The operator that a token is in front of an operand. -/
def ofLeadingToken? : TokenKind → Option Operator
  | .keyword .awaitKw => some .await
  | .symbol .tilde => some .bitwiseNot
  | .keyword .deleteKw => some .delete
  | .symbol .exclamation => some .logicalNot
  | .symbol .hyphenHyphen => some .prefixDecrement
  | .symbol .plusPlus => some .prefixIncrement
  | .symbol .hyphen => some .unaryNegation
  | .symbol .plus => some .unaryPlus
  | .keyword .typeofKw => some .typeof
  | .keyword .voidKw => some .void
  | _ => none

end Operator

end Downlevel
