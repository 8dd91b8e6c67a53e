import Downlevel.Options
import Downlevel.Tree

/-! What can be evaluated without being noticed. -/

namespace Downlevel

namespace Shape

/-- Whether the shape is a literal that holds nothing else. -/
def isLiteral : Shape → Bool
  | .null | .bool _ | .num _ | .str _ | .bigint _ => true
  | .template _ spans => spans.isEmpty
  | _ => false

end Shape

/-- Operators that a harmless default value may start with. -/
def Operator.isHarmlessSign : Operator → Bool
  | .void | .logicalNot | .unaryNegation | .unaryPlus | .typeof => true
  | _ => false

/-- Operators in front of an operand that do nothing by themselves. -/
def Operator.isRemovableSign : Operator → Bool
  | .unaryPlus | .unaryNegation | .logicalNot | .bitwiseNot | .void | .typeof => true
  | _ => false

namespace Purity

mutual

/-- Whether evaluating an expression cannot throw, going by its shape alone. -/
def isSafe : Expr → Bool
  | ⟨_, shape⟩ => isSafeShape shape

/-- The same for a shape. -/
def isSafeShape : Shape → Bool
  | .id _ | .this | .arrow _ | .function .. => true
  | .unary op operand => op.isHarmlessSign && isSafe operand
  | .array items => areSafeItems items
  | .object members => areSafeMembers members
  | .null | .bool _ | .num _ | .str _ | .bigint _ => true
  | .template _ spans => spans.isEmpty
  | _ => false

/-- The same for an element of an array literal. -/
def isSafeItem : ArrayItem → Bool
  | .single value => isSafe value
  | .hole => true
  | .spread _ => false

/-- The same for the elements of an array literal. -/
def areSafeItems : List ArrayItem → Bool
  | [] => true
  | item :: rest => isSafeItem item && areSafeItems rest

/-- The same for what a member of an object literal holds. -/
def isSafeValue : MemberValue → Bool
  | .field (some value) => isSafe value
  | .getter _ | .setter _ | .method _ => true
  | _ => false

/-- The same for a member of an object literal. -/
def isSafeMember : ObjectMember → Bool
  | .valued _ (.direct _) value => isSafeValue value
  | .shorthand .. => true
  | _ => false

/-- The same for the members of an object literal. -/
def areSafeMembers : List ObjectMember → Bool
  | [] => true
  | member :: rest => isSafeMember member && areSafeMembers rest

end

mutual

/-- Whether an expression need not be evaluated when its value is not used. -/
def isRemovable : Expr → Bool
  | ⟨_, shape⟩ => isRemovableShape shape

/-- The same for a shape. -/
def isRemovableShape : Shape → Bool
  | .null | .bool _ | .num _ | .str _ | .bigint _ | .regex _ | .this => true
  | .arrow _ | .function .. => true
  | .call _ isPure _ args => isPure && areRemovableArgs args
  | .unary .typeof ⟨_, .id _⟩ => true
  | .unary op operand => op.isRemovableSign && isRemovable operand
  | .binary .comma left right => isRemovable left && isRemovable right
  | .cond test consequent alternate =>
    isRemovable test && isRemovable consequent && isRemovable alternate
  | .array items => areRemovableItems items
  | .template _ spans => spans.isEmpty
  | _ => false

/-- The same for an argument. -/
def isRemovableArg : Arg → Bool
  | ⟨isSpread, value⟩ => !isSpread && isRemovable value

/-- The same for arguments. -/
def areRemovableArgs : List Arg → Bool
  | [] => true
  | arg :: rest => isRemovableArg arg && areRemovableArgs rest

/-- The same for an element of an array literal. -/
def isRemovableItem : ArrayItem → Bool
  | .single value => isRemovable value
  | .hole => true
  | .spread _ => false

/-- The same for the elements of an array literal. -/
def areRemovableItems : List ArrayItem → Bool
  | [] => true
  | item :: rest => isRemovableItem item && areRemovableItems rest

end

mutual

/-- Whether a statement need not run when nothing depends on it. -/
def isRemovableStmt : Stmt → Bool
  | ⟨_, .empty⟩ | ⟨_, .comment _⟩ => true
  | ⟨_, .block body⟩ => areRemovableStmts body
  | ⟨_, .expr value⟩ => isRemovable value
  | ⟨_, .tryCatch body _ handler⟩ => isRemovableBlock body && isRemovableBlock handler
  | ⟨_, .tryFinally body finalizer⟩ => isRemovableBlock body && isRemovableBlock finalizer
  | ⟨_, .tryCatchFinally body _ handler finalizer⟩ =>
    isRemovableBlock body && isRemovableBlock handler && isRemovableBlock finalizer
  | _ => false

/-- The same for statements. -/
def areRemovableStmts : List Stmt → Bool
  | [] => true
  | stmt :: rest => isRemovableStmt stmt && areRemovableStmts rest

/-- The same for statements in braces. -/
def isRemovableBlock : Block → Bool
  | ⟨_, body⟩ => areRemovableStmts body

end

end Purity

/-- Whether binding a parameter may throw. -/
def ParamPurity.mayThrow (purity : ParamPurity) (param : Param) : Bool :=
  match param.pattern, param.default with
  | .id .., none => false
  | .id .., some default =>
    match purity with
    | .syntactic => !Purity.isSafe default
    | .conservative => !default.shape.isLiteral
  | _, _ => true

end Downlevel
