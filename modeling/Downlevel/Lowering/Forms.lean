import Downlevel.Lowering.State

/-! A part of a program is lowered in one way as a value, in another as a place that is written,
and in another as a callee. Its forms are all of these, for whoever is around it to choose from. -/

namespace Downlevel

namespace Lowering

/-- A link of a chain whose parts are still to be lowered. -/
inductive LinkForms
  | member (span : Span) (name : String)
  | computed (span : Span) (key : Lower Expr)
  | call (span : Span) (isPure : Bool) (args : Lower (List Arg))

/-- What stands in front of the first link of a chain. -/
structure BaseForms where
  source : Expr
  value : Lower Expr
  /-- As a callee, with the receiver that the call has to pass. -/
  callee : Lower (Expr × Option Expr)

/-- A chain of accesses and calls from the base on, the first link first. A chain that goes on
behind something else has no base. -/
structure ChainForms where
  base : Option BaseForms := none
  links : List LinkForms := []

/-- How a place is made up, if it can be both read and written. -/
inductive PlaceForms
  | identifier (name : String)
  | member (object : Expr) (value : Lower Expr) (name : String)
  | computed (object : Expr) (value key : Lower Expr)
  | other

/-- The forms of an expression. -/
structure ExprForms where
  source : Expr
  value : Lower Expr
  /-- As a place that is only written. -/
  target : Lower Expr := value
  place : PlaceForms := .other
  /-- As part of a chain that stays as it is written. -/
  natively : Lower Expr := value
  chain : ChainForms := {}

/-- The forms of a pattern. -/
structure PatternForms where
  source : Pattern
  /-- As a binding. -/
  bound : Lower Pattern
  /-- As the left side of an assignment. -/
  assigned : ExprForms

/-- The forms of a key. -/
inductive KeyForms
  | direct (name : KeyName)
  | computed (value : ExprForms)

/-- The forms of what a class or object member holds. -/
inductive MemberForms
  | getter (func : Lower Func)
  | setter (func : Lower Func)
  | method (func : Lower Func)
  | field (init : Option (Lower Expr))
  | accessor (init : Option (Lower Expr))
  | staticBlock (span : Span) (body : Lower (List Stmt))

/-- The forms of a class member. -/
structure ClassMemberForms where
  span : Span
  key : KeyForms
  isStatic : Bool
  value : MemberForms

/-- The forms of a statement. -/
structure StmtForms where
  span : Span
  /-- A statement may turn into several or into none. -/
  stmts : Lower (List Stmt)
  /-- The same without the braces of a block. -/
  unbraced : Lower (List Stmt) := stmts

/-- Lowers a statement that has to stay one statement. -/
def StmtForms.single (forms : StmtForms) : Lower Stmt := do
  match ← forms.stmts with
  | [] => return .empty forms.span
  | [stmt] => return stmt
  | stmts => return .block forms.span stmts

end Lowering

end Downlevel
