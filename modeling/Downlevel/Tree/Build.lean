import Downlevel.Tree

/-! Short ways to write the trees that reading and lowering make. -/

namespace Downlevel

namespace Expr

/-- An expression of the given shape that stands for the span. -/
def of (span : Span) (shape : Shape) : Expr :=
  ⟨⟨span, false⟩, shape⟩

/-- An identifier. -/
def id (span : Span) (name : String) : Expr :=
  of span (.id name)

/-- The receiver of the current function. -/
def this (span : Span) : Expr :=
  of span .this

/-- The null literal. -/
def null (span : Span) : Expr :=
  of span .null

/-- A truth value. -/
def bool (span : Span) (value : Bool) : Expr :=
  of span (.bool value)

/-- A number as it is to be written. -/
def num (span : Span) (text : String) : Expr :=
  of span (.num text)

/-- A string with the given value. -/
def str (span : Span) (value : String) : Expr :=
  of span (.str value)

/-- An operator in front of its operand. -/
def unary (span : Span) (op : Operator) (operand : Expr) : Expr :=
  of span (.unary op operand)

/-- The undefined value, written so that no binding can change it. -/
def undefined (span : Span) : Expr :=
  unary span .void (num span "0")

/-- An operator between its operands. -/
def binary (span : Span) (op : Operator) (left right : Expr) : Expr :=
  of span (.binary op left right)

/-- A plain assignment. -/
def assign (span : Span) (target value : Expr) : Expr :=
  binary span .assignment target value

/-- Two expressions one after the other, with the value of the second. -/
def andThen (first second : Expr) : Expr :=
  binary (first.span.cover second.span) .comma first second

/-- All the expressions one after the other, with the value of the last. -/
def sequence (first : Expr) (rest : List Expr) : Expr :=
  rest.foldl andThen first

/-- A choice between two values. -/
def cond (span : Span) (test consequent alternate : Expr) : Expr :=
  of span (.cond test consequent alternate)

/-- A member access outside any chain. -/
def member (span : Span) (object : Expr) (name : String) : Expr :=
  of span (.member .plain object name)

/-- A computed member access outside any chain. -/
def computed (span : Span) (object key : Expr) : Expr :=
  of span (.computed .plain object key)

/-- A call outside any chain, without spread arguments. -/
def call (span : Span) (callee : Expr) (args : List Expr) : Expr :=
  of span (.call .plain false callee (args.map (⟨false, ·⟩)))

/-- A call of a function that lowered code expects in its environment. -/
def helper (span : Span) (name : String) (args : List Expr) : Expr :=
  call span (id span name) args

/-- An array literal without spreads and holes. -/
def array (span : Span) (items : List Expr) : Expr :=
  of span (.array (items.map .single))

/-- A constructor call by name, without spread arguments. -/
def new (span : Span) (callee : String) (args : List Expr) : Expr :=
  of span (.new (id span callee) (args.map (⟨false, ·⟩)))

/-- A call that passes the receiver explicitly. -/
def callWithThis (span : Span) (callee receiver : Expr) (args : List Arg) : Expr :=
  of span (.call .plain false (member span callee "call") (⟨false, receiver⟩ :: args))

end Expr

namespace Stmt

/-- An expression as a statement. -/
def expr (value : Expr) : Stmt :=
  ⟨value.span, .expr value⟩

/-- A statement that does nothing. -/
def empty (span : Span) : Stmt :=
  ⟨span, .empty⟩

/-- Statements in braces. -/
def block (span : Span) (body : List Stmt) : Stmt :=
  ⟨span, .block body⟩

/-- A return with a value. -/
def returns (span : Span) (value : Expr) : Stmt :=
  ⟨span, .return (some value)⟩

end Stmt

/-- A declarator of a single name. -/
def Declarator.ofName (span : Span) (name : String) (init : Option Expr) : Declarator :=
  ⟨.id span name, init⟩

/-- A parameter that is a single name. -/
def Param.ofName (span : Span) (name : String) : Param :=
  ⟨span, false, .id span name, none⟩

/-- The statements of a body; a single value is returned. -/
def Body.stmts : Body → List Stmt
  | .block stmts => stmts
  | .value result => [Stmt.returns result.span result]

/-- A pattern as the left side of an assignment. -/
def Pattern.toExpr : Pattern → Expr
  | .id span name => Expr.id span name
  | .array span slots rest => Expr.of span (.arrayPattern slots rest)
  | .object span properties rest => Expr.of span (.objectPattern properties rest)
  | .target _ place => place

end Downlevel
