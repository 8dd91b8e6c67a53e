import Downlevel.Parser.Pattern

/-! Functions: their parameters, their bodies and the words in front of them. -/

namespace Downlevel.Parser

/-- What stands in front of the parameters of a function that is no arrow. -/
structure FunctionHead where
  isAsync : Bool
  isGenerator : Bool
  name : Option String

/-- The words in front of the parameters. -/
def functionHead : Parser FunctionHead := do
  let isAsync ← accept (.keyword .asyncKw)
  keyword .functionKw
  let isGenerator ← accept (.symbol .asterisk)
  let name ← bindingName?
  return ⟨isAsync, isGenerator, name⟩

namespace Grammar

/-- One parameter. -/
def param (grammar : Grammar) (context : Context) : Parser Param := do
  let (span, isRest, pattern, default) ← spanned do
    let isRest ← accept (.symbol .dotDotDot)
    let pattern ← grammar.pattern context
    let default ← grammar.initializer context [.symbol .comma, .symbol .parenthesisClose]
    return (isRest, pattern, default)
  return ⟨span, isRest, pattern, default⟩

/-- One round over parameters; a rest parameter is the last. -/
def paramRound (grammar : Grammar) (context : Context) (params : List Param) :
    Parser (Round (List Param) (List Param)) := do
  if ← nextIs .parenthesisClose then return .done params
  let param ← grammar.param context
  let params := params ++ [param]
  if param.isRest then return .done params
  if ← accept (.symbol .comma) then return .again params
  return .done params

/-- Parameters in parentheses. -/
def params (grammar : Grammar) (context : Context) : Parser (List Param) := do
  symbol .parenthesisOpen
  let params ← loop (grammar.paramRound context.allowIn) []
  symbol .parenthesisClose
  return params

/-- The statements of a function body. -/
def functionBody (grammar : Grammar) (context : Context) : Parser (List Stmt) :=
  grammar.braces context.allowIn

/-- The parameters and the body of a function that is no arrow. -/
def functionRest (grammar : Grammar) (context : Context) (isAsync isGenerator : Bool) :
    Parser Func := do
  let inner := context.generator isGenerator
  let (span, params, body) ← spanned do
    let params ← grammar.params inner
    let body ← grammar.functionBody inner
    return (params, body)
  return ⟨span, false, isAsync, isGenerator, params, .block body⟩

/-- A function as an expression. -/
def functionExpr (grammar : Grammar) (context : Context) : Parser Expr := do
  let (span, shape) ← spanned do
    let head ← functionHead
    let func ← grammar.functionRest context head.isAsync head.isGenerator
    return Shape.function head.name func
  return Expr.of span shape

/-- The parameters of an arrow: a single name, or a list in parentheses. -/
def arrowParams (grammar : Grammar) (context : Context) : Parser (List Param) := do
  if (← peek).kind.isBindable then
    let name ← take
    return [Param.ofName name.span name.text]
  grammar.params (context.generator false)

/-- An arrow function from its parameters, or the word in front of them, on. -/
def arrowExpr (grammar : Grammar) (context : Context) (stops : List TokenKind) : Parser Expr := do
  let inner := context.generator false
  let (span, isAsync, params, body) ← spanned do
    let (first, second) ← peek2
    -- A line break, or the arrow itself, makes the word the name of a parameter.
    let isAsync := first.kind == .keyword .asyncKw
      && second.kind != .symbol .equalsChevronRight && !second.afterLineBreak
    if isAsync then
      let _ ← take
    let params ← grammar.arrowParams context
    let arrow ← require (.symbol .equalsChevronRight)
    if arrow.afterLineBreak then fail (arrow.error .lineBreakBeforeArrow)
    let body ←
      if ← nextIs .braceOpen then Body.block <$> grammar.functionBody inner
      else Body.value <$> grammar.element inner stops
    return (isAsync, params, body)
  return Expr.of span (.arrow ⟨span, true, isAsync, false, params, body⟩)

/-- An arrow function, or nothing when the text cannot be one; a line break in front of the arrow
is an error all the same. -/
def arrowExpr? (grammar : Grammar) (context : Context) (stops : List TokenKind) :
    Parser (Option Expr) := do
  let saved ← checkpoint
  match ← attempt (grammar.arrowExpr context stops) with
  | .ok arrow => return some arrow
  | .error .exhausted => throw .exhausted
  | .error (.malformed error) =>
    if error.fault = .lineBreakBeforeArrow then fail error
    restore saved
    return none

end Grammar

end Downlevel.Parser
