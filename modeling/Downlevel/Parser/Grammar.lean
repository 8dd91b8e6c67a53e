import Downlevel.Parser.Reader
import Downlevel.Text.Escape
import Downlevel.Tree.Build

/-! The parts of the grammar that refer to one another, and the small parts that all of them use. -/

namespace Downlevel.Parser

/-- What the surroundings say about the text to come. -/
structure Context where
  /-- In the head of a loop, where `in` is no operator. -/
  noIn : Bool := false
  /-- In a generator, where `yield` is an operator. -/
  inGenerator : Bool := false

namespace Context

/-- The context in which `in` is an operator again. -/
def allowIn (context : Context) : Context :=
  { context with noIn := false }

/-- The context of the head of a loop. -/
def forbidIn (context : Context) : Context :=
  { context with noIn := true }

/-- The context inside a function that is a generator or is none. -/
def generator (context : Context) (inGenerator : Bool) : Context :=
  { context with inGenerator }

end Context

/-- The recursive parts of the grammar. Each rule is written over the parts it refers to, and the
parts are tied together once all rules are there. -/
structure Grammar where
  /-- An expression whose operators bind at least as tightly as the level, up to a stop token. -/
  expr : Context → (level : Nat) → (stops : List TokenKind) → Parser Expr
  /-- An operand with the operators in front of it. -/
  operand : Context → (stops : List TokenKind) → Parser Expr
  /-- The operators behind a given operand. -/
  suffix : Context → Expr → (level : Nat) → (stops : List TokenKind) → Parser Expr
  pattern : Context → Parser Pattern
  stmt : Context → Parser Stmt

namespace Grammar

/-- A full expression, commas included. -/
def whole (grammar : Grammar) (context : Context) (stops : List TokenKind) : Parser Expr :=
  grammar.expr context Precedence.comma stops

/-- An expression between commas. -/
def element (grammar : Grammar) (context : Context) (stops : List TokenKind) : Parser Expr :=
  grammar.expr context Precedence.assignment stops

/-- An expression in parentheses, of which the tree keeps no trace. -/
def grouping (grammar : Grammar) (context : Context) : Parser Expr := do
  symbol .parenthesisOpen
  let inner ← grammar.whole context.allowIn [.symbol .parenthesisClose]
  symbol .parenthesisClose
  return inner

/-- An expression in parentheses that belongs to the head of a statement. -/
def headExpr (grammar : Grammar) (context : Context) : Parser Expr := do
  symbol .parenthesisOpen
  let inner ← grammar.whole context [.symbol .parenthesisClose]
  symbol .parenthesisClose
  return inner

/-- The expression after an equals sign, if there is one. -/
def initializer (grammar : Grammar) (context : Context) (stops : List TokenKind) :
    Parser (Option Expr) := do
  if ← accept (.symbol .equals) then
    return some (← grammar.element context stops)
  return none

/-- One argument. -/
def argument (grammar : Grammar) (context : Context) : Parser Arg := do
  let isSpread ← accept (.symbol .dotDotDot)
  let value ← grammar.element context.allowIn [.symbol .comma, .symbol .parenthesisClose]
  return ⟨isSpread, value⟩

/-- Arguments after the opening parenthesis, through the closing one. -/
def arguments (grammar : Grammar) (context : Context) : Parser (List Arg) := do
  let args ← commaList .parenthesisClose (grammar.argument context)
  symbol .parenthesisClose
  return args

/-- One round over the statements of a list. -/
def stmtRound (grammar : Grammar) (context : Context) (ends : List TokenKind) (body : List Stmt) :
    Parser (Round (List Stmt) (List Stmt)) := do
  let token ← peek
  let body := body ++ (← takeComments token.span.start)
  if token.kind ∈ ends then return .done body
  if token.kind = .eof then fail (token.error .unexpectedEnd)
  let stmt ← grammar.stmt context
  skipComments
  return .again (body ++ [stmt])

/-- Statements up to one of the given tokens, which is not taken. Legal comments between the
statements become statements of their own. -/
def stmtList (grammar : Grammar) (context : Context) (ends : List TokenKind) :
    Parser (List Stmt) := do
  skipComments
  loop (grammar.stmtRound context ends) []

/-- Statements in braces. -/
def braces (grammar : Grammar) (context : Context) : Parser (List Stmt) := do
  symbol .braceOpen
  let body ← grammar.stmtList context [.symbol .braceClose]
  symbol .braceClose
  return body

/-- Statements in braces, with their span. -/
def block (grammar : Grammar) (context : Context) : Parser Block := do
  let (span, body) ← spanned (grammar.braces context)
  return ⟨span, body⟩

end Grammar

/-- The text of a token without so many bytes in front and so many behind. -/
def contents (token : Token) (front back : Nat) : Parser String :=
  match Text.inner? front back token.text.toList with
  | some text => return String.ofList text
  | none => throw .broken

/-- The decoded value of a string token. -/
def stringValue (token : Token) : Parser String := do
  -- The quotes at both ends are not part of the contents.
  match Text.cook (← contents token 1 1) with
  | .ok (some value) => return value
  | .ok none => fail (token.error (.expected "valid string escape"))
  | .error _ => throw .broken

/-- The text of an integer literal without its suffix. -/
def bigintDigits (token : Token) : Parser String :=
  contents token 0 1

/-- The name of a class or function, if one comes next. -/
def bindingName? : Parser (Option String) := do
  let token ← peek
  if token.kind.isBindable then
    let _ ← take
    return some token.text
  return none

end Downlevel.Parser
