import Downlevel.Parser.Grammar

/-! Array literals and templates. -/

namespace Downlevel.Parser

namespace Grammar

/-- One round over the items of an array literal; a lone comma is a hole. -/
def arrayRound (grammar : Grammar) (context : Context) (items : List ArrayItem) :
    Parser (Round (List ArrayItem) (List ArrayItem)) := do
  if ← accept (.symbol .comma) then return .again (items ++ [.hole])
  if ← nextIs .bracketClose then return .done items
  let isSpread ← accept (.symbol .dotDotDot)
  let value ← grammar.element context [.symbol .comma, .symbol .bracketClose]
  let items := items ++ [if isSpread then .spread value else .single value]
  if ← nextIs .bracketClose then return .done items
  symbol .comma
  return .again items

/-- The items of an array literal. -/
def arrayItems (grammar : Grammar) (context : Context) : Parser (List ArrayItem) :=
  loop (grammar.arrayRound context) []

/-- An array literal. -/
def arrayExpr (grammar : Grammar) (context : Context) : Parser Expr := do
  let (span, items) ← spanned do
    symbol .bracketOpen
    let items ← grammar.arrayItems context.allowIn
    symbol .bracketClose
    return items
  return Expr.of span (.array items)

end Grammar

/-- The raw text of a template token between its delimiters, and whether the template ends there.
The first token of a template also holds the opening backtick. -/
def templateText (token : Token) (isFirst : Bool) : Parser (String × Bool) := do
  let front := if isFirst then 1 else 0
  match token.kind with
  | .templatePart => return (← contents token front 2, false)
  | .templateEnd => return (← contents token front 1, true)
  | .invalid | .eof => fail (token.error .unexpectedEnd)
  | _ => fail (token.error (.expected "template string part"))

namespace Grammar

/-- One round over the substitutions of a template. -/
def templateRound (grammar : Grammar) (context : Context) (spans : List TemplateSpan) :
    Parser (Round (List TemplateSpan) (List TemplateSpan)) := do
  let value ← grammar.whole context [.symbol .braceClose]
  symbol .braceClose
  let token ← takeIn .template
  let (text, isEnd) ← templateText token false
  let spans := spans ++ [⟨value, text⟩]
  return if isEnd then .done spans else .again spans

/-- The substitutions of a template, each with the text behind it. -/
def templateSpans (grammar : Grammar) (context : Context) : Parser (List TemplateSpan) :=
  loop (grammar.templateRound context) []

/-- The text and the substitutions of a template whose first token is already taken. -/
def templateRest (grammar : Grammar) (context : Context) (first : Token) :
    Parser (String × List TemplateSpan) := do
  let (head, isEnd) ← templateText first true
  if isEnd then return (head, [])
  return (head, ← grammar.templateSpans context.allowIn)

/-- A template without a tag. -/
def templateExpr (grammar : Grammar) (context : Context) (first : Token) : Parser Expr := do
  let (head, spans) ← grammar.templateRest context first
  return Expr.of ⟨first.span.start, ← lastEnd⟩ (.template head spans)

/-- A template behind its tag. -/
def taggedTemplate (grammar : Grammar) (context : Context) (tag : Expr) (first : Token) :
    Parser Expr := do
  let (head, spans) ← grammar.templateRest context first
  return Expr.of ⟨tag.span.start, ← lastEnd⟩ (.tagged tag head spans)

end Grammar

end Downlevel.Parser
