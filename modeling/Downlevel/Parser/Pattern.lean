import Downlevel.Parser.Grammar

/-! Keys of class and object members and of the properties of patterns, and binding patterns: names,
object patterns and array patterns. -/

namespace Downlevel.Parser

/-- A key that is a single token. Every word can be a key, keywords included. -/
def directKey : Parser KeyName := do
  let (span, text, kind) ← spanned do
    let token ← take
    match token.kind with
    | .string => return (← stringValue token, TokenKind.string)
    | .number => return (token.text, .number)
    | .bigint => return (← bigintDigits token, .bigint)
    | .privateName => return (token.text, .privateName)
    | .identifier | .keyword _ => return (token.text, .identifier)
    | _ => fail (token.error (.expected "keyword or identifier"))
  return ⟨span, text, kind⟩

/-- A key, either a single token or an expression in brackets. -/
def Grammar.key (grammar : Grammar) (context : Context) : Parser Key := do
  if ← accept (.symbol .bracketOpen) then
    let value ← grammar.element context.allowIn [.symbol .bracketClose]
    symbol .bracketClose
    return .computed value
  return .direct (← directKey)

/-- A name that is bound. -/
def bindingId : Parser (Span × String) :=
  spanned do
    let token ← take
    if token.kind.isBindable then return token.text
    fail (token.error (.expected "identifier"))

/-- Only a key that is a plain word can also be the name it binds. -/
def shorthandTarget : Key → Parser Pattern
  | .direct name =>
    if name.kind = .identifier then return .id name.span name.text
    else fail ⟨.expected "identifier", name.span, none⟩
  | .computed value => fail ⟨.expected "object pattern property subpattern", value.span, none⟩

namespace Grammar

/-- One property of an object pattern. -/
def patternProperty (grammar : Grammar) (context : Context) : Parser PatternProperty := do
  let (span, key, target, isShorthand, default) ← spanned do
    let key ← grammar.key context
    let isShorthand := !(← accept (.symbol .colon))
    let target ← if isShorthand then shorthandTarget key else grammar.pattern context
    let default ← grammar.initializer context [.symbol .comma, .symbol .braceClose]
    return (key, target, isShorthand, default)
  return ⟨span, key, target, isShorthand, default⟩

/-- One round over the properties of an object pattern; a rest ends them. -/
def propertyRound (grammar : Grammar) (context : Context) (properties : List PatternProperty) :
    Parser (Round (List PatternProperty) (List PatternProperty × Option Pattern)) := do
  if ← nextIs .braceClose then return .done (properties, none)
  if ← accept (.symbol .dotDotDot) then
    return .done (properties, some (← grammar.pattern context))
  let property ← grammar.patternProperty context
  let properties := properties ++ [property]
  if ← accept (.symbol .comma) then return .again properties
  return .done (properties, none)

/-- The properties and the rest of an object pattern. -/
def patternProperties (grammar : Grammar) (context : Context) :
    Parser (List PatternProperty × Option Pattern) :=
  loop (grammar.propertyRound context) []

/-- An object pattern. -/
def objectPattern (grammar : Grammar) (context : Context) : Parser Pattern := do
  let (span, properties, rest) ← spanned do
    symbol .braceOpen
    let found ← grammar.patternProperties context.allowIn
    symbol .braceClose
    return found
  return .object span properties rest

/-- One round over the slots of an array pattern; a rest ends them, and a lone comma is a hole. -/
def slotRound (grammar : Grammar) (context : Context) (slots : List PatternSlot) :
    Parser (Round (List PatternSlot) (List PatternSlot × Option Pattern)) := do
  if ← nextIs .bracketClose then return .done (slots, none)
  if ← accept (.symbol .dotDotDot) then
    return .done (slots, some (← grammar.pattern context))
  if ← accept (.symbol .comma) then return .again (slots ++ [.hole])
  let target ← grammar.pattern context
  let default ← grammar.initializer context [.symbol .comma, .symbol .bracketClose]
  let slots := slots ++ [.slot target default]
  if ← accept (.symbol .comma) then return .again slots
  return .done (slots, none)

/-- The slots and the rest of an array pattern. -/
def patternSlots (grammar : Grammar) (context : Context) :
    Parser (List PatternSlot × Option Pattern) :=
  loop (grammar.slotRound context) []

/-- An array pattern. -/
def arrayPattern (grammar : Grammar) (context : Context) : Parser Pattern := do
  let (span, slots, rest) ← spanned do
    symbol .bracketOpen
    let found ← grammar.patternSlots context.allowIn
    symbol .bracketClose
    return found
  return .array span slots rest

/-- Any binding pattern. -/
def patternRule (grammar : Grammar) (context : Context) : Parser Pattern := do
  let token ← peek
  if token.kind = .symbol .braceOpen then
    grammar.objectPattern context
  else if token.kind = .symbol .bracketOpen then
    grammar.arrayPattern context
  else if token.kind.isBindable then
    let (span, name) ← bindingId
    return .id span name
  else
    fail (token.error (.expected "pattern"))

end Grammar

end Downlevel.Parser
