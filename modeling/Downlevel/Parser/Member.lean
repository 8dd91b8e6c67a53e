import Downlevel.Parser.Function

/-! Members of object literals and of classes. -/

namespace Downlevel.Parser

/-- What the words in front of a member make of it. -/
inductive MethodKind
  | method
  | getter
  | setter
deriving DecidableEq

/-- The words in front of a member key. -/
structure Modifiers where
  isAsync : Bool := false
  isGenerator : Bool := false
  kind : MethodKind := .method

/-- Only a member without such words can be a field. -/
def Modifiers.isPlain (modifiers : Modifiers) : Bool :=
  !modifiers.isAsync && !modifiers.isGenerator && modifiers.kind == .method

/-- Whether the token after the next one shows that the next one is itself the key. -/
def nextIsKey : Parser Bool := do
  let (_, after) ← peek2
  return after.kind ∈ [.symbol .parenthesisOpen, .symbol .equals, .symbol .semicolon,
    .symbol .braceClose, .symbol .comma, .symbol .colon, .eof]

/-- The word that makes a function asynchronous, on the same line as what follows. -/
def asyncModifier : Parser Bool := do
  if (← peek).kind != .keyword .asyncKw then return false
  if ← nextIsKey then return false
  let (_, after) ← peek2
  if after.afterLineBreak then return false
  let _ ← take
  return true

/-- The word that makes a method an accessor. -/
def accessorModifier : Parser MethodKind := do
  let kind := (← peek).kind
  if kind != .keyword .getKw && kind != .keyword .setKw then return .method
  if ← nextIsKey then return .method
  let _ ← take
  return if kind = .keyword .getKw then .getter else .setter

/-- The words in front of a member key. -/
def modifiers : Parser Modifiers := do
  let isAsync ← asyncModifier
  let isGenerator ← accept (.symbol .asterisk)
  let kind ← if isAsync || isGenerator then pure .method else accessorModifier
  return ⟨isAsync, isGenerator, kind⟩

/-- A member with such words has to be a function. -/
def requirePlain (modifiers : Modifiers) : Parser Unit := do
  if !modifiers.isPlain then
    fail ((← peek).error (.tokenRequired (.symbol .parenthesisOpen)))

namespace Grammar

/-- A method or an accessor, from its parameters on. -/
def methodValue (grammar : Grammar) (context : Context) (modifiers : Modifiers) :
    Parser MemberValue := do
  let func ← grammar.functionRest context modifiers.isAsync modifiers.isGenerator
  return match modifiers.kind with
    | .method => .method func
    | .getter => .getter func
    | .setter => .setter func

/-- A member of an object literal, still without its span. -/
def objectMemberContent (grammar : Grammar) (context : Context) : Parser (Span → ObjectMember) := do
  let stops := [TokenKind.symbol .comma, .symbol .braceClose]
  if ← accept (.symbol .dotDotDot) then
    let value ← grammar.element context stops
    return (.spread · value)
  let modifiers ← modifiers
  let keyToken ← peek
  let key ← grammar.key context
  if ← nextIs .parenthesisOpen then
    let value ← grammar.methodValue context modifiers
    return (.valued · key value)
  requirePlain modifiers
  if ← accept (.symbol .colon) then
    let value ← grammar.element context stops
    return (.valued · key (.field (some value)))
  if !keyToken.kind.isBindable then fail (keyToken.error (.expected "identifier"))
  if ← accept (.symbol .equals) then
    -- A default is an assignment here, and valid only once the literal is read as a pattern.
    let default ← grammar.element context stops
    let span := keyToken.span.cover default.span
    let value := Expr.assign span (Expr.id keyToken.span keyToken.text) default
    return (.valued · key (.field (some value)))
  return (.shorthand · keyToken.text)

/-- A member of an object literal, without the comma behind it. -/
def objectMember (grammar : Grammar) (context : Context) : Parser ObjectMember := do
  let (span, member) ← spanned (grammar.objectMemberContent context)
  return member span

/-- An object literal. -/
def objectExpr (grammar : Grammar) (context : Context) : Parser Expr := do
  let (span, members) ← spanned do
    symbol .braceOpen
    let members ← commaList .braceClose (grammar.objectMember context.allowIn)
    symbol .braceClose
    return members
  return Expr.of span (.object members)

/-- A static initialization block. Its key has no text and no width. -/
def staticBlock (grammar : Grammar) (context : Context) : Parser (Key × MemberValue) := do
  let (span, body) ← spanned (grammar.functionBody (context.generator false))
  return (.direct ⟨span.startPoint, "", .identifier⟩, .staticBlock ⟨span, body⟩)

/-- Whether the next word turns a field into one with generated accessors. -/
def accessorFieldNext : Parser Bool := do
  let (first, second) ← peek2
  if first.kind != .keyword .accessorKw || second.afterLineBreak then return false
  return !(← nextIsKey)

/-- The key and value of a class member that is no static block. -/
def classMemberContent (grammar : Grammar) (context : Context) : Parser (Key × MemberValue) := do
  let isAccessor ← accessorFieldNext
  if isAccessor then
    let _ ← take
  let modifiers ← if isAccessor then pure {} else modifiers
  let key ← grammar.key context
  if !isAccessor && (← nextIs .parenthesisOpen) then
    return (key, ← grammar.methodValue (context.generator false) modifiers)
  requirePlain modifiers
  let init ← grammar.initializer (context.allowIn.generator false)
    [.symbol .semicolon, .symbol .braceClose]
  endStatement
  return (key, if isAccessor then .accessor init else .field init)

/-- Whether the next word makes a member static. -/
def staticNext : Parser Bool := do
  if (← peek).kind != .keyword .staticKw then return false
  return !(← nextIsKey)

/-- A member of a class. -/
def classMember (grammar : Grammar) (context : Context) : Parser ClassMember := do
  let (span, isStatic, key, value) ← spanned do
    let isStatic ← staticNext
    if isStatic then
      let _ ← take
      if ← nextIs .braceOpen then
        return (true, ← grammar.staticBlock context)
    return (isStatic, ← grammar.classMemberContent context)
  return ⟨span, key, isStatic, value⟩

/-- One round over the members of a class; semicolons between them mean nothing. -/
def memberRound (grammar : Grammar) (context : Context) (members : List ClassMember) :
    Parser (Round (List ClassMember) (List ClassMember)) := do
  if ← nextIs .braceClose then return .done members
  if ← accept (.symbol .semicolon) then return .again members
  return .again (members ++ [← grammar.classMember context])

/-- The members of a class up to its closing brace. -/
def classMembers (grammar : Grammar) (context : Context) : Parser (List ClassMember) :=
  loop (grammar.memberRound context) []

/-- The name, heritage and members of a class, from its keyword on. -/
def classParts (grammar : Grammar) (context : Context) :
    Parser (Option String × Option Expr × List ClassMember) := do
  keyword .classKw
  let name ← bindingName?
  let heritage ←
    if ← accept (.keyword .extendsKw) then
      some <$> grammar.expr context Precedence.construction [.symbol .braceOpen]
    else
      pure none
  symbol .braceOpen
  let members ← grammar.classMembers context
  symbol .braceClose
  return (name, heritage, members)

/-- A class as an expression. -/
def classExpr (grammar : Grammar) (context : Context) : Parser Expr := do
  let (span, name, heritage, members) ← spanned (grammar.classParts context)
  return Expr.of span (.classExpr name heritage members)

end Grammar

end Downlevel.Parser
