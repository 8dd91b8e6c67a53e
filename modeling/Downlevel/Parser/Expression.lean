import Downlevel.Parser.AssignmentTarget
import Downlevel.Parser.Literal
import Downlevel.Parser.Member

/-! Expressions: operands, and the operators, accesses and calls behind them. -/

namespace Downlevel.Parser

/-- The access of a named member, from its name on. -/
def memberAccess (object : Expr) (link : ChainLink) : Parser Expr := do
  let name ← take
  if !name.kind.isMemberName then fail (name.error (.expected "member name"))
  return Expr.of (object.span.cover name.span) (.member link object name.text)

/-- Tells that nullish coalescing and a logical operator meet without parentheses. -/
def reportAmbiguous (span : Span) (later earlier : Operator) : Parser Unit :=
  report (.ambiguousNullish later earlier) span

/-- The word behind a keyword and a dot, which has to be the given one. -/
def metaWord (word : String) : Parser Token := do
  let token ← require .identifier
  if token.text = word then return token
  fail (token.error (.expected ("`" ++ word ++ "`")))

/-- Tokens before which a yield has no operand, besides those that stop the expression. -/
def endsYield : TokenKind → Bool
  | .symbol .parenthesisClose | .symbol .bracketClose | .symbol .braceClose | .symbol .comma
  | .symbol .semicolon | .symbol .colon | .eof => true
  | _ => false

namespace Grammar

/-- The access of a computed member, from its key on. -/
def computedAccess (grammar : Grammar) (context : Context) (object : Expr) (link : ChainLink) :
    Parser Expr := do
  let key ← grammar.whole context.allowIn [.symbol .bracketClose]
  let close ← require (.symbol .bracketClose)
  return Expr.of (object.span.cover close.span) (.computed link object key)

/-- A yield behind its keyword. -/
def yieldExpr (grammar : Grammar) (context : Context) (stops : List TokenKind) (word : Token) :
    Parser Expr := do
  let isDelegated ← accept (.symbol .asterisk)
  let next ← peekIn .regex
  let hasOperand := !next.afterLineBreak && !stops.contains next.kind && !endsYield next.kind
  if hasOperand || isDelegated then
    let operand ← grammar.element context stops
    return Expr.of (word.span.cover operand.span) (.yield isDelegated (some operand))
  return Expr.of word.span (.yield isDelegated none)

/-- One round over the accesses and tags of a callee. -/
def calleeRound (grammar : Grammar) (context : Context) (callee : Expr) :
    Parser (Round Expr Expr) := do
  let token ← peek
  match token.kind with
  | .symbol .dot =>
    let _ ← take
    return .again (← memberAccess callee .plain)
  | .symbol .bracketOpen =>
    let _ ← take
    return .again (← grammar.computedAccess context callee .plain)
  | .templatePart | .templateEnd =>
    let _ ← take
    return .again (← grammar.taggedTemplate context callee token)
  | _ => return .done callee

/-- The accesses and tags that belong to the callee of a constructor call. -/
def calleeAccesses (grammar : Grammar) (context : Context) (callee : Expr) : Parser Expr :=
  loop (grammar.calleeRound context) callee

/-- A constructor call, or the target of one. The first arguments end the callee. -/
def newExpr (grammar : Grammar) (context : Context) : Parser Expr := do
  let word ← require (.keyword .newKw)
  if ← accept (.symbol .dot) then
    let name ← metaWord "target"
    return Expr.of (word.span.cover name.span) .newTarget
  let operand ← grammar.operand context []
  let callee ← grammar.calleeAccesses context operand
  if ← accept (.symbol .parenthesisOpen) then
    let args ← grammar.arguments context
    return Expr.of ⟨word.span.start, ← lastEnd⟩ (.new callee args)
  return Expr.of ⟨word.span.start, callee.span.stop⟩ (.new callee [])

/-- A dynamic import or the metadata of the module, behind the keyword. -/
def importExpr (grammar : Grammar) (context : Context) (word : Token) : Parser Expr := do
  if ← accept (.symbol .dot) then
    let name ← metaWord "meta"
    return Expr.of (word.span.cover name.span) .importMeta
  symbol .parenthesisOpen
  let module ← grammar.element context.allowIn [.symbol .parenthesisClose]
  let close ← require (.symbol .parenthesisClose)
  return Expr.of (word.span.cover close.span) (.importCall module)

/-- An operand that starts with the word for asynchronous functions, which is taken. -/
def asyncExpr (grammar : Grammar) (context : Context) (stops : List TokenKind)
    (start : Checkpoint) (word : Token) : Parser Expr := do
  let next ← peek
  if next.afterLineBreak then
    return Expr.id word.span word.text
  if next.kind = .keyword .functionKw then
    restore start
    grammar.functionExpr context
  else if next.kind = .symbol .equalsChevronRight then
    -- The word is the name of the parameter.
    restore start
    grammar.arrowExpr context stops
  else if next.kind = .symbol .parenthesisOpen ∨ next.kind.isBindable then
    restore start
    match ← grammar.arrowExpr? context stops with
    | some arrow => return arrow
    | none =>
      -- The word is taken once more, as a name.
      let _ ← take
      return Expr.id word.span word.text
  else
    return Expr.id word.span word.text

/-- An operand that starts with a parenthesis: an arrow function if it can be one. -/
def parenthesized (grammar : Grammar) (context : Context) (stops : List TokenKind) :
    Parser Expr := do
  match ← grammar.arrowExpr? context stops with
  | some arrow => return arrow
  | none => grammar.grouping context

/-- An operand that starts with a name, which is taken. -/
def nameExpr (grammar : Grammar) (context : Context) (stops : List TokenKind)
    (start : Checkpoint) (name : Token) : Parser Expr := do
  let next ← peek
  if next.kind = .symbol .equalsChevronRight ∧ !next.afterLineBreak then
    restore start
    grammar.arrowExpr context stops
  else
    return Expr.id name.span name.text

/-- An operand that no operator stands in front of; its first token is taken. -/
def primary (grammar : Grammar) (context : Context) (stops : List TokenKind)
    (start : Checkpoint) (token : Token) : Parser Expr := do
  match token.kind with
  | .keyword .newKw =>
    restore start
    grammar.newExpr context
  | .keyword .asyncKw => grammar.asyncExpr context stops start token
  | .symbol .parenthesisOpen =>
    restore start
    grammar.parenthesized context stops
  | .symbol .bracketOpen =>
    restore start
    grammar.arrayExpr context
  | .symbol .braceOpen =>
    restore start
    grammar.objectExpr context
  | .keyword .functionKw =>
    restore start
    grammar.functionExpr context
  | .keyword .classKw =>
    restore start
    grammar.classExpr context
  | .keyword .thisKw => return Expr.this token.span
  | .keyword .superKw => return Expr.of token.span .super
  | .keyword .importKw => grammar.importExpr context token
  | .keyword .nullKw => return Expr.null token.span
  | .keyword .trueKw => return Expr.bool token.span true
  | .keyword .falseKw => return Expr.bool token.span false
  | .number => return Expr.num token.span token.text
  | .bigint => return Expr.of token.span (.bigint (← bigintDigits token))
  | .string => return Expr.str token.span (← stringValue token)
  | .regex => return Expr.of token.span (.regex token.text)
  | .templatePart | .templateEnd => grammar.templateExpr context token
  -- The left side of a check for a private name.
  | .privateName => return Expr.id token.span token.text
  | .eof => fail (token.error .unexpectedEnd)
  | kind =>
    if kind.isBindable then grammar.nameExpr context stops start token
    else fail (token.error (.expected "expression operand"))

/-- An operand with the operators in front of it. -/
def operandRule (grammar : Grammar) (context : Context) (stops : List TokenKind) :
    Parser Expr := do
  let start ← checkpoint
  let token ← takeIn .regex
  match Operator.ofLeadingToken? token.kind with
  | some op =>
    let operand ← grammar.expr context Precedence.unary stops
    return Expr.unary (token.span.cover operand.span) op operand
  | none =>
    if token.kind = .keyword .yieldKw ∧ context.inGenerator then
      grammar.yieldExpr context stops token
    else
      grammar.primary context stops start token

/-- What is read so far of an expression, and whether it stands inside an optional chain. -/
structure Partial where
  left : Expr
  inChain : Bool

/-- The link of an access or call that carries no question mark of its own. -/
def Partial.link (soFar : Partial) : ChainLink :=
  if soFar.inChain then .continues else .plain

/-- A call behind its opening parenthesis. Only the first call after a mark is pure. -/
def callSuffix (grammar : Grammar) (context : Context) (callee : Expr) (link : ChainLink) :
    Parser Expr := do
  let isCall := match callee.shape with
    | .call .. => true
    | _ => false
  let isPure := !isCall && (← reading).isPureAt callee.span.start
  let args ← grammar.arguments context
  return Expr.of ⟨callee.span.start, ← lastEnd⟩ (.call link isPure callee args)

/-- A conditional behind its question mark. -/
def condSuffix (grammar : Grammar) (context : Context) (test : Expr) (stops : List TokenKind) :
    Parser Expr := do
  let consequent ← grammar.element context.allowIn [.symbol .colon]
  symbol .colon
  let alternate ← grammar.element context stops
  return Expr.cond (test.span.cover alternate.span) test consequent alternate

/-- An assignment behind its operator. -/
def assignSuffix (grammar : Grammar) (context : Context) (left : Expr) (op : Operator)
    (stops : List TokenKind) : Parser Expr := do
  match left.toTarget op with
  | .error failure => throw failure
  | .ok target =>
    let right ← grammar.element context stops
    return Expr.binary (target.span.cover right.span) op target right

/-- A binary operation behind its operator. A logical operator that meets nullish coalescing
without parentheses, on either side of it, is reported and read all the same. -/
def binarySuffix (grammar : Grammar) (context : Context) (left : Expr) (op : Operator)
    (token : Token) (level : Nat) (stops : List TokenKind) : Parser Expr := do
  let isLogical := op == .logicalAnd || op == .logicalOr
  if isLogical && level == Precedence.nullish + 1 then
    reportAmbiguous token.span op .nullishCoalescing
  let rightLevel := if op.associativity = .left then op.precedence + 1 else op.precedence
  let right ← grammar.expr context rightLevel stops
  let joined := Expr.binary (left.span.cover right.span) op left right
  if isLogical && level ≤ Precedence.nullish then
    let joined ← grammar.suffix context joined (Precedence.logicalOr + 1) stops
    let next ← peek
    if next.kind = .symbol .questionQuestion then
      reportAmbiguous next.span .nullishCoalescing op
    return joined
  return joined

/-- An operator between operands, if the token is one that binds tightly enough. -/
def infixRound (grammar : Grammar) (context : Context) (soFar : Partial) (level : Nat)
    (stops : List TokenKind) (token : Token) : Parser (Round Partial Expr) := do
  match Operator.ofInfixToken? token.kind with
  | none => return .done soFar.left
  | some op =>
    if op.precedence < level then return .done soFar.left
    let _ ← take
    let joined ←
      if op.isAssignment then grammar.assignSuffix context soFar.left op stops
      else grammar.binarySuffix context soFar.left op token level stops
    return .again ⟨joined, false⟩

/-- One round over what may stand behind an operand. -/
def suffixRound (grammar : Grammar) (context : Context) (level : Nat) (stops : List TokenKind)
    (soFar : Partial) : Parser (Round Partial Expr) := do
  let token ← peek
  if stops.contains token.kind then return .done soFar.left
  match token.kind with
  | .symbol .dot =>
    let _ ← take
    return .again ⟨← memberAccess soFar.left soFar.link, soFar.inChain⟩
  | .symbol .questionDot =>
    let _ ← take
    let next ← peek
    -- With a blank in front of them these are no links of a chain.
    if next.kind = .symbol .bracketOpen ∨ next.kind = .symbol .parenthesisOpen then
      fail (token.error (.expected "member name"))
    return .again ⟨← memberAccess soFar.left .opens, true⟩
  | .symbol .bracketOpen =>
    let _ ← take
    return .again ⟨← grammar.computedAccess context soFar.left soFar.link, soFar.inChain⟩
  | .symbol .questionDotBracketOpen =>
    let _ ← take
    return .again ⟨← grammar.computedAccess context soFar.left .opens, true⟩
  | .symbol .parenthesisOpen =>
    let _ ← take
    return .again ⟨← grammar.callSuffix context soFar.left soFar.link, soFar.inChain⟩
  | .symbol .questionDotParenthesisOpen =>
    let _ ← take
    return .again ⟨← grammar.callSuffix context soFar.left .opens, true⟩
  | .templatePart | .templateEnd =>
    let _ ← take
    return .again ⟨← grammar.taggedTemplate context soFar.left token, soFar.inChain⟩
  | .symbol .question =>
    if Precedence.conditional < level then return .done soFar.left
    let _ ← take
    return .again ⟨← grammar.condSuffix context soFar.left stops, false⟩
  | .symbol .plusPlus =>
    if token.afterLineBreak || Precedence.update < level then return .done soFar.left
    let _ ← take
    let span := soFar.left.span.cover token.span
    return .again ⟨Expr.of span (.update .postfixIncrement soFar.left), false⟩
  | .symbol .hyphenHyphen =>
    if token.afterLineBreak || Precedence.update < level then return .done soFar.left
    let _ ← take
    let span := soFar.left.span.cover token.span
    return .again ⟨Expr.of span (.update .postfixDecrement soFar.left), false⟩
  | .keyword .inKw =>
    if context.noIn then return .done soFar.left
    grammar.infixRound context soFar level stops token
  | _ => grammar.infixRound context soFar level stops token

/-- Everything behind an operand that binds at least as tightly as the level. -/
def suffixRule (grammar : Grammar) (context : Context) (left : Expr) (level : Nat)
    (stops : List TokenKind) : Parser Expr :=
  loop (grammar.suffixRound context level stops) ⟨left, false⟩

/-- An operand and everything behind it that binds at least as tightly as the level. -/
def exprRule (grammar : Grammar) (context : Context) (level : Nat) (stops : List TokenKind) :
    Parser Expr := do
  let operand ← grammar.operandRule context stops
  grammar.suffixRule context operand level stops

end Grammar

end Downlevel.Parser
