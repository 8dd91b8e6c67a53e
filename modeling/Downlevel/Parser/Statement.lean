import Downlevel.Parser.Module

/-! Statements. -/

namespace Downlevel.Parser

/-- The word that declares block-scoped variables does so only in front of a binding. -/
def startsLetBinding (next : TokenKind) : Bool :=
  next == .symbol .bracketOpen || next == .symbol .braceOpen || next.isBindable

/-- The label behind a jump, on the same line, and the end of the statement. -/
def jumpLabel : Parser (Option String) := do
  let token ← peek
  if token.kind.isBindable && !token.afterLineBreak then
    let _ ← take
    endStatement
    return some token.text
  endStatement
  return none

/-- A statement from its parts, with its span. -/
def statement (inner : Parser StmtShape) : Parser Stmt := do
  let (span, shape) ← spanned inner
  return ⟨span, shape⟩

/-- A jump out of a statement. -/
def breakStmt : Parser Stmt :=
  statement do
    keyword .breakKw
    return .breakTo (← jumpLabel)

/-- A jump to the next round of a loop. -/
def continueStmt : Parser Stmt :=
  statement do
    keyword .continueKw
    return .continueTo (← jumpLabel)

/-- A stop for the debugger. -/
def debuggerStmt : Parser Stmt :=
  statement do
    keyword .debuggerKw
    endStatement
    return .debugger

/-- A lone semicolon. -/
def emptyStmt : Parser Stmt :=
  statement do
    symbol .semicolon
    return .empty

namespace Grammar

/-- A statement behind a label. -/
def labelStmt (grammar : Grammar) (context : Context) : Parser Stmt :=
  statement do
    let label ← take
    symbol .colon
    return .label label.text (← grammar.stmt context)

/-- Statements in braces. -/
def blockStmt (grammar : Grammar) (context : Context) : Parser Stmt := do
  let block ← grammar.block context
  return ⟨block.span, .block block.body⟩

/-- An expression as a statement. -/
def exprStmt (grammar : Grammar) (context : Context) : Parser Stmt :=
  statement do
    let value ← grammar.whole context [.symbol .semicolon]
    endStatement
    return .expr value

/-- A conditional statement. -/
def ifStmt (grammar : Grammar) (context : Context) : Parser Stmt :=
  statement do
    keyword .ifKw
    let test ← grammar.headExpr context
    let consequent ← grammar.stmt context
    if ← accept (.keyword .elseKw) then
      return .ifElse test consequent (← grammar.stmt context)
    return .ifThen test consequent

/-- A return; a line break behind the keyword ends it. -/
def returnStmt (grammar : Grammar) (context : Context) : Parser Stmt :=
  statement do
    keyword .returnKw
    let token ← peek
    if token.afterLineBreak || token.kind == .symbol .semicolon
        || token.kind == .symbol .braceClose || token.kind == .eof then
      endStatement
      return .return none
    let value ← grammar.whole context [.symbol .semicolon]
    endStatement
    return .return (some value)

/-- A throw; its value has to start on the same line. -/
def throwStmt (grammar : Grammar) (context : Context) : Parser Stmt :=
  statement do
    let word ← require (.keyword .throwKw)
    if (← peek).afterLineBreak then fail (word.error .lineBreakAfterThrow)
    let value ← grammar.whole context [.symbol .semicolon]
    endStatement
    return .throw value

/-- The parameter and the block of a handler, behind its keyword. -/
def handler (grammar : Grammar) (context : Context) : Parser (Option Pattern × Block) := do
  if ← accept (.symbol .parenthesisOpen) then
    let param ← grammar.pattern context
    symbol .parenthesisClose
    return (some param, ← grammar.block context)
  return (none, ← grammar.block context)

/-- A statement with a handler, a finalizer or both. -/
def tryStmt (grammar : Grammar) (context : Context) : Parser Stmt :=
  statement do
    let word ← require (.keyword .tryKw)
    let body ← grammar.block context
    if ← accept (.keyword .catchKw) then
      let (param, handler) ← grammar.handler context
      if ← accept (.keyword .finallyKw) then
        return .tryCatchFinally body param handler (← grammar.block context)
      return .tryCatch body param handler
    if ← accept (.keyword .finallyKw) then
      return .tryFinally body (← grammar.block context)
    fail (word.error .tryWithoutHandler)

/-- A loop with its test in front. -/
def whileStmt (grammar : Grammar) (context : Context) : Parser Stmt :=
  statement do
    keyword .whileKw
    let condition ← grammar.headExpr context
    return .while condition (← grammar.stmt context)

/-- A statement with the members of an object in scope. -/
def withStmt (grammar : Grammar) (context : Context) : Parser Stmt :=
  statement do
    keyword .withKw
    let object ← grammar.headExpr context
    return .with object (← grammar.stmt context)

/-- A loop with its test behind; the semicolon after it is optional everywhere. -/
def doWhileStmt (grammar : Grammar) (context : Context) : Parser Stmt :=
  statement do
    keyword .doKw
    let body ← grammar.stmt context
    keyword .whileKw
    let condition ← grammar.headExpr context
    let _ ← accept (.symbol .semicolon)
    return .doWhile condition body

/-- One branch of a switch. -/
def switchBranch (grammar : Grammar) (context : Context) : Parser SwitchBranch := do
  let (span, test, body) ← spanned do
    let test ←
      if ← accept (.keyword .caseKw) then
        some <$> grammar.whole context [.symbol .colon]
      else
        keyword .defaultKw
        pure none
    symbol .colon
    let body ← grammar.stmtList context
      [.keyword .caseKw, .keyword .defaultKw, .symbol .braceClose]
    return (test, body)
  return ⟨span, test, body⟩

/-- One round over the branches of a switch. -/
def branchRound (grammar : Grammar) (context : Context) (branches : List SwitchBranch) :
    Parser (Round (List SwitchBranch) (List SwitchBranch)) := do
  if ← nextIs .braceClose then return .done branches
  return .again (branches ++ [← grammar.switchBranch context])

/-- The branches of a switch up to its closing brace. -/
def switchBranches (grammar : Grammar) (context : Context) : Parser (List SwitchBranch) :=
  loop (grammar.branchRound context) []

/-- A switch. -/
def switchStmt (grammar : Grammar) (context : Context) : Parser Stmt :=
  statement do
    keyword .switchKw
    let test ← grammar.headExpr context
    symbol .braceOpen
    let branches ← grammar.switchBranches context
    symbol .braceClose
    return .switch test branches

/-- A loop over the keys or the items of a collection, behind its binding. -/
def forEachRest (grammar : Grammar) (context : Context) (start : Nat) (isAwait : Bool)
    (keyword : Option DeclKeyword) (binding : Pattern) : Parser Stmt := do
  let word ← take
  let isOf := word.kind == .keyword .ofKw
  let subject ←
    if isOf then grammar.element context [.symbol .parenthesisClose]
    else grammar.whole context [.symbol .parenthesisClose]
  symbol .parenthesisClose
  let body ← grammar.stmt context
  let span : Span := ⟨start, body.span.stop⟩
  if isOf then return ⟨span, .forOf isAwait keyword binding subject body⟩
  if isAwait then fail (word.error (.tokenRequired (.keyword .ofKw)))
  return ⟨span, .forIn keyword binding subject body⟩

/-- The test, the step and the body of a loop whose head starts with the given parts. -/
def forLoopRest (grammar : Grammar) (context : Context) (start : Span)
    (head : Option Expr → Option Expr → Stmt → StmtShape) : Parser Stmt := do
  symbol .semicolon
  let condition ←
    if ← nextIs .semicolon then pure none
    else some <$> grammar.whole context [.symbol .semicolon]
  symbol .semicolon
  let post ←
    if ← nextIs .parenthesisClose then pure none
    else some <$> grammar.whole context [.symbol .parenthesisClose]
  symbol .parenthesisClose
  let body ← grammar.stmt context
  return ⟨start.cover body.span, head condition post body⟩

/-- Whether the next word says what a loop over a collection runs over. -/
def forEachNext : Parser Bool := do
  let kind := (← peek).kind
  return kind == .keyword .ofKw || kind == .keyword .inKw

/-- A loop whose head starts with a declaration. -/
def forDeclaring (grammar : Grammar) (context : Context) (start : Span) (isAwait : Bool) :
    Parser Stmt := do
  let declStart := (← peek).span.start
  let keyword ← declKeyword
  let pattern ← grammar.pattern context.forbidIn
  if ← forEachNext then
    grammar.forEachRest context start.start isAwait (some keyword) pattern
  else
    let declarators ← grammar.declaratorsOf context.forbidIn pattern
    let declSpan : Span := ⟨declStart, ← lastEnd⟩
    grammar.forLoopRest context start (.forDecl declSpan keyword declarators)

/-- A loop whose head starts with an expression. -/
def forAssigning (grammar : Grammar) (context : Context) (start : Span) (isAwait : Bool) :
    Parser Stmt := do
  let value ← grammar.whole context.forbidIn [.symbol .semicolon]
  if ← forEachNext then
    match value.toPattern with
    | .error error => fail error
    | .ok target => grammar.forEachRest context start.start isAwait none target
  else
    grammar.forLoopRest context start (.forLoop (some value))

/-- Any loop that starts with its keyword for counting. -/
def forStmt (grammar : Grammar) (context : Context) : Parser Stmt := do
  let word ← require (.keyword .forKw)
  let isAwait ← accept (.keyword .awaitKw)
  symbol .parenthesisOpen
  let (first, second) ← peek2
  if first.kind = .keyword .varKw ∨ first.kind = .keyword .constKw
      ∨ (first.kind = .keyword .letKw ∧ startsLetBinding second.kind) then
    grammar.forDeclaring context word.span isAwait
  else if first.kind = .symbol .semicolon then
    grammar.forLoopRest context word.span (.forLoop none)
  else
    grammar.forAssigning context word.span isAwait

/-- Any statement. -/
def stmtRule (grammar : Grammar) (context : Context) : Parser Stmt := do
  let (first, second) ← peek2
  let sameLine := !second.afterLineBreak
  match first.kind with
  | .symbol .braceOpen => grammar.blockStmt context
  | .keyword .breakKw => breakStmt
  | .keyword .classKw => grammar.classDecl context
  | .keyword .constKw | .keyword .varKw => grammar.varDecl context
  | .keyword .continueKw => continueStmt
  | .keyword .debuggerKw => debuggerStmt
  | .keyword .doKw => grammar.doWhileStmt context
  | .keyword .exportKw => grammar.exportStmt context
  | .keyword .forKw => grammar.forStmt context
  | .keyword .functionKw => grammar.functionDecl context
  | .keyword .ifKw => grammar.ifStmt context
  | .keyword .returnKw => grammar.returnStmt context
  | .keyword .switchKw => grammar.switchStmt context
  | .keyword .throwKw => grammar.throwStmt context
  | .keyword .tryKw => grammar.tryStmt context
  | .keyword .whileKw => grammar.whileStmt context
  | .keyword .withKw => grammar.withStmt context
  | .symbol .semicolon => emptyStmt
  | kind =>
    if kind = .keyword .asyncKw ∧ second.kind = .keyword .functionKw ∧ sameLine then
      grammar.functionDecl context
    else if kind = .keyword .importKw ∧ second.kind ≠ .symbol .parenthesisOpen
        ∧ second.kind ≠ .symbol .dot then
      importStmt
    else if kind = .keyword .letKw ∧ startsLetBinding second.kind then
      grammar.varDecl context
    else if kind.isBindable ∧ second.kind = .symbol .colon then
      grammar.labelStmt context
    else
      grammar.exprStmt context

end Grammar

end Downlevel.Parser
