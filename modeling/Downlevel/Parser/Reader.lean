import Downlevel.Lexer
import Downlevel.Problem
import Downlevel.SyntaxError

/-! The reader hands tokens to the grammar, keeps those it looked ahead at, and can be set back. -/

namespace Downlevel

/-- A token that the lexer gives somewhere. -/
def Token.IsLexed (token : Token) : Prop :=
  ∃ mode here one, Lexer.lexNext mode here = .ok one ∧ token = one.token

/-- A token in the buffer, with the mode it was read in. -/
structure Buffered where
  token : Token
  mode : LexMode
  isLexed : token.IsLexed

/-- What reading a source keeps track of. -/
structure Reader where
  /-- The whole source. -/
  source : List Char
  /-- Where the lexer stands: behind the last token that it read, unless it was set back. -/
  lexer : Lexer.Cursor
  /-- More rounds than any loop of the grammar can make, since every round takes a token. -/
  limit : Nat
  /-- The tokens read so far; those from `next` on were only looked at. -/
  buffer : Array Buffered
  next : Nat
  reports : List Report
  /-- The legal comments seen so far, ordered by where they start. -/
  comments : List Lexer.LegalComment
  /-- Legal comments that start before this offset are dealt with. -/
  commentsUpTo : Nat

/-- A reading action. What it did to the reader stays when it fails. -/
abbrev Parser := EStateM ParseFailure Reader

namespace Reader

/-- A reader at the start of a source. -/
def ofString (source : String) : Reader where
  source := source.toList
  lexer := .ofString source
  limit := source.toList.length + 2
  buffer := #[]
  next := 0
  reports := []
  comments := []
  commentsUpTo := 0

/-- Sets the lexer to an offset of the source. -/
def setLexer (offset : Nat) (reader : Reader) : Except Text.Misread Reader := do
  return { reader with lexer := ⟨offset, ← Text.dropBytes offset reader.source⟩ }

/-- Forgets all tokens but the first ones, and sets the lexer to where the last of these ends. -/
def resetTo (count : Nat) (reader : Reader) : Except Text.Misread Reader :=
  let buffer := reader.buffer.take count
  let stop := (buffer.back?.map (·.token.span.stop)).getD 0
  { reader with buffer, next := count }.setLexer stop

/-- Forgets the tokens ahead when the next one was read in another mode. -/
def inMode (mode : LexMode) (reader : Reader) : Except Text.Misread Reader :=
  match reader.buffer[reader.next]? with
  | some ahead => if ahead.mode = mode then .ok reader else reader.resetTo reader.next
  | none => .ok reader

/-- Reads one more token where the lexer stands. -/
def lexMore (mode : LexMode) (reader : Reader) : Except Text.Misread (Token × Reader) :=
  match read : Lexer.lexNext mode reader.lexer with
  | .error misread => .error misread
  | .ok one => .ok (one.token,
      { reader with
        lexer := one.next
        buffer := reader.buffer.push ⟨one.token, mode, mode, reader.lexer, one, read, rfl⟩
        comments := one.comments.foldl (fun found comment => Lexer.recordComment comment found)
          reader.comments })

/-- The next token in the mode, and the reader with that token in its buffer. -/
def look (mode : LexMode) (reader : Reader) : Except Text.Misread (Token × Reader) := do
  let reader ← reader.inMode mode
  match reader.buffer[reader.next]? with
  | some ahead => return (ahead.token, reader)
  | none => reader.lexMore mode

/-- Where the last token that was taken ends. -/
def lastEnd (reader : Reader) : Nat :=
  if reader.next = 0 then 0
  else (reader.buffer[reader.next - 1]?.map (·.token.span.stop)).getD 0

/-- Whether the token taken at the offset follows a comment that marks a call as pure. -/
def isPureAt (reader : Reader) (offset : Nat) : Bool :=
  ((reader.buffer.take reader.next).find? (·.token.span.start == offset)).any (·.token.afterPure)

end Reader

namespace Parser

/-- The reader as it is. No more tokens can be taken than there are in the buffer. -/
def reading : Parser Reader := do
  let reader ← get
  if reader.buffer.size < reader.next then throw .broken
  return reader

/-- Looks at the next token without taking it. A text that is read past its end, or from inside of a
character, stops everything. -/
def peekIn (mode : LexMode) : Parser Token := do
  match (← reading).look mode with
  | .ok (token, reader) =>
    set reader
    return token
  | .error _ => throw .broken

/-- Looks at the next token in standard mode. -/
def peek : Parser Token :=
  peekIn .standard

/-- Takes the next token. -/
def takeIn (mode : LexMode) : Parser Token := do
  let token ← peekIn mode
  modify fun reader => { reader with next := reader.next + 1 }
  return token

/-- Takes the next token in standard mode. -/
def take : Parser Token :=
  takeIn .standard

/-- A place to come back to: the tokens taken and the reports made. -/
structure Checkpoint where
  next : Nat
  reports : Nat

/-- Remembers the current place. -/
def checkpoint : Parser Checkpoint := do
  let reader ← get
  return ⟨reader.next, reader.reports.length⟩

/-- Goes back, and drops the reports of the attempt that is given up. -/
def restore (saved : Checkpoint) : Parser Unit :=
  modify fun reader =>
    { reader with next := saved.next, reports := reader.reports.take saved.reports }

/-- Looks at the next two tokens. -/
def peek2 : Parser (Token × Token) := do
  let saved ← checkpoint
  let first ← take
  let second ← take
  restore saved
  return (first, second)

/-- Looks at the next three tokens. -/
def peek3 : Parser (Token × Token × Token) := do
  let saved ← checkpoint
  let first ← take
  let second ← take
  let third ← take
  restore saved
  return (first, second, third)

/-- Stops with a syntax error. -/
def fail {α : Type} (error : SyntaxError) : Parser α :=
  throw (.malformed error)

/-- Takes the next token if it is of the kind, and tells whether it was. -/
def accept (kind : TokenKind) : Parser Bool := do
  let token ← peek
  if token.kind = kind then
    let _ ← take
    return true
  return false

/-- Takes the next token, which has to be of the kind. -/
def require (kind : TokenKind) : Parser Token := do
  let token ← take
  if token.kind = kind then return token
  fail (token.error (.tokenRequired kind))

/-- Takes the next token, which has to be the symbol. -/
def symbol (mark : Punctuator) : Parser Unit := do
  let _ ← require (.symbol mark)

/-- Takes the next token, which has to be the keyword. -/
def keyword (word : Keyword) : Parser Unit := do
  let _ ← require (.keyword word)

/-- Whether the next token is the symbol. -/
def nextIs (mark : Punctuator) : Parser Bool := do
  return (← peek).kind == .symbol mark

/-- Ends a statement: with a semicolon, or without one before a closing brace, at the end of the
source and before a line break. -/
def endStatement : Parser Unit := do
  let token ← peek
  if token.kind = .symbol .semicolon then
    let _ ← take
  else if token.kind = .symbol .braceClose ∨ token.kind = .eof ∨ token.afterLineBreak then
    return
  else
    fail (token.error (.expected "semicolon"))

/-- Where the last token that was taken ends. -/
def lastEnd : Parser Nat := do
  return (← reading).lastEnd

/-- Runs a parser and gives the span of all the tokens it took. -/
def spanned {α : Type} (inner : Parser α) : Parser (Span × α) := do
  let start := (← peek).span.start
  let result ← inner
  let stop := max (← lastEnd) start
  return (⟨start, stop⟩, result)

/-- Adds a report. -/
def report (problem : Problem) (span : Span) : Parser Unit :=
  modify fun reader => { reader with reports := reader.reports ++ [⟨problem, span⟩] }

/-- Runs a parser and gives its failure as a value. -/
def attempt {α : Type} (inner : Parser α) : Parser (Except ParseFailure α) := fun reader =>
  match inner reader with
  | .ok result reader => .ok (.ok result) reader
  | .error failure reader => .ok (.error failure) reader

/-- Whether a loop goes round again. -/
inductive Round (σ β : Type)
  | again (state : σ)
  | done (result : β)

/-- Goes round at most `fuel` times. -/
def iterate {σ β : Type} : (fuel : Nat) → (σ → Parser (Round σ β)) → σ → Parser β
  | 0, _, _ => throw .exhausted
  | fuel + 1, step, state => do
    match ← step state with
    | .again state => iterate fuel step state
    | .done result => return result

/-- Goes round until the step says it is done. -/
def loop {σ β : Type} (step : σ → Parser (Round σ β)) (state : σ) : Parser β := do
  iterate (← get).limit step state

/-- One round over items with commas between them. -/
def commaRound {α : Type} (close : Punctuator) (item : Parser α) (items : List α) :
    Parser (Round (List α) (List α)) := do
  if ← nextIs close then return .done items
  let next ← item
  let items := items ++ [next]
  if ← accept (.symbol .comma) then return .again items
  return .done items

/-- Items with commas between them up to a closing symbol, which is not taken. A comma may stand
behind the last item. -/
def commaList {α : Type} (close : Punctuator) (item : Parser α) : Parser (List α) :=
  loop (commaRound close item) []

/-- The legal comments between two offsets. -/
def commentsBetween (start stop : Nat) (comments : List Lexer.LegalComment) :
    List Lexer.LegalComment :=
  comments.filter fun comment => start ≤ comment.span.start && comment.span.start < stop

/-- The comment statements for the legal comments up to an offset that are not dealt with. -/
def takeComments (upTo : Nat) : Parser (List Stmt) :=
  modifyGet fun reader =>
    ((commentsBetween reader.commentsUpTo upTo reader.comments).map fun comment =>
        ⟨comment.span, .comment comment.text⟩,
      { reader with commentsUpTo := max reader.commentsUpTo upTo })

/-- Deals with the legal comments up to the last token taken, wherever the mark stood before. -/
def skipComments : Parser Unit := do
  let stop ← lastEnd
  modify fun reader => { reader with commentsUpTo := stop }

end Parser

end Downlevel
