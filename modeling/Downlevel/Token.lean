import Downlevel.Span
import Downlevel.Token.Keyword
import Downlevel.Token.Punctuator

/-! Tokens are the words of the grammar, each with the text and the span it was read from. -/

namespace Downlevel

/-- What a token is. Malformed text is a token as well, so that looking ahead never fails. -/
inductive TokenKind
  | eof
  | invalid
  | symbol (mark : Punctuator)
  | keyword (word : Keyword)
  | identifier
  | privateName
  | number
  | bigint
  | regex
  | string
  /-- Template text up to an opening `${`. -/
  | templatePart
  /-- Template text up to the closing backtick. -/
  | templateEnd
deriving DecidableEq

namespace TokenKind

/-- The literal words are reported as literals and every other keyword under its own spelling. -/
def keywordName : Keyword → String
  | .falseKw => "LiteralFalse"
  | .nullKw => "LiteralNull"
  | .trueKw => "LiteralTrue"
  | word => "Keyword" ++ word.text.capitalize

/-- The name a kind of token is reported under. -/
def name : TokenKind → String
  | .eof => "EOF"
  | .invalid => "Invalid"
  | .symbol mark => mark.name
  | .keyword word => keywordName word
  | .identifier => "Identifier"
  | .privateName => "PrivateMember"
  | .number => "LiteralNumber"
  | .bigint => "LiteralBigInt"
  | .regex => "LiteralRegex"
  | .string => "LiteralString"
  | .templatePart => "LiteralTemplatePartString"
  | .templateEnd => "LiteralTemplatePartStringEnd"

/-- The keyword a token is, if any. -/
def keyword? : TokenKind → Option Keyword
  | .keyword word => some word
  | _ => none

/-- Keywords include the contextual ones and the literal words. -/
def isKeyword (kind : TokenKind) : Bool :=
  kind.keyword?.isSome

/-- Contextual keywords may name a variable. -/
def isUnreserved : TokenKind → Bool
  | .keyword word => word.isUnreserved
  | _ => false

/-- Identifiers and contextual keywords can be bound. -/
def isBindable : TokenKind → Bool
  | .identifier => true
  | kind => kind.isUnreserved

/-- What may follow a dot as the name of a member. -/
def isMemberName : TokenKind → Bool
  | .identifier | .privateName => true
  | kind => kind.isKeyword

end TokenKind

/-- A token with its text, and what stood between it and the token before. -/
structure Token where
  kind : TokenKind
  span : Span
  text : String
  /-- A line terminator stands before the token. -/
  afterLineBreak : Bool
  /-- A comment that annotates the next call as pure stands before the token. -/
  afterPure : Bool
deriving DecidableEq

end Downlevel
