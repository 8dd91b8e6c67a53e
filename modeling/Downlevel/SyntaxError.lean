import Downlevel.Diagnostic
import Downlevel.Token

/-! Syntax errors end the reading of a source; each has a cause with a stable code. -/

namespace Downlevel

/-- Why a source cannot be read. -/
inductive SyntaxFault
  | expectedNotFound
  /-- Some construct, described in words, should stand here. -/
  | expected (what : String)
  | invalidAssignmentTarget
  | lineBreakBeforeArrow
  | lineBreakAfterThrow
  | lineBreakInRegex
  | lineBreakInString
  | malformedNumber
  | tokenRequired (kind : TokenKind)
  | tryWithoutHandler
  | unexpectedEnd
deriving DecidableEq

namespace SyntaxFault

/-- The stable code of a fault. -/
def code : SyntaxFault → String
  | .expectedNotFound => "PS0001"
  | .expected _ => "PS0002"
  | .invalidAssignmentTarget => "PS0003"
  | .lineBreakBeforeArrow => "PS0004"
  | .lineBreakAfterThrow => "PS0005"
  | .lineBreakInRegex => "PS0006"
  | .lineBreakInString => "PS0007"
  | .malformedNumber => "PS0008"
  | .tokenRequired _ => "PS0009"
  | .tryWithoutHandler => "PS0010"
  | .unexpectedEnd => "PS0011"

/-- What a fault says to the user. -/
def message : SyntaxFault → String
  | .expectedNotFound => "expected token not found"
  | .expected what => "expected " ++ what
  | .invalidAssignmentTarget => "invalid assignment target"
  | .lineBreakBeforeArrow => "line terminator not allowed after arrow function parameters"
  | .lineBreakAfterThrow => "line terminator not allowed after `throw`"
  | .lineBreakInRegex => "line terminator not allowed in regex"
  | .lineBreakInString => "line terminator not allowed in string"
  | .malformedNumber => "malformed number literal"
  | .tokenRequired kind => "expected token " ++ kind.name
  | .tryWithoutHandler => "try statement has no catch or finally"
  | .unexpectedEnd => "unexpected end of input"

end SyntaxFault

/-- A fault with its place and, where one is to blame, the token found there. -/
structure SyntaxError where
  fault : SyntaxFault
  span : Span
  found : Option TokenKind := none
deriving DecidableEq

namespace SyntaxError

/-- The error as one line of text. -/
def message (error : SyntaxError) : String :=
  let found :=
    match error.found with
    | some kind => "Some(" ++ kind.name ++ ")"
    | none => "None"
  error.fault.message ++ " [token=" ++ found ++ "]"

/-- The error with the byte offsets it was found at. -/
def located (error : SyntaxError) : String :=
  error.message ++ " around loc [" ++ toString error.span.start ++ ":"
    ++ toString error.span.stop ++ "]"

/-- The error as a diagnostic; the token found is a note. -/
def diagnostic (error : SyntaxError) : Diagnostic where
  code := error.fault.code
  message := error.fault.message
  primary := error.span
  notes := error.found.toList.map fun kind => "found token: " ++ kind.name

end SyntaxError

/-- Why reading stopped. -/
inductive ParseFailure
  | malformed (error : SyntaxError)
  /-- The bound on the work was reached, or an invariant of the reader does not hold. No source may
  lead here. -/
  | exhausted
deriving DecidableEq

/-- Something was asked for that is not there: a token nobody took, or text outside a token. -/
abbrev ParseFailure.broken : ParseFailure :=
  .exhausted

/-- A token to blame for a fault. -/
def Token.error (token : Token) (fault : SyntaxFault) : SyntaxError :=
  ⟨fault, token.span, some token.kind⟩

end Downlevel
