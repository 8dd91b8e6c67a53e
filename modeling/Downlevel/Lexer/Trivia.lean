import Downlevel.Lexer.Scan
import Downlevel.Span

/-! Trivia is what may stand between tokens: blanks, line terminators and comments. -/

namespace Downlevel.Lexer

open Text

/-- A comment that has to stay in the output, with its span. -/
structure LegalComment where
  span : Span
  text : String
deriving DecidableEq

/-- Legal comments open with an exclamation mark or ask to be kept. -/
def isLegal (comment : List Char) : Bool :=
  startsWith "/*!".toList comment || startsWith "//!".toList comment
    || contains "@license".toList comment || contains "@preserve".toList comment

/-- A comment that marks the next call as free of side effects. -/
def isPureMark (comment : List Char) : Bool :=
  contains "@__PURE__".toList comment || contains "#__PURE__".toList comment

/-- Adds a comment to those found so far, ordered by where they start. A comment found again is
kept once. -/
def recordComment (comment : LegalComment) : List LegalComment → List LegalComment
  | [] => [comment]
  | first :: rest =>
    if comment.span.start < first.span.start then comment :: first :: rest
    else if comment.span.start = first.span.start then first :: rest
    else first :: recordComment comment rest

/-- What the trivia in front of a token tell, with the legal comments among them. -/
structure Skipped where
  breaksLine : Bool := false
  isPure : Bool := false
  comments : List LegalComment := []

namespace Skipped

/-- One more line terminator, if there is one. -/
def orBreaks (skipped : Skipped) (breaks : Bool) : Skipped :=
  { skipped with breaksLine := skipped.breaksLine || breaks }

/-- One more comment. -/
def andComment (skipped : Skipped) (span : Span) (text : List Char) : Skipped :=
  { skipped with
    isPure := skipped.isPure || isPureMark text
    comments := if isLegal text then skipped.comments ++ [⟨span, String.ofList text⟩]
      else skipped.comments }

end Skipped

namespace Scanner

/-- Takes down the comment between a place and here. -/
def recordSince (start : Cursor) (skipped : Skipped) : Scanner Skipped := do
  let stop := (← get).offset
  return skipped.andComment ⟨start.offset, stop⟩ (← since start)

/-- Moves over a block comment, which without a close goes on to the end of the source. -/
def blockComment (skipped : Skipped) : Scanner Skipped := do
  let start ← get
  let body ← dropBytes 2 start.rest
  let size := match findBytes? (utf8 ['*', '/']) (utf8 body) with
    | some index => index + 2
    | none => byteSize body
  let inside ← takeBytes size body
  bump (2 + size)
  recordSince start (skipped.orBreaks (inside.any isLineTerminator))

/-- Moves over a line comment. Only the two plain line terminators end it, and neither is part of
it. -/
def lineComment (skipped : Skipped) : Scanner Skipped := do
  let start ← get
  bump ((findByte? ['\n', '\r'] start.rest).getD (byteSize start.rest))
  recordSince start skipped

/-- Moves over all trivia. -/
def skipTrivia : (fuel : Nat) → Skipped → Scanner Skipped
  | 0, _ => throw .endless
  | fuel + 1, skipped => do
    match ← peek with
    | none => return skipped
    | some c =>
      if isLineTerminator c then
        bump c.utf8Size
        skipTrivia fuel (skipped.orBreaks true)
      else if isBlank c then
        bump c.utf8Size
        skipTrivia fuel skipped
      else if startsWith ['/', '*'] (← rest) then
        skipTrivia fuel (← blockComment skipped)
      else if startsWith ['/', '/'] (← rest) then
        skipTrivia fuel (← lineComment skipped)
      else
        return skipped

end Scanner

end Downlevel.Lexer
