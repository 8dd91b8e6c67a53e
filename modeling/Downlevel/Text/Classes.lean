/-! Classes of characters: those that the lexical grammar is written in, and sets that are given by
ranges of codes. -/

namespace Downlevel.Text

/-- Codes from the first through the last of each pair. -/
abbrev CodeRanges := List (Nat × Nat)

/-- Whether a code is in one of the ranges, which are in order. -/
def CodeRanges.contains (code : Nat) : CodeRanges → Bool
  | [] => false
  | (first, last) :: rest =>
    if code < first then false else code ≤ last || CodeRanges.contains code rest

/-- Characters of the seven-bit range. -/
def isAscii (c : Char) : Bool :=
  c.val < 128

/-- Decimal digits. -/
def isDecimalDigit (c : Char) : Bool :=
  '0' ≤ c && c ≤ '9'

/-- Hexadecimal digits of either case. -/
def isHexDigit (c : Char) : Bool :=
  isDecimalDigit c || ('a' ≤ c && c ≤ 'f') || ('A' ≤ c && c ≤ 'F')

/-- A run of decimal digits may hold separators anywhere. -/
def isDigit (c : Char) : Bool :=
  isDecimalDigit c || c == '_'

/-- A run of binary digits may hold separators anywhere. -/
def isBinaryDigitOrSeparator (c : Char) : Bool :=
  c == '0' || c == '1' || c == '_'

/-- A run of octal digits may hold separators anywhere. -/
def isOctalDigitOrSeparator (c : Char) : Bool :=
  ('0' ≤ c && c ≤ '7') || c == '_'

/-- A run of hexadecimal digits may hold separators anywhere. -/
def isHexDigitOrSeparator (c : Char) : Bool :=
  isHexDigit c || c == '_'

/-- The letters, the dollar sign and the underscore start a word; so may any character that is
not ASCII, which the lexer decides apart from this class. -/
def isWordStart (c : Char) : Bool :=
  ('A' ≤ c && c ≤ 'Z') || ('a' ≤ c && c ≤ 'z') || c == '$' || c == '_'

/-- What may follow in a word: also digits and the two zero-width joiners. -/
def isWordPart (c : Char) : Bool :=
  isWordStart c || isDecimalDigit c || c == '\u200c' || c == '\u200d'

/-- Line terminators: line feed, carriage return and the two Unicode separators. -/
def isLineTerminator (c : Char) : Bool :=
  c == '\n' || c == '\r' || c == '\u2028' || c == '\u2029'

/-- Blanks other than line terminators: tab, vertical tab, form feed, space, no-break space and
the byte order mark. -/
def isBlank (c : Char) : Bool :=
  c == '\t' || c == '\x0b' || c == '\x0c' || c == ' ' || c == '\u00a0' || c == '\ufeff'

end Downlevel.Text
