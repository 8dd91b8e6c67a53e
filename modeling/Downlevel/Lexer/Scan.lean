import Downlevel.Text.Bytes
import Downlevel.Text.Classes
import Downlevel.Token

/-! Scanners move the lexer over a token, starting at its first character. Moves are measured in
bytes, and one that would not end between two characters of the source fails. -/

namespace Downlevel

/-- What a slash or a closing brace means depends on the place in the grammar. -/
inductive LexMode
  | standard
  /-- A slash opens a regular expression. -/
  | regex
  /-- The text goes on after a template substitution. -/
  | template
deriving DecidableEq

namespace Lexer

open Text

/-- A place in the source: the byte offset and the text from there on. -/
structure Cursor where
  offset : Nat
  rest : List Char
deriving DecidableEq

/-- The start of a text. -/
def Cursor.ofString (source : String) : Cursor :=
  ⟨0, source.toList⟩

/-- A part of the lexer, which moves on in the source. -/
abbrev Scanner := StateT Cursor (Except Misread)

namespace Scanner

/-- The text that is left. -/
def rest : Scanner (List Char) :=
  return (← get).rest

/-- The next character. -/
def peek : Scanner (Option Char) :=
  return (← rest).head?

/-- A character further on. -/
def peekAt (index : Nat) : Scanner (Option Char) :=
  return (← rest)[index]?

/-- Moves on by so many bytes. -/
def bump (count : Nat) : Scanner Unit := do
  let here ← get
  let rest ← dropBytes count here.rest
  set (⟨here.offset + count, rest⟩ : Cursor)

/-- Moves over the next character, if there is one. -/
def bumpChar : Scanner (Option Char) := do
  let some c ← peek | return none
  bump c.utf8Size
  return some c

/-- Moves over the character if it comes next, and tells whether it did. -/
def eat (c : Char) : Scanner Bool := do
  if (← peek) = some c then
    bump c.utf8Size
    return true
  return false

/-- Moves over all characters of a class. -/
def eatWhile (inClass : Char → Bool) : Scanner Unit := do
  bump (byteSize ((← rest).takeWhile inClass))

/-- The text from a place up to here. -/
def since (start : Cursor) : Scanner (List Char) := do
  takeBytes ((← get).offset - start.offset) start.rest

end Scanner

/-- The bytes that spell hexadecimal digits. -/
def isHexByte (byte : UInt8) : Bool :=
  ('0'.toUInt8 ≤ byte && byte ≤ '9'.toUInt8) || ('a'.toUInt8 ≤ byte && byte ≤ 'f'.toUInt8)
    || ('A'.toUInt8 ≤ byte && byte ≤ 'F'.toUInt8)

/-- The number of bytes of an identifier escape, four digits or any number of them in braces. -/
def escapeBytes? : List Char → Option Nat
  | '\\' :: 'u' :: '{' :: braced =>
    -- The braces must hold at least one digit and nothing else.
    let bytes := utf8 braced
    let digits := (bytes.takeWhile isHexByte).length
    if digits ≠ 0 ∧ bytes[digits]? = some '}'.toUInt8 then some (digits + 4) else none
  | '\\' :: 'u' :: body =>
    let digits := (utf8 body).take 4
    if digits.length = 4 ∧ digits.all isHexByte then some 6 else none
  | _ => none

/-- A word goes on over word characters and over all else outside ASCII but the line and
paragraph separators and the byte order mark. -/
def continuesWord (c : Char) : Bool :=
  isWordPart c || (!isAscii c && c != '\u2028' && c != '\u2029' && c != '\ufeff')

/-- A word is a keyword only when it is spelled without escapes. -/
def wordKind (text : List Char) : TokenKind :=
  if text.contains '\\' then
    .identifier
  else
    match Keyword.ofText? (String.ofList text) with
    | some word => .keyword word
    | none => .identifier

namespace Scanner

/-- Moves over an identifier escape, if there is one, and tells whether there was. -/
def eatEscape : Scanner Bool := do
  match escapeBytes? (← rest) with
  | some size =>
    bump size
    return true
  | none => return false

/-- Moves to the end of a word. -/
def nameTail : (fuel : Nat) → Scanner Unit
  | 0 => throw .endless
  | fuel + 1 => do
    eatWhile isWordPart
    match ← peek with
    | none => return
    | some c =>
      if c = '\\' then
        if ← eatEscape then nameTail fuel
      else if continuesWord c then
        bump c.utf8Size
        nameTail fuel

/-- Enough rounds for a loop in which every round but the last takes a character. -/
def rounds : Scanner Nat :=
  return (← rest).length + 1

/-- Moves over what opens a word, one character or a whole escape, and tells whether it is there. -/
def wordHead : Scanner Bool := do
  match ← peek with
  | none => return false
  | some c =>
    if c = '\\' then eatEscape
    else
      bump c.utf8Size
      return true

/-- An identifier or a keyword. -/
def word : Scanner TokenKind := do
  let start ← get
  if ← wordHead then
    nameTail (← rounds)
    return wordKind (← since start)
  else
    return .invalid

/-- A private name is a number sign and a word that starts without an escape. -/
def privateName : Scanner (Option TokenKind) := do
  bump 1
  let some c ← peek | return none
  if isAscii c && !isWordStart c then return some .invalid
  bump c.utf8Size
  nameTail (← rounds)
  return some .privateName

/-- Moves over the mark of an exponent, and tells whether there was one. -/
def exponentMark : Scanner Bool := do
  if ← eat 'e' then return true else eat 'E'

/-- The exponent of a decimal number. An exponent mark that ends the source is malformed. -/
def exponent : Scanner (Option TokenKind) := do
  if ← exponentMark then
    let some sign ← peek | return none
    if sign = '+' ∨ sign = '-' then bump 1
    eatWhile isDigit
  return some .number

/-- The fraction and exponent of a decimal number. -/
def fraction : Scanner (Option TokenKind) := do
  if ← eat '.' then eatWhile isDigit
  exponent

/-- A decimal number or integer literal, possibly starting at its point. -/
def number : Scanner (Option TokenKind) := do
  eatWhile isDigit
  if ← eat 'n' then return some .bigint
  fraction

/-- A number with a radix mark of two characters in front of its digits. -/
def radixNumber (isRadixDigit : Char → Bool) : Scanner TokenKind := do
  bump 2
  eatWhile isRadixDigit
  if ← eat 'n' then return .bigint else return .number

/-- The rest of a string after its opening quote. A line feed ends a string without being part of
it; a backslash takes the next character along. -/
def stringTail (quote : Char) : (fuel : Nat) → Scanner (Option TokenKind)
  | 0 => throw .endless
  | fuel + 1 => do
    let text ← rest
    match findByte? ['\\', '\n', quote] text with
    | none =>
      bump (byteSize text)
      return none
    | some stop =>
      bump stop
      let some c ← peek | return none
      if c = '\n' then
        return some .invalid
      else if c = '\\' then
        bump 1
        let some _ ← bumpChar | return none
        stringTail quote fuel
      else
        bump 1
        return some .string

/-- A string in the quotes that its first character gives. -/
def string : Scanner (Option TokenKind) := do
  let some quote ← bumpChar | return none
  stringTail quote (← rounds)

/-- Template text up to the closing backtick or the next substitution. -/
def templateText : (fuel : Nat) → Scanner (Option TokenKind)
  | 0 => throw .endless
  | fuel + 1 => do
    let text ← rest
    match findByte? ['\\', '`', '$'] text with
    | none =>
      bump (byteSize text)
      return none
    | some stop =>
      bump stop
      let some c ← bumpChar | return none
      if c = '\\' then
        let some _ ← bumpChar | return none
        templateText fuel
      else if c = '`' then
        return some .templateEnd
      else if ← eat '{' then
        return some .templatePart
      else
        templateText fuel

/-- The rest of a regular expression after its opening slash, then its flags. Inside a class a
slash stands for itself, and a line feed is malformed everywhere. -/
def regexTail : (fuel : Nat) → (inClass : Bool) → Scanner (Option TokenKind)
  | 0, _ => throw .endless
  | fuel + 1, inClass => do
    let some c ← bumpChar | return none
    if c = '\n' then
      return some .invalid
    else if c = '\\' then
      let some escaped ← bumpChar | return none
      if escaped = '\n' then return some .invalid
      regexTail fuel inClass
    else if c = '[' then
      regexTail fuel true
    else if c = ']' then
      regexTail fuel false
    else if c = '/' ∧ ¬inClass then
      eatWhile isWordPart
      return some .regex
    else
      regexTail fuel inClass

/-- A regular expression. -/
def regex : Scanner (Option TokenKind) := do
  bump 1
  regexTail (← rounds) false

/-- The longest punctuator that comes next. -/
def punctuator : Scanner (Option TokenKind) := do
  match Punctuator.longest? (← rest) with
  | some mark =>
    bump (byteSize mark.text.toList)
    return some (.symbol mark)
  | none => return none

/-- The token at the start of a text that holds no leading trivia. -/
def significant (mode : LexMode) : Scanner (Option TokenKind) := do
  let some c ← peek | return none
  let second ← peekAt 1
  if c = '0' ∧ (second = some 'b' ∨ second = some 'B') then
    some <$> radixNumber isBinaryDigitOrSeparator
  else if c = '0' ∧ (second = some 'o' ∨ second = some 'O') then
    some <$> radixNumber isOctalDigitOrSeparator
  else if c = '0' ∧ (second = some 'x' ∨ second = some 'X') then
    some <$> radixNumber isHexDigitOrSeparator
  else if isDecimalDigit c ∨ (c = '.' ∧ second.any isDecimalDigit) then
    number
  else if c = '"' ∨ c = '\'' then
    string
  else if c = '`' then
    bump 1
    templateText (← rounds)
  else if c = '#' then
    privateName
  else if c = '/' ∧ mode = .regex then
    regex
  else if c = '?' ∧ second = some '.' ∧ (← peekAt 2).any isDecimalDigit then
    -- A digit after the point makes this a conditional and not a chain.
    bump 1
    return some (.symbol .question)
  else if c = '\\' ∨ !isAscii c ∨ isWordStart c then
    some <$> word
  else
    punctuator

end Scanner

end Lexer

end Downlevel
