import Downlevel.Text.Bytes
import Downlevel.Text.Classes

/-! String contents: decoding the escapes of a literal, and writing a text as a literal. -/

namespace Downlevel.Text

/-- The value of a digit in any radix up to sixteen. -/
def digitValue? (c : Char) : Option Nat :=
  if isDecimalDigit c then some (c.toNat - '0'.toNat)
  else if 'a' ≤ c && c ≤ 'f' then some (c.toNat - 'a'.toNat + 10)
  else if 'A' ≤ c && c ≤ 'F' then some (c.toNat - 'A'.toNat + 10)
  else none

/-- The value of digits read after those already read, unless one is no digit of the radix. -/
def digitsValue? (radix : Nat) : (soFar : Nat) → List Char → Option Nat
  | soFar, [] => some soFar
  | soFar, c :: rest =>
    match digitValue? c with
    | some digit => if digit < radix then digitsValue? radix (soFar * radix + digit) rest else none
    | none => none

/-- A number of at least one digit; one plus sign may stand in front of the digits. -/
def number? (radix : Nat) (text : List Char) : Option Nat :=
  let digits := if text.head? = some '+' then text.drop 1 else text
  if digits.isEmpty then none else digitsValue? radix 0 digits

/-- The character with the given code; codes of lone surrogates become the replacement character. -/
def charOrReplacement (code : Nat) : Char :=
  if code.isValidChar then Char.ofNat code else '\ufffd'

/-- What an escape stands for, and the size of what spells it behind the backslash. -/
structure Escape where
  size : Nat
  /-- A line continuation stands for nothing. -/
  decoded : Option Char
deriving DecidableEq

/-- The text between two byte offsets, and nothing where there is no such text. -/
def slice? (start stop : Nat) (text : List Char) : Option (List Char) := do
  let (_, behind) ← splitBytes? start text
  let (inside, _) ← splitBytes? (stop - start) behind
  return inside

/-- The low half of a surrogate pair, spelled by an escape behind the first four bytes. -/
def lowHalf? (text : List Char) : Option Nat := do
  match ← slice? 4 10 text with
  | '\\' :: 'u' :: digits =>
    let code ← number? 16 digits
    if 0xDC00 ≤ code && code ≤ 0xDFFF then some code else none
  | _ => none

/-- An escape of four digits. Two of them that form a surrogate pair decode to one character. -/
def decodeFourDigits? (text : List Char) : Option Escape := do
  let code ← number? 16 (← slice? 0 4 text)
  if 0xD800 ≤ code && code ≤ 0xDBFF then
    if let some low := lowHalf? text then
      return ⟨11, some (charOrReplacement (0x10000 + (code - 0xD800) * 0x400 + (low - 0xDC00)))⟩
  return ⟨5, some (charOrReplacement code)⟩

/-- An escape with its digits in braces, after the opening brace. -/
def decodeBraced (text : List Char) : Except Misread (Option Escape) := do
  let some stop := findByte? ['}'] text | return none
  let digits ← takeBytes stop text
  return do
    let code ← number? 16 digits
    if code ≤ 0x10FFFF then some ⟨stop + 3, some (charOrReplacement code)⟩ else none

/-- The bytes that spell octal digits. -/
def isOctalByte (byte : UInt8) : Bool :=
  '0'.toUInt8 ≤ byte && byte ≤ '7'.toUInt8

/-- Octal digits of a legacy escape. -/
def isOctalDigit (c : Char) : Bool :=
  '0' ≤ c && c ≤ '7'

/-- Decodes the escape after a backslash. Characters without a meaning of their own stand for
themselves. -/
def decodeEscape (text : List Char) : Except Misread (Option Escape) := do
  let some c := text.head? | return none
  if c = '\r' then
    -- A carriage return takes a line feed along.
    let behind ← dropBytes 1 text
    return some ⟨if behind.head? = some '\n' then 2 else 1, none⟩
  else if isLineTerminator c then
    return some ⟨c.utf8Size, none⟩
  else if c = 'b' then return some ⟨1, some '\x08'⟩
  else if c = 'f' then return some ⟨1, some '\x0c'⟩
  else if c = 'n' then return some ⟨1, some '\n'⟩
  else if c = 'r' then return some ⟨1, some '\r'⟩
  else if c = 't' then return some ⟨1, some '\t'⟩
  else if c = 'v' then return some ⟨1, some '\x0b'⟩
  else if isOctalDigit c then
    let size := (((utf8 text).take 3).takeWhile isOctalByte).length
    let digits ← takeBytes size text
    return (number? 8 digits).map fun code => ⟨size, some (charOrReplacement code)⟩
  else if c = 'x' then
    return ((slice? 1 3 text).bind (number? 16)).map fun code => ⟨3, some (charOrReplacement code)⟩
  else if c = 'u' then
    let behind ← dropBytes 1 text
    match behind with
    | '{' :: inner => decodeBraced inner
    | _ => return decodeFourDigits? behind
  else
    return some ⟨c.utf8Size, some c⟩

/-- Decodes a text in rounds, each of them up to and over the next escape. -/
def cookFrom : (fuel : Nat) → List Char → Except Misread (Option (List Char))
  | 0, _ => throw .endless
  | fuel + 1, text => do
    let some stop := findByte? ['\\'] text | return some text
    let plain ← takeBytes stop text
    let behind ← dropBytes (stop + 1) text
    let some escape ← decodeEscape behind | return none
    let rest ← dropBytes (stop + 1 + escape.size) text
    return (← cookFrom fuel rest).map fun later => plain ++ escape.decoded.toList ++ later

/-- The value of the raw contents of a string or template, or nothing when an escape is
malformed. -/
def cook (raw : String) : Except Misread (Option String) := do
  return (← cookFrom (raw.toList.length + 1) raw.toList).map String.ofList

/-- The value of the raw contents, if there is one. -/
def cook? (raw : String) : Option String :=
  (cook raw).toOption.join

/-- Upper-case hexadecimal digits. -/
def hexDigit (value : Nat) : Char :=
  if value < 10 then Char.ofNat ('0'.toNat + value) else Char.ofNat ('A'.toNat + value - 10)

/-- How one character is written inside double quotes, given the character that follows it. -/
def quoteChar (c : Char) (next : Option Char) : List Char :=
  if c = '\\' then ['\\', '\\']
  else if c = '"' then ['\\', '"']
  else if c = '\n' then ['\\', 'n']
  else if c = '\r' then ['\\', 'r']
  else if c = '\t' then ['\\', 't']
  else if c = '\x08' then ['\\', 'b']
  else if c = '\x0b' then ['\\', 'v']
  else if c = '\x0c' then ['\\', 'f']
  else if c = '\x00' then
    -- A digit after the short form would turn it into an octal escape.
    if next.any isDecimalDigit then ['\\', 'x', '0', '0'] else ['\\', '0']
  else if c = '\u2028' then ['\\', 'u', '2', '0', '2', '8']
  else if c = '\u2029' then ['\\', 'u', '2', '0', '2', '9']
  else if c < ' ' then ['\\', 'x', hexDigit (c.toNat / 16), hexDigit (c.toNat % 16)]
  else [c]

/-- The characters between the quotes of a string literal. -/
def quoteBody : List Char → List Char
  | [] => []
  | c :: rest => quoteChar c rest.head? ++ quoteBody rest

/-- A string literal with the given value. -/
def quote (value : String) : String :=
  String.ofList ('"' :: quoteBody value.toList ++ ['"'])

/-- Whether a name can stand as an identifier; all characters outside ASCII are allowed. -/
def isIdentifierName (name : String) : Bool :=
  match name.toList with
  | [] => false
  | c :: rest => (isWordStart c || !isAscii c) && rest.all fun d => isWordPart d || !isAscii d

end Downlevel.Text
