import Downlevel.Json
import Downlevel.Text.Escape

/-! Reading JSON text. -/

namespace Downlevel

namespace Json

/-- Whether a character may stand between the parts of a value. -/
def isBlank (c : Char) : Bool :=
  c == ' ' || c == '\n' || c == '\t' || c == '\r'

/-- A text without the blanks in front. -/
def skipBlanks (text : List Char) : List Char :=
  text.dropWhile isBlank

/-- The code that four hexadecimal digits spell. -/
def hexCode? : List Char → Option (Nat × List Char)
  | a :: b :: c :: d :: rest => (Text.digitsValue? 16 0 [a, b, c, d]).map (·, rest)
  | _ => none

/-- A part of a string: a character, or half of a surrogate pair. -/
abbrev Piece := Option Char

/-- What stands behind `\u`. The two halves of a pair are one character. -/
def unicodeEscape? (text : List Char) : Option (Piece × List Char) := do
  let (code, rest) ← hexCode? text
  if code < 0xD800 || 0xDFFF < code then return (some (Char.ofNat code), rest)
  let low? := if code < 0xDC00 then
      match rest with
      | '\\' :: 'u' :: rest => hexCode? rest
      | _ => none
    else none
  match low? with
  | some (low, after) =>
    if 0xDC00 ≤ low && low ≤ 0xDFFF then
      return (some (Char.ofNat (0x10000 + (code - 0xD800) * 0x400 + (low - 0xDC00))), after)
    else return (none, rest)
  | none => return (none, rest)

/-- What a backslash and the characters behind it stand for. -/
def escape? : List Char → Option (Piece × List Char)
  | '"' :: rest => some (some '"', rest)
  | '\\' :: rest => some (some '\\', rest)
  | '/' :: rest => some (some '/', rest)
  | 'b' :: rest => some (some '\x08', rest)
  | 'f' :: rest => some (some '\x0c', rest)
  | 'n' :: rest => some (some '\n', rest)
  | 'r' :: rest => some (some '\r', rest)
  | 't' :: rest => some (some '\t', rest)
  | 'u' :: rest => unicodeEscape? rest
  | _ => none

/-- The rest of a string through its closing quote. -/
def stringTail? : (fuel : Nat) → List Char → Option (List Piece × List Char)
  | 0, _ => none
  | _ + 1, [] => none
  | fuel + 1, c :: rest => do
    if c = '"' then return ([], rest)
    if c.toNat < 0x20 then none
    let (piece, rest) ← if c = '\\' then escape? rest else some (some c, rest)
    let (pieces, rest) ← stringTail? fuel rest
    return (piece :: pieces, rest)

/-- A string. It has no text when a half of a pair stands alone in it. -/
def string? (text : List Char) : Option (Option String × List Char) :=
  match text with
  | '"' :: rest => (stringTail? (rest.length + 1) rest).map fun (pieces, rest) =>
      ((pieces.mapM id).map String.ofList, rest)
  | _ => none

/-- At least one digit. -/
def digits? (text : List Char) : Option (List Char × List Char) :=
  match text.takeWhile Text.isDecimalDigit with
  | [] => none
  | digits => some (digits, text.dropWhile Text.isDecimalDigit)

/-- The part of a number in front of its point; no other digit follows a leading zero. -/
def wholePart? : List Char → Option (List Char × List Char)
  | '0' :: rest => if rest.head?.any Text.isDecimalDigit then none else some (['0'], rest)
  | text => digits? text

/-- The point of a number and the digits behind it, if there are any. -/
def fraction? : List Char → Option (List Char × List Char)
  | '.' :: rest => (digits? rest).map fun (digits, rest) => ('.' :: digits, rest)
  | text => some ([], text)

/-- The exponent of a number, if there is one. -/
def exponent? : List Char → Option (List Char × List Char)
  | mark :: rest =>
    if mark != 'e' && mark != 'E' then some ([], mark :: rest)
    else
      match rest with
      | '+' :: rest => (digits? rest).map fun (digits, rest) => (mark :: '+' :: digits, rest)
      | '-' :: rest => (digits? rest).map fun (digits, rest) => (mark :: '-' :: digits, rest)
      | rest => (digits? rest).map fun (digits, rest) => (mark :: digits, rest)
  | [] => some ([], [])

/-- A number. -/
def number? (text : List Char) : Option (String × List Char) := do
  let (sign, rest) := match text with
    | '-' :: rest => (['-'], rest)
    | text => ([], text)
  let (whole, rest) ← wholePart? rest
  let (fraction, rest) ← fraction? rest
  let (exponent, rest) ← exponent? rest
  return (String.ofList (sign ++ whole ++ fraction ++ exponent), rest)

/-- An object, if its fields have names. -/
def ofFields (fields : List (Option String × Json)) : Json :=
  match fields.mapM fun (name, value) => name.map (·, value) with
  | some fields => .object fields
  | none => .unpaired

mutual

/-- A value; every value inside another one takes a character more. -/
def value? : (fuel : Nat) → List Char → Option (Json × List Char)
  | 0, _ => none
  | fuel + 1, text =>
    match skipBlanks text with
    | 'n' :: 'u' :: 'l' :: 'l' :: rest => some (.null, rest)
    | 't' :: 'r' :: 'u' :: 'e' :: rest => some (.bool true, rest)
    | 'f' :: 'a' :: 'l' :: 's' :: 'e' :: rest => some (.bool false, rest)
    | '"' :: rest => (string? ('"' :: rest)).map fun (value, rest) =>
        ((value.map Json.string).getD .unpaired, rest)
    | '[' :: rest =>
      match skipBlanks rest with
      | ']' :: rest => some (.array [], rest)
      | rest => (items? fuel rest).map fun (items, rest) => (.array items, rest)
    | '{' :: rest =>
      match skipBlanks rest with
      | '}' :: rest => some (.object [], rest)
      | rest => (fields? fuel rest).map fun (fields, rest) => (ofFields fields, rest)
    | rest => (number? rest).map fun (text, rest) => (.number text, rest)

/-- The items of an array through its closing bracket. -/
def items? : (fuel : Nat) → List Char → Option (List Json × List Char)
  | 0, _ => none
  | fuel + 1, text => do
    let (item, rest) ← value? fuel text
    match skipBlanks rest with
    | ',' :: rest =>
      let (items, rest) ← items? fuel rest
      return (item :: items, rest)
    | ']' :: rest => return ([item], rest)
    | _ => none

/-- The fields of an object through its closing brace. -/
def fields? : (fuel : Nat) → List Char → Option (List (Option String × Json) × List Char)
  | 0, _ => none
  | fuel + 1, text => do
    let (name, rest) ← string? (skipBlanks text)
    match skipBlanks rest with
    | ':' :: rest =>
      let (value, rest) ← value? fuel rest
      match skipBlanks rest with
      | ',' :: rest =>
        let (fields, rest) ← fields? fuel rest
        return ((name, value) :: fields, rest)
      | '}' :: rest => return ([(name, value)], rest)
      | _ => none
    | _ => none

end

/-- The value that a text spells, if it spells one and nothing else. -/
def parse? (text : String) : Option Json := do
  let (value, rest) ← value? (2 * text.toList.length + 2) text.toList
  if (skipBlanks rest).isEmpty then return value else none

end Json

end Downlevel
