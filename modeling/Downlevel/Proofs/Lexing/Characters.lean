import Downlevel.Lexer

/-! The lexer once more, with its moves counted in characters instead of bytes. A number of characters
never ends inside of one, so that nothing here can fail. -/

namespace Downlevel.Lexer

open Text

/-! ### How far a token reaches -/

/-- A token found at the start of a text: its kind and how many characters it takes. -/
structure Scan where
  kind : TokenKind
  size : Nat
deriving DecidableEq

namespace Scan

/-- The same token with more characters in front. -/
def extend (front : Nat) (scan : Scan) : Scan :=
  { scan with size := front + scan.size }

end Scan

/-- The size of an identifier escape, four digits or any number of them in braces. -/
def escapeSize? : List Char → Option Nat
  | '\\' :: 'u' :: '{' :: rest =>
    -- The braces must hold at least one digit and nothing else.
    let digits := (rest.takeWhile isHexDigit).length
    if digits ≠ 0 ∧ (rest.drop digits).head? = some '}' then some (digits + 4) else none
  | '\\' :: 'u' :: a :: b :: c :: d :: _ =>
    if isHexDigit a && isHexDigit b && isHexDigit c && isHexDigit d then some 6 else none
  | _ => none

/-- How far a word goes on; `pending` counts the characters left of an escape inside it. -/
def wordTail : (pending : Nat) → List Char → Nat
  | _, [] => 0
  | pending + 1, _ :: rest => wordTail pending rest + 1
  | 0, c :: rest =>
    if continuesWord c then
      wordTail 0 rest + 1
    else
      match escapeSize? (c :: rest) with
      | some size => wordTail (size - 1) rest + 1
      | none => 0

/-- How much of the text opens a word: one character, or a whole escape. -/
def wordHead? : List Char → Option Nat
  | [] => none
  | '\\' :: rest => escapeSize? ('\\' :: rest)
  | _ :: _ => some 1

/-- An identifier or a keyword. -/
def word (text : List Char) : Scan :=
  match wordHead? text with
  | none => ⟨.invalid, 0⟩
  | some head =>
    let size := head + wordTail 0 (text.drop head)
    ⟨wordKind (text.take size), size⟩

/-- A private name is a number sign and a word that starts without an escape. -/
def privateName : List Char → Scan
  | _ :: c :: rest =>
    if isAscii c && !isWordStart c then ⟨.invalid, 1⟩
    else ⟨.privateName, wordTail 0 rest + 2⟩
  | text => ⟨.invalid, text.length⟩

/-- The exponent of a decimal number; an exponent mark that ends the source is malformed. -/
def exponent : List Char → Scan
  | [] => ⟨.number, 0⟩
  | mark :: rest =>
    if mark == 'e' || mark == 'E' then
      match rest with
      | [] => ⟨.invalid, 1⟩
      | c :: digits =>
        if c == '+' || c == '-' then ⟨.number, (digits.takeWhile isDigit).length + 2⟩
        else ⟨.number, (rest.takeWhile isDigit).length + 1⟩
    else
      ⟨.number, 0⟩

/-- The fraction and exponent of a decimal number. -/
def fraction : List Char → Scan
  | '.' :: rest =>
    let digits := (rest.takeWhile isDigit).length
    (exponent (rest.drop digits)).extend (digits + 1)
  | text => exponent text

/-- A decimal number or integer literal, possibly starting at its point. -/
def number (text : List Char) : Scan :=
  let digits := (text.takeWhile isDigit).length
  let rest := text.drop digits
  if rest.head? = some 'n' then ⟨.bigint, digits + 1⟩ else (fraction rest).extend digits

/-- A number with a radix mark of two characters in front of its digits. -/
def radixNumber (isRadixDigit : Char → Bool) (text : List Char) : Scan :=
  let digits := ((text.drop 2).takeWhile isRadixDigit).length
  if (text.drop (digits + 2)).head? = some 'n' then ⟨.bigint, digits + 3⟩
  else ⟨.number, digits + 2⟩

/-- The rest of a string after its opening quote. A line feed ends a string without being part of
it; a backslash takes the next character along. -/
def stringTail (quote : Char) : List Char → Scan
  | [] => ⟨.invalid, 0⟩
  | c :: rest =>
    if c = quote then
      ⟨.string, 1⟩
    else if c = '\n' then
      ⟨.invalid, 0⟩
    else if c = '\\' then
      match rest with
      | [] => ⟨.invalid, 1⟩
      | _ :: rest => (stringTail quote rest).extend 2
    else
      (stringTail quote rest).extend 1

/-- A string in the quotes that its first character gives. -/
def string : List Char → Scan
  | [] => ⟨.invalid, 0⟩
  | quote :: rest => (stringTail quote rest).extend 1

/-- Template text up to the closing backtick or the next substitution. -/
def templateText : List Char → Scan
  | [] => ⟨.invalid, 0⟩
  | c :: rest =>
    if c = '`' then
      ⟨.templateEnd, 1⟩
    else if c = '\\' then
      match rest with
      | [] => ⟨.invalid, 1⟩
      | _ :: rest => (templateText rest).extend 2
    else if c = '$' ∧ rest.head? = some '{' then
      ⟨.templatePart, 2⟩
    else
      (templateText rest).extend 1

/-- The rest of a regular expression after its opening slash, then its flags. Inside a class a
slash stands for itself, and a line feed is malformed everywhere. -/
def regexTail : (inClass : Bool) → List Char → Scan
  | _, [] => ⟨.invalid, 0⟩
  | inClass, c :: rest =>
    if c = '\n' then
      ⟨.invalid, 1⟩
    else if c = '\\' then
      match rest with
      | [] => ⟨.invalid, 1⟩
      | escaped :: rest =>
        if escaped = '\n' then ⟨.invalid, 2⟩ else (regexTail inClass rest).extend 2
    else if c = '[' then
      (regexTail true rest).extend 1
    else if c = ']' then
      (regexTail false rest).extend 1
    else if c = '/' ∧ ¬inClass then
      ⟨.regex, (rest.takeWhile isWordPart).length + 1⟩
    else
      (regexTail inClass rest).extend 1

/-! ### What stands between tokens -/

/-- One piece of trivia and its text. -/
inductive Trivia
  | blank (c : Char)
  | lineBreak (c : Char)
  | lineComment (text : List Char)
  | blockComment (text : List Char)
deriving DecidableEq

namespace Trivia

/-- The characters of a piece of trivia. -/
def text : Trivia → List Char
  | .blank c | .lineBreak c => [c]
  | .lineComment text | .blockComment text => text

/-- The text of a comment. -/
def comment? : Trivia → Option (List Char)
  | .blank _ | .lineBreak _ => none
  | .lineComment text | .blockComment text => some text

/-- A line terminator breaks the line also from inside a block comment. -/
def breaksLine : Trivia → Bool
  | .blank _ | .lineComment _ => false
  | .lineBreak _ => true
  | .blockComment text => text.any isLineTerminator

end Trivia

/-- The size of a block comment after its opening, through its close or to the end of the text. -/
def blockCommentTail : List Char → Nat
  | [] => 0
  | c :: rest =>
    if c = '*' ∧ rest.head? = some '/' then 2 else blockCommentTail rest + 1

/-- The piece of trivia that starts the text, if any. -/
def triviaPiece? : List Char → Option Trivia
  | [] => none
  | c :: rest =>
    if isLineTerminator c then
      some (.lineBreak c)
    else if isBlank c then
      some (.blank c)
    else if c = '/' ∧ rest.head? = some '*' then
      some (.blockComment ((c :: rest).take (blockCommentTail (rest.drop 1) + 2)))
    else if c = '/' ∧ rest.head? = some '/' then
      -- Only the two plain line terminators end the comment, and neither is part of it.
      some (.lineComment ((c :: rest).takeWhile fun next => next != '\n' && next != '\r'))
    else
      none

/-- The trivia at the start of the text, as long as the fuel allows; the length of the text is
always enough, since every piece holds a character. -/
def leadingTrivia : (fuel : Nat) → List Char → List Trivia
  | 0, _ => []
  | fuel + 1, text =>
    match triviaPiece? text with
    | none => []
    | some piece => piece :: leadingTrivia fuel (text.drop piece.text.length)

/-- The legal comments among pieces of trivia that start at the offset. -/
def legalComments : (offset : Nat) → List Trivia → List LegalComment
  | _, [] => []
  | offset, piece :: rest =>
    let stop := offset + byteSize piece.text
    let later := legalComments stop rest
    match piece.comment? with
    | some text => if isLegal text then ⟨⟨offset, stop⟩, String.ofList text⟩ :: later else later
    | none => later

/-! ### One step -/

/-- The place some characters further on. -/
def Cursor.advance (cursor : Cursor) (count : Nat) : Cursor :=
  ⟨cursor.offset + byteSize (cursor.rest.take count), cursor.rest.drop count⟩

/-- The token at the start of a text that holds no leading trivia and is not empty. -/
def significant (mode : LexMode) (text : List Char) : Scan :=
  match text with
  | [] => ⟨.invalid, 0⟩
  | c :: rest =>
    let second := rest.head?
    if c = '0' ∧ (second = some 'b' ∨ second = some 'B') then
      radixNumber isBinaryDigitOrSeparator text
    else if c = '0' ∧ (second = some 'o' ∨ second = some 'O') then
      radixNumber isOctalDigitOrSeparator text
    else if c = '0' ∧ (second = some 'x' ∨ second = some 'X') then
      radixNumber isHexDigitOrSeparator text
    else if isDecimalDigit c ∨ (c = '.' ∧ second.any isDecimalDigit) then
      number text
    else if c = '"' ∨ c = '\'' then
      string text
    else if c = '`' then
      (templateText rest).extend 1
    else if c = '#' then
      privateName text
    else if c = '/' ∧ mode = .regex then
      (regexTail false rest).extend 1
    else if c = '?' ∧ second = some '.' ∧ (rest.drop 1).head?.any isDecimalDigit then
      -- A digit after the point makes this a conditional and not a chain.
      ⟨.symbol .question, 1⟩
    else if c = '\\' ∨ !isAscii c ∨ isWordStart c then
      word text
    else
      match Punctuator.longest? text with
      | some symbol => ⟨.symbol symbol, symbol.text.length⟩
      | none => ⟨.invalid, 0⟩

/-- The token at the start of a text in the mode. An invalid token takes a character if there is one,
so that lexing goes on. -/
def scan (mode : LexMode) (text : List Char) : Scan :=
  let found :=
    if mode = .template then templateText text
    else if text.isEmpty then ⟨.eof, 0⟩
    else significant mode text
  if found.kind = .invalid ∧ found.size = 0 then ⟨.invalid, min 1 text.length⟩ else found

/-- Reads one token. Template text starts where it stands, everything else after the trivia. -/
def step (mode : LexMode) (cursor : Cursor) : Step :=
  let trivia := if mode = .template then [] else leadingTrivia cursor.rest.length cursor.rest
  let start := cursor.advance (trivia.flatMap Trivia.text).length
  let found := scan mode start.rest
  let next := start.advance found.size
  { token :=
      { kind := found.kind
        span := ⟨start.offset, next.offset⟩
        text := String.ofList (start.rest.take found.size)
        afterLineBreak := trivia.any Trivia.breaksLine
        afterPure := (trivia.filterMap Trivia.comment?).any isPureMark }
    next
    comments := legalComments cursor.offset trivia }

end Downlevel.Lexer
