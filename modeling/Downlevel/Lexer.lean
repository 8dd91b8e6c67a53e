import Downlevel.Lexer.Trivia

/-! The lexer cuts source text into tokens, one at a time and in a mode that the grammar gives. -/

namespace Downlevel

namespace Lexer

open Text

/-- Moves over what stands in front of a token. Template text starts where the lexer stands. -/
def Scanner.gap (mode : LexMode) : Scanner Skipped := do
  if mode = .template then return {} else skipTrivia (← rounds) {}

/-- Moves over what the mode makes of the text, or up to where it is malformed. -/
def Scanner.found (mode : LexMode) : Scanner (Option TokenKind) := do
  if mode = .template then templateText (← rounds)
  else if (← rest).isEmpty then return some .eof
  else significant mode

/-- Moves over a token, and gives its kind. An invalid token takes at least one character if there is
one, so that lexing goes on. -/
def Scanner.kind (mode : LexMode) : Scanner TokenKind := do
  let start ← get
  let kind := (← found mode).getD .invalid
  if kind = .invalid ∧ (← get).offset = start.offset then
    let _ ← bumpChar
  return kind

/-- Reads one token. Gives also the legal comments in front. -/
def Scanner.token (mode : LexMode) : Scanner (Token × List LegalComment) := do
  let skipped ← gap mode
  let start ← get
  let kind ← kind mode
  let stop := (← get).offset
  let text ← since start
  return (⟨kind, ⟨start.offset, stop⟩, String.ofList text, skipped.breaksLine, skipped.isPure⟩,
    skipped.comments)

/-- One step of the lexer: the token, the place behind it, and the legal comments in front. -/
structure Step where
  token : Token
  next : Cursor
  comments : List LegalComment

/-- Reads one token at a place. -/
def lexNext (mode : LexMode) (here : Cursor) : Except Misread Step := do
  let ((token, comments), next) ← (Scanner.token mode).run here
  return ⟨token, next, comments⟩

/-- What a whole run of the lexer yields. -/
structure Run where
  tokens : List Token
  comments : List LegalComment
  /-- What stopped the run before the end of the source. -/
  misread : Option Misread := none

/-- Puts one step in front of a run. -/
def Run.push (step : Step) (run : Run) : Run :=
  { run with
    tokens := step.token :: run.tokens
    comments := step.comments.foldr recordComment run.comments }

/-- A run that goes on behind the step unless its token is the end. -/
def Run.goOn (step : Except Misread Step) (more : Step → Run) : Run :=
  match step with
  | .error misread => ⟨[], [], misread⟩
  | .ok one => if one.token.kind = .eof then push one ⟨[], [], none⟩ else (more one).push one

/-- Reads tokens in standard mode through the end of the source, as long as the fuel allows. -/
def runStandard : (fuel : Nat) → Cursor → Run
  | 0, _ => ⟨[], [], some .endless⟩
  | fuel + 1, cursor => .goOn (lexNext .standard cursor) fun one => runStandard fuel one.next

/-- Reads tokens through the end of the source, one in each given mode and then in standard mode. -/
def runModes : List LexMode → Cursor → Run
  | [], cursor => runStandard (cursor.rest.length + 1) cursor
  | mode :: modes, cursor => .goOn (lexNext mode cursor) fun one => runModes modes one.next

/-- The tokens and legal comments of a source text. -/
def run (modes : List LexMode) (source : String) : Run :=
  runModes modes (.ofString source)

/-- The first token of a text in standard mode. -/
def first (text : String) : Token :=
  match lexNext .standard (.ofString text) with
  | .ok one => one.token
  | .error _ => ⟨.invalid, ⟨0, 0⟩, "", false, false⟩

end Lexer

end Downlevel
