import Downlevel.Proofs.Lexing.Scanners

/-! Texts that are read as given tokens, whatever of the two modes outside templates is used. -/

namespace Downlevel

/-- What a token says apart from where it stands. -/
structure Lexeme where
  kind : TokenKind
  text : String
deriving DecidableEq

namespace Lexeme

/-- A punctuator. -/
def ofSymbol (mark : Punctuator) : Lexeme :=
  ⟨.symbol mark, mark.text⟩

/-- A keyword. -/
def ofKeyword (word : Keyword) : Lexeme :=
  ⟨.keyword word, word.text⟩

/-- A name as the lexer reads it by itself: an identifier, a keyword or a private name. -/
def ofName (name : String) : Lexeme :=
  ⟨(Lexer.first name).kind, name⟩

/-- A name is lexed as what it is. -/
theorem kind_ofName (name : String) : (ofName name).kind = (Lexer.first name).kind := by
  rw [ofName]

/-- The end of the source. -/
def eof : Lexeme :=
  ⟨.eof, ""⟩

/-- The modes that read a text as the token. Only a slash is read in another way where a regular
expression may stand. -/
def IsReadIn (lexeme : Lexeme) : LexMode → Prop
  | .standard => True
  | .regex => lexeme.kind ≠ .symbol .slash ∧ lexeme.kind ≠ .symbol .slashEquals
  | .template => False

/-- The token says this, without a mark for pure calls. A line break in front of it makes no
difference, except where an operator may stand behind its operand. -/
structure Matches (lexeme : Lexeme) (token : Token) : Prop where
  kind : token.kind = lexeme.kind
  text : token.text = lexeme.text
  unmarked : token.afterPure = false
  sameLine : lexeme.kind = .symbol .plusPlus ∨ lexeme.kind = .symbol .hyphenHyphen →
    token.afterLineBreak = false

/-- The text starts with the token, behind which more follows. -/
def Starts (lexeme : Lexeme) (text more : List Char) : Prop :=
  ∃ size, ∀ offset mode, lexeme.IsReadIn mode →
    lexeme.Matches (Lexer.step mode ⟨offset, text⟩).token
      ∧ (Lexer.step mode ⟨offset, text⟩).next = ⟨offset + size, more⟩
      ∧ (Lexer.step mode ⟨offset, text⟩).comments = []

end Lexeme

/-- The text is read as the tokens one after the other. -/
def Spells : List Char → List Lexeme → Prop
  | _, [] => True
  | text, lexeme :: rest => ∃ more, lexeme.Starts text more ∧ Spells more rest

namespace Lexer

open Text

/-- A character that neither is trivia nor starts any. -/
def isSolid (c : Char) : Bool :=
  !isLineTerminator c && !isBlank c && c != '/'

/-- No trivia stands in front of such a character. -/
theorem triviaPiece?_solid {c : Char} (solid : isSolid c = true) (rest : List Char) :
    triviaPiece? (c :: rest) = none := by
  simp only [isSolid, Bool.and_eq_true, Bool.not_eq_true', bne_iff_ne, ne_eq] at solid
  simp [triviaPiece?, solid]

/-- Where there is no trivia, a character other than the slash is the reason. -/
theorem isSolid_of_triviaPiece? {c : Char} {rest : List Char} (clear : triviaPiece? (c :: rest) = none)
    (noSlash : c ≠ '/') : isSolid c = true := by
  simp only [triviaPiece?] at clear
  split at clear
  · cases clear
  split at clear
  · cases clear
  simp_all [isSolid]

/-- Whether a character is passed over between tokens by itself. -/
def isSpace (c : Char) : Bool :=
  isBlank c || isLineTerminator c

/-- A space is a piece of trivia. -/
theorem triviaPiece?_space {c : Char} (space : isSpace c = true) (text : List Char) :
    triviaPiece? (c :: text) = some (if isLineTerminator c then .lineBreak c else .blank c) := by
  by_cases ends : isLineTerminator c = true
  · simp [triviaPiece?, ends]
  · have blank : isBlank c = true := by simpa [isSpace, ends] using space
    simp [triviaPiece?, ends, blank]

/-- A step passes over a space, and marks the line that it breaks. -/
theorem step_space {mode : LexMode} (outside : mode ≠ .template) {c : Char}
    (space : isSpace c = true) (offset : Nat) (text : List Char) :
    step mode ⟨offset, c :: text⟩
      = { step mode ⟨offset + c.utf8Size, text⟩ with
          token :=
            { (step mode ⟨offset + c.utf8Size, text⟩).token with
              afterLineBreak := isLineTerminator c
                || (step mode ⟨offset + c.utf8Size, text⟩).token.afterLineBreak } } := by
  have piece := triviaPiece?_space space text
  -- The pieces behind the first one are those of the shorter text, and it is no comment.
  by_cases ends : isLineTerminator c = true
  · simp [step, outside, leadingTrivia, piece, ends, Trivia.text, Cursor.advance, byteSize,
      Trivia.breaksLine, Trivia.comment?, legalComments, Nat.add_assoc]
  · simp [step, outside, leadingTrivia, piece, ends, Trivia.text, Cursor.advance, byteSize,
      Trivia.breaksLine, Trivia.comment?, legalComments, Nat.add_assoc]

/-- What a step finds at a place without trivia in front. -/
theorem step_solid {mode : LexMode} {text : List Char} (offset : Nat)
    (solid : triviaPiece? text = none) :
    step mode ⟨offset, text⟩
      = { token := ⟨(scan mode text).kind,
            ⟨offset, offset + byteSize (text.take (scan mode text).size)⟩,
            String.ofList (text.take (scan mode text).size), false, false⟩
          next := ⟨offset + byteSize (text.take (scan mode text).size),
            text.drop (scan mode text).size⟩
          comments := [] } := by
  -- Without a blank or a comment in front there are no trivia.
  have none : leadingTrivia text.length text = [] := by
    cases text with
    | nil => rfl
    | cons c rest => simp [leadingTrivia, solid]
  simp [step, none, Cursor.advance, byteSize, legalComments]

/-- Outside templates a text that is not empty starts with a significant token. -/
theorem scan_eq {mode : LexMode} (outside : mode ≠ .template) {c : Char} {rest : List Char}
    {found : Scan} (significant : significant mode (c :: rest) = found)
    (valid : found.kind ≠ .invalid) : scan mode (c :: rest) = found := by
  simp [scan, outside, significant, valid]

/-- A text that is written as a string literal is read as one in any mode. -/
theorem significant_quote (mode : LexMode) (value : String) (more : List Char) :
    significant mode ((quote value).toList ++ more) = ⟨.string, (quote value).toList.length⟩ := by
  -- The quote in front rules out all other kinds of tokens.
  have spelled : (quote value).toList = '"' :: (quoteBody value.toList ++ ['"']) := by
    simp [quote]
  have scanned := string_quote value more
  rw [spelled, List.cons_append] at scanned ⊢
  simpa [significant, isDecimalDigit] using scanned

/-- A text that is written as a string literal is the first token of whatever comes behind it, all of
it and nothing more, and the text between its quotes decodes to the one that was written. -/
theorem first_quote (value more : String) :
    first (quote value ++ more)
        = ⟨.string, ⟨0, byteSize (quote value).toList⟩, quote value, false, false⟩
      ∧ ∃ inside, inner? 1 1 (first (quote value ++ more)).text.toList = some inside
        ∧ cook? (String.ofList inside) = some value := by
  have whole : first (quote value ++ more)
      = ⟨.string, ⟨0, byteSize (quote value).toList⟩, quote value, false, false⟩ := by
    -- Neither a blank nor a comment starts with a quote.
    have solid : triviaPiece? ((quote value).toList ++ more.toList) = none := by
      rw [quote, String.toList_ofList]
      exact triviaPiece?_solid rfl _
    have scanned : scan .standard ((quote value).toList ++ more.toList)
        = ⟨.string, (quote value).toList.length⟩ := by
      have significant := significant_quote .standard value more.toList
      rw [quote, String.toList_ofList] at significant ⊢
      exact scan_eq (by decide) significant (by simp)
    rw [first_eq, Cursor.ofString, String.toList_append, step_solid 0 solid, scanned, List.take_left]
    simp
  refine ⟨whole, ?_⟩
  rw [whole]
  exact cook?_quote value

end Lexer

namespace Lexeme

open Lexer Text

variable {lexeme : Lexeme} {next : Char} {more : List Char}

/-- A text that is scanned as a token, without trivia in front, starts with it. -/
theorem starts_of_scan (nonempty : lexeme.text.toList ≠ [])
    (solid : triviaPiece? (lexeme.text.toList ++ more) = none) (valid : lexeme.kind ≠ .invalid)
    (scanned : ∀ mode, lexeme.IsReadIn mode →
      significant mode (lexeme.text.toList ++ more) = ⟨lexeme.kind, lexeme.text.toList.length⟩) :
    lexeme.Starts (lexeme.text.toList ++ more) more := by
  refine ⟨byteSize lexeme.text.toList, fun offset mode readIn => ?_⟩
  have outside : mode ≠ .template := by
    rintro rfl
    exact readIn
  -- What is scanned is the text of the lexeme, whatever comes behind it.
  have found : scan mode (lexeme.text.toList ++ more)
      = ⟨lexeme.kind, lexeme.text.toList.length⟩ := by
    have scanned := scanned mode readIn
    cases spelled : lexeme.text.toList with
    | nil => exact absurd spelled nonempty
    | cons c rest =>
      rw [spelled] at scanned
      exact scan_eq outside scanned valid
  rw [step_solid offset solid, found, List.take_left, List.drop_left]
  exact ⟨⟨rfl, String.ofList_toList, rfl, fun _ => rfl⟩, rfl, rfl⟩

/-- The same for a text whose first character decides that there is no trivia. -/
theorem starts_of_solid {c : Char} {rest : List Char} (spelled : lexeme.text.toList = c :: rest)
    (solid : isSolid c = true) (valid : lexeme.kind ≠ .invalid)
    (scanned : ∀ mode, lexeme.IsReadIn mode →
      significant mode (lexeme.text.toList ++ more) = ⟨lexeme.kind, lexeme.text.toList.length⟩) :
    lexeme.Starts (lexeme.text.toList ++ more) more := by
  refine starts_of_scan (by simp [spelled]) ?_ valid scanned
  rw [spelled]
  exact triviaPiece?_solid solid _

/-- A punctuator stands in front of what cannot belong to it. -/
theorem starts_symbol {mark : Punctuator} (ends : mark.endsBefore next = true)
    (noDigit : mark = .dot ∨ mark = .questionDot → isDecimalDigit next = false)
    (noComment : mark = .slash → next = ' ') (more : List Char) :
    (ofSymbol mark).Starts (mark.text.toList ++ next :: more) (next :: more) := by
  have solid : ∀ mark ∈ Punctuator.all,
      mark = .slash ∨ mark = .slashEquals ∨ mark.text.toList.head?.all isSolid = true := by
    decide +kernel
  refine starts_of_scan mark.text_ne_nil ?_
    (by simp [ofSymbol]) fun mode readIn => ?_
  · -- Only a slash may start a comment, and then a blank is behind it.
    rcases solid mark (Punctuator.mem_all mark) with rfl | rfl | solid
    · cases noComment rfl
      rfl
    · rfl
    · change triviaPiece? (mark.text.toList ++ next :: more) = none
      have nonempty := mark.text_ne_nil
      generalize mark.text.toList = text at solid nonempty
      cases text with
      | nil => exact absurd rfl nonempty
      | cons c rest => exact triviaPiece?_solid solid _
  · refine (significant_symbol ends noDigit ?_ more).trans ?_
    · rintro rfl
      exact ⟨fun same => readIn.1 (same ▸ rfl), fun same => readIn.2 (same ▸ rfl)⟩
    · rw [← String.length_toList]
      rfl

/-- Digits stand in front of what cannot belong to the number. -/
theorem starts_digits {text : String} (nonempty : text.toList ≠ [])
    (decimal : ∀ d ∈ text.toList, isDecimalDigit d = true) (ends : endsWord next = true)
    (noPoint : next ≠ '.') (more : List Char) :
    (⟨.number, text⟩ : Lexeme).Starts (text.toList ++ next :: more) (next :: more) := by
  obtain ⟨c, rest, spelled⟩ := List.exists_cons_of_ne_nil nonempty
  have solid : isSolid c = true := isDecimalDigit_elim (decimal c (by simp [spelled])) (by decide)
  exact starts_of_solid spelled solid (by simp) fun mode _ =>
    significant_digits mode nonempty decimal ends noPoint more

/-- A string literal stands in front of anything. -/
theorem starts_quote (value : String) (more : List Char) :
    (⟨.string, Text.quote value⟩ : Lexeme).Starts ((Text.quote value).toList ++ more) more := by
  have spelled : (Text.quote value).toList = '"' :: (quoteBody value.toList ++ ['"']) := by
    simp [Text.quote]
  exact starts_of_solid spelled rfl (by simp) fun mode _ => significant_quote mode value more

/-- A text that is one name as a whole is scanned from its first character to its last. -/
theorem scanned_of_whole {name : String} (whole : (first name).text = name)
    (named : (first name).kind.isMemberName = true) :
    ∃ c rest, name.toList = c :: rest ∧ triviaPiece? (c :: rest) = none
      ∧ (c = '#' ∧ privateName (c :: rest) = ⟨(first name).kind, (c :: rest).length⟩
        ∨ opensWord c = true ∧ word (c :: rest) = ⟨(first name).kind, (c :: rest).length⟩) := by
  have taken : (first name).text.toList = name.toList := by rw [whole]
  rw [first_eq, Cursor.ofString] at named taken ⊢
  cases spelled : name.toList with
  | nil =>
    rw [spelled] at named
    cases named
  | cons c rest =>
    rw [spelled] at named taken
    have solid : triviaPiece? (c :: rest) = none := by
      cases found : triviaPiece? (c :: rest) with
      | none => rfl
      | some piece =>
        -- A piece of trivia in front would be missing from the text of the token.
        have trivia : leadingTrivia (rest.length + 1) (c :: rest)
            = piece :: leadingTrivia rest.length ((c :: rest).drop piece.text.length) := by
          simp [leadingTrivia, found]
        have short := congrArg List.length taken
        have positive := triviaPiece?_nonempty found
        simp only [step, trivia, Cursor.advance, reduceCtorEq, if_false, List.flatMap_cons,
          List.length_append, String.toList_ofList, List.length_take, List.length_drop,
          List.length_cons] at short
        omega
    rw [step_solid 0 solid] at named taken ⊢
    have plain : scan .standard (c :: rest) = significant .standard (c :: rest) := by
      simp only [scan, reduceCtorEq, if_false, List.isEmpty_cons, Bool.false_eq_true] at named ⊢
      split at named
      · cases named
      · rename_i valid
        exact if_neg valid
    rw [plain] at named taken ⊢
    have reach : (c :: rest).length ≤ (significant .standard (c :: rest)).size := by
      have length := congrArg List.length taken
      simp only [String.toList_ofList, List.length_take] at length
      omega
    refine ⟨c, rest, rfl, solid, ?_⟩
    by_cases opens : opensWord c = true
    · rw [significant_word .standard opens] at reach ⊢
      have fits := word_size_le (c :: rest)
      exact .inr ⟨opens, by rw [← Nat.le_antisymm fits reach]⟩
    · by_cases marked : c = '#'
      · subst marked
        rw [significant_privateName] at reach ⊢
        have fits := privateName_size_le ('#' :: rest)
        exact .inl ⟨rfl, by rw [← Nat.le_antisymm fits reach]⟩
      · exact absurd named (by simp [significant_noName .standard (by simpa using opens) marked rest])

/-- A name stands in front of what cannot belong to it. -/
theorem starts_name {name : String} (whole : (first name).text = name)
    (named : (first name).kind.isMemberName = true) (ends : endsWord next = true)
    (more : List Char) : (ofName name).Starts (name.toList ++ next :: more) (next :: more) := by
  obtain ⟨c, rest, spelled, clear, scanned⟩ := scanned_of_whole whole named
  -- A name starts neither a comment nor a regular expression.
  have noSlash : c ≠ '/' := by
    rintro rfl
    rcases scanned with ⟨marked, -⟩ | ⟨opens, -⟩
    · exact absurd marked (by decide)
    · exact absurd opens (by decide)
  have valid : (ofName name).kind ≠ .invalid := by
    intro invalid
    rw [← kind_ofName, invalid] at named
    cases named
  refine starts_of_solid spelled (isSolid_of_triviaPiece? clear noSlash)
    valid fun mode _ => ?_
  rw [kind_ofName]
  change significant mode (name.toList ++ next :: more) = ⟨(first name).kind, name.toList.length⟩
  rw [spelled]
  -- It is a private name or a word, and ends where the name does.
  rcases scanned with ⟨rfl, marked⟩ | ⟨opens, word⟩
  · rw [List.cons_append, significant_privateName]
    exact privateName_append named marked ends more
  · rw [List.cons_append, significant_word mode opens]
    exact word_append (by simp) word ends more

end Lexeme

section Spells

variable {text more : List Char} {lexeme : Lexeme} {rest : List Lexeme}

/-- A space in front of the first token changes nothing, unless it breaks the line before an operator
that belongs to an operand in front of it. -/
theorem spells_space {c : Char} (space : Lexer.isSpace c = true)
    (sameLine : lexeme.kind = .symbol .plusPlus ∨ lexeme.kind = .symbol .hyphenHyphen →
      Text.isLineTerminator c = false)
    (spelled : Spells text (lexeme :: rest)) : Spells (c :: text) (lexeme :: rest) := by
  obtain ⟨more, ⟨size, starts⟩, later⟩ := spelled
  refine ⟨more, ⟨c.utf8Size + size, fun offset mode readIn => ?_⟩, later⟩
  have outside : mode ≠ .template := by
    rintro rfl
    exact readIn
  -- Outside of templates a space is skipped, and it breaks the line only where that is allowed.
  obtain ⟨own, behind, silent⟩ := starts (offset + c.utf8Size) mode readIn
  rw [Lexer.step_space outside space]
  refine ⟨⟨own.kind, own.text, own.unmarked, fun operator => ?_⟩, ?_, silent⟩
  · simp [sameLine operator, own.sameLine operator]
  · rw [behind, Nat.add_assoc]

/-- The line break at the end of a source is passed over. -/
theorem spells_lineBreak : Spells ['\n'] [.eof] := by
  refine ⟨[], ⟨1, fun offset mode readIn => ?_⟩, trivial⟩
  cases mode with
  | standard | regex =>
    exact ⟨⟨rfl, rfl, rfl, nofun⟩, rfl, rfl⟩
  | template => exact readIn.elim

end Spells

end Downlevel
