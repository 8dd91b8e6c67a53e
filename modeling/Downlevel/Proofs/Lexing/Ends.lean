import Downlevel.Proofs.Lexing.Tiling
import Downlevel.Proofs.StringValues

/-! Where strings and words end. A string stops at the quote behind the escapes that are decoded, unless
a line continuation among them is a carriage return and a line feed. A word stops at every space but the
no-break space; the sign of a private name takes any character along that is not ASCII. -/

namespace Downlevel

namespace Lexer

open Text

section Strings

/-- The characters that strings are written between. -/
def IsQuote (c : Char) : Prop :=
  c = '"' ∨ c = '\''

/-- Whether a character can stand inside of a literal without ending it or escaping anything. -/
def Bare (quote c : Char) : Prop :=
  c ≠ quote ∧ c ≠ '\n' ∧ c ≠ '\\'

/-- The contents of a literal: bare characters, and escapes as far as they are decoded. Tells also
whether some line continuation is made of two characters. -/
inductive Contents (quote : Char) : (wraps : Bool) → List Char → Prop
  | nil : Contents quote false []
  | bare {wraps : Bool} {c : Char} {rest : List Char} :
    Bare quote c → Contents quote wraps rest → Contents quote wraps (c :: rest)
  | escape {wraps : Bool} {spelled rest : List Char} {decoded : Option Char} :
    escape? (spelled ++ rest) = some ⟨spelled.length, decoded⟩ → spelled ≠ ['\r', '\n'] →
      Contents quote wraps rest → Contents quote wraps ('\\' :: spelled ++ rest)
  | lineBreakPair {wraps : Bool} {rest : List Char} :
    Contents quote wraps rest → Contents quote true ('\\' :: '\r' :: '\n' :: rest)

variable {quote : Char} {wraps : Bool} {raw spelled rest : List Char} {decoded : Option Char}

/-- Most characters are bare, whatever the quotes. -/
theorem IsQuote.bare (isQuote : IsQuote quote) {c : Char} (other : c ∉ ['"', '\'', '\n', '\\']) :
    Bare quote c := by
  simp only [List.mem_cons, List.not_mem_nil, or_false, not_or] at other
  obtain ⟨noDouble, noSingle, noBreak, noBackslash⟩ := other
  rcases isQuote with rfl | rfl
  · exact ⟨noDouble, noBreak, noBackslash⟩
  · exact ⟨noSingle, noBreak, noBackslash⟩

/-- What is read as a number can stand inside of a literal. -/
theorem bare_of_number? (isQuote : IsQuote quote) {radix code : Nat} {digits : List Char}
    (found : number? radix digits = some code) : ∀ c ∈ digits, Bare quote c := by
  intro c mem
  rcases sign_or_digit_of_number? found mem with rfl | ⟨digit, isDigit, -⟩
  · exact isQuote.bare (by decide)
  · refine isQuote.bare fun isOther => ?_
    simp only [List.mem_cons, List.not_mem_nil, or_false] at isOther
    rcases isOther with rfl | rfl | rfl | rfl <;> cases isDigit

/-- How the scanner sees what is inside of an escape, behind its first character. Mostly it is bare, but
a line feed may come behind a carriage return, and another escape behind half of a surrogate pair. -/
inductive Inside (quote : Char) : (first : Char) → List Char → Prop
  | lineFeed : Inside quote '\r' ['\n']
  | bare {first : Char} {inside : List Char} : (∀ c ∈ inside, Bare quote c) → Inside quote first inside
  | surrogates {front back : List Char} :
    (∀ c ∈ front, Bare quote c) → (∀ c ∈ back, Bare quote c) →
      Inside quote 'u' (front ++ '\\' :: 'u' :: back)

/-- A number in braces is bare, and so are the braces. -/
theorem inside_of_bracedEscape? (isQuote : IsQuote quote) {escape : Escape}
    (found : bracedEscape? rest = some escape) :
    ∃ inside behind, '{' :: rest = inside ++ behind ∧ escape.size = inside.length + 1
      ∧ Inside quote 'u' inside := by
  obtain ⟨digits, more, code, rfl, read, small, rfl⟩ := bracedEscape?_eq_some_iff.mp found
  have bare := bare_of_number? isQuote read
  refine ⟨'{' :: digits ++ ['}'], more, by simp, by simp, .bare fun d mem => ?_⟩
  simp only [List.cons_append, List.mem_cons, List.mem_append, List.not_mem_nil, or_false] at mem
  rcases mem with rfl | mem | rfl
  · exact isQuote.bare (by decide)
  · exact bare d mem
  · exact isQuote.bare (by decide)

/-- Four digits are bare, and so are those of the other half of a pair. -/
theorem inside_of_fourDigitEscape? (isQuote : IsQuote quote) {escape : Escape}
    (found : fourDigitEscape? rest = some escape) :
    ∃ inside behind, rest = inside ++ behind ∧ escape.size = inside.length + 1
      ∧ Inside quote 'u' inside := by
  obtain ⟨digits, more, code, rfl, width, read, rfl⟩ := fourDigitEscape?_eq_some_iff.mp found
  have bare := bare_of_number? isQuote read
  -- Only the first half of a pair looks further, at an escape for the second half.
  generalize follows : (if 0xD800 ≤ code ∧ code ≤ 0xDBFF then lowSurrogate? more else none) = low
  cases low with
  | none => exact ⟨digits, more, rfl, by simp [unitEscape, width], .bare bare⟩
  | some low =>
    split_ifs at follows
    obtain ⟨other, behind, rfl, numeral, width', -⟩ := lowSurrogate?_eq_some_iff.mp follows
    have bare' := bare_of_number? isQuote ((number?_eq_some_iff numeral.unsigned).mpr numeral)
    exact ⟨digits ++ '\\' :: 'u' :: other, behind, by simp,
      by simp [unitEscape, width, width'], .surrogates bare bare'⟩

/-- Every escape that is decoded is of one of these forms. -/
theorem inside_of_escape? (isQuote : IsQuote quote) {text : List Char} {escape : Escape}
    (found : escape? text = some escape) :
    ∃ first inside behind, text = first :: inside ++ behind ∧ escape.size = inside.length + 1
      ∧ Inside quote first inside := by
  have single (c : Char) (rest : List Char) : ∃ first inside behind,
      c :: rest = first :: inside ++ behind ∧ 1 = inside.length + 1 ∧ Inside quote first inside :=
    ⟨c, [], rest, rfl, rfl, .bare nofun⟩
  cases text with
  | nil => cases found
  | cons c rest =>
    -- The character behind the backslash decides which escape it is.
    rcases firstCharacter_cases c with
      isBreak | ⟨value, known⟩ | isOctal | rfl | rfl | ⟨noBreak, noOctal, other⟩
    · obtain rfl := Option.some.inj ((escape?_lineBreak isBreak rest).symm.trans found)
      split_ifs with pair
      · obtain ⟨rfl, follows⟩ := pair
        obtain ⟨more, rfl⟩ := List.head?_eq_some_iff.mp follows
        exact ⟨_, ['\n'], more, rfl, rfl, .lineFeed⟩
      · exact single c rest
    · obtain rfl := Option.some.inj ((escape?_named known rest).symm.trans found)
      exact single c rest
    · rw [escape?_octal isOctal, Option.map_eq_some_iff] at found
      obtain ⟨code, read, rfl⟩ := found
      obtain ⟨behind, cut, -⟩ := octalDigits_spec (c :: rest)
      have bare := bare_of_number? isQuote read
      have starts : octalDigits (c :: rest) = c :: (rest.take 2).takeWhile isOctalDigit := by
        simp [octalDigits, isOctal]
      rw [starts] at cut bare ⊢
      exact ⟨c, _, behind, cut, rfl, .bare fun d mem => bare d (List.mem_cons_of_mem c mem)⟩
    · obtain ⟨digits, more, code, rfl, width, read, rfl⟩ := escape?_byte_eq_some_iff.mp found
      exact ⟨'x', digits, more, rfl, by simp [width], .bare (bare_of_number? isQuote read)⟩
    · by_cases brace : rest.head? = some '{'
      · obtain ⟨inside, rfl⟩ := List.head?_eq_some_iff.mp brace
        rw [escape?_codePoint] at found
        obtain ⟨text, behind, cut, size, shape⟩ := inside_of_bracedEscape? isQuote found
        exact ⟨'u', text, behind, congrArg ('u' :: ·) cut, size, shape⟩
      · rw [escape?_unit brace] at found
        obtain ⟨text, behind, cut, size, shape⟩ := inside_of_fourDigitEscape? isQuote found
        exact ⟨'u', text, behind, congrArg ('u' :: ·) cut, size, shape⟩
    · obtain rfl := Option.some.inj ((escape?_itself noBreak noOctal other rest).symm.trans found)
      exact single c rest

/-- The quotes are no backslash. -/
theorem IsQuote.ne_backslash (isQuote : IsQuote quote) : quote ≠ '\\' := by
  rcases isQuote with rfl | rfl <;> decide

/-- The scanner passes over an escape as it is decoded, unless it takes a line feed along. -/
theorem stringTail_escape (isQuote : IsQuote quote)
    (found : escape? (spelled ++ rest) = some ⟨spelled.length, decoded⟩)
    (single : spelled ≠ ['\r', '\n']) (more : List Char) :
    stringTail quote ('\\' :: spelled ++ more)
      = (stringTail quote more).extend (spelled.length + 1) := by
  obtain ⟨first, inside, behind, cut, size, shape⟩ := inside_of_escape? isQuote found
  obtain ⟨rfl, rfl⟩ := List.append_inj cut (by simpa using size)
  rw [List.cons_append, List.cons_append, stringTail_backslash isQuote.ne_backslash]
  cases shape with
  | lineFeed => exact absurd rfl single
  | bare bare =>
    rw [stringTail_bare bare]
    simp only [Scan.extend, List.length_cons, Scan.mk.injEq, true_and]
    omega
  | @surrogates front back inFront inBack =>
    -- The second backslash takes its own character along.
    rw [List.append_assoc, stringTail_bare inFront, List.cons_append, List.cons_append,
      stringTail_backslash isQuote.ne_backslash, stringTail_bare inBack]
    simp only [Scan.extend, List.length_cons, List.length_append, Scan.mk.injEq, true_and]
    omega

/-- The scanner reaches the closing quote behind the contents, or it stops at a line feed in them. -/
theorem stringTail_contents (isQuote : IsQuote quote) (contents : Contents quote wraps raw)
    (more : List Char) :
    if wraps then (stringTail quote (raw ++ quote :: more)).kind = .invalid
      else stringTail quote (raw ++ quote :: more) = ⟨.string, raw.length + 1⟩ := by
  -- By induction on the parts of the contents; only a wrapped line ends the literal early.
  induction contents with
  | nil =>
    rw [List.nil_append, stringTail.eq_def]
    simp
  | bare bare _ ih =>
    rw [List.cons_append, stringTail_cons bare]
    split_ifs at ih ⊢
    · exact ih
    · simp [ih, Scan.extend, Nat.add_comm]
  | escape found single _ ih =>
    rw [List.append_assoc, stringTail_escape isQuote found single]
    split_ifs at ih ⊢
    · exact ih
    · simp only [ih, Scan.extend, List.length_append, List.length_cons, Scan.mk.injEq, true_and]
      omega
  | lineBreakPair _ _ =>
    have other : '\n' ≠ quote := by rcases isQuote with rfl | rfl <;> decide
    rw [if_pos rfl, List.cons_append, List.cons_append, stringTail_backslash isQuote.ne_backslash,
      List.cons_append, stringTail.eq_def]
    simp [Scan.extend, other]

/-- Contents are decoded. -/
theorem Contents.cooks (contents : Contents quote wraps raw) : ∃ value, cookFrom? 0 raw = some value := by
  -- Each part is decoded on its own, whatever stands behind it.
  induction contents with
  | nil => exact ⟨[], rfl⟩
  | bare bare _ ih =>
    obtain ⟨value, cooked⟩ := ih
    exact ⟨_, by rw [cookFrom?_plain bare.2.2, cooked, Option.map_some]⟩
  | @escape _ spelled rest decoded found _ _ ih =>
    obtain ⟨value, cooked⟩ := ih
    refine ⟨decoded.toList ++ value, ?_⟩
    rw [List.cons_append, cookFrom?, if_pos rfl, found]
    simp [cookFrom?_pending spelled.length, cooked]
  | lineBreakPair _ ih =>
    obtain ⟨value, cooked⟩ := ih
    exact ⟨value, by simpa [cookFrom?, escape?] using cooked⟩

/-- A quote opens a string in every mode. -/
theorem significant_string (isQuote : IsQuote quote) (mode : LexMode) (rest : List Char) :
    significant mode (quote :: rest) = (stringTail quote rest).extend 1 := by
  rcases isQuote with rfl | rfl <;> simp [significant, isDecimalDigit, string]

/-- Contents are decoded. Between their quotes they are read as one token, whatever follows, exactly if
no line continuation in them is made of two characters. -/
theorem first_literal_iff (isQuote : IsQuote quote) (contents : Contents quote wraps raw)
    (more : List Char) :
    (∃ value, cook? (String.ofList raw) = some value)
      ∧ (first (String.ofList (quote :: raw ++ quote :: more))
          = ⟨.string, ⟨0, byteSize (quote :: raw ++ [quote])⟩, String.ofList (quote :: raw ++ [quote]),
            false, false⟩
        ↔ wraps = false) := by
  obtain ⟨value, cooked⟩ := contents.cooks
  refine ⟨⟨String.ofList value, by rw [cook?_eq, String.toList_ofList, cooked, Option.map_some]⟩, ?_⟩
  have solid : triviaPiece? (quote :: raw ++ quote :: more) = none := by
    refine triviaPiece?_solid ?_ _
    rcases isQuote with rfl | rfl <;> rfl
  have opens := significant_string isQuote .standard (raw ++ quote :: more)
  have reach := stringTail_contents isQuote contents more
  rw [first_eq, Cursor.ofString, String.toList_ofList, step_solid 0 solid, List.cons_append]
  cases wraps with
  | false =>
    -- The scanner takes the contents and both quotes.
    rw [if_neg Bool.false_ne_true] at reach
    rw [reach] at opens
    rw [scan_eq (by decide) opens (by simp [Scan.extend])]
    have taken : (quote :: (raw ++ quote :: more)).take (1 + (raw.length + 1))
        = quote :: (raw ++ [quote]) := by
      rw [List.append_cons, ← List.cons_append]
      exact List.take_left' (by simp [Nat.add_comm])
    simp [Scan.extend, taken]
  | true =>
    rw [if_pos rfl] at reach
    have invalid : (scan .standard (quote :: (raw ++ quote :: more))).kind = .invalid := by
      simp only [scan, opens, Scan.extend, reach]
      split_ifs <;> simp_all
    simp [invalid]

/-- A letter between double quotes, in front of a semicolon. -/
theorem first_literal_iff_letter :
    IsQuote '"' ∧ Contents '"' false ['a'] ∧ (∃ value, cook? "a" = some value)
      ∧ first "\"a\";" = ⟨.string, ⟨0, 3⟩, "\"a\"", false, false⟩ := by
  have isQuote : IsQuote '"' := .inl rfl
  have contents : Contents '"' false ['a'] := .bare (isQuote.bare (by decide)) .nil
  obtain ⟨cooks, reads⟩ := first_literal_iff isQuote contents [';']
  exact ⟨isQuote, contents, cooks, reads.mpr rfl⟩

end Strings

section Words

/-- All the characters that are passed over by themselves. -/
def spaces : List Char :=
  ['\t', '\x0b', '\x0c', ' ', '\u00a0', '\ufeff', '\n', '\r', '\u2028', '\u2029']

variable {c : Char} {text rest : List Char} {mode : LexMode}

/-- A space is one of the spaces. -/
theorem mem_spaces (space : isSpace c = true) : c ∈ spaces := by
  simpa [isSpace, isBlank, isLineTerminator, spaces, or_assoc] using space

/-- A class of characters without spaces. -/
theorem isSpace_eq_false {p : Char → Bool} (apart : (spaces.all fun space => !p space) = true)
    (holds : p c = true) : isSpace c = false := by
  refine Bool.eq_false_iff.mpr fun space => ?_
  have fails := List.all_eq_true.mp apart c (mem_spaces space)
  rw [holds] at fails
  cases fails

/-- No space but one goes on with a word. -/
theorem eq_noBreakSpace (goesOn : continuesWord c = true) (space : isSpace c = true) :
    c = '\u00a0' := by
  have others : (spaces.all fun c => !continuesWord c || c == '\u00a0') = true := by decide
  simpa [goesOn] using List.all_eq_true.mp others c (mem_spaces space)

/-- An escape holds no space. -/
theorem escapeSize?_noSpace {size : Nat} (found : escapeSize? text = some size) :
    ∀ c ∈ text.take size, isSpace c = false := by
  have isHex {c : Char} (hex : isHexDigit c = true) : isSpace c = false :=
    isSpace_eq_false (by decide) hex
  unfold escapeSize? at found
  split at found
  · rename_i rest
    dsimp only at found
    split_ifs at found with braces
    cases found
    -- The digits end at the closing brace.
    obtain ⟨behind, cut⟩ := List.takeWhile_prefix isHexDigit (l := rest)
    have hex : ∀ d ∈ rest.takeWhile isHexDigit, isHexDigit d = true :=
      fun d mem => List.all_eq_true.mp List.all_takeWhile d mem
    generalize rest.takeWhile isHexDigit = digits at braces cut hex
    subst cut
    rw [List.drop_left] at braces
    obtain ⟨tail, rfl⟩ := List.head?_eq_some_iff.mp braces.2
    have taken : ('\\' :: 'u' :: '{' :: (digits ++ '}' :: tail)).take (digits.length + 4)
        = '\\' :: 'u' :: '{' :: (digits ++ ['}']) := by
      simp [List.take_append, List.take_of_length_le]
    rw [taken]
    simp only [List.mem_cons, List.mem_append, List.not_mem_nil, or_false]
    rintro c (rfl | rfl | rfl | mem | rfl)
    · rfl
    · rfl
    · rfl
    · exact isHex (hex c mem)
    · rfl
  · split_ifs at found with digits
    cases found
    simp only [Bool.and_eq_true] at digits
    obtain ⟨⟨⟨first, second⟩, third⟩, fourth⟩ := digits
    simp only [List.take_succ_cons, List.take_zero, List.forall_mem_cons, List.not_mem_nil,
      false_implies, implies_true, and_true]
    exact ⟨rfl, rfl, isHex first, isHex second, isHex third, isHex fourth⟩
  · cases found

/-- As far as a word goes on, a no-break space is the only space. -/
theorem wordTail_spaces {pending : Nat} (escaped : ∀ c ∈ text.take pending, isSpace c = false) :
    ∀ c ∈ text.take (wordTail pending text), isSpace c = true → c = '\u00a0' := by
  -- What is left of an escape holds none, so that a space must be a character that goes on by itself.
  fun_induction wordTail pending text with
  | case1 => simp
  | case2 pending c rest ih =>
    rw [List.take_succ_cons, List.forall_mem_cons] at escaped ⊢
    exact ⟨fun space => absurd space (by simp [escaped.1]), ih escaped.2⟩
  | case3 c rest goesOn ih =>
    rw [List.take_succ_cons, List.forall_mem_cons]
    exact ⟨eq_noBreakSpace goesOn, ih (by simp)⟩
  | case4 c rest _ size found ih =>
    obtain ⟨-, positive, -⟩ := escapeSize?_append found []
    have clear := escapeSize?_noSpace found
    obtain ⟨before, rfl⟩ := Nat.exists_eq_succ_of_ne_zero (Nat.ne_of_gt positive)
    rw [List.take_succ_cons, List.forall_mem_cons] at clear ⊢
    exact ⟨fun space => absurd space (by simp [clear.1]), ih clear.2⟩
  | case5 => simp

/-- Nor does a word hold another space from its start on, unless it starts with one. -/
theorem word_spaces (solid : isSpace c = false) :
    ∀ d ∈ (c :: rest).take (word (c :: rest)).size, isSpace d = true → d = '\u00a0' := by
  unfold word
  split
  · simp
  · rename_i head opens
    -- A head is an escape or a single letter, neither of which holds a space.
    have start : ∀ d ∈ (c :: rest).take head, isSpace d = false := by
      by_cases escaped : c = '\\'
      · subst escaped
        exact escapeSize?_noSpace opens
      · rw [wordHead?.eq_3 c rest escaped] at opens
        cases opens
        simpa using solid
    dsimp only
    rw [List.take_add, List.forall_mem_append]
    exact ⟨fun d mem space => absurd space (by simp [start d mem]), wordTail_spaces (by simp)⟩

/-- A word is a keyword, spelled as such, or an identifier. -/
theorem wordKind_cases (text : List Char) :
    wordKind text = .identifier
      ∨ ∃ known : Keyword, wordKind text = .keyword known ∧ known.text.toList = text := by
  unfold wordKind
  split
  · exact .inl rfl
  · split
    · rename_i known found
      have spelled := List.find?_some (p := fun word : Keyword => word.text == String.ofList text) found
      exact .inr ⟨known, rfl, by rw [beq_iff_eq.mp spelled, String.toList_ofList]⟩
    · exact .inl rfl

/-- No keyword holds a space. -/
theorem keyword_noSpace (word : Keyword) : ∀ c ∈ word.text.toList, isSpace c = false := by
  have none : (word.text.toList.all fun c => !isSpace c) = true := by
    cases word <;> decide +kernel
  simpa using none

/-- Where a name may hold spaces: keywords nowhere, identifiers where they hold a no-break space, and
private names there and behind their sign. Nothing is said of other tokens. -/
def SpacedAs (kind : TokenKind) (text : List Char) : Prop :=
  match kind with
  | .keyword _ => ∀ c ∈ text, isSpace c = false
  | .identifier => ∀ c ∈ text, isSpace c = true → c = '\u00a0'
  | .privateName => ∃ c rest, text = '#' :: c :: rest ∧ (isSpace c = true → isAscii c = false)
      ∧ ∀ d ∈ rest, isSpace d = true → d = '\u00a0'
  | _ => True

/-- What is scanned as a name opens a word or is behind the sign of a private name. -/
theorem scan_name (named : (scan mode text).kind.isMemberName = true) :
    mode ≠ .template ∧ ∃ c rest, text = c :: rest
      ∧ (scan mode text = word text ∨ c = '#' ∧ scan mode text = privateName text) := by
  -- The repair of an empty token never yields a name.
  have plain : scan mode text = if mode = .template then templateText text
      else if text.isEmpty then ⟨.eof, 0⟩ else significant mode text := by
    unfold scan at named ⊢
    dsimp only at named ⊢
    generalize (if mode = .template then templateText text
      else if text.isEmpty then ⟨.eof, 0⟩ else significant mode text) = found at named ⊢
    split at named
    · cases named
    · rename_i valid
      rw [if_neg valid]
  rw [plain] at named ⊢
  -- A name is found by what it starts with, outside of templates.
  by_cases inside : mode = .template
  · rw [if_pos inside, templateText_noName] at named
    cases named
  rw [if_neg inside] at named ⊢
  refine ⟨inside, ?_⟩
  cases text with
  | nil => cases named
  | cons c rest =>
    refine ⟨c, rest, rfl, ?_⟩
    simp only [List.isEmpty_cons, Bool.false_eq_true, if_false] at named ⊢
    by_cases opens : opensWord c = true
    · exact .inl (significant_word mode opens rest)
    by_cases marked : c = '#'
    · subst marked
      exact .inr ⟨rfl, significant_privateName mode rest⟩
    · rw [significant_noName mode (by simpa using opens) marked rest] at named
      cases named

/-- Where no trivia is left, no space is. -/
theorem noSpace_of_triviaPiece? (clear : triviaPiece? (c :: rest) = none) : isSpace c = false := by
  refine Bool.eq_false_iff.mpr fun space => ?_
  rw [triviaPiece?_space space] at clear
  cases clear

/-- A word behind the trivia has spaces as its kind allows. -/
theorem word_spacedAs (solid : isSpace c = false) :
    SpacedAs (word (c :: rest)).kind ((c :: rest).take (word (c :: rest)).size) := by
  have spaces := @word_spaces c rest solid
  unfold word at spaces ⊢
  split at spaces
  · trivial
  · dsimp only at spaces ⊢
    generalize (c :: rest).take _ = taken at spaces ⊢
    rcases wordKind_cases taken with plain | ⟨known, kind, spelled⟩
    · rw [plain]
      exact spaces
    · rw [kind, ← spelled]
      exact keyword_noSpace known

/-- So has a private name. -/
theorem privateName_spacedAs :
    SpacedAs (privateName ('#' :: rest)).kind
      (('#' :: rest).take (privateName ('#' :: rest)).size) := by
  cases rest with
  | nil => trivial
  | cons c rest =>
    unfold privateName
    dsimp only
    split
    · trivial
    · rename_i starts
      refine ⟨c, rest.take (wordTail 0 rest), rfl, fun space => ?_, wordTail_spaces (by simp)⟩
      -- What starts a word inside of ASCII is no space.
      by_contra ascii
      have noSpace : isSpace c = false :=
        isSpace_eq_false (p := isWordStart) (by decide) (by simpa [ascii] using starts)
      rw [space] at noSpace
      cases noSpace

/-- A token that is scanned behind the trivia has spaces as its kind allows. -/
theorem scan_spacedAs (clear : mode ≠ .template → triviaPiece? text = none) :
    SpacedAs (scan mode text).kind (text.take (scan mode text).size) := by
  -- Only names are held to anything, and they are scanned as words.
  by_cases named : (scan mode text).kind.isMemberName = true
  · obtain ⟨outside, c, rest, rfl, word | ⟨rfl, marked⟩⟩ := scan_name named
    · rw [word]
      exact word_spacedAs (noSpace_of_triviaPiece? (clear outside))
    · rw [marked]
      exact privateName_spacedAs
  · -- Only names are asked for anything.
    unfold SpacedAs
    split
    · rename_i kind
      rw [kind] at named
      exact absurd rfl named
    · rename_i kind
      rw [kind] at named
      exact absurd rfl named
    · rename_i kind
      rw [kind] at named
      exact absurd rfl named
    · trivial

/-- Every token of a run is that of a step. -/
theorem exists_step_of_mem_runStandard {fuel : Nat} {here : Cursor} {token : Token}
    (read : token ∈ (runStandard fuel here).tokens) :
    ∃ mode place, token = (step mode place).token := by
  induction fuel generalizing here with
  | zero => cases read
  | succ fuel ih =>
    rw [runStandard_succ] at read
    split at read
    · obtain rfl := List.mem_singleton.mp read
      exact ⟨_, _, rfl⟩
    · rcases List.mem_cons.mp read with rfl | later
      · exact ⟨_, _, rfl⟩
      · exact ih later

/-- So it is where modes are given for the first tokens. -/
theorem exists_step_of_mem_runModes {modes : List LexMode} {here : Cursor} {token : Token}
    (read : token ∈ (runModes modes here).tokens) :
    ∃ mode place, token = (step mode place).token := by
  induction modes generalizing here with
  | nil => exact exists_step_of_mem_runStandard read
  | cons mode modes ih =>
    rw [runModes, lexNext_eq, Run.goOn] at read
    split at read
    · obtain rfl := List.mem_singleton.mp read
      exact ⟨_, _, rfl⟩
    · rcases List.mem_cons.mp read with rfl | later
      · exact ⟨_, _, rfl⟩
      · exact ih later

/-- Whatever source is read in whatever modes, spaces stand in its names only where they may. -/
theorem run_spacedAs (modes : List LexMode) (source : String) :
    ∀ token ∈ (run modes source).tokens, SpacedAs token.kind token.text.toList := by
  intro token read
  obtain ⟨mode, place, rfl⟩ := exists_step_of_mem_runModes read
  obtain ⟨gap, following, -, -, -, clear, kind, text, -, -, -⟩ := step_split mode place
  rw [kind, text]
  exact scan_spacedAs clear

/-- A no-break space is part of the name that it stands in. -/
theorem run_spacedAs_noBreak :
    let token : Token := ⟨.identifier, ⟨0, 4⟩, "a\u00a0b", false, false⟩
    token ∈ (run [] "a\u00a0b c").tokens ∧ SpacedAs token.kind token.text.toList := by
  intro token
  have read : token ∈ (run [] "a\u00a0b c").tokens := by decide +kernel
  exact ⟨read, run_spacedAs [] "a\u00a0b c" token read⟩

/-- The no-break space joins two words, and a line separator can be part of a private name. -/
example : (run [] "a\u00a0b #\u2028").tokens.map (fun token => (token.kind, token.text))
    = [(.identifier, "a\u00a0b"), (.privateName, "#\u2028"), (.eof, "")] := by decide +kernel

end Words

end Lexer

end Downlevel
