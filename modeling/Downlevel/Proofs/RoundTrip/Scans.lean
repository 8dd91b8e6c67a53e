import Downlevel.Proofs.Cooking
import Downlevel.Proofs.Lexing.Characters
import Mathlib.Tactic.IntervalCases
import Mathlib.Tactic.SplitIfs

/-! How far a token reaches when something follows that cannot belong to it. A text that is written as
a string literal is one token, and decoding it gives the text back. -/

namespace Downlevel

namespace Text

/-- A hexadecimal digit that is written has the value it was written for. -/
theorem digitValue?_hexDigit {value : Nat} (small : value < 16) :
    digitValue? (hexDigit value) = some value := by
  -- Sixteen digits, each looked up in the three ranges of the reader.
  rcases value with _ | _ | _ | _ | _ | _ | _ | _ | _ | _ | _ | _ | _ | _ | _ | _ | value
  all_goals first | rfl | omega

/-- Two digits that are written read back as the number they are the halves of. -/
theorem number?_hexDigits {code : Nat} (small : code < 256) :
    number? 16 [hexDigit (code / 16), hexDigit (code % 16)] = some code := by
  have high : code / 16 < 16 := by omega
  have low : code % 16 < 16 := by omega
  -- The digits are no sign, so the reading of a signed number does not apply and both digits count.
  have unsigned : hexDigit (code / 16) ≠ '+' := by
    intro same
    have value := digitValue?_hexDigit high
    have signless : digitValue? '+' = none := rfl
    rw [same, signless] at value
    cases value
  have whole : code / 16 * 16 + code % 16 = code := by omega
  simp [number?, unsigned, digitsValue?, digitValue?_hexDigit high, digitValue?_hexDigit low,
    high, low, whole]

/-- The character of a small code is the one with that code. -/
theorem charOrReplacement_toNat (c : Char) : charOrReplacement c.toNat = c := by
  have valid : c.toNat.isValidChar := c.valid
  simp [charOrReplacement, valid]

/-- An escape stands for what it decodes to. -/
theorem cookFrom?_escape {escaped more : List Char} {c : Char}
    (decodes : escape? (escaped ++ more) = some ⟨escaped.length, some c⟩) :
    cookFrom? 0 ('\\' :: escaped ++ more) = (cookFrom? 0 more).map (c :: ·) := by
  rw [List.cons_append, cookFrom?, if_pos rfl, decodes]
  simp [cookFrom?_pending escaped.length]

/-- A control character is written as an escape of two digits. -/
theorem escape?_hexDigits {c : Char} (control : c < ' ') (more : List Char) :
    escape? ('x' :: hexDigit (c.toNat / 16) :: hexDigit (c.toNat % 16) :: more)
      = some ⟨3, some c⟩ := by
  have small : c.toNat < 256 := Nat.lt_trans control (by decide)
  have size : ¬(more.length + 1 + 1 < 2) := by omega
  have digits := number?_hexDigits small
  simp [escape?, isLineTerminator, isOctalDigit, digits, charOrReplacement_toNat]

/-- The null character in its short form, where no octal digit follows. -/
theorem escape?_null {more : List Char} (bounded : ∀ d, more.head? = some d → isOctalDigit d = false) :
    escape? ('0' :: more) = some ⟨1, some '\x00'⟩ := by
  cases more with
  | nil => rfl
  | cons d rest =>
    have ends : isOctalDigit d = false := bounded d rfl
    have zero : isOctalDigit '0' = true := rfl
    simp [escape?, isLineTerminator, List.takeWhile, ends, zero]
    rfl

/-- Whether a character stands for itself between double quotes. -/
def isBare (c : Char) : Bool :=
  c != '"' && c != '\n' && c != '\\'

/-- A character stands in quotes as it is, unless it means something there. -/
theorem isBare_iff {c : Char} : isBare c = true ↔ c ≠ '"' ∧ c ≠ '\n' ∧ c ≠ '\\' := by
  simp [isBare, and_assoc]

/-- Digits of an escape stand for themselves. -/
theorem isBare_hexDigit {value : Nat} (small : value < 16) : isBare (hexDigit value) = true := by
  rcases value with _ | _ | _ | _ | _ | _ | _ | _ | _ | _ | _ | _ | _ | _ | _ | _ | value
  all_goals first | rfl | omega

/-- What stands behind the backslash of an escape for the character: a mark and bare digits that
decode to it, whatever follows. The short form of the null character must not meet a digit. -/
def IsEscapeFor (escaped : List Char) (c : Char) (next : Option Char) : Prop :=
  (∃ mark digits, escaped = mark :: digits ∧ ∀ d ∈ digits, isBare d = true) ∧
    ∀ more : List Char,
      (∀ d, more.head? = some d → isOctalDigit d = true → next.any isDecimalDigit = true) →
        escape? (escaped ++ more) = some ⟨escaped.length, some c⟩

/-- A character is written as an escape or as itself. -/
theorem quoteChar_form (c : Char) (next : Option Char) :
    (∃ escaped, quoteChar c next = '\\' :: escaped ∧ IsEscapeFor escaped c next)
      ∨ quoteChar c next = [c] ∧ isBare c = true := by
  -- The cases of the quoting, in its order: the short escapes, the separators, the null (whose
  -- escape depends on the digit after it), the other controls in two digits, and what stands bare.
  by_cases short : c ∈ ['\\', '"', '\n', '\r', '\t', '\x08', '\x0b', '\x0c']
  · simp only [List.mem_cons, List.not_mem_nil, or_false] at short
    rcases short with rfl | rfl | rfl | rfl | rfl | rfl | rfl | rfl
    all_goals exact .inl ⟨_, rfl, ⟨_, _, rfl, nofun⟩, fun _ _ => rfl⟩
  by_cases separator : c = '\u2028' ∨ c = '\u2029'
  · rcases separator with rfl | rfl
    all_goals exact .inl ⟨_, rfl, ⟨_, _, rfl, List.all_eq_true.mp rfl⟩, fun _ _ => rfl⟩
  simp only [List.mem_cons, List.not_mem_nil, or_false, not_or] at short separator
  by_cases null : c = '\x00'
  · subst null
    by_cases digit : next.any isDecimalDigit = true
    · exact .inl ⟨['x', '0', '0'], by simp [quoteChar, digit],
        ⟨_, _, rfl, List.all_eq_true.mp rfl⟩, fun _ _ => rfl⟩
    · refine .inl ⟨['0'], by simp [quoteChar, digit], ⟨_, _, rfl, nofun⟩, fun more heeded => ?_⟩
      exact escape?_null fun d head => Bool.eq_false_iff.mpr fun octal =>
        digit (heeded d head octal)
  by_cases control : c < ' '
  · have small : c.toNat < 32 := control
    refine .inl ⟨['x', hexDigit (c.toNat / 16), hexDigit (c.toNat % 16)],
      by simp [quoteChar, short, separator, null, control], ⟨_, _, rfl, ?_⟩,
      fun more _ => escape?_hexDigits control more⟩
    simp only [List.forall_mem_cons, List.not_mem_nil, false_implies, implies_true, and_true]
    exact ⟨isBare_hexDigit (by omega), isBare_hexDigit (by omega)⟩
  · exact .inr ⟨by simp [quoteChar, short, separator, null, control], by simp [isBare, short]⟩

/-- A character is written in a form that decodes to it. -/
theorem cookFrom?_quoteChar {c : Char} {next : Option Char} {more : List Char}
    (heeded : ∀ d, more.head? = some d → isOctalDigit d = true → next.any isDecimalDigit = true) :
    cookFrom? 0 (quoteChar c next ++ more) = (cookFrom? 0 more).map (c :: ·) := by
  rcases quoteChar_form c next with ⟨escaped, written, -, decodes⟩ | ⟨written, bare⟩
  · rw [written]
    exact cookFrom?_escape (decodes more heeded)
  · have plain : c ≠ '\\' := by
      simp only [isBare, Bool.and_eq_true, bne_iff_ne, ne_eq] at bare
      exact bare.2
    rw [written, List.cons_append, List.nil_append, cookFrom?, if_neg plain]

/-- Decoding what stands between the quotes of a literal gives the text back. -/
theorem cookFrom?_quoteBody (text : List Char) : cookFrom? 0 (quoteBody text) = some text := by
  induction text with
  | nil => rfl
  | cons c rest ih =>
    rw [quoteBody, cookFrom?_quoteChar, ih, Option.map_some]
    -- An octal digit behind the character is a character of the text that is written as it is.
    intro d head octal
    cases rest with
    | nil => cases head
    | cons next rest =>
      rcases quoteChar_form next rest.head? with ⟨escaped, written, -⟩ | ⟨written, -⟩
      · rw [quoteBody, written] at head
        cases head
        exact absurd octal (by decide)
      · rw [quoteBody, written] at head
        cases head
        simp only [isOctalDigit, Bool.and_eq_true, decide_eq_true_eq] at octal
        simpa [isDecimalDigit] using ⟨octal.1, Char.le_trans octal.2 (by decide)⟩

/-- A literal without its quotes decodes to its value. -/
theorem cook?_quote (value : String) :
    ∃ inside, inner? 1 1 (quote value).toList = some inside
      ∧ cook? (String.ofList inside) = some value := by
  refine ⟨quoteBody value.toList, ?_, by simp [cook?_eq, cookFrom?_quoteBody]⟩
  rw [quote, String.toList_ofList]
  exact inner?_append ['"'] (quoteBody value.toList) ['"']

end Text

namespace Lexer

open Text

/-- A character that stands for itself does not end a literal. -/
theorem stringTail_cons {quote c : Char} (bare : c ≠ quote ∧ c ≠ '\n' ∧ c ≠ '\\')
    (more : List Char) : stringTail quote (c :: more) = (stringTail quote more).extend 1 := by
  rw [stringTail.eq_def]
  simp [bare]

/-- Characters that stand for themselves do not end a literal. -/
theorem stringTail_bare {quote : Char} {text : List Char}
    (bare : ∀ c ∈ text, c ≠ quote ∧ c ≠ '\n' ∧ c ≠ '\\') (more : List Char) :
    stringTail quote (text ++ more) = (stringTail quote more).extend text.length := by
  induction text with
  | nil => simp [Scan.extend]
  | cons c rest ih =>
    obtain ⟨own, later⟩ := List.forall_mem_cons.mp bare
    rw [List.cons_append, stringTail_cons own, ih later]
    simp only [Scan.extend, List.length_cons, Scan.mk.injEq, true_and]
    omega

/-- Neither does the character behind a backslash. -/
theorem stringTail_backslash {quote : Char} (other : quote ≠ '\\') (c : Char) (more : List Char) :
    stringTail quote ('\\' :: c :: more) = (stringTail quote more).extend 2 := by
  rw [stringTail.eq_def]
  simp [other.symm]

/-- The form of a character does not end the literal it stands in. -/
theorem stringTail_quoteChar (c : Char) (next : Option Char) (more : List Char) :
    stringTail '"' (quoteChar c next ++ more)
      = (stringTail '"' more).extend (quoteChar c next).length := by
  rcases quoteChar_form c next with ⟨_, written, ⟨mark, digits, rfl, bare⟩, -⟩ | ⟨written, bare⟩
  · rw [written, List.cons_append, List.cons_append, stringTail_backslash (by decide),
      stringTail_bare fun d mem => isBare_iff.mp (bare d mem)]
    simp only [Scan.extend, List.length_cons, Scan.mk.injEq, true_and]
    omega
  · rw [written]
    exact stringTail_cons (isBare_iff.mp bare) more

/-- What stands between the quotes reaches up to the closing quote. -/
theorem stringTail_quoteBody (text more : List Char) :
    stringTail '"' (quoteBody text ++ '"' :: more) = ⟨.string, (quoteBody text).length + 1⟩ := by
  induction text with
  | nil =>
    rw [quoteBody, List.nil_append, stringTail.eq_def]
    simp
  | cons c rest ih =>
    rw [quoteBody, List.append_assoc, stringTail_quoteChar, ih]
    simp [Scan.extend, Nat.add_assoc]

/-- A literal in front of any text is one token. -/
theorem string_quote (value : String) (more : List Char) :
    string ((quote value).toList ++ more) = ⟨.string, (quote value).toList.length⟩ := by
  simp [quote, string, stringTail_quoteBody, Scan.extend, Nat.add_comm]

end Lexer

namespace Punctuator

/-- Whether no punctuator goes on with the character. -/
def endsBefore (mark : Punctuator) (next : Char) : Bool :=
  all.all fun longer => !(mark.text.toList ++ [next]).isPrefixOf longer.text.toList

/-- Every mark is one of all. -/
theorem mem_all (mark : Punctuator) : mark ∈ all := by
  cases mark <;> decide +kernel

/-- No punctuator is empty. -/
theorem text_ne_nil (mark : Punctuator) : mark.text.toList ≠ [] := by
  have every : ∀ mark ∈ all, mark.text.toList ≠ [] := by decide +kernel
  exact every mark (mem_all mark)

/-- By itself a punctuator is its own longest one. -/
theorem longest?_text (mark : Punctuator) : longest? mark.text.toList = some mark := by
  have own : ∀ mark ∈ all, longest? mark.text.toList = some mark := by decide +kernel
  exact own mark (mem_all mark)

/-- A punctuator is read as itself where no longer one goes on. -/
theorem longest?_append {mark : Punctuator} {next : Char} (ends : mark.endsBefore next = true)
    (more : List Char) : longest? (mark.text.toList ++ next :: more) = some mark := by
  rw [← longest?_text mark, longest?, longest?]
  refine congrArg (List.foldl longer none) (List.filter_congr fun candidate mem => ?_)
  have noLonger : ¬(mark.text.toList ++ [next]) <+: candidate.text.toList := by
    have apart := List.all_eq_true.mp ends candidate mem
    rwa [Bool.not_eq_true', ← Bool.not_eq_true, List.isPrefixOf_iff_prefix] at apart
  have split : mark.text.toList ++ next :: more = (mark.text.toList ++ [next]) ++ more := by simp
  rw [Bool.eq_iff_iff, List.isPrefixOf_iff_prefix, List.isPrefixOf_iff_prefix, split]
  constructor
  · intro starts
    -- A candidate that starts the text and does not go on with the character ends before it.
    rcases List.prefix_or_prefix_of_prefix starts (List.prefix_append _ more) with short | long
    · rcases List.prefix_concat_iff.mp short with same | shorter
      · exact absurd (same ▸ List.prefix_rfl) noLonger
      · exact shorter
    · exact absurd long noLonger
  · intro starts
    exact (starts.trans (List.prefix_append _ _)).trans (List.prefix_append _ _)

end Punctuator

namespace Lexer

open Text

/-- Whether a character ends the word it stands behind. -/
def endsWord (c : Char) : Bool :=
  !continuesWord c && c != '\\'

/-- Behind a whole escape it does not matter what follows. -/
theorem escapeSize?_append {text : List Char} {size : Nat} (found : escapeSize? text = some size)
    (more : List Char) :
    escapeSize? (text ++ more) = some size ∧ 1 ≤ size ∧ size ≤ text.length := by
  unfold escapeSize? at found
  split at found
  · rename_i rest
    dsimp only at found
    obtain ⟨behind, cut⟩ := List.takeWhile_prefix isHexDigit (l := rest)
    have hex : ∀ d ∈ rest.takeWhile isHexDigit, isHexDigit d = true :=
      fun d mem => List.all_eq_true.mp List.all_takeWhile d mem
    generalize rest.takeWhile isHexDigit = digits at found cut hex
    subst cut
    rw [List.drop_left] at found
    split_ifs at found with braces
    cases found
    obtain ⟨tail, rfl⟩ := List.head?_eq_some_iff.mp braces.2
    -- The digits end at the closing brace, so that nothing behind the text can be one of them.
    have reach : ((digits ++ '}' :: tail) ++ more).takeWhile isHexDigit = digits := by
      rw [List.append_assoc, List.takeWhile_append_of_pos hex]
      simp [isHexDigit, isDecimalDigit]
    refine ⟨?_, by omega, by simp⟩
    rw [List.cons_append, List.cons_append, List.cons_append, escapeSize?.eq_1, reach, if_pos]
    exact ⟨braces.1, by simp⟩
  · rename_i a b c d tail notBrace
    split_ifs at found with digits
    cases found
    rw [List.cons_append, List.cons_append, List.cons_append, List.cons_append, List.cons_append,
      List.cons_append, escapeSize?.eq_2 _ _ _ _ _ notBrace, if_pos digits]
    simp
  · cases found

/-- A word that takes a whole text takes no more of what follows if that ends it. -/
theorem wordTail_append {pending : Nat} {text : List Char} (inside : pending ≤ text.length)
    (whole : wordTail pending text = text.length) {next : Char} (ends : endsWord next = true)
    (more : List Char) : wordTail pending (text ++ next :: more) = text.length := by
  simp only [endsWord, Bool.and_eq_true, Bool.not_eq_true', bne_iff_ne, ne_eq] at ends
  -- Along the text: the characters an escape already covers are counted off first, then each
  -- character continues the word or starts an escape that lies inside the text.
  induction text generalizing pending with
  | nil =>
    obtain rfl : pending = 0 := by simpa using inside
    have unescaped : escapeSize? (next :: more) = none := by
      unfold escapeSize?
      split
      · simp_all
      · simp_all
      · rfl
    simp [wordTail, ends.1, unescaped]
  | cons c rest ih =>
    cases pending with
    | succ pending =>
      simp only [List.length_cons, Nat.add_le_add_iff_right] at inside
      simp only [wordTail, List.length_cons, Nat.add_right_cancel_iff] at whole
      simp [wordTail, ih inside whole]
    | zero =>
      by_cases plain : continuesWord c = true
      · simp only [wordTail, plain, if_true, List.length_cons, Nat.add_right_cancel_iff] at whole
        simp [wordTail, plain, ih (Nat.zero_le _) whole]
      · cases escaped : escapeSize? (c :: rest) with
        | none => simp [wordTail, plain, escaped] at whole
        | some size =>
          obtain ⟨stays, positive, fits⟩ := escapeSize?_append escaped (next :: more)
          rw [List.cons_append] at stays
          simp only [wordTail, plain, escaped, Bool.false_eq_true, if_false,
            List.length_cons, Nat.add_right_cancel_iff] at whole
          have bounded : size - 1 ≤ rest.length := by
            simp only [List.length_cons] at fits
            omega
          simp [wordTail, plain, stays, ih bounded whole]

/-- What opens a word does so in front of anything. -/
theorem wordHead?_append {text : List Char} {size : Nat} (found : wordHead? text = some size)
    (more : List Char) :
    wordHead? (text ++ more) = some size ∧ 1 ≤ size ∧ size ≤ text.length := by
  cases text with
  | nil => cases found
  | cons c rest =>
    -- A word starts with an escape, which lies inside the text, or with one character.
    by_cases escaped : c = '\\'
    · subst escaped
      exact escapeSize?_append found more
    · rw [wordHead?.eq_3 c rest escaped] at found
      cases found
      exact ⟨wordHead?.eq_3 c _ escaped, Nat.le_refl 1, by simp⟩

/-- A word that takes a whole text is the same word where something follows that ends it. -/
theorem word_append {text : List Char} {kind : TokenKind} (nonempty : text ≠ [])
    (whole : word text = ⟨kind, text.length⟩) {next : Char} (ends : endsWord next = true)
    (more : List Char) : word (text ++ next :: more) = ⟨kind, text.length⟩ := by
  unfold word at whole
  split at whole
  · exact absurd (congrArg Scan.size whole).symm (by simpa using nonempty)
  · rename_i head opens
    obtain ⟨stays, positive, fits⟩ := wordHead?_append opens (next :: more)
    obtain ⟨sameKind, sameSize⟩ := Scan.mk.injEq .. ▸ whole
    have tail : wordTail 0 (text.drop head) = (text.drop head).length := by
      rw [List.length_drop]
      omega
    have later := wordTail_append (Nat.zero_le _) tail ends more
    -- What follows the head is the tail of the word, and a tail that used all of its text stops
    -- before a character that ends a word.
    rw [← List.drop_append_of_le_length fits] at later
    simp only [word, stays, later]
    rw [← tail, sameSize, List.take_left, ← sameKind, sameSize, List.take_length]

/-- Whether a character can open a word. -/
def opensWord (c : Char) : Bool :=
  c == '\\' || !isAscii c || isWordStart c

/-- A word goes no further than its text. -/
theorem wordTail_le (pending : Nat) (text : List Char) : wordTail pending text ≤ text.length := by
  fun_induction wordTail pending text <;> simp_all

/-- A word is no longer than its text. -/
theorem word_size_le (text : List Char) : (word text).size ≤ text.length := by
  unfold word
  split
  · exact Nat.zero_le _
  · rename_i head opens
    have fits := (wordHead?_append opens []).2.2
    have tail := wordTail_le 0 (text.drop head)
    rw [List.length_drop] at tail
    change head + wordTail 0 (text.drop head) ≤ text.length
    omega

/-- A private name is no longer than its text. -/
theorem privateName_size_le (text : List Char) : (privateName text).size ≤ text.length := by
  match text with
  | [] | [_] => exact Nat.le_refl _
  | mark :: c :: rest =>
    have tail := wordTail_le 0 rest
    simp only [privateName]
    split <;> simp [tail]

/-- A private name that takes a whole text is the same where something follows that ends it. -/
theorem privateName_append {text : List Char} {kind : TokenKind} (named : kind.isMemberName = true)
    (whole : privateName text = ⟨kind, text.length⟩) {next : Char} (ends : endsWord next = true)
    (more : List Char) : privateName (text ++ next :: more) = ⟨kind, text.length⟩ := by
  match text, whole with
  | mark :: c :: rest, whole =>
    simp only [privateName] at whole
    -- The name without its mark must start a word; a stray mark is no member name.
    split_ifs at whole with ascii
    · cases whole
    · obtain ⟨rfl, size⟩ := Scan.mk.injEq .. ▸ whole
      have tail : wordTail 0 rest = rest.length := by simpa using size
      simp [privateName, ascii, wordTail_append (Nat.zero_le _) tail ends more]
  | [], whole | [_], whole =>
    cases whole
    cases named

/-! What starts in another way than a name is no name. -/

/-- A number with a radix is no name. -/
theorem radixNumber_noName (isRadixDigit : Char → Bool) (text : List Char) :
    (radixNumber isRadixDigit text).kind.isMemberName = false := by
  unfold radixNumber
  dsimp only
  split <;> rfl

/-- A number with an exponent is no name. -/
theorem exponent_noName (text : List Char) : (exponent text).kind.isMemberName = false := by
  unfold exponent
  repeat' split
  all_goals rfl

/-- A number is no name. -/
theorem number_noName (text : List Char) : (number text).kind.isMemberName = false := by
  unfold number fraction
  dsimp only
  repeat' split
  · rfl
  · exact exponent_noName _
  · exact exponent_noName _

/-- The rest of a string is no name. -/
theorem stringTail_noName (quote : Char) (text : List Char) :
    (stringTail quote text).kind.isMemberName = false := by
  fun_induction stringTail quote text <;> first | rfl | assumption

/-- A string is no name. -/
theorem string_noName (text : List Char) : (string text).kind.isMemberName = false := by
  cases text with
  | nil => rfl
  | cons quote rest => exact stringTail_noName quote rest

/-- The text of a template is no name. -/
theorem templateText_noName (text : List Char) :
    (templateText text).kind.isMemberName = false := by
  fun_induction templateText text <;> first | rfl | assumption

/-- The decimal digits one by one. -/
theorem mem_of_isDecimalDigit {c : Char} (digit : isDecimalDigit c = true) :
    c ∈ ['0', '1', '2', '3', '4', '5', '6', '7', '8', '9'] := by
  simp only [isDecimalDigit, Bool.and_eq_true, decide_eq_true_eq] at digit
  have low : 48 ≤ c.toNat := digit.1
  have high : c.toNat ≤ 57 := digit.2
  have named : c = Char.ofNat c.toNat := (Char.ofNat_toNat c).symm
  rw [named]
  generalize c.toNat = code at low high
  interval_cases code <;> decide

/-- What holds for the ten digits holds for each of them. -/
theorem isDecimalDigit_elim {c : Char} (digit : isDecimalDigit c = true) {p : Char → Bool}
    (every : ['0', '1', '2', '3', '4', '5', '6', '7', '8', '9'].all p = true) : p c = true :=
  List.all_eq_true.mp every c (mem_of_isDecimalDigit digit)

/-- What opens a word opens nothing else. -/
theorem significant_word (mode : LexMode) {c : Char} (opens : opensWord c = true)
    (rest : List Char) : significant mode (c :: rest) = word (c :: rest) := by
  -- Every other token starts with a character that opens no word.
  have apart {d : Char} (closed : opensWord d = false) : c ≠ d := fun same =>
    absurd opens (by simp [same, closed])
  have noDigit : isDecimalDigit c = false := by
    refine Bool.eq_false_iff.mpr fun digit => ?_
    have closed := isDecimalDigit_elim (p := fun d => !opensWord d) digit (by decide)
    exact apart (by simpa using closed) rfl
  have word : c = '\\' ∨ (!isAscii c) = true ∨ isWordStart c = true := by
    simpa [opensWord, or_assoc] using opens
  simp only [significant, apart (d := '0') rfl, apart (d := '.') rfl, apart (d := '"') rfl,
    apart (d := '\'') rfl, apart (d := '`') rfl, apart (d := '#') rfl, apart (d := '/') rfl,
    apart (d := '?') rfl, noDigit, false_and, or_self, if_false, Bool.false_eq_true]
  exact if_pos word

/-- A number sign opens a private name. -/
theorem significant_privateName (mode : LexMode) (rest : List Char) :
    significant mode ('#' :: rest) = privateName ('#' :: rest) := by
  simp [significant, isDecimalDigit]

/-- The rest of a regular expression is no name. -/
theorem regexTail_noName (inClass : Bool) (text : List Char) :
    (regexTail inClass text).kind.isMemberName = false := by
  fun_induction regexTail inClass text <;> first | rfl | assumption

/-- What opens neither a word nor a private name is no name. -/
theorem significant_noName (mode : LexMode) {c : Char} (closed : opensWord c = false)
    (unmarked : c ≠ '#') (rest : List Char) :
    (significant mode (c :: rest)).kind.isMemberName = false := by
  have noWord : ¬(c = '\\' ∨ (!isAscii c) = true ∨ isWordStart c = true) := by
    simpa [opensWord, and_assoc] using closed
  have either {condition : Prop} [Decidable condition] {found other : Scan}
      (holds : condition → found.kind.isMemberName = false)
      (fails : ¬condition → other.kind.isMemberName = false) :
      (if condition then found else other).kind.isMemberName = false := by
    split
    · exact holds ‹_›
    · exact fails ‹_›
  unfold significant
  dsimp only
  -- Every scan that is left has a kind of its own, and none of these kinds is a name.
  refine either (fun _ => radixNumber_noName _ _) fun _ => ?_
  refine either (fun _ => radixNumber_noName _ _) fun _ => ?_
  refine either (fun _ => radixNumber_noName _ _) fun _ => ?_
  refine either (fun _ => number_noName _) fun _ => ?_
  refine either (fun _ => string_noName _) fun _ => ?_
  refine either (fun _ => templateText_noName _) fun _ => ?_
  refine either (fun marked => absurd marked unmarked) fun _ => ?_
  refine either (fun _ => regexTail_noName _ _) fun _ => ?_
  refine either (fun _ => rfl) fun _ => ?_
  refine either (fun opens => absurd opens noWord) fun _ => ?_
  split
  · rfl
  · rfl

/-- A character that ends words is none that goes on with one. -/
theorem endsWord_ne {next c : Char} (ends : endsWord next = true) (goesOn : endsWord c = false) :
    next ≠ c := by
  rintro rfl
  exact absurd ends (by simp [goesOn])

/-- No digit ends a word. -/
theorem noDigit_of_endsWord {next : Char} (ends : endsWord next = true) :
    isDecimalDigit next = false := by
  refine Bool.eq_false_iff.mpr fun digit => ?_
  have goesOn := isDecimalDigit_elim (p := fun d => !endsWord d) digit (by decide)
  exact endsWord_ne ends (by simpa using goesOn) rfl

/-- Digits with nothing behind them that could belong to a number are one. -/
theorem number_digits {digits : List Char} (decimal : ∀ d ∈ digits, isDecimalDigit d = true)
    {next : Char} (ends : endsWord next = true) (noPoint : next ≠ '.') (more : List Char) :
    number (digits ++ next :: more) = ⟨.number, digits.length⟩ := by
  -- The run of digits stops at the next character, and neither a fraction nor an exponent nor a
  -- suffix follows it.
  have run : (digits ++ next :: more).takeWhile isDigit = digits := by
    have inside : ∀ d ∈ digits, isDigit d = true := fun d mem => by simp [isDigit, decimal d mem]
    have stop : isDigit next = false := by
      simp [isDigit, noDigit_of_endsWord ends, endsWord_ne (c := '_') ends rfl]
    rw [List.takeWhile_append_of_pos inside]
    simp [stop]
  have exact : exponent (next :: more) = ⟨.number, 0⟩ := by
    simp [exponent, endsWord_ne (c := 'e') ends rfl, endsWord_ne (c := 'E') ends rfl]
  have whole : fraction (next :: more) = exponent (next :: more) := by
    unfold fraction
    split
    · rename_i same
      cases same
      exact absurd rfl noPoint
    · rfl
  simp [number, run, whole, exact, Scan.extend, endsWord_ne (c := 'n') ends rfl]

/-- The same for a token that starts with them. -/
theorem significant_digits (mode : LexMode) {digits : List Char} (nonempty : digits ≠ [])
    (decimal : ∀ d ∈ digits, isDecimalDigit d = true) {next : Char} (ends : endsWord next = true)
    (noPoint : next ≠ '.') (more : List Char) :
    significant mode (digits ++ next :: more) = ⟨.number, digits.length⟩ := by
  cases digits with
  | nil => exact absurd rfl nonempty
  | cons d rest =>
    obtain ⟨own, later⟩ := List.forall_mem_cons.mp decimal
    -- The second character is a digit or the one behind, neither of which is a radix mark.
    have radixless (mark : Char) (goesOn : endsWord mark = false)
        (noDigit : isDecimalDigit mark = false) : (rest ++ next :: more).head? ≠ some mark := by
      cases rest with
      | nil => simpa using endsWord_ne ends goesOn
      | cons e rest =>
        intro same
        cases same
        exact absurd (later _ (List.mem_cons_self ..)) (by simp [noDigit])
    simp only [List.cons_append, significant, own, true_or, if_true, radixless 'b' rfl rfl,
      radixless 'B' rfl rfl, radixless 'o' rfl rfl, radixless 'O' rfl rfl, radixless 'x' rfl rfl,
      radixless 'X' rfl rfl, or_self, and_false, if_false]
    exact number_digits decimal ends noPoint more

/-- How the symbols of a punctuator start: not as another token does, with a slash only for the
division operators, and with no digit behind a point. -/
def symbolsStart (mark : Punctuator) : List Char → Bool
  | [] => false
  | c :: rest =>
    !isDecimalDigit c && c != '"' && c != '\'' && c != '`' && c != '#' && !opensWord c
      && (c != '/' || mark == .slash || mark == .slashEquals)
      && !rest.head?.any isDecimalDigit && !(rest.drop 1).head?.any isDecimalDigit

/-- The text of a mark starts with that mark. -/
theorem symbolsStart_text (mark : Punctuator) : symbolsStart mark mark.text.toList = true := by
  have own : ∀ mark ∈ Punctuator.all, symbolsStart mark mark.text.toList = true := by
    decide +kernel
  exact own mark (Punctuator.mem_all mark)

/-- A punctuator is read as such, except that a slash may open a regular expression and that a
point belongs to a digit behind it. -/
theorem significant_symbol {mode : LexMode} {mark : Punctuator} {next : Char}
    (ends : mark.endsBefore next = true)
    (noDigit : mark = .dot ∨ mark = .questionDot → isDecimalDigit next = false)
    (noRegex : mode = .regex → mark ≠ .slash ∧ mark ≠ .slashEquals) (more : List Char) :
    significant mode (mark.text.toList ++ next :: more)
      = ⟨.symbol mark, mark.text.length⟩ := by
  have longest := Punctuator.longest?_append ends more
  have starts := symbolsStart_text mark
  have chainless := List.all_eq_true.mp ends .questionDot (Punctuator.mem_all _)
  have isDot : ∀ mark ∈ Punctuator.all, mark.text.toList = ['.'] → mark = .dot := by
    decide +kernel
  have isChain : ∀ mark ∈ Punctuator.all, mark.text.toList = ['?', '.'] → mark = .questionDot := by
    decide +kernel
  replace isDot := isDot mark (Punctuator.mem_all _)
  replace isChain := isChain mark (Punctuator.mem_all _)
  generalize spelled : mark.text.toList = text at longest starts chainless isDot isChain ⊢
  match text with
  | [] => simp [symbolsStart] at starts
  | c :: rest =>
    simp only [symbolsStart, Bool.and_eq_true, Bool.not_eq_true', bne_iff_ne, ne_eq,
      Bool.or_eq_true, beq_iff_eq] at starts
    obtain ⟨⟨⟨⟨⟨⟨⟨⟨noDigitFirst, noQuote⟩, noSingle⟩, noTick⟩, noHash⟩, noWord⟩, slash⟩,
      noSecond⟩, noThird⟩ := starts
    have noRadix : c ≠ '0' := by
      rintro rfl
      exact absurd noDigitFirst (by decide)
    have noDecimal : ¬(c = '.' ∧ (rest ++ next :: more).head?.any isDecimalDigit = true) := by
      rintro ⟨rfl, digit⟩
      cases rest with
      | nil => simp [noDigit (.inl (isDot rfl))] at digit
      | cons d rest => simp_all
    have noSlash : ¬(c = '/' ∧ mode = .regex) := by
      rintro ⟨isSlash, isRegex⟩
      rcases slash with (other | same) | same
      · exact other isSlash
      · exact (noRegex isRegex).1 same
      · exact (noRegex isRegex).2 same
    have noChain : ¬(c = '?' ∧ (rest ++ next :: more).head? = some '.'
        ∧ ((rest ++ next :: more).drop 1).head?.any isDecimalDigit = true) := by
      rintro ⟨rfl, point, digit⟩
      match rest, noThird, isChain with
      | [], _, _ =>
        -- A question mark that a point follows would have been read together with it.
        cases point
        exact absurd chainless (by decide)
      | [d], _, isChain =>
        cases point
        simp [noDigit (.inr (isChain rfl))] at digit
      | d :: e :: rest, noThird, _ => simp_all
    have noName : ¬(c = '\\' ∨ (!isAscii c) = true ∨ isWordStart c = true) := by
      simpa [opensWord, and_assoc] using noWord
    rw [List.cons_append] at longest ⊢
    simp only [significant, noRadix, noDigitFirst, if_neg noSlash, if_neg noChain, if_neg noName,
      noDecimal, noQuote, noSingle, noTick, noHash, longest, false_and, or_self,
      if_false, Bool.false_eq_true]

end Lexer

end Downlevel
