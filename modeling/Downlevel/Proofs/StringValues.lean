import Downlevel.Proofs.Numerals
import Downlevel.Proofs.RoundTrip.Scans

/-! The value of a string as its grammar gives it, and where decoding agrees with the grammar: in every
text that has no sign in front of the digits of an escape and no octal escape of more than a byte. -/

namespace Downlevel.Text

/-- Escapes of one character and what they stand for. -/
def namedEscapes : List (Char × Char) :=
  [('b', '\x08'), ('f', '\x0c'), ('n', '\n'), ('r', '\r'), ('t', '\t'), ('v', '\x0b')]

/-- The digits of one half of a surrogate pair. -/
def Half (low high : Nat) (digits : List Char) (code : Nat) : Prop :=
  Numeral 16 digits code ∧ digits.length = 4 ∧ low ≤ code ∧ code ≤ high

/-- What an escape stands for, from the text behind its backslash and the text behind the escape. A
line continuation stands for nothing. -/
inductive Escaped : (text : List Char) → (decoded : Option Char) → (rest : List Char) → Prop
  | lineBreak {c : Char} {rest : List Char} :
    isLineTerminator c = true → ¬(c = '\r' ∧ rest.head? = some '\n') → Escaped (c :: rest) none rest
  /-- A carriage return and a line feed are one line break. -/
  | lineBreakPair {rest : List Char} : Escaped ('\r' :: '\n' :: rest) none rest
  | named {c value : Char} {rest : List Char} :
    (c, value) ∈ namedEscapes → Escaped (c :: rest) (some value) rest
  /-- Octal digits go on as long as there are at most three and they spell a byte. -/
  | octal {digits rest : List Char} {code : Nat} :
    Numeral 8 digits code → digits.length ≤ 3 → code < 256 →
      (∀ c wider, rest.head? = some c → Numeral 8 (digits ++ [c]) wider →
        digits.length = 3 ∨ 256 ≤ wider) →
      Escaped (digits ++ rest) (some (charOrReplacement code)) rest
  | byte {digits rest : List Char} {code : Nat} :
    Numeral 16 digits code → digits.length = 2 →
      Escaped ('x' :: digits ++ rest) (some (charOrReplacement code)) rest
  /-- Half of a surrogate pair stands for the replacement character unless the other half follows. -/
  | unit {digits rest : List Char} {code : Nat} :
    Numeral 16 digits code → digits.length = 4 →
      ¬(Half 0xD800 0xDBFF digits code
        ∧ ∃ other more low, rest = '\\' :: 'u' :: other ++ more ∧ Half 0xDC00 0xDFFF other low) →
      Escaped ('u' :: digits ++ rest) (some (charOrReplacement code)) rest
  | surrogates {digits other rest : List Char} {high low : Nat} :
    Half 0xD800 0xDBFF digits high → Half 0xDC00 0xDFFF other low →
      Escaped ('u' :: digits ++ '\\' :: 'u' :: other ++ rest)
        (some (charOrReplacement (0x10000 + (high - 0xD800) * 0x400 + (low - 0xDC00)))) rest
  | codePoint {digits rest : List Char} {code : Nat} :
    Numeral 16 digits code → code ≤ 0x10FFFF →
      Escaped ('u' :: '{' :: digits ++ '}' :: rest) (some (charOrReplacement code)) rest
  /-- Every other character stands for itself. -/
  | itself {c : Char} {rest : List Char} :
    isLineTerminator c = false → isOctalDigit c = false →
      c ∉ ['b', 'f', 'n', 'r', 't', 'v', 'x', 'u'] → Escaped (c :: rest) (some c) rest

/-- The value of the contents of a string. -/
inductive StringValue : (raw value : List Char) → Prop
  | nil : StringValue [] []
  | plain {c : Char} {raw value : List Char} :
    c ≠ '\\' → StringValue raw value → StringValue (c :: raw) (c :: value)
  | escape {text rest value : List Char} {decoded : Option Char} :
    Escaped text decoded rest → StringValue rest value →
      StringValue ('\\' :: text) (decoded.toList ++ value)

/-- The text behind a backslash that starts no escape. -/
inductive Malformed : List Char → Prop
  | missing : Malformed []
  | byte {rest : List Char} :
    (∀ digits more code, rest = digits ++ more → digits.length = 2 → ¬Numeral 16 digits code) →
      Malformed ('x' :: rest)
  | unicode {rest : List Char} :
    (∀ digits more code, rest = digits ++ more → digits.length = 4 → ¬Numeral 16 digits code) →
      (∀ digits more code, rest = '{' :: digits ++ '}' :: more → Numeral 16 digits code →
        0x10FFFF < code) →
      Malformed ('u' :: rest)

/-- The escapes on which decoding differs from the grammar: it takes a sign in front of digits, and a
third octal digit whatever the value. -/
inductive Deviating : List Char → Prop
  | signedByte (rest : List Char) : Deviating ('x' :: '+' :: rest)
  | signedUnit (rest : List Char) : Deviating ('u' :: '+' :: rest)
  | signedCodePoint (rest : List Char) : Deviating ('u' :: '{' :: '+' :: rest)
  | wideOctal {digits : List Char} {code : Nat} (rest : List Char) :
    Numeral 8 digits code → digits.length = 3 → 256 ≤ code → Deviating (digits ++ rest)

/-- Some escape of the text has the property, counting from the start as the grammar does. -/
inductive HasEscape (property : List Char → Prop) : List Char → Prop
  | here {text : List Char} : property text → HasEscape property ('\\' :: text)
  | plain {c : Char} {raw : List Char} :
    c ≠ '\\' → HasEscape property raw → HasEscape property (c :: raw)
  | escape {text rest : List Char} {decoded : Option Char} :
    Escaped text decoded rest → HasEscape property rest → HasEscape property ('\\' :: text)

variable {text rest : List Char} {c : Char}

section FirstCharacter

/-- A line break. -/
theorem escape?_lineBreak (isBreak : isLineTerminator c = true) (rest : List Char) :
    escape? (c :: rest) = some ⟨if c = '\r' ∧ rest.head? = some '\n' then 2 else 1, none⟩ := by
  by_cases isReturn : c = '\r'
  · simp [escape?, isReturn]
  · simp [escape?, isReturn, isBreak]

/-- A character with an escape of its own. -/
theorem escape?_named {value : Char} (known : (c, value) ∈ namedEscapes) (rest : List Char) :
    escape? (c :: rest) = some ⟨1, some value⟩ := by
  simp only [namedEscapes, List.mem_cons, Prod.mk.injEq, List.not_mem_nil, or_false] at known
  rcases known with ⟨rfl, rfl⟩ | ⟨rfl, rfl⟩ | ⟨rfl, rfl⟩ | ⟨rfl, rfl⟩ | ⟨rfl, rfl⟩ | ⟨rfl, rfl⟩
  all_goals rfl

/-- A character that has no meaning behind a backslash. -/
theorem escape?_itself (noBreak : isLineTerminator c = false) (noOctal : isOctalDigit c = false)
    (other : c ∉ ['b', 'f', 'n', 'r', 't', 'v', 'x', 'u']) (rest : List Char) :
    escape? (c :: rest) = some ⟨1, some c⟩ := by
  simp only [List.mem_cons, List.not_mem_nil, or_false, not_or] at other
  have noReturn : c ≠ '\r' := by
    rintro rfl
    cases noBreak
  simp [escape?, noReturn, noBreak, noOctal, other]

/-- What the first character of an escape can be. -/
theorem firstCharacter_cases (c : Char) :
    isLineTerminator c = true ∨ (∃ value, (c, value) ∈ namedEscapes) ∨ isOctalDigit c = true
      ∨ c = 'x' ∨ c = 'u' ∨ isLineTerminator c = false ∧ isOctalDigit c = false
        ∧ c ∉ ['b', 'f', 'n', 'r', 't', 'v', 'x', 'u'] := by
  by_cases isNamed : ∃ value, (c, value) ∈ namedEscapes
  · exact .inr (.inl isNamed)
  · simp only [namedEscapes, List.mem_cons, Prod.mk.injEq, List.not_mem_nil, or_false,
      not_exists] at isNamed ⊢
    grind

/-- The octal digits at the start of a text, of which an escape has at most three. -/
def octalDigits (text : List Char) : List Char :=
  (text.take 3).takeWhile isOctalDigit

/-- An octal digit, and those that follow it. -/
theorem escape?_octal (isDigit : isOctalDigit c = true) (rest : List Char) :
    escape? (c :: rest) = (number? 8 (octalDigits (c :: rest))).map fun code =>
      ⟨(octalDigits (c :: rest)).length, some (charOrReplacement code)⟩ := by
  have other {d : Char} (noDigit : isOctalDigit d = false) : c ≠ d := by
    rintro rfl
    simp [noDigit] at isDigit
  have noBreak : isLineTerminator c = false := by
    simp [isLineTerminator, other (d := '\n') rfl, other (d := '\r') rfl, other (d := '\u2028') rfl,
      other (d := '\u2029') rfl]
  simp only [escape?, other (d := '\r') rfl, noBreak, other (d := 'b') rfl, other (d := 'f') rfl,
    other (d := 'n') rfl, other (d := 'r') rfl, other (d := 't') rfl, other (d := 'v') rfl, isDigit,
    if_true, if_false, Bool.false_eq_true, octalDigits]
  cases number? 8 ((c :: rest |>.take 3).takeWhile isOctalDigit) <;> rfl

/-- So many characters in front of a text, read as a number. -/
theorem number?_take_eq_some_iff {count code : Nat} :
    (if rest.length < count then none else number? 16 (rest.take count)) = some code
      ↔ ∃ digits more, rest = digits ++ more ∧ digits.length = count ∧ number? 16 digits = some code := by
  constructor
  · intro found
    split_ifs at found with short
    exact ⟨rest.take count, rest.drop count, (List.take_append_drop count rest).symm,
      List.length_take_of_le (Nat.le_of_not_lt short), found⟩
  · rintro ⟨digits, more, rfl, rfl, found⟩
    rw [if_neg (by simp), List.take_left, found]

/-- The mark of a byte takes two digits along. -/
theorem escape?_byte_eq_some_iff {escape : Escape} :
    escape? ('x' :: rest) = some escape ↔ ∃ digits more code, rest = digits ++ more
      ∧ digits.length = 2 ∧ number? 16 digits = some code
      ∧ escape = ⟨3, some (charOrReplacement code)⟩ := by
  -- With fewer than two characters left there is no byte escape.
  have unfolded : escape? ('x' :: rest)
      = (if rest.length < 2 then none else number? 16 (rest.take 2)).map fun code =>
        ⟨3, some (charOrReplacement code)⟩ := by
    by_cases short : rest.length < 2
    · simp [escape?, isLineTerminator, isOctalDigit, short]
    · simp only [escape?, isLineTerminator, isOctalDigit, short]
      cases number? 16 (rest.take 2) <;> rfl
  rw [unfolded, Option.map_eq_some_iff]
  simp only [number?_take_eq_some_iff]
  constructor
  · rintro ⟨code, ⟨digits, more, cut, width, found⟩, rfl⟩
    exact ⟨digits, more, code, cut, width, found, rfl⟩
  · rintro ⟨digits, more, code, cut, width, found, rfl⟩
    exact ⟨code, ⟨digits, more, cut, width, found⟩, rfl⟩

/-- The mark of code points, in front of a brace or not. -/
theorem escape?_codePoint (rest : List Char) : escape? ('u' :: '{' :: rest) = bracedEscape? rest := by
  simp [escape?, isLineTerminator, isOctalDigit]

/-- A code unit without braces has four digits. -/
theorem escape?_unit (noBrace : rest.head? ≠ some '{') :
    escape? ('u' :: rest) = fourDigitEscape? rest := by
  cases rest with
  | nil => rfl
  | cons c more =>
    have other : c ≠ '{' := fun same => noBrace (by rw [same]; rfl)
    simp [escape?, isLineTerminator, isOctalDigit, other]

/-- The digits of a code point end at the first closing brace. -/
theorem bracedEscape?_eq_some_iff {escape : Escape} :
    bracedEscape? rest = some escape ↔ ∃ digits more code, rest = digits ++ '}' :: more
      ∧ number? 16 digits = some code ∧ code ≤ 0x10FFFF
      ∧ escape = ⟨digits.length + 3, some (charOrReplacement code)⟩ := by
  constructor
  · intro found
    have cut := List.takeWhile_append_dropWhile (p := (· != '}')) (l := rest)
    have stops := List.head?_dropWhile_not (· != '}') rest
    rw [bracedEscape?] at found
    generalize rest.takeWhile (· != '}') = digits at cut found
    generalize rest.dropWhile (· != '}') = behind at cut stops
    subst cut
    -- There is something behind the digits, and it starts with the brace.
    cases behind with
    | nil => simp at found
    | cons c more =>
      obtain rfl : c = '}' := by simpa using stops
      obtain ⟨code, read, found⟩ : ∃ code, number? 16 digits = some code ∧ (if code ≤ 0x10FFFF then
          some ⟨digits.length + 3, some (charOrReplacement code)⟩ else none) = some escape := by
        simpa [Option.bind_eq_some_iff] using found
      split_ifs at found with small
      exact ⟨digits, more, code, rfl, read, small, (Option.some.inj found).symm⟩
  · rintro ⟨digits, more, code, rfl, found, small, rfl⟩
    have noBrace : ∀ c ∈ digits, (c != '}') = true := by
      intro c mem
      rcases sign_or_digit_of_number? found mem with rfl | ⟨digit, isDigit, -⟩
      · rfl
      · simp only [bne_iff_ne, ne_eq]
        rintro rfl
        cases isDigit
    have reach : (digits ++ '}' :: more).takeWhile (· != '}') = digits := by
      rw [List.takeWhile_append_of_pos noBrace]
      simp
    simp [bracedEscape?, reach, found, small]

/-- Four characters with a sign among them do not spell half of a surrogate pair. -/
theorem half_of_number? {low high code : Nat} {digits : List Char} (range : 0x1000 ≤ low)
    (found : number? 16 digits = some code) (width : digits.length = 4) (above : low ≤ code)
    (below : code ≤ high) : Half low high digits code := by
  rcases numeral_of_number? found with numeral | ⟨unsigned, rfl, numeral⟩
  · exact ⟨numeral, width, above, below⟩
  · have bound := numeral.lt
    rw [show unsigned.length = 3 by simpa using width] at bound
    omega

/-- The other half of a surrogate pair is spelled by six characters. -/
theorem lowSurrogate?_eq_some_iff {low : Nat} :
    lowSurrogate? rest = some low
      ↔ ∃ other more, rest = '\\' :: 'u' :: other ++ more ∧ Half 0xDC00 0xDFFF other low := by
  -- The second half is spelled with four digits, and its range is checked.
  have unfolded (inside : List Char) : lowSurrogate? ('\\' :: 'u' :: inside)
      = (if inside.length < 4 then none else number? 16 (inside.take 4)).bind fun code =>
        if 0xDC00 ≤ code && code ≤ 0xDFFF then some code else none := by
    by_cases short : inside.length < 4
    · simp [lowSurrogate?, short]
    · simp [lowSurrogate?, short]
  constructor
  · intro found
    obtain ⟨inside, rfl⟩ : ∃ inside, rest = '\\' :: 'u' :: inside := by
      rw [lowSurrogate?.eq_def] at found
      split at found
      · exact ⟨_, rfl⟩
      · cases found
    rw [unfolded, Option.bind_eq_some_iff] at found
    obtain ⟨code, read, inRange⟩ := found
    obtain ⟨other, more, rfl, width, found⟩ := number?_take_eq_some_iff.mp read
    split_ifs at inRange with range
    obtain rfl := Option.some.inj inRange
    simp only [Bool.and_eq_true, decide_eq_true_eq] at range
    exact ⟨other, more, rfl, half_of_number? (by decide) found width range.1 range.2⟩
  · rintro ⟨other, more, rfl, numeral, width, above, below⟩
    have read : (if (other ++ more).length < 4 then none else number? 16 ((other ++ more).take 4))
        = some low :=
      number?_take_eq_some_iff.mpr
        ⟨other, more, rfl, width, (number?_eq_some_iff numeral.unsigned).mpr numeral⟩
    rw [List.cons_append, List.cons_append, unfolded, read]
    simp [above, below]

/-- What four digits stand for, given the other half of a pair if one follows. -/
def unitEscape (code : Nat) : (low : Option Nat) → Escape
  | some low => ⟨11, some (charOrReplacement (0x10000 + (code - 0xD800) * 0x400 + (low - 0xDC00)))⟩
  | none => ⟨5, some (charOrReplacement code)⟩

/-- The other half of a pair is looked for only behind the first half. -/
theorem fourDigitEscape?_eq_some_iff {escape : Escape} :
    fourDigitEscape? rest = some escape ↔ ∃ digits more code, rest = digits ++ more
      ∧ digits.length = 4 ∧ number? 16 digits = some code
      ∧ escape = unitEscape code
        (if 0xD800 ≤ code ∧ code ≤ 0xDBFF then lowSurrogate? more else none) := by
  -- The digits are read first, and a high half then asks for a low one.
  have unfolded : fourDigitEscape? rest
      = (if rest.length < 4 then none else number? 16 (rest.take 4)).map fun code =>
        unitEscape code
          (if 0xD800 ≤ code ∧ code ≤ 0xDBFF then lowSurrogate? (rest.drop 4) else none) := by
    by_cases short : rest.length < 4
    · simp [fourDigitEscape?, short]
    · simp only [fourDigitEscape?, short, if_false]
      cases number? 16 (rest.take 4) with
      | none => rfl
      | some code =>
        by_cases high : 0xD800 ≤ code ∧ code ≤ 0xDBFF
        · cases low : lowSurrogate? (rest.drop 4) <;> simp [high, unitEscape]
        · simp [high, unitEscape]
  rw [unfolded, Option.map_eq_some_iff]
  constructor
  · rintro ⟨code, read, rfl⟩
    obtain ⟨digits, more, rfl, width, found⟩ := number?_take_eq_some_iff.mp read
    exact ⟨digits, more, code, rfl, width, found, by rw [← width, List.drop_left]⟩
  · rintro ⟨digits, more, code, rfl, width, found, rfl⟩
    refine ⟨code, number?_take_eq_some_iff.mpr ⟨digits, more, rfl, width, found⟩, ?_⟩
    rw [← width, List.drop_left]

end FirstCharacter

section OctalDigits

variable {digits : List Char}

/-- Octal digits reach up to a third one or to a character that is none. -/
theorem octalDigits_append (isDigit : ∀ d ∈ digits, isOctalDigit d = true)
    (short : digits.length ≤ 3)
    (ends : ∀ d, rest.head? = some d → isOctalDigit d = true → digits.length = 3) :
    octalDigits (digits ++ rest) = digits := by
  -- What follows the digits adds none: it is no digit, or there are three already.
  have behind : (rest.take (3 - digits.length)).takeWhile isOctalDigit = [] := by
    cases rest with
    | nil => simp
    | cons d more =>
      by_cases octal : isOctalDigit d = true
      · rw [ends d rfl octal]
        rfl
      · by_cases full : digits.length = 3
        · simp [full]
        · obtain ⟨left, room⟩ := Nat.exists_eq_add_one.mpr (show 0 < 3 - digits.length by omega)
          simp [room, octal]
  rw [octalDigits, List.take_append, List.take_of_length_le short, List.takeWhile_append_of_pos isDigit,
    behind, List.append_nil]

/-- The digits that are taken start the text, and what follows them ends them. -/
theorem octalDigits_spec (text : List Char) :
    ∃ rest, text = octalDigits text ++ rest ∧ (octalDigits text).length ≤ 3
      ∧ (∀ d ∈ octalDigits text, isOctalDigit d = true)
      ∧ ∀ d, rest.head? = some d → isOctalDigit d = true → (octalDigits text).length = 3 := by
  have cut := List.takeWhile_append_dropWhile (p := isOctalDigit) (l := text.take 3)
  have stops := List.head?_dropWhile_not isOctalDigit (text.take 3)
  have short := (List.takeWhile_prefix isOctalDigit (l := text.take 3)).length_le.trans
    (List.length_take_le 3 text)
  refine ⟨(text.take 3).dropWhile isOctalDigit ++ text.drop 3, ?_, short,
    fun d mem => List.all_eq_true.mp List.all_takeWhile d mem, fun d next octal => ?_⟩
  · rw [← List.append_assoc, octalDigits, cut, List.take_append_drop]
  -- What follows is one of the first three characters and no digit, or there were three digits.
  · cases behind : (text.take 3).dropWhile isOctalDigit with
    | cons first more =>
      rw [behind] at next stops
      obtain rfl : first = d := Option.some.inj next
      exact absurd octal (by simpa using stops)
    | nil =>
      rw [behind, List.append_nil] at cut
      rw [behind, List.nil_append] at next
      have left : 0 < (text.drop 3).length :=
        List.length_pos_of_mem (List.mem_of_head? next)
      rw [List.length_drop] at left
      rw [octalDigits, cut, List.length_take]
      omega

/-- Octal digits are decoded as far as they reach. -/
theorem escape?_of_octalDigits {code : Nat} (numeral : Numeral 8 digits code)
    (reach : octalDigits (digits ++ rest) = digits) :
    escape? (digits ++ rest) = some ⟨digits.length, some (charOrReplacement code)⟩ := by
  obtain ⟨c, tail, rfl⟩ := List.exists_cons_of_ne_nil numeral.ne_nil
  rw [List.cons_append] at reach ⊢
  rw [escape?_octal (isOctalDigit_iff.mpr (numeral.digit (List.mem_cons_self ..))), reach,
    (number?_eq_some_iff numeral.unsigned).mpr numeral, Option.map_some]

/-- The digits that the grammar takes are those that are decoded, unless they and a third one spell more
than a byte. -/
theorem octalDigits_of_ends {code : Nat} (numeral : Numeral 8 digits code) (short : digits.length ≤ 3)
    (ends : ∀ c wider, rest.head? = some c → Numeral 8 (digits ++ [c]) wider →
      digits.length = 3 ∨ 256 ≤ wider)
    (agrees : ¬Deviating (digits ++ rest)) : octalDigits (digits ++ rest) = digits := by
  have octal : ∀ d ∈ digits, isOctalDigit d = true :=
    fun d mem => isOctalDigit_iff.mpr (numeral.digit mem)
  refine octalDigits_append octal short fun d next isDigit => ?_
  obtain ⟨digit, known, below⟩ := isOctalDigit_iff.mp isDigit
  have wider := numeral.push known below
  refine (ends d _ next wider).elim id fun wide => ?_
  -- Only two digits and one more spell such a number, and that is where decoding differs.
  obtain ⟨more, rfl⟩ := List.head?_eq_some_iff.mp next
  by_contra notFull
  have many : 2 ≤ digits.length := by
    by_contra few
    have bound := wider.lt
    have limit : 8 ^ (digits ++ [d]).length ≤ 8 ^ 2 :=
      Nat.pow_le_pow_right (by decide) (by rw [List.length_append, List.length_singleton]; omega)
    omega
  have deviating := Deviating.wideOctal more wider
    (by rw [List.length_append, List.length_singleton]; omega) wide
  rw [List.append_assoc, List.singleton_append] at deviating
  exact agrees deviating

/-- Octal digits always spell a number. -/
theorem exists_octal_numeral (isDigit : isOctalDigit c = true) (rest : List Char) :
    ∃ code, Numeral 8 (octalDigits (c :: rest)) code := by
  have octal : ∀ d ∈ octalDigits (c :: rest), isOctalDigit d = true := by
    obtain ⟨_, -, -, octal, -⟩ := octalDigits_spec (c :: rest)
    exact octal
  refine (exists_numeral_iff fun _ => isOctalDigit_iff).mpr ⟨?_, octal⟩
  simp [octalDigits, isDigit]

end OctalDigits

/-- Every escape of the grammar is decoded to what it stands for, unless it is one of those on which
decoding differs. -/
theorem escape?_of_escaped {decoded : Option Char} (escaped : Escaped text decoded rest)
    (agrees : ¬Deviating text) :
    ∃ size, escape? text = some ⟨size, decoded⟩ ∧ text.drop size = rest := by
  -- One case per kind of escape: its own characters are what the scanner reads and skips.
  cases escaped with
  | lineBreak isBreak single =>
    exact ⟨1, by rw [escape?_lineBreak isBreak, if_neg single], rfl⟩
  | lineBreakPair => exact ⟨2, rfl, rfl⟩
  | named known => exact ⟨1, escape?_named known rest, rfl⟩
  | @octal digits _ code numeral short small ends =>
    have reach := octalDigits_of_ends numeral short ends agrees
    exact ⟨digits.length, escape?_of_octalDigits numeral reach, List.drop_left⟩
  | @byte digits _ code numeral width =>
    exact ⟨3, escape?_byte_eq_some_iff.mpr ⟨digits, rest, code, rfl, width,
      (number?_eq_some_iff numeral.unsigned).mpr numeral, rfl⟩, List.drop_left' (by simp [width])⟩
  | @unit digits _ code numeral width alone =>
    have noPair : (if 0xD800 ≤ code ∧ code ≤ 0xDBFF then lowSurrogate? rest else none) = none := by
      split_ifs with high
      · rw [Option.eq_none_iff_forall_ne_some]
        intro low found
        obtain ⟨other, more, cut, second⟩ := lowSurrogate?_eq_some_iff.mp found
        exact alone ⟨⟨numeral, width, high.1, high.2⟩, other, more, low, cut, second⟩
      · rfl
    refine ⟨5, ?_, List.drop_left' (by simp [width])⟩
    rw [List.cons_append, escape?_unit (numeral.head_ne rfl _), fourDigitEscape?_eq_some_iff]
    exact ⟨digits, rest, code, rfl, width, (number?_eq_some_iff numeral.unsigned).mpr numeral,
      by rw [noPair]; rfl⟩
  | @surrogates digits other _ high low first second =>
    obtain ⟨numeral, width, above, below⟩ := first
    have pair : lowSurrogate? ('\\' :: 'u' :: other ++ rest) = some low :=
      lowSurrogate?_eq_some_iff.mpr ⟨other, rest, rfl, second⟩
    refine ⟨11, ?_, List.drop_left' (by simp [width, second.2.1])⟩
    rw [List.append_assoc, List.cons_append, escape?_unit (numeral.head_ne rfl _),
      fourDigitEscape?_eq_some_iff]
    refine ⟨digits, _, high, rfl, width, (number?_eq_some_iff numeral.unsigned).mpr numeral, ?_⟩
    rw [if_pos ⟨above, below⟩, pair]
    rfl
  | @codePoint digits _ code numeral small =>
    refine ⟨digits.length + 3, ?_, ?_⟩
    · rw [List.cons_append, List.cons_append, escape?_codePoint, bracedEscape?_eq_some_iff]
      exact ⟨digits, rest, code, rfl, (number?_eq_some_iff numeral.unsigned).mpr numeral, small, rfl⟩
    · rw [List.append_cons]
      exact List.drop_left' (by simp)
  | itself noBreak noOctal other => exact ⟨1, escape?_itself noBreak noOctal other rest, rfl⟩

/-- Octal digits always start an escape. Where three of them spell more than a byte, it has two. -/
theorem escaped_octal (isDigit : isOctalDigit c = true) (rest : List Char) :
    ∃ decoded more, Escaped (c :: rest) decoded more := by
  obtain ⟨code, numeral⟩ := exists_octal_numeral isDigit rest
  obtain ⟨behind, cut, short, -, ends⟩ := octalDigits_spec (c :: rest)
  generalize octalDigits (c :: rest) = digits at numeral cut short ends
  rw [cut]
  by_cases small : code < 256
  · exact ⟨_, behind, .octal numeral short small fun d wider next longer =>
      .inl (ends d next (isOctalDigit_iff.mpr (longer.digit (by simp))))⟩
  · have bound := numeral.lt
    cases numeral with
    | single _ below => omega
    | @push front value d digit inFront known below =>
      rw [List.length_append, List.length_singleton] at short
      have spelled := inFront.lt
      have limit : 8 ^ front.length ≤ 8 ^ 2 := Nat.pow_le_pow_right (by decide) (by omega)
      rw [List.append_assoc]
      refine ⟨_, [d] ++ behind, .octal inFront (by omega) (by omega) fun other wider next longer => ?_⟩
      -- The next digit is the one that would make the value too large.
      obtain rfl : d = other := Option.some.inj next
      obtain rfl := longer.unique (inFront.push known below)
      exact .inr (Nat.le_of_not_lt small)

/-- So does the mark of code points, four digits or a number in braces following. -/
theorem escaped_or_malformed_unicode (rest : List Char) :
    (∃ decoded more, Escaped ('u' :: rest) decoded more) ∨ Malformed ('u' :: rest) := by
  by_cases spelled : ∃ digits more code, rest = digits ++ more ∧ digits.length = 4
      ∧ Numeral 16 digits code
  · obtain ⟨digits, more, code, rfl, width, numeral⟩ := spelled
    by_cases pair : Half 0xD800 0xDBFF digits code
        ∧ ∃ other behind low, more = '\\' :: 'u' :: other ++ behind ∧ Half 0xDC00 0xDFFF other low
    · obtain ⟨first, other, behind, low, rfl, second⟩ := pair
      have escaped := @Escaped.surrogates digits other behind code low first second
      rw [List.append_assoc] at escaped
      exact .inl ⟨_, _, escaped⟩
    · exact .inl ⟨_, _, .unit numeral width pair⟩
  by_cases braced : ∃ digits more code, rest = '{' :: digits ++ '}' :: more ∧ Numeral 16 digits code
      ∧ code ≤ 0x10FFFF
  · obtain ⟨digits, more, code, rfl, numeral, small⟩ := braced
    exact .inl ⟨_, _, .codePoint numeral small⟩
  · refine .inr (.unicode (fun digits more code cut width numeral =>
      spelled ⟨digits, more, code, cut, width, numeral⟩) fun digits more code cut numeral => ?_)
    by_contra small
    exact braced ⟨digits, more, code, cut, numeral, Nat.le_of_not_lt small⟩

/-- Behind a backslash there is an escape or something malformed. -/
theorem escaped_or_malformed (text : List Char) :
    (∃ decoded rest, Escaped text decoded rest) ∨ Malformed text := by
  -- The first character tells what escape it can be.
  cases text with
  | nil => exact .inr .missing
  | cons c rest =>
    rcases firstCharacter_cases c with
      isBreak | ⟨value, known⟩ | isOctal | rfl | rfl | ⟨noBreak, noOctal, other⟩
    · by_cases pair : c = '\r' ∧ rest.head? = some '\n'
      · obtain ⟨rfl, follows⟩ := pair
        obtain ⟨more, rfl⟩ := List.head?_eq_some_iff.mp follows
        exact .inl ⟨_, _, .lineBreakPair⟩
      · exact .inl ⟨_, _, .lineBreak isBreak pair⟩
    · exact .inl ⟨_, _, .named known⟩
    · exact .inl (escaped_octal isOctal rest)
    · by_cases spelled : ∃ digits more code, rest = digits ++ more ∧ digits.length = 2
          ∧ Numeral 16 digits code
      · obtain ⟨digits, more, code, rfl, width, numeral⟩ := spelled
        exact .inl ⟨_, _, .byte numeral width⟩
      · exact .inr (.byte fun digits more code cut width numeral =>
          spelled ⟨digits, more, code, cut, width, numeral⟩)
    · exact escaped_or_malformed_unicode rest
    · exact .inl ⟨_, _, .itself noBreak noOctal other⟩

/-- What is malformed is not decoded, unless a sign makes it a number for the decoder. -/
theorem escape?_of_malformed (malformed : Malformed text) (agrees : ¬Deviating text) :
    escape? text = none := by
  -- Whatever was decoded would have digits that are not there.
  cases malformed with
  | missing => rfl
  | @byte rest noDigits =>
    rw [Option.eq_none_iff_forall_ne_some]
    intro escape found
    obtain ⟨digits, more, code, rfl, width, read, -⟩ := escape?_byte_eq_some_iff.mp found
    rcases numeral_of_number? read with numeral | ⟨tail, rfl, -⟩
    · exact noDigits digits more code rfl width numeral
    · exact agrees (.signedByte _)
  | @unicode rest noUnit noCodePoint =>
    rw [Option.eq_none_iff_forall_ne_some]
    intro escape found
    by_cases brace : rest.head? = some '{'
    · obtain ⟨inside, rfl⟩ := List.head?_eq_some_iff.mp brace
      rw [escape?_codePoint, bracedEscape?_eq_some_iff] at found
      obtain ⟨digits, more, code, rfl, read, small, -⟩ := found
      rcases numeral_of_number? read with numeral | ⟨tail, rfl, -⟩
      · exact absurd (noCodePoint digits more code rfl numeral) (Nat.not_lt.mpr small)
      · exact agrees (.signedCodePoint _)
    · rw [escape?_unit brace, fourDigitEscape?_eq_some_iff] at found
      obtain ⟨digits, more, code, rfl, width, read, -⟩ := found
      rcases numeral_of_number? read with numeral | ⟨tail, rfl, -⟩
      · exact noUnit digits more code rfl width numeral
      · exact agrees (.signedUnit _)

section Deviations

variable {digits : List Char} {code : Nat}

example : cook? "\\400" = some "\u0100" := by
  decide +kernel

end Deviations

section Contents

variable {raw value : List Char} {property : List Char → Prop}

/-- An escape of the grammar is decoded, and then what follows it. -/
theorem cookFrom?_of_escaped {decoded : Option Char} (escaped : Escaped text decoded rest)
    (agrees : ¬Deviating text) :
    cookFrom? 0 ('\\' :: text) = (cookFrom? 0 rest).map (decoded.toList ++ ·) := by
  obtain ⟨size, found, rfl⟩ := escape?_of_escaped escaped agrees
  rw [cookFrom?, if_pos rfl, found]
  simp [cookFrom?_pending size]

/-- A string with a value is decoded to it. -/
theorem cookFrom?_of_stringValue (isValue : StringValue raw value)
    (agrees : ¬HasEscape Deviating raw) : cookFrom? 0 raw = some value := by
  induction isValue with
  | nil => rfl
  | plain plain _ ih =>
    rw [cookFrom?_plain plain, ih fun inside => agrees (.plain plain inside), Option.map_some]
  | escape escaped _ ih =>
    rw [cookFrom?_of_escaped escaped fun differs => agrees (.here differs),
      ih fun inside => agrees (.escape escaped inside), Option.map_some]

/-- A string with a malformed escape is not decoded. -/
theorem cookFrom?_of_malformed (isBroken : HasEscape Malformed raw)
    (agrees : ¬HasEscape Deviating raw) : cookFrom? 0 raw = none := by
  induction isBroken with
  | here malformed =>
    rw [cookFrom?, if_pos rfl, escape?_of_malformed malformed fun differs => agrees (.here differs)]
  | plain plain _ ih =>
    rw [cookFrom?_plain plain, ih fun inside => agrees (.plain plain inside), Option.map_none]
  | escape escaped _ ih =>
    rw [cookFrom?_of_escaped escaped fun differs => agrees (.here differs),
      ih fun inside => agrees (.escape escaped inside), Option.map_none]

/-- An escape takes at least one character. -/
theorem Escaped.length_lt {decoded : Option Char} (escaped : Escaped text decoded rest) :
    rest.length < text.length := by
  cases escaped
  case octal digits code numeral _ _ _ =>
    have positive := List.length_pos_iff.mpr numeral.ne_nil
    simp only [List.length_append]
    omega
  all_goals simp only [List.length_cons, List.length_append]; omega

/-- The grammar gives every text a value unless one of its escapes is malformed. -/
theorem stringValue_or_malformed (raw : List Char) :
    (∃ value, StringValue raw value) ∨ HasEscape Malformed raw := by
  -- What stands behind the first character or the first escape is shorter.
  induction size : raw.length using Nat.strong_induction_on generalizing raw with
  | _ size ih =>
    subst size
    cases raw with
    | nil => exact .inl ⟨[], .nil⟩
    | cons c behind =>
      by_cases plain : c = '\\'
      · subst plain
        rcases escaped_or_malformed behind with ⟨decoded, rest, escaped⟩ | malformed
        · have shorter := escaped.length_lt
          rcases ih rest.length (by simp only [List.length_cons]; omega) rest rfl with
            ⟨value, isValue⟩ | broken
          · exact .inl ⟨_, .escape escaped isValue⟩
          · exact .inr (.escape escaped broken)
        · exact .inr (.here malformed)
      · rcases ih behind.length (Nat.lt_succ_self _) behind rfl with ⟨value, isValue⟩ | broken
        · exact .inl ⟨_, .plain plain isValue⟩
        · exact .inr (.plain plain broken)

end Contents

/-- Decoding gives the value of a string, and nothing for a string with a malformed escape. -/
theorem cook?_stringValue (raw : String) (agrees : ¬HasEscape Deviating raw.toList) :
    (∀ value, cook? raw = some value ↔ StringValue raw.toList value.toList)
      ∧ (cook? raw = none ↔ HasEscape Malformed raw.toList) := by
  -- Every text has a value or is malformed, and either is found.
  have found {value : List Char} (isValue : StringValue raw.toList value) :
      cook? raw = some (String.ofList value) := by
    rw [cook?_eq, cookFrom?_of_stringValue isValue agrees, Option.map_some]
  have refused (broken : HasEscape Malformed raw.toList) : cook? raw = none := by
    rw [cook?_eq, cookFrom?_of_malformed broken agrees, Option.map_none]
  constructor
  · intro value
    constructor
    · intro cooked
      rcases stringValue_or_malformed raw.toList with ⟨other, isValue⟩ | broken
      · obtain rfl := Option.some.inj (cooked.symm.trans (found isValue))
        simpa using isValue
      · rw [refused broken] at cooked
        cases cooked
    · intro isValue
      simpa using found isValue
  · refine ⟨fun none => ?_, refused⟩
    rcases stringValue_or_malformed raw.toList with ⟨value, isValue⟩ | broken
    · rw [found isValue] at none
      cases none
    · exact broken

/-- A letter and the escape of a line feed. -/
theorem cook?_stringValue_lineFeed :
    ¬HasEscape Deviating "a\\n".toList
      ∧ (∀ value, cook? "a\\n" = some value ↔ StringValue "a\\n".toList value.toList)
      ∧ (cook? "a\\n" = none ↔ HasEscape Malformed "a\\n".toList) := by
  have isOrdinary {text : List Char} (deviates : Deviating text) : text ≠ ['n'] := by
    cases deviates with
    | signedByte | signedUnit | signedCodePoint => simp
    | wideOctal rest numeral width wide =>
      intro same
      have short := congrArg List.length same
      rw [List.length_append, width, List.length_singleton] at short
      omega
  have agrees : ¬HasEscape Deviating ['a', '\\', 'n'] := by
    intro inside
    cases inside with
    | plain _ inEscape =>
      cases inEscape with
      | here deviates => exact isOrdinary deviates rfl
      | plain other _ => exact other rfl
      | escape escaped behind =>
        -- Nothing is left behind the escape.
        obtain rfl := List.length_eq_zero_iff.mp (Nat.lt_one_iff.mp escaped.length_lt)
        cases behind
  exact ⟨agrees, cook?_stringValue _ agrees⟩

end Downlevel.Text
