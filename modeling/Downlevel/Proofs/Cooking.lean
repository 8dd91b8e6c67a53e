import Downlevel.Proofs.Slices
import Downlevel.Text.Escape

/-! The escapes of a literal once more, with their sizes counted in characters instead of bytes. All
slices that decoding takes are there, and its rounds are enough. -/

namespace Downlevel.Text

/-- The low half of a surrogate pair, spelled by the six characters in front of the text. -/
def lowSurrogate? : List Char → Option Nat
  | '\\' :: 'u' :: rest => do
    if rest.length < 4 then none
    let code ← number? 16 (rest.take 4)
    if 0xDC00 ≤ code && code ≤ 0xDFFF then some code else none
  | _ => none

/-- An escape of four digits. Two of them that form a surrogate pair decode to one character. -/
def fourDigitEscape? (rest : List Char) : Option Escape := do
  if rest.length < 4 then none
  let code ← number? 16 (rest.take 4)
  if 0xD800 ≤ code && code ≤ 0xDBFF then
    if let some low := lowSurrogate? (rest.drop 4) then
      return ⟨11, some (charOrReplacement (0x10000 + (code - 0xD800) * 0x400 + (low - 0xDC00)))⟩
  return ⟨5, some (charOrReplacement code)⟩

/-- An escape with its digits in braces, after the opening brace. -/
def bracedEscape? (rest : List Char) : Option Escape := do
  let digits := rest.takeWhile (· != '}')
  if digits.length = rest.length then none
  let code ← number? 16 digits
  if code ≤ 0x10FFFF then some ⟨digits.length + 3, some (charOrReplacement code)⟩ else none

/-- Decodes the escape after a backslash. Characters without a meaning of their own stand for
themselves. -/
def escape? : List Char → Option Escape
  | [] => none
  | c :: rest =>
    if c = '\r' then
      -- A carriage return takes a line feed along.
      some ⟨if rest.head? = some '\n' then 2 else 1, none⟩
    else if isLineTerminator c then
      some ⟨1, none⟩
    else if c = 'b' then some ⟨1, some '\x08'⟩
    else if c = 'f' then some ⟨1, some '\x0c'⟩
    else if c = 'n' then some ⟨1, some '\n'⟩
    else if c = 'r' then some ⟨1, some '\r'⟩
    else if c = 't' then some ⟨1, some '\t'⟩
    else if c = 'v' then some ⟨1, some '\x0b'⟩
    else if isOctalDigit c then do
      let digits := ((c :: rest).take 3).takeWhile isOctalDigit
      let code ← number? 8 digits
      return ⟨digits.length, some (charOrReplacement code)⟩
    else if c = 'x' then do
      if rest.length < 2 then none
      let code ← number? 16 (rest.take 2)
      return ⟨3, some (charOrReplacement code)⟩
    else if c = 'u' then
      match rest with
      | '{' :: inner => bracedEscape? inner
      | _ => fourDigitEscape? rest
    else
      some ⟨1, some c⟩

/-- Decodes a text of which `pending` characters belong to an escape that is already decoded. -/
def cookFrom? : (pending : Nat) → List Char → Option (List Char)
  | _, [] => some []
  | pending + 1, _ :: rest => cookFrom? pending rest
  | 0, c :: rest =>
    if c = '\\' then
      match escape? rest with
      | some escape => (cookFrom? escape.size rest).map (escape.decoded.toList ++ ·)
      | none => none
    else
      (cookFrom? 0 rest).map (c :: ·)

/-! ### Numbers -/

variable {c : Char} {text front rest : List Char} {radix value : Nat}

/-- Digits are ASCII characters. -/
theorem isAscii_of_digitValue? (digit : digitValue? c = some value) : isAscii c = true := by
  unfold digitValue? at digit
  split at digit
  · rename_i decimal
    exact (spelledBy_range '0' '9' rfl rfl).ascii c decimal
  · split at digit
    · rename_i lower
      exact (spelledBy_range 'a' 'f' rfl rfl).ascii c lower
    · split at digit
      · rename_i upper
        exact (spelledBy_range 'A' 'F' rfl rfl).ascii c upper
      · cases digit

/-- What is read as a number is made of ASCII. -/
theorem isAscii_of_digitsValue? {soFar : Nat} (number : digitsValue? radix soFar text = some value) :
    ∀ c ∈ text, isAscii c = true := by
  induction text generalizing soFar with
  | nil => exact nofun
  | cons c rest ih =>
    rw [digitsValue?] at number
    split at number
    · rename_i digit found
      split at number
      · exact List.forall_mem_cons.mpr ⟨isAscii_of_digitValue? found, ih number⟩
      · cases number
    · cases number

/-- So is all that a number is made of. -/
theorem isAscii_of_number? (number : number? radix text = some value) :
    ∀ c ∈ text, isAscii c = true := by
  have digits {text : List Char}
      (number : (if text.isEmpty then none else digitsValue? radix 0 text) = some value) :
      ∀ c ∈ text, isAscii c = true := by
    split at number
    · cases number
    · exact isAscii_of_digitsValue? number
  by_cases signed : text.head? = some '+'
  · obtain ⟨rest, rfl⟩ := List.head?_eq_some_iff.mp signed
    exact List.forall_mem_cons.mpr ⟨rfl, digits number⟩
  · rw [number?, if_neg signed] at number
    exact digits number

/-! ### Slices of the text behind a backslash -/

/-- A slice that starts behind some characters is cut off what follows them. -/
theorem slice?_append (front rest : List Char) (count : Nat) :
    slice? (byteSize front) (byteSize front + count) (front ++ rest)
      = (splitBytes? count rest).map Prod.fst := by
  simp only [slice?, splitBytes?_append, Nat.add_sub_cancel_left, Option.bind_eq_bind,
    Option.bind_some]
  cases splitBytes? count rest <;> rfl

/-- So many bytes behind some characters spell a number exactly if so many characters do, all of which
are ASCII. -/
theorem slice?_number? (front rest : List Char) (count : Nat) :
    (slice? (byteSize front) (byteSize front + count) (front ++ rest)).bind (number? radix)
      = if rest.length < count then none else number? radix (rest.take count) := by
  -- A numeral is narrow, so its characters and its bytes are as many.
  have size {digits : List Char} {value : Nat} (number : number? radix digits = some value) :
      byteSize digits = digits.length :=
    byteSize_of_isAscii (isAscii_of_number? number)
  rw [slice?_append]
  refine Option.ext fun value => ?_
  rw [Option.bind_eq_some_iff]
  constructor
  · rintro ⟨_, found, number⟩
    obtain ⟨⟨digits, back⟩, cut, rfl⟩ := Option.map_eq_some_iff.mp found
    obtain ⟨rfl, width⟩ := eq_append_of_splitBytes? cut
    have width : digits.length = count := (size number).symm.trans width
    rw [if_neg (by rw [List.length_append]; omega), ← width, List.take_left]
    exact number
  · intro number
    split at number
    · cases number
    · rename_i enough
      have width : byteSize (rest.take count) = count := by
        rw [size number, List.length_take]
        omega
      have cut := splitBytes?_append (rest.take count) (rest.drop count)
      rw [width, List.take_append_drop] at cut
      exact ⟨_, by rw [cut]; rfl, number⟩

/-! ### One escape -/

/-- The low half of a pair stands behind four digits, which are four bytes. -/
theorem lowHalf?_append (width : byteSize front = 4) (rest : List Char) :
    lowHalf? (front ++ rest) = lowSurrogate? rest := by
  have cut := slice?_append front rest 6
  rw [width] at cut
  unfold lowHalf? lowSurrogate?
  rw [cut]
  split
  · rename_i more
    -- Behind the backslash and the letter are four more bytes.
    have inner : (splitBytes? 6 ('\\' :: 'u' :: more)).map Prod.fst
        = (slice? 0 4 more).map fun digits => '\\' :: 'u' :: digits := by
      rw [show slice? 0 4 more = _ from slice?_append [] more 4]
      show ((((splitBytes? 4 more).map _).map _).map _) = _
      cases splitBytes? 4 more <;> rfl
    have digits : (slice? 0 4 more).bind (number? 16)
        = if more.length < 4 then none else number? 16 (more.take 4) :=
      slice?_number? [] more 4
    rw [inner, Option.bind_eq_bind, Option.bind_map]
    show (slice? 0 4 more).bind (fun digits => (number? 16 digits).bind _) = _
    rw [← Option.bind_assoc, digits]
    split <;> rfl
  · rename_i other
    cases found : splitBytes? 6 rest with
    | none => rfl
    | some parts =>
      obtain ⟨inside, back⟩ := parts
      obtain ⟨rfl, -⟩ := eq_append_of_splitBytes? found
      simp only [Option.map_some, Option.bind_eq_bind, Option.bind_some]
      split
      · exact (other _ rfl).elim
      · rfl

/-- An escape of four digits takes as many bytes as characters. -/
theorem decodeFourDigits?_eq (text : List Char) :
    decodeFourDigits? text = fourDigitEscape? text := by
  have cut : (slice? 0 4 text).bind (number? 16)
      = if text.length < 4 then none else number? 16 (text.take 4) :=
    slice?_number? [] text 4
  -- The low half is looked for behind the digits, at the same place in both readings.
  have pair {code : Nat} (number : number? 16 (text.take 4) = some code) (enough : ¬text.length < 4) :
      lowHalf? text = lowSurrogate? (text.drop 4) := by
    have width : byteSize (text.take 4) = 4 := by
      rw [byteSize_of_isAscii (isAscii_of_number? number), List.length_take]
      omega
    have half := lowHalf?_append width (text.drop 4)
    rwa [List.take_append_drop] at half
  unfold decodeFourDigits? fourDigitEscape?
  rw [Option.bind_eq_bind]
  show (slice? 0 4 text).bind (fun digits => (number? 16 digits).bind _) = _
  rw [← Option.bind_assoc, cut]
  split
  · rfl
  · rename_i enough
    cases number : number? 16 (text.take 4) with
    | none => rfl
    | some code =>
      simp only [Option.bind_some, pair number enough]
      rfl

/-- The same escape with its size in bytes; its characters start the text. -/
def Escape.inBytes (text : List Char) (escape : Escape) : Escape :=
  { escape with size := byteSize (text.take escape.size) }

/-- The digits of an escape in braces end at the first closing brace. -/
theorem decodeBraced_eq (text : List Char) :
    decodeBraced text = .ok ((bracedEscape? text).map (Escape.inBytes ('u' :: '{' :: text))) := by
  have apart {digits : List Char} (inside : ∀ c ∈ digits, c ∉ ['}']) :
      ∀ c ∈ digits, (c != '}') = true :=
    fun c member => by simpa using inside c member
  -- Without a closing brace both readings give up; with one they read what is in front of it.
  rcases findByte?_cases ['}'] (by simp [isAscii]) text with
    ⟨none, inside⟩ | ⟨digits, stop, rest, rfl, inside, isStop, found⟩
  · have whole : text.takeWhile (· != '}') = text := by
      have front := @List.takeWhile_append_of_pos _ _ text [] (apart inside)
      simpa using front
    simp [decodeBraced, bracedEscape?, none, whole, pure, Except.pure]
  · obtain rfl := List.mem_singleton.mp isStop
    have front : (digits ++ '}' :: rest).takeWhile (· != '}') = digits := by
      rw [List.takeWhile_append_of_pos (apart inside), List.takeWhile_cons_of_neg (by decide),
        List.append_nil]
    have open_ : digits.length ≠ (digits ++ '}' :: rest).length := by simp
    have size (decoded : Option Char) :
        Escape.inBytes ('u' :: '{' :: (digits ++ '}' :: rest)) ⟨digits.length + 3, decoded⟩
          = ⟨byteSize digits + 3, decoded⟩ := by
      have mark : ('}' : Char).utf8Size = 1 := rfl
      have letter : ('u' : Char).utf8Size = 1 := rfl
      have brace : ('{' : Char).utf8Size = 1 := rfl
      rw [Escape.inBytes, List.take_succ_cons, List.take_succ_cons, List.take_length_add_append]
      simp [byteSize, mark, letter, brace]
      omega
    have cut := takeBytes_append digits ('}' :: rest)
    simp only [decodeBraced, bracedEscape?, found, front, if_neg open_, cut, bind, Except.bind,
      pure, Except.pure]
    cases number? 16 digits with
    | none => rfl
    | some code =>
      simp only [Option.bind_some]
      split
      · rw [Option.map_some, size]
      · rfl

/-- A carriage return and the line feed that it takes along are one byte each. -/
theorem inBytes_return (rest : List Char) :
    Escape.inBytes ('\r' :: rest) ⟨if rest.head? = some '\n' then 2 else 1, none⟩
      = ⟨if rest.head? = some '\n' then 2 else 1, none⟩ := by
  split
  · rename_i feed
    obtain ⟨more, rfl⟩ := List.head?_eq_some_iff.mp feed
    rfl
  · rfl

/-- Behind the letter come ASCII characters. -/
theorem inBytes_of_isAscii {letter : Char} {decoded : Option Char} {count : Nat}
    (ascii : ∀ c ∈ rest.take count, isAscii c = true) (enough : count ≤ rest.length) 
    (narrow : letter.utf8Size = 1) :
    Escape.inBytes (letter :: rest) ⟨count + 1, decoded⟩ = ⟨count + 1, decoded⟩ := by
  rw [Escape.inBytes, List.take_succ_cons, byteSize, narrow, byteSize_of_isAscii ascii,
    List.length_take, Nat.min_eq_left enough, Nat.add_comm]

/-- The second half of a pair is spelled by six ASCII characters. -/
theorem isAscii_of_lowSurrogate? {low : Nat} (half : lowSurrogate? text = some low) :
    6 ≤ text.length ∧ ∀ c ∈ text.take 6, isAscii c = true := by
  unfold lowSurrogate? at half
  split at half
  · rename_i more
    -- The escape of a low half is two marks and four digits, all of them narrow.
    by_cases enough : more.length < 4
    · simp [enough] at half
    · cases number : number? 16 (more.take 4) with
      | none => simp [number] at half
      | some code =>
        have digits := isAscii_of_number? number
        refine ⟨by simp only [List.length_cons]; omega, ?_⟩
        exact List.forall_mem_cons.mpr ⟨rfl, List.forall_mem_cons.mpr ⟨rfl, digits⟩⟩
  · cases half

/-- Four digits are ASCII characters, and so is the second half of a pair. -/
theorem inBytes_of_fourDigitEscape? {escape : Escape} (found : fourDigitEscape? text = some escape) :
    escape.inBytes ('u' :: text) = escape := by
  by_cases enough : text.length < 4
  · simp [fourDigitEscape?, enough] at found
  cases number : number? 16 (text.take 4) with
  | none => simp [fourDigitEscape?, number] at found
  | some code =>
    have digits := isAscii_of_number? number
    -- An escape of digits alone is as long in bytes as in characters.
    have four {decoded : Option Char} : Escape.inBytes ('u' :: text) ⟨5, decoded⟩ = ⟨5, decoded⟩ :=
      inBytes_of_isAscii digits (Nat.le_of_not_lt enough) rfl
    have eleven {decoded : Option Char} {low : Nat}
        (half : lowSurrogate? (text.drop 4) = some low) :
        Escape.inBytes ('u' :: text) ⟨11, decoded⟩ = ⟨11, decoded⟩ := by
      obtain ⟨more, others⟩ := isAscii_of_lowSurrogate? half
      rw [List.length_drop] at more
      have all : ∀ c ∈ text.take (4 + 6), isAscii c = true := by
        rw [List.take_add]
        exact List.forall_mem_append.mpr ⟨digits, others⟩
      exact inBytes_of_isAscii all (by omega) rfl
    simp only [fourDigitEscape?, if_neg enough, number, bind, Option.bind_some, pure] at found
    split at found
    · split at found
      · rename_i half
        cases found
        exact eleven half
      · cases found
        exact four
    · cases found
      exact four

/-- The bytes of octal digits. -/
theorem spelledBy_isOctalByte : SpelledBy isOctalByte isOctalDigit :=
  spelledBy_range '0' '7' rfl rfl

/-- So many bytes are octal digits as characters are, up to three. -/
theorem length_octal (text : List Char) :
    (((utf8 text).take 3).takeWhile isOctalByte).length
      = ((text.take 3).takeWhile isOctalDigit).length := by
  rw [← List.take_takeWhile, ← List.take_takeWhile, List.length_take, List.length_take,
    spelledBy_isOctalByte.length_takeWhile]

/-- Octal digits take one byte each. -/
theorem byteSize_octal (text : List Char) :
    byteSize ((text.take 3).takeWhile isOctalDigit)
      = ((text.take 3).takeWhile isOctalDigit).length :=
  spelledBy_isOctalByte.byteSize_takeWhile _

/-- The octal digits start the text. -/
theorem take_length_octal (text : List Char) :
    text.take ((text.take 3).takeWhile isOctalDigit).length
      = (text.take 3).takeWhile isOctalDigit :=
  (List.prefix_iff_eq_take.mp ((List.takeWhile_prefix _).trans (List.take_prefix ..))).symm

/-- An escape is read from slices that are all there. -/
theorem decodeEscape_eq (text : List Char) :
    decodeEscape text = .ok ((escape? text).map (Escape.inBytes text)) := by
  cases text with
  | nil => rfl
  | cons c rest =>
    have one (decoded : Option Char) :
        Escape.inBytes (c :: rest) ⟨1, decoded⟩ = ⟨c.utf8Size, decoded⟩ := by
      simp [Escape.inBytes, byteSize]
    -- A letter with a meaning of its own is one byte.
    have named {letter decoded : Char} (narrow : letter.utf8Size = 1)
        {others : Except Misread (Option Escape)} {othersToo : Option Escape}
        (same : others = .ok (othersToo.map (Escape.inBytes (c :: rest)))) :
        (if c = letter then .ok (some ⟨1, some decoded⟩) else others)
          = .ok ((if c = letter then some ⟨1, some decoded⟩ else othersToo).map
              (Escape.inBytes (c :: rest))) := by
      split
      · rename_i isLetter
        rw [Option.map_some, one, isLetter, narrow]
      · exact same
    unfold decodeEscape escape?
    dsimp only [List.head?_cons]
    by_cases isReturn : c = '\r'
    · subst isReturn
      have cut : dropBytes 1 ('\r' :: rest) = .ok rest := dropBytes_append ['\r'] rest
      rw [if_pos rfl, if_pos rfl, cut, Option.map_some, inBytes_return]
      rfl
    rw [if_neg isReturn, if_neg isReturn]
    by_cases breaks : isLineTerminator c = true
    · rw [if_pos breaks, if_pos breaks, Option.map_some, one]
      rfl
    rw [if_neg breaks, if_neg breaks]
    iterate 6 refine named rfl ?_
    by_cases octal : isOctalDigit c = true
    · have cut := takeBytes_take ((List.take 3 (c :: rest)).takeWhile isOctalDigit).length (c :: rest)
      rw [take_length_octal, byteSize_octal] at cut
      rw [if_pos octal, if_pos octal, length_octal, cut]
      simp only [bind, Except.bind, pure, Except.pure]
      cases number? 8 ((List.take 3 (c :: rest)).takeWhile isOctalDigit) with
      | none => rfl
      | some code =>
        simp only [Option.map_some, Option.bind_some, Escape.inBytes, take_length_octal,
          byteSize_octal]
    rw [if_neg octal, if_neg octal]
    by_cases letter : c = 'x'
    · subst letter
      have digits : (slice? 1 3 ('x' :: rest)).bind (number? 16)
          = if rest.length < 2 then none else number? 16 (rest.take 2) :=
        slice?_number? ['x'] rest 2
      rw [if_pos rfl, if_pos rfl, digits]
      split
      · rfl
      · rename_i enough
        simp only [bind, pure, Except.pure]
        cases number : number? 16 (rest.take 2) with
        | none => rfl
        | some code =>
          rw [Option.bind_some, Option.map_some, Option.map_some,
            inBytes_of_isAscii (isAscii_of_number? number) (Nat.le_of_not_lt enough) rfl]
    rw [if_neg letter, if_neg letter]
    by_cases letter : c = 'u'
    · subst letter
      have cut : dropBytes 1 ('u' :: rest) = .ok rest := dropBytes_append ['u'] rest
      rw [if_pos rfl, if_pos rfl, cut]
      simp only [bind, Except.bind, pure, Except.pure]
      split
      · exact decodeBraced_eq _
      · rename_i plain
        rw [decodeFourDigits?_eq]
        cases found : fourDigitEscape? rest with
        | none => simp
        | some escape => simp [inBytes_of_fourDigitEscape? found]
    rw [if_neg letter, if_neg letter, Option.map_some, one]
    rfl

/-! ### A whole text -/

/-- Characters of an escape that is decoded already are passed over. -/
theorem cookFrom?_pending (pending : Nat) (text : List Char) :
    cookFrom? pending text = cookFrom? 0 (text.drop pending) := by
  induction text generalizing pending with
  | nil => simp [cookFrom?]
  | cons c rest ih =>
    cases pending with
    | zero => rfl
    | succ pending => rw [cookFrom?, ih, List.drop_succ_cons]

/-- Every character but a backslash stands for itself. -/
theorem cookFrom?_plain (plain : c ≠ '\\') (raw : List Char) :
    cookFrom? 0 (c :: raw) = (cookFrom? 0 raw).map (c :: ·) := by
  rw [cookFrom?, if_neg plain]

/-- Text without escapes is decoded to itself. -/
theorem cookFrom?_append {front : List Char} (plain : ∀ c ∈ front, c ∉ ['\\']) (raw : List Char) :
    cookFrom? 0 (front ++ raw) = (cookFrom? 0 raw).map (front ++ ·) := by
  induction front with
  | nil => simp
  | cons c rest ih =>
    obtain ⟨first, others⟩ := List.forall_mem_cons.mp plain
    rw [List.cons_append, cookFrom?_plain (by simpa using first), ih others, Option.map_map]
    rfl

/-- Decoding takes slices that are all there, and comes to its end in fewer rounds than there are
characters. -/
theorem cookFrom_eq {fuel : Nat} (enough : text.length < fuel) :
    cookFrom fuel text = .ok (cookFrom? 0 text) := by
  -- By induction on the rounds. Each of them goes over a backslash at least.
  induction fuel generalizing text with
  | zero => exact absurd enough (Nat.not_lt_zero _)
  | succ fuel ih =>
    rw [cookFrom]
    rcases findByte?_cases ['\\'] (by simp [isAscii]) text with
      ⟨none, plain⟩ | ⟨front, stop, rest, rfl, plain, isStop, found⟩
    · have whole := cookFrom?_append plain []
      rw [List.append_nil] at whole
      rw [none, whole]
      simp [cookFrom?, pure, Except.pure]
    · obtain rfl := List.mem_singleton.mp isStop
      have mark : ('\\' : Char).utf8Size = 1 := rfl
      have behind : dropBytes (byteSize front + 1) (front ++ '\\' :: rest) = .ok rest := by
        have cut := dropBytes_append (front ++ ['\\']) rest
        rwa [byteSize_append, List.append_assoc] at cut
      rw [found, cookFrom?_append plain, cookFrom?, if_pos rfl]
      simp only [takeBytes_append, behind, decodeEscape_eq, bind, Except.bind]
      cases escape? rest with
      | none => rfl
      | some escape =>
        have later : dropBytes (byteSize front + 1 + byteSize (rest.take escape.size))
            (front ++ '\\' :: rest) = .ok (rest.drop escape.size) := by
          have cut := dropBytes_append (front ++ '\\' :: rest.take escape.size)
            (rest.drop escape.size)
          simpa [byteSize_append, byteSize, mark, Nat.add_assoc] using cut
        have fewer : (rest.drop escape.size).length < fuel := by
          simp only [List.length_append, List.length_cons, List.length_drop] at enough ⊢
          omega
        simp only [Option.map_some, Escape.inBytes, later, ih fewer, cookFrom?_pending escape.size,
          pure, Except.pure, Option.map_map]
        simp [Function.comp_def]

/-- Decoding never takes a slice that is not there, and gives what decoding by characters gives. -/
theorem cook_eq (raw : String) :
    cook raw = .ok ((cookFrom? 0 raw.toList).map String.ofList) := by
  rw [cook, cookFrom_eq (Nat.lt_succ_self _)]
  rfl

/-- A text is decoded from its start. -/
theorem cook?_eq (raw : String) : cook? raw = (cookFrom? 0 raw.toList).map String.ofList := by
  rw [cook?, cook_eq]
  rfl

/-- What decoding gives is known. -/
theorem cook_eq_ok (raw : String) : cook raw = .ok (cook? raw) := by
  rw [cook?_eq, cook_eq]

end Downlevel.Text
