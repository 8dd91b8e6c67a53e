import Downlevel.Proofs.RoundTrip.Scans

/-! How far the scanners reach: never past the text, and always past its first character. -/

namespace Downlevel

namespace Punctuator

/-- The search for the longest of several candidates finds one of them, or what it started from. -/
theorem mem_of_foldl_longer {candidates : List Punctuator} {best : Option Punctuator}
    {mark : Punctuator} (found : candidates.foldl longer best = some mark) :
    best = some mark ∨ mark ∈ candidates := by
  induction candidates generalizing best with
  | nil => exact .inl found
  -- The fold goes on with the longer one of two, so it ends with what it had or with a candidate.
  | cons next rest ih =>
    rcases ih found with kept | mem
    · -- The better of two is one of the two.
      simp only [longer] at kept
      split at kept
      · cases kept
        exact .inr (List.mem_cons_self ..)
      · split at kept
        · cases kept
          exact .inr (List.mem_cons_self ..)
        · exact .inl kept
    · exact .inr (List.mem_cons_of_mem _ mem)

/-- The longest punctuator of a text starts it. -/
theorem isPrefix_of_longest? {text : List Char} {mark : Punctuator}
    (found : longest? text = some mark) : mark.text.toList <+: text := by
  rcases mem_of_foldl_longer found with none | mem
  · cases none
  · exact List.isPrefixOf_iff_prefix.mp (List.mem_filter.mp mem).2

/-- Every mark has a text. -/
theorem length_text_pos (mark : Punctuator) : 0 < mark.text.length := by
  cases mark <;> decide

end Punctuator

namespace Lexer

open Text

/-- A token that was found inside a text: it stays there, it is not the mark of the end, and it is
empty only where the text is malformed from its first character on. -/
structure Scan.Fits (found : Scan) (text : List Char) : Prop where
  inside : found.size ≤ text.length
  goesOn : found.kind ≠ .eof
  advances : found.kind ≠ .invalid → 0 < found.size

namespace Scan.Fits

variable {found : Scan} {front text : List Char}

/-- Characters in front of a token belong to it. -/
theorem extend (fits : found.Fits text) {count : Nat} (length : front.length = count) :
    (found.extend count).Fits (front ++ text) where
  inside := by
    have inside := fits.inside
    simp only [Scan.extend, List.length_append]
    omega
  goesOn := fits.goesOn
  advances valid := Nat.lt_of_lt_of_le (fits.advances valid) (Nat.le_add_left ..)

/-- One character in front. -/
theorem extend_one (fits : found.Fits text) (c : Char) : (found.extend 1).Fits (c :: text) :=
  @extend found [c] text fits 1 rfl

/-- Two characters in front. -/
theorem extend_two (fits : found.Fits text) (c d : Char) :
    (found.extend 2).Fits (c :: d :: text) :=
  @extend found [c, d] text fits 2 rfl

/-- Malformed text may end anywhere inside. -/
theorem invalid {size : Nat} (inside : size ≤ text.length) : (Scan.mk .invalid size).Fits text :=
  ⟨inside, nofun, fun valid => absurd rfl valid⟩

end Scan.Fits

/-- Template text ends inside the text. -/
theorem templateText_fits (text : List Char) : (templateText text).Fits text := by
  fun_induction templateText text with
  | case1 => exact .invalid (Nat.le_refl 0)
  | case2 rest => exact ⟨by simp, by simp, fun _ => Nat.one_pos⟩
  | case3 => exact .invalid (Nat.le_refl 1)
  | case4 _ next rest ih => exact ih.extend_two _ _
  | case5 c rest _ _ opens =>
    obtain ⟨tail, rfl⟩ := List.head?_eq_some_iff.mp opens.2
    exact ⟨by simp, by simp, fun _ => Nat.two_pos⟩
  | case6 c rest _ _ _ ih => exact ih.extend_one c

/-- So does a string. -/
theorem stringTail_fits (quote : Char) (text : List Char) :
    (stringTail quote text).Fits text := by
  fun_induction stringTail quote text with
  | case1 => exact .invalid (Nat.le_refl 0)
  | case2 rest => exact ⟨by simp, by simp, fun _ => Nat.one_pos⟩
  | case3 => exact .invalid (Nat.zero_le _)
  | case4 => exact .invalid (Nat.le_refl 1)
  | case5 => exact Scan.Fits.extend_two (by assumption) _ _
  | case6 c rest _ _ _ ih => exact ih.extend_one c

/-- So does a regular expression with its flags. -/
theorem regexTail_fits (inClass : Bool) (text : List Char) :
    (regexTail inClass text).Fits text := by
  -- A regular expression that a line break or the end cuts off is invalid; else it takes what it
  -- has looked at.
  fun_induction regexTail inClass text with
  | case1 => exact .invalid (Nat.le_refl 0)
  | case2 => exact .invalid (Nat.succ_le_succ (Nat.zero_le _))
  | case3 => exact .invalid (Nat.le_refl 1)
  | case4 => exact .invalid (by simp)
  | case5 _ _ escaped rest _ ih => exact ih.extend_two _ _
  | case6 _ rest _ _ ih => exact ih.extend_one _
  | case7 _ rest _ _ _ ih => exact ih.extend_one _
  | case8 inClass c rest =>
    have flags := (List.takeWhile_sublist isWordPart (l := rest)).length_le
    exact ⟨Nat.succ_le_succ flags, by simp, fun _ => Nat.succ_pos _⟩
  | case9 _ c rest _ _ _ _ _ ih => exact ih.extend_one c

/-- A string ends inside of its text. -/
theorem string_fits (text : List Char) : (string text).Fits text := by
  cases text with
  | nil => exact .invalid (Nat.le_refl 0)
  | cons quote rest => exact (stringTail_fits quote rest).extend_one quote

/-- A number with a radix mark holds at least the mark. -/
theorem radixNumber_fits (isRadixDigit : Char → Bool) (zero mark : Char) (rest : List Char) :
    (radixNumber isRadixDigit (zero :: mark :: rest)).Fits (zero :: mark :: rest) := by
  have digits := (List.takeWhile_sublist isRadixDigit (l := rest)).length_le
  unfold radixNumber
  dsimp only [List.drop_succ_cons, List.drop_zero]
  split
  · rename_i big
    -- The mark of a big integer stands inside the text.
    obtain ⟨tail, cut⟩ := List.head?_eq_some_iff.mp big
    have left := congrArg List.length cut
    simp only [List.length_drop, List.length_cons] at left
    exact ⟨by simp only [List.length_cons]; omega, nofun, fun _ => Nat.succ_pos _⟩
  · exact ⟨Nat.add_le_add_right digits 2, nofun, fun _ => Nat.succ_pos _⟩

/-- An exponent ends inside the text. Without its mark it is empty. -/
theorem exponent_inside (text : List Char) :
    (exponent text).size ≤ text.length ∧ (exponent text).kind ≠ .eof := by
  unfold exponent
  -- Without a digit behind it, the letter of an exponent is no part of the number.
  split
  · exact ⟨Nat.le_refl 0, nofun⟩
  · rename_i mark rest
    split
    · split
      · exact ⟨Nat.le_refl 1, nofun⟩
      · rename_i c digits
        have signed := (List.takeWhile_sublist isDigit (l := digits)).length_le
        have plain := (List.takeWhile_sublist isDigit (l := c :: digits)).length_le
        split
        · exact ⟨Nat.add_le_add_right signed 2, nofun⟩
        · exact ⟨Nat.add_le_add_right plain 1, nofun⟩
    · exact ⟨Nat.zero_le _, nofun⟩

/-- So does a fraction with its exponent. -/
theorem fraction_inside (text : List Char) :
    (fraction text).size ≤ text.length ∧ (fraction text).kind ≠ .eof := by
  unfold fraction
  split
  · -- The digits behind the point come first, and an exponent may follow them.
    rename_i rest
    have digits := (List.takeWhile_sublist isDigit (l := rest)).length_le
    obtain ⟨inside, goesOn⟩ := exponent_inside (rest.drop (rest.takeWhile isDigit).length)
    rw [List.length_drop] at inside
    refine ⟨?_, goesOn⟩
    simp only [Scan.extend, List.length_cons]
    omega
  · exact exponent_inside _

/-- A decimal number starts with a digit or with the point of its fraction. -/
theorem number_fits {c : Char} {rest : List Char}
    (opens : isDecimalDigit c = true ∨ c = '.') : (number (c :: rest)).Fits (c :: rest) := by
  have digits := (List.takeWhile_sublist isDigit (l := c :: rest)).length_le
  obtain ⟨inside, goesOn⟩ :=
    fraction_inside ((c :: rest).drop ((c :: rest).takeWhile isDigit).length)
  -- There is a digit in front, or at least the point.
  have positive : 0 < ((c :: rest).takeWhile isDigit).length
      + (fraction ((c :: rest).drop ((c :: rest).takeWhile isDigit).length)).size := by
    rcases opens with digit | rfl
    · have kept : (c :: rest).takeWhile isDigit = c :: rest.takeWhile isDigit :=
        List.takeWhile_cons_of_pos (by simp [isDigit, digit])
      rw [kept, List.length_cons]
      omega
    · have none : ('.' :: rest).takeWhile isDigit = [] := rfl
      rw [none]
      simp only [List.length_nil, List.drop_zero, fraction, Scan.extend]
      omega
  unfold number
  dsimp only
  -- The mark of a big integer stands behind everything else.
  split
  · rename_i big
    obtain ⟨tail, cut⟩ := List.head?_eq_some_iff.mp big
    have left := congrArg List.length cut
    have marked : 0 < ('n' :: tail).length := Nat.succ_pos _
    rw [List.length_drop] at left
    exact ⟨by dsimp only; omega, by simp, fun _ => Nat.succ_pos _⟩
  · rw [List.length_drop] at inside
    exact ⟨by simp only [Scan.extend]; omega, goesOn, fun _ => positive⟩

/-- A word is never the mark of the end, whatever it spells. -/
theorem wordKind_ne_eof (text : List Char) : wordKind text ≠ .eof := by
  unfold wordKind
  repeat' split
  all_goals nofun

/-- A word ends inside of its text. -/
theorem word_fits (text : List Char) : (word text).Fits text where
  inside := word_size_le text
  goesOn := by
    unfold word
    -- What starts no word is empty, and a word takes at least its first character.
    split
    · nofun
    · exact wordKind_ne_eof _
  advances valid := by
    unfold word at valid ⊢
    split
    · rename_i none
      simp [none] at valid
    · rename_i head opens
      exact Nat.lt_of_lt_of_le (wordHead?_append opens []).2.1 (Nat.le_add_right ..)

/-- A private name ends inside of its text. -/
theorem privateName_fits (text : List Char) : (privateName text).Fits text where
  inside := privateName_size_le text
  goesOn := by
    unfold privateName
    repeat' split
    all_goals nofun
  advances valid := by
    unfold privateName at valid ⊢
    -- The sign alone is not valid, whatever comes behind it.
    split
    · split
      · exact Nat.one_pos
      · exact Nat.succ_pos _
    · simp at valid

/-- Every significant token of a text that is not empty ends inside it. One case for each way a
token can start. -/
theorem significant_fits (mode : LexMode) (c : Char) (rest : List Char) :
    (significant mode (c :: rest)).Fits (c :: rest) := by
  have radix (isRadixDigit : Char → Bool) {mark other : Char}
      (marked : rest.head? = some mark ∨ rest.head? = some other) :
      (radixNumber isRadixDigit (c :: rest)).Fits (c :: rest) := by
    cases rest with
    | nil => simp at marked
    | cons second rest => exact radixNumber_fits isRadixDigit c second rest
  have either {condition : Prop} [Decidable condition] {found other : Scan}
      (holds : condition → found.Fits (c :: rest)) (fails : ¬condition → other.Fits (c :: rest)) :
      (if condition then found else other).Fits (c :: rest) := by
    split
    · exact holds ‹_›
    · exact fails ‹_›
  unfold significant
  dsimp only
  -- Every way to start a token is asked in turn, and each has a lemma of its own.
  refine either (fun binary => radix _ binary.2) fun _ => ?_
  refine either (fun octal => radix _ octal.2) fun _ => ?_
  refine either (fun hex => radix _ hex.2) fun _ => ?_
  refine either (fun decimal => number_fits (decimal.imp_right And.left)) fun _ => ?_
  refine either (fun _ => string_fits _) fun _ => ?_
  refine either (fun _ => (templateText_fits rest).extend_one c) fun _ => ?_
  refine either (fun _ => privateName_fits _) fun _ => ?_
  refine either (fun _ => (regexTail_fits false rest).extend_one c) fun _ => ?_
  refine either (fun _ => ⟨Nat.succ_le_succ (Nat.zero_le _), nofun, fun _ => Nat.one_pos⟩)
    fun _ => ?_
  refine either (fun _ => word_fits _) fun _ => ?_
  split
  · rename_i mark longest
    have starts := (Punctuator.isPrefix_of_longest? longest).length_le
    exact ⟨starts, nofun, fun _ => Punctuator.length_text_pos mark⟩
  · exact .invalid (Nat.zero_le _)

/-- At the end of the source there is nothing but its mark, and inside a template not even that. -/
theorem scan_nil (mode : LexMode) :
    scan mode [] = if mode = .template then ⟨.invalid, 0⟩ else ⟨.eof, 0⟩ := by
  cases mode <;> rfl

/-- What a scan finds at the start of a text that is not empty fits, and takes at least one
character. -/
theorem scan_cons (mode : LexMode) (c : Char) (rest : List Char) :
    (scan mode (c :: rest)).Fits (c :: rest) ∧ 0 < (scan mode (c :: rest)).size := by
  -- What is found fits, in a template as well as outside.
  have fits : (if mode = .template then templateText (c :: rest)
      else if (c :: rest).isEmpty then ⟨.eof, 0⟩
      else significant mode (c :: rest)).Fits (c :: rest) := by
    split
    · exact templateText_fits _
    · exact significant_fits mode c rest
  unfold scan
  dsimp only
  generalize (if mode = .template then templateText (c :: rest)
      else if (c :: rest).isEmpty then ⟨.eof, 0⟩
      else significant mode (c :: rest)) = found at fits
  -- An invalid token that takes nothing is replaced by one that takes a character.
  split
  · exact ⟨.invalid (Nat.min_le_right ..), Nat.one_pos⟩
  · rename_i some
    refine ⟨fits, ?_⟩
    by_cases malformed : found.kind = .invalid
    · exact Nat.pos_of_ne_zero fun empty => some ⟨malformed, empty⟩
    · exact fits.advances malformed

/-- No scan takes more characters than there are. -/
theorem scan_size_le (mode : LexMode) (text : List Char) : (scan mode text).size ≤ text.length := by
  cases text with
  | nil =>
    rw [scan_nil]
    split <;> exact Nat.le_refl 0
  | cons c rest => exact (scan_cons mode c rest).1.inside

/-- A piece of trivia is not empty. -/
theorem triviaPiece?_nonempty {text : List Char} {piece : Trivia}
    (found : triviaPiece? text = some piece) : 0 < piece.text.length := by
  unfold triviaPiece? at found
  repeat' split at found
  all_goals try cases found
  all_goals simp_all [Trivia.text]

/-- A piece of trivia starts the text it is found in. -/
theorem triviaPiece?_isPrefix {text : List Char} {piece : Trivia}
    (found : triviaPiece? text = some piece) : piece.text <+: text := by
  cases text with
  | nil => cases found
  | cons c rest =>
    -- Every piece is the text itself cut somewhere, or a fixed start of it.
    simp only [triviaPiece?] at found
    repeat' split at found
    all_goals cases found
    · exact ⟨rest, rfl⟩
    · exact ⟨rest, rfl⟩
    · exact List.take_prefix _ _
    · exact List.takeWhile_prefix _

/-- A block comment ends inside the text. -/
theorem blockCommentTail_le (text : List Char) : blockCommentTail text ≤ text.length := by
  induction text with
  | nil => exact Nat.le_refl 0
  | cons c rest ih =>
    rw [blockCommentTail]
    split
    · rename_i closes
      obtain ⟨more, rfl⟩ := List.head?_eq_some_iff.mp closes.2
      simp
    · exact Nat.succ_le_succ ih

end Lexer

end Downlevel
