import Downlevel.Proofs.Lexing.Tiling

/-! What the parser relies on in every token: that it leaves less text, and that the delimiters which
the parser cuts off are there. -/

namespace Downlevel.Lexer

open Text

/-- How many characters are left. -/
def Cursor.left (here : Cursor) : Nat :=
  here.rest.length

section Progress

variable {mode : LexMode} {here : Cursor}

/-- No step goes back. -/
theorem step_left_le (mode : LexMode) (here : Cursor) :
    (step mode here).next.left ≤ here.left := by
  -- What is behind the token is the end of what was there.
  obtain ⟨gap, following, cut, -, -, -, -, -, -, -, next⟩ := step_split mode here
  simp only [Cursor.left, next, cut, List.length_drop, List.length_append]
  omega

/-- Outside templates every step takes at least one character until the source ends. -/
theorem step_left_lt (outside : mode ≠ .template) (goesOn : (step mode here).token.kind ≠ .eof) :
    (step mode here).next.left < here.left :=
  step_rest_lt outside goesOn

/-- Outside templates the source is at its end where nothing but trivia is left. -/
theorem step_eof_iff (outside : mode ≠ .template) :
    (step mode here).token.kind = .eof
      ↔ (here.advance ((leadingTrivia here.rest.length here.rest).flatMap Trivia.text).length).rest
        = [] := by
  unfold step
  dsimp only
  rw [if_neg outside]
  -- Behind the trivia there is either nothing, which gives the end of the file, or a character.
  generalize (here.advance
    ((leadingTrivia here.rest.length here.rest).flatMap Trivia.text).length).rest = following
  cases following with
  | nil => simp [scan_nil, outside]
  | cons c tail => simpa using (scan_cons mode c tail).1.goesOn

/-- Where the source ends does not depend on what a slash means. -/
theorem step_eof_modes :
    (step .regex here).token.kind = .eof ↔ (step .standard here).token.kind = .eof := by
  have regex : LexMode.regex ≠ .template := nofun
  have standard : LexMode.standard ≠ .template := nofun
  rw [step_eof_iff regex, step_eof_iff standard]

end Progress

/-- So many bytes can be cut off at both ends of a text, the rest being whole characters. -/
def Cuts (front back : Nat) (text : List Char) : Prop :=
  ∃ opening inside closing, text = opening ++ inside ++ closing
    ∧ byteSize opening = front ∧ byteSize closing = back

/-- What is left when the ends are cut off. -/
theorem Cuts.inner {front back : Nat} {text : List Char} (cuts : Cuts front back text) :
    ∃ inside, inner? front back text = some inside := by
  obtain ⟨opening, inside, closing, rfl, rfl, rfl⟩ := cuts
  exact ⟨inside, inner?_append opening inside closing⟩

/-- Nothing can be cut off any text. -/
theorem cuts_nothing (text : List Char) : Cuts 0 0 text :=
  ⟨[], text, [], by simp, rfl, rfl⟩

/-- The bytes of the delimiter at the end of a token. -/
def closing : TokenKind → Nat
  | .string | .bigint | .templateEnd => 1
  | .templatePart => 2
  | _ => 0

/-- The bytes of the delimiter at its start. Inside a template there is none. -/
def opening (mode : LexMode) : TokenKind → Nat
  | .string => 1
  | .templatePart | .templateEnd => if mode = .template then 0 else 1
  | _ => 0

/-- A token that was found in a text ends with the delimiter of its kind. -/
def Scan.Closed (found : Scan) (text : List Char) : Prop :=
  Cuts 0 (closing found.kind) (text.take found.size)

namespace Scan.Closed

variable {found : Scan} {text : List Char}

/-- Characters in front stay inside. -/
theorem extend (closed : found.Closed text) {front : List Char} {count : Nat}
    (length : front.length = count) : (found.extend count).Closed (front ++ text) := by
  obtain ⟨opening, inside, closing, split, none, size⟩ := closed
  refine ⟨opening, front ++ inside, closing, ?_, none, size⟩
  -- An opening without bytes is empty.
  have empty : opening = [] := by
    cases opening with
    | nil => rfl
    | cons c rest =>
      have positive := c.utf8Size_pos
      simp only [byteSize] at none
      omega
  subst empty
  subst length
  simp only [Scan.extend, List.take_length_add_append, split, List.nil_append, List.append_assoc]

/-- One character in front. -/
theorem extend_one (closed : found.Closed text) (c : Char) : (found.extend 1).Closed (c :: text) :=
  @extend found text closed [c] 1 rfl

/-- Two characters in front. -/
theorem extend_two (closed : found.Closed text) (c d : Char) :
    (found.extend 2).Closed (c :: d :: text) :=
  @extend found text closed [c, d] 2 rfl

/-- Nothing is asked of the end of most tokens. -/
theorem open_end (none : closing found.kind = 0) : found.Closed text := by
  unfold Scan.Closed
  rw [none]
  exact cuts_nothing _

end Scan.Closed

/-- Template text ends with its backtick or where a substitution starts. -/
theorem templateText_closed (text : List Char) : (templateText text).Closed text := by
  fun_induction templateText text with
  | case1 => exact .open_end rfl
  | case2 rest => exact ⟨[], [], ['`'], rfl, rfl, rfl⟩
  | case3 => exact .open_end rfl
  | case4 _ next rest ih => exact ih.extend_two _ _
  | case5 c rest _ _ opens =>
    obtain ⟨rfl, follows⟩ := opens
    obtain ⟨tail, rfl⟩ := List.head?_eq_some_iff.mp follows
    exact ⟨[], [], ['$', '{'], rfl, rfl, rfl⟩
  | case6 c rest _ _ _ ih => exact ih.extend_one c

/-- A string ends with the quote it started with. -/
theorem stringTail_closed {quote : Char} (narrow : quote.utf8Size = 1) (text : List Char) :
    (stringTail quote text).Closed text := by
  fun_induction stringTail quote text with
  | case1 => exact .open_end rfl
  | case2 rest => exact ⟨[], [], [quote], rfl, rfl, narrow⟩
  | case3 => exact .open_end rfl
  | case4 => exact .open_end rfl
  | case5 => exact Scan.Closed.extend_two (by assumption) _ _
  | case6 c rest _ _ _ ih => exact ih.extend_one c

/-- A regular expression has no delimiter that is cut off. -/
theorem regexTail_closed (inClass : Bool) (text : List Char) :
    closing (regexTail inClass text).kind = 0 ∧ opening .regex (regexTail inClass text).kind = 0 := by
  -- Both kinds that come out open nothing and close nothing.
  fun_induction regexTail inClass text with
  | case1 => exact ⟨rfl, rfl⟩
  | case2 => exact ⟨rfl, rfl⟩
  | case3 => exact ⟨rfl, rfl⟩
  | case4 => exact ⟨rfl, rfl⟩
  | case5 _ _ escaped rest _ ih => exact ih
  | case6 _ rest _ _ ih => exact ih
  | case7 _ rest _ _ _ ih => exact ih
  | case8 => exact ⟨rfl, rfl⟩
  | case9 _ c rest _ _ _ _ _ ih => exact ih

/-- Neither has a word. -/
theorem wordKind_closed (mode : LexMode) (text : List Char) :
    closing (wordKind text) = 0 ∧ opening mode (wordKind text) = 0 := by
  unfold wordKind
  split
  · exact ⟨rfl, rfl⟩
  · split <;> exact ⟨rfl, rfl⟩

/-- A number without a suffix has none, but may be malformed. -/
theorem exponent_kind (text : List Char) :
    (exponent text).kind = .number ∨ (exponent text).kind = .invalid := by
  unfold exponent
  repeat' split
  all_goals first | exact .inl rfl | exact .inr rfl

/-- A fraction is a number, or invalid. -/
theorem fraction_kind (text : List Char) :
    (fraction text).kind = .number ∨ (fraction text).kind = .invalid := by
  unfold fraction
  split
  · exact exponent_kind _
  · exact exponent_kind _

/-- The suffix of an integer literal stands behind its digits. -/
theorem suffixed_closed {text : List Char} {count : Nat}
    (suffix : (text.drop count).head? = some 'n') :
    (Scan.mk .bigint (count + 1)).Closed text := by
  obtain ⟨rest, found⟩ := List.head?_eq_some_iff.mp suffix
  refine ⟨[], text.take count, ['n'], ?_, rfl, rfl⟩
  rw [List.nil_append, List.take_add, found]
  rfl

/-- Decimal numbers end as their kind asks. -/
theorem number_closed (mode : LexMode) (text : List Char) :
    (number text).Closed text ∧ opening mode (number text).kind = 0 := by
  unfold number
  dsimp only
  split
  · rename_i suffix
    exact ⟨suffixed_closed suffix, rfl⟩
  · obtain kind | kind := fraction_kind (text.drop (text.takeWhile isDigit).length)
    · exact ⟨.open_end (by simp [Scan.extend, kind, closing]), by simp [Scan.extend, kind, opening]⟩
    · exact ⟨.open_end (by simp [Scan.extend, kind, closing]), by simp [Scan.extend, kind, opening]⟩

/-- So do numbers with a radix. -/
theorem radixNumber_closed (mode : LexMode) (isRadixDigit : Char → Bool) (text : List Char) :
    (radixNumber isRadixDigit text).Closed text
      ∧ opening mode (radixNumber isRadixDigit text).kind = 0 := by
  unfold radixNumber
  dsimp only
  split
  · rename_i suffix
    exact ⟨suffixed_closed suffix, rfl⟩
  · exact ⟨.open_end rfl, rfl⟩

/-- What is found at the start of a text has both the delimiters of its kind. -/
def Scan.Delimited (mode : LexMode) (found : Scan) (text : List Char) : Prop :=
  Cuts (opening mode found.kind) (closing found.kind) (text.take found.size)

namespace Scan.Delimited

variable {mode : LexMode} {found : Scan} {text : List Char}

/-- The end is all that is asked where there is no delimiter at the start. -/
theorem of_closed (closed : found.Closed text) (none : opening mode found.kind = 0) :
    found.Delimited mode text := by
  unfold Scan.Delimited
  rw [none]
  exact closed

/-- A narrow character in front of a token is its opening delimiter. -/
theorem opened {c : Char} (closed : found.Closed text) (narrow : c.utf8Size = 1)
    (one : opening mode found.kind = 1 ∨ opening mode found.kind = 0) :
    (found.extend 1).Delimited mode (c :: text) := by
  obtain one | none := one
  · obtain ⟨start, inside, stop, split, empty, size⟩ := closed
    refine ⟨c :: start, inside, stop, ?_, ?_, size⟩
    · simp only [Scan.extend, Nat.add_comm 1, List.take_succ_cons, split, List.cons_append]
    · simp only [Scan.extend, one, byteSize, narrow, empty]
  · exact .of_closed (closed.extend_one c) none

end Scan.Delimited

/-- Nothing but a string has its opening delimiter in every mode. -/
theorem stringTail_kind (quote : Char) (text : List Char) :
    (stringTail quote text).kind = .string ∨ (stringTail quote text).kind = .invalid := by
  fun_induction stringTail quote text with
  | case1 => exact .inr rfl
  | case2 => exact .inl rfl
  | case3 => exact .inr rfl
  | case4 => exact .inr rfl
  | case5 => assumption
  | case6 _ _ _ _ _ ih => exact ih

/-- The text of a template is a part of one, its end, or invalid. -/
theorem templateText_kind (text : List Char) :
    (templateText text).kind = .templatePart ∨ (templateText text).kind = .templateEnd
      ∨ (templateText text).kind = .invalid := by
  fun_induction templateText text with
  | case1 => exact .inr (.inr rfl)
  | case2 => exact .inr (.inl rfl)
  | case3 => exact .inr (.inr rfl)
  | case4 _ _ _ ih => exact ih
  | case5 => exact .inl rfl
  | case6 _ _ _ _ _ ih => exact ih

/-- Every significant token has its delimiters. One case for each way a token can start. -/
theorem significant_delimited {mode : LexMode} (outside : mode ≠ .template) (c : Char)
    (rest : List Char) : (significant mode (c :: rest)).Delimited mode (c :: rest) := by
  have radix (isRadixDigit : Char → Bool) :
      (radixNumber isRadixDigit (c :: rest)).Delimited mode (c :: rest) := by
    obtain ⟨closed, none⟩ := radixNumber_closed mode isRadixDigit (c :: rest)
    exact .of_closed closed none
  have plain {found : Scan} (last : closing found.kind = 0) (first : opening mode found.kind = 0) :
      found.Delimited mode (c :: rest) :=
    .of_closed (.open_end last) first
  have either {condition : Prop} [Decidable condition] {found other : Scan}
      (holds : condition → found.Delimited mode (c :: rest))
      (fails : ¬condition → other.Delimited mode (c :: rest)) :
      (if condition then found else other).Delimited mode (c :: rest) := by
    split
    · exact holds ‹_›
    · exact fails ‹_›
  unfold significant
  dsimp only
  refine either (fun _ => radix _) fun _ => ?_
  refine either (fun _ => radix _) fun _ => ?_
  refine either (fun _ => radix _) fun _ => ?_
  refine either (fun _ => ?_) fun _ => ?_
  · obtain ⟨closed, none⟩ := number_closed mode (c :: rest)
    exact .of_closed closed none
  refine either (fun quoted => ?_) fun _ => ?_
  · -- Both quotes are ASCII.
    have narrow : c.utf8Size = 1 := by
      obtain rfl | rfl := quoted <;> rfl
    refine .opened (stringTail_closed narrow rest) narrow ?_
    obtain kind | kind := stringTail_kind c rest <;> simp [kind, opening]
  refine either (fun tick => ?_) fun _ => ?_
  · subst tick
    refine .opened (templateText_closed rest) rfl ?_
    obtain kind | kind | kind := templateText_kind rest <;> simp [kind, opening, outside]
  refine either (fun _ => ?_) fun _ => ?_
  · cases rest with
    | nil => exact plain rfl rfl
    | cons d rest =>
      have kind : (privateName (c :: d :: rest)).kind = .invalid
          ∨ (privateName (c :: d :: rest)).kind = .privateName := by
        simp only [privateName]
        split
        · exact .inl rfl
        · exact .inr rfl
      obtain kind | kind := kind
      · exact plain (by rw [kind]; rfl) (by rw [kind]; rfl)
      · exact plain (by rw [kind]; rfl) (by rw [kind]; rfl)
  refine either (fun slash => ?_) fun _ => ?_
  · obtain ⟨last, first⟩ := regexTail_closed false rest
    obtain ⟨-, rfl⟩ := slash
    exact plain last first
  refine either (fun _ => plain rfl rfl) fun _ => ?_
  refine either (fun _ => ?_) fun _ => ?_
  · unfold word
    split
    · exact plain rfl rfl
    · obtain ⟨last, first⟩ := wordKind_closed mode ((c :: rest).take _)
      exact plain last first
  split
  · exact plain rfl rfl
  · exact plain rfl rfl

/-- So has every token that a scan finds. -/
theorem scan_delimited (mode : LexMode) (text : List Char) :
    (scan mode text).Delimited mode text := by
  -- Whatever is found delimits its text, before it is asked whether it takes anything at all.
  have inside : (if mode = .template then templateText text
      else if text.isEmpty then ⟨.eof, 0⟩
      else significant mode text).Delimited mode text := by
    split
    · rename_i same
      subst same
      refine .of_closed (templateText_closed text) ?_
      obtain kind | kind | kind := templateText_kind text <;> simp [kind, opening]
    · rename_i outside
      cases text with
      | nil => exact .of_closed (.open_end rfl) rfl
      | cons c rest => exact significant_delimited outside c rest
  unfold scan
  dsimp only
  generalize (if mode = .template then templateText text
      else if text.isEmpty then ⟨.eof, 0⟩
      else significant mode text) = found at inside
  -- What is put in place of an empty invalid token is invalid as well, and closes nothing.
  split
  · exact .of_closed (.open_end rfl) rfl
  · exact inside

/-- The parser may cut off the delimiters of every token. -/
theorem step_delimited (mode : LexMode) (here : Cursor) :
    Cuts (opening mode (step mode here).token.kind) (closing (step mode here).token.kind)
      (step mode here).token.text.toList := by
  obtain ⟨gap, following, -, -, -, -, kind, text, -⟩ := step_split mode here
  rw [kind, text]
  exact scan_delimited mode following

end Downlevel.Lexer
