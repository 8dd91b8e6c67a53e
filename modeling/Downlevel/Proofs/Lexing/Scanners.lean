import Downlevel.Proofs.Lexing.Reach

/-! Every scanner moves by whole characters, as many as the count of characters says, and no slice that
it takes is ever off. So one step of the lexer is the step that counts characters. -/

namespace Downlevel.Lexer

open Text

namespace Cursor

/-- Going no further stays. -/
@[simp]
theorem advance_zero (here : Cursor) : here.advance 0 = here := by
  simp [advance, byteSize]

/-- Moving on twice is moving on by the sum. -/
theorem advance_advance (here : Cursor) (first second : Nat) :
    (here.advance first).advance second = here.advance (first + second) := by
  simp [advance, List.take_add, Nat.add_assoc]

/-- Going further leaves out as many characters. -/
@[simp]
theorem rest_advance (here : Cursor) (count : Nat) :
    (here.advance count).rest = here.rest.drop count :=
  rfl

/-- Behind a character comes what follows it. -/
theorem rest_advance_one {here : Cursor} {c : Char} {rest : List Char}
    (split : here.rest = c :: rest) : (here.advance 1).rest = rest := by
  rw [rest_advance, split, List.drop_one, List.tail_cons]

end Cursor

variable {α β : Type} {here : Cursor} {scanner : Scanner α} {next : α → Scanner β} {result : α}
  {other : β} {count more : Nat}

/-- The scanner gives the result, so many characters further on. -/
def Moves (scanner : Scanner α) (here : Cursor) (result : α) (count : Nat) : Prop :=
  scanner here = .ok (result, here.advance count)

namespace Moves

/-- A result that is given moves nowhere. -/
theorem pure : Moves (pure result) here result 0 :=
  congrArg (fun here => Except.ok (result, here)) here.advance_zero.symm

/-- A move of the same length is the same move. -/
theorem congr (moves : Moves scanner here result count) (same : count = more) :
    Moves scanner here result more :=
  same ▸ moves

/-- One scanner behind another. -/
theorem bind (first : Moves scanner here result count)
    (second : Moves (next result) (here.advance count) other more) :
    Moves (scanner >>= next) here other (count + more) := by
  show (scanner here >>= fun found => next found.1 found.2) = _
  rw [first, ← Cursor.advance_advance]
  exact second

/-- A scanner that only looks, in front of another. -/
theorem look (first : Moves scanner here result 0) (second : Moves (next result) here other more) :
    Moves (scanner >>= next) here other more := by
  rw [← Nat.zero_add more]
  exact first.bind (by rwa [Cursor.advance_zero])

/-- A result that is packed afterwards leaves the move as it is. -/
theorem done {f : α → β} (moves : Moves scanner here result count) :
    Moves (scanner >>= fun found => Pure.pure (f found)) here (f result) count := by
  refine congr (bind moves ?_) (Nat.add_zero count)
  exact pure

/-- A result that is packed leaves the move as it is. -/
theorem map {f : α → β} (moves : Moves scanner here result count) :
    Moves (f <$> scanner) here (f result) count := by
  rw [map_eq_pure_bind]
  exact moves.done

end Moves

section Parts

/-- Asking for the place moves nowhere. -/
theorem moves_get : Moves get here here 0 :=
  .pure

/-- Asking for the text ahead moves nowhere. -/
theorem moves_rest : Moves Scanner.rest here here.rest 0 :=
  .pure

/-- Looking at the next character moves nowhere. -/
theorem moves_peek : Moves Scanner.peek here here.rest.head? 0 :=
  .pure

/-- Looking at a character ahead moves nowhere. -/
theorem moves_peekAt (index : Nat) : Moves (Scanner.peekAt index) here here.rest[index]? 0 :=
  .pure

/-- Counting the rounds that there may be moves nowhere. -/
theorem moves_rounds : Moves Scanner.rounds here (here.rest.length + 1) 0 :=
  .pure

/-- A slice that is there. -/
theorem moves_lift {slice : Except Misread α} (found : slice = .ok result) :
    Moves (liftM slice) here result 0 := by
  subst found
  exact .pure

/-- Moving by the bytes of characters goes over just these. -/
theorem moves_bump (count : Nat) :
    Moves (Scanner.bump (byteSize (here.rest.take count))) here () count := by
  have cut := dropBytes_take count here.rest
  simp only [Moves, Scanner.bump, bind, StateT.bind, Except.bind, get, getThe, MonadStateOf.get,
    StateT.get, pure, Except.pure, liftM, monadLift, MonadLift.monadLift, StateT.lift, cut]
  rfl

/-- Going on by the bytes of a text takes its characters. -/
theorem moves_bump_append {front back : List Char} (split : here.rest = front ++ back) :
    Moves (Scanner.bump (byteSize front)) here () front.length := by
  have moves := @moves_bump here front.length
  rwa [split, List.take_left] at moves

/-- Going on by the bytes of a character takes that character. -/
theorem moves_bump_head {c : Char} {rest : List Char} (split : here.rest = c :: rest) :
    Moves (Scanner.bump c.utf8Size) here () 1 := by
  have moves : Moves (Scanner.bump (byteSize [c])) here () 1 :=
    moves_bump_append (show here.rest = [c] ++ rest from split)
  rwa [byteSize, byteSize, Nat.add_zero] at moves

/-- A single byte is a character where one of ASCII is. -/
theorem moves_bump_one {c : Char} {rest : List Char} (split : here.rest = c :: rest)
    (ascii : isAscii c = true) : Moves (Scanner.bump 1) here () 1 :=
  utf8Size_of_isAscii ascii ▸ moves_bump_head split

/-- Taking a character takes one, unless none is left. -/
theorem moves_bumpChar : Moves Scanner.bumpChar here here.rest.head? (min 1 here.rest.length) := by
  refine moves_peek.look ?_
  cases split : here.rest with
  | nil => exact .pure
  | cons c rest => exact (moves_bump_head split).done.congr (by simp)

/-- Taking a character takes the next one. -/
theorem moves_bumpChar_cons {c : Char} {rest : List Char} (split : here.rest = c :: rest) :
    Moves Scanner.bumpChar here (some c) 1 := by
  have moves := @moves_bumpChar here
  rw [split] at moves
  exact moves.congr (by simp)

/-- At the end no character is taken. -/
theorem moves_bumpChar_nil (ends : here.rest = []) : Moves Scanner.bumpChar here none 0 := by
  have moves := @moves_bumpChar here
  rwa [ends] at moves

/-- The given character is taken if it comes next. -/
theorem moves_eat {c : Char} (isNext : here.rest.head? = some c) :
    Moves (Scanner.eat c) here true 1 := by
  obtain ⟨rest, split⟩ := List.head?_eq_some_iff.mp isNext
  refine moves_peek.look ?_
  rw [if_pos isNext]
  exact (moves_bump_head split).done

/-- Any other character stays. -/
theorem moves_eat_other {c : Char} (isOther : here.rest.head? ≠ some c) :
    Moves (Scanner.eat c) here false 0 := by
  refine moves_peek.look ?_
  rw [if_neg isOther]
  exact .pure

/-- Characters of a class are taken as far as they go. -/
theorem moves_eatWhile (inClass : Char → Bool) :
    Moves (Scanner.eatWhile inClass) here () (here.rest.takeWhile inClass).length :=
  moves_rest.look (moves_bump_append List.takeWhile_append_dropWhile.symm)

/-- The text between two places of the lexer is there. -/
theorem moves_since (start : Cursor) (count : Nat) :
    Moves (Scanner.since start) (start.advance count) (start.rest.take count) 0 := by
  refine moves_get.look ?_
  have size : (start.advance count).offset - start.offset = byteSize (start.rest.take count) :=
    Nat.add_sub_cancel_left ..
  simp only [Moves, size, takeBytes_take, liftM, monadLift, MonadLift.monadLift, StateT.lift, bind,
    Except.bind, pure, Except.pure, Cursor.advance_zero]

end Parts

/-! ### Escapes and words -/

/-- The bytes of hexadecimal digits. -/
theorem spelledBy_isHexByte : SpelledBy isHexByte isHexDigit :=
  ((spelledBy_range '0' '9' rfl rfl).or (spelledBy_range 'a' 'f' rfl rfl)).or
    (spelledBy_range 'A' 'F' rfl rfl)

/-- Four digits are no less than four characters. -/
theorem escapeSize?_of_short {body : List Char} (plain : ∀ braced, body = '{' :: braced → False)
    (short : body.length < 4) : escapeSize? ('\\' :: 'u' :: body) = none := by
  unfold escapeSize?
  split
  · rename_i same
    exact (plain _ (List.cons.inj (List.cons.inj same).2).2).elim
  · rename_i same
    rw [(List.cons.inj (List.cons.inj same).2).2] at short
    simp at short
    omega
  · rfl

/-- An escape inside of a word takes as many bytes as characters, all of which are ASCII. -/
theorem escapeBytes?_eq (text : List Char) : escapeBytes? text = escapeSize? text := by
  unfold escapeBytes?
  split
  · rename_i braced
    have digits := spelledBy_isHexByte.length_takeWhile braced
    have close : (utf8 braced)[(braced.takeWhile isHexDigit).length]? = some '}'.toUInt8
        ↔ (braced.drop (braced.takeWhile isHexDigit).length).head? = some '}' := by
      rw [← List.head?_drop, spelledBy_isHexByte.drop_utf8, head?_utf8 rfl]
    simp only [escapeSize?, digits, close]
  · rename_i body plain
    simp only [spelledBy_isHexByte.take_utf8 4 body]
    by_cases short : body.length < 4
    · rw [escapeSize?_of_short plain short, if_neg]
      rintro ⟨size, -⟩
      rw [List.length_take] at size
      omega
    · obtain ⟨a, b, c, d, rest, rfl⟩ : ∃ a b c d rest, body = a :: b :: c :: d :: rest := by
        rcases body with _ | ⟨a, _ | ⟨b, _ | ⟨c, _ | ⟨d, rest⟩⟩⟩⟩
        iterate 4 exact absurd (by simp) short
        exact ⟨a, b, c, d, rest, rfl⟩
      have noBrace : a = '{' → False := fun same => plain (b :: c :: d :: rest) (same ▸ rfl)
      rw [escapeSize?.eq_2 _ _ _ _ _ noBrace]
      simp [and_assoc]
  · rename_i noBraces noDigits
    unfold escapeSize?
    split
    · exact (noBraces _ rfl).elim
    · exact (noDigits _ rfl).elim
    · rfl

/-- All characters of an escape are ASCII, and the backslash is one of them. -/
theorem exists_append_of_escapeSize? {text : List Char} {size : Nat}
    (found : escapeSize? text = some size) :
    ∃ front back, text = front ++ back ∧ front.length = size ∧ 1 ≤ size
      ∧ ∀ c ∈ front, isAscii c = true := by
  unfold escapeSize? at found
  -- The braced escape runs to its closing brace; the plain one has four digits.
  split at found
  · rename_i braced
    dsimp only at found
    split at found
    · rename_i closes
      cases found
      obtain ⟨rest, behind⟩ := List.head?_eq_some_iff.mp closes.2
      have split := List.take_append_drop (braced.takeWhile isHexDigit).length braced
      rw [behind, (List.prefix_iff_eq_take.mp (List.takeWhile_prefix isHexDigit)).symm] at split
      refine ⟨'\\' :: 'u' :: '{' :: braced.takeWhile isHexDigit ++ ['}'], rest, ?_, by simp, by omega,
        ?_⟩
      · simpa using split.symm
      · have digits := fun c inside =>
          spelledBy_isHexByte.ascii c (List.all_eq_true.mp (List.all_takeWhile (l := braced)) c inside)
        simpa [or_imp, forall_and] using ⟨rfl, rfl, rfl, digits, rfl⟩
    · cases found
  · rename_i a b c d rest notBrace
    split at found
    · rename_i digits
      cases found
      have ascii := spelledBy_isHexByte.ascii
      refine ⟨['\\', 'u', a, b, c, d], rest, rfl, rfl, by omega, ?_⟩
      simp only [Bool.and_eq_true, and_assoc] at digits
      obtain ⟨first, second, third, fourth⟩ := digits
      simp only [List.forall_mem_cons]
      exact ⟨rfl, rfl, ascii a first, ascii b second, ascii c third, ascii d fourth, nofun⟩
    · cases found
  · cases found

/-- An escape is taken if one comes next. -/
theorem moves_eatEscape {size : Nat} (found : escapeSize? here.rest = some size) :
    Moves Scanner.eatEscape here true size := by
  obtain ⟨front, back, split, rfl, -, ascii⟩ := exists_append_of_escapeSize? found
  refine moves_rest.look ?_
  rw [escapeBytes?_eq, found]
  exact (byteSize_of_isAscii ascii ▸ moves_bump_append split).done

/-- Anything else than an escape stays. -/
theorem moves_eatEscape_other (none : escapeSize? here.rest = none) :
    Moves Scanner.eatEscape here false 0 := by
  refine moves_rest.look ?_
  rw [escapeBytes?_eq, none]
  exact .pure

/-- Characters of an escape that is passed already are counted one by one. -/
theorem wordTail_pending {pending : Nat} {text : List Char} (inside : pending ≤ text.length) :
    wordTail pending text = pending + wordTail 0 (text.drop pending) := by
  induction text generalizing pending with
  | nil => simp [wordTail, Nat.le_zero.mp inside]
  | cons c rest ih =>
    cases pending with
    | zero => simp
    | succ pending =>
      rw [wordTail, ih (Nat.le_of_succ_le_succ inside), List.drop_succ_cons]
      omega

/-- Characters that go on a word are gone over one by one. -/
theorem wordTail_parts {front : List Char} (inside : ∀ c ∈ front, isWordPart c = true)
    (rest : List Char) : wordTail 0 (front ++ rest) = front.length + wordTail 0 rest := by
  induction front with
  | nil => simp
  | cons c front ih =>
    obtain ⟨first, others⟩ := List.forall_mem_cons.mp inside
    have goesOn : continuesWord c = true := by simp [continuesWord, first]
    rw [List.cons_append, wordTail, if_pos goesOn, ih others, List.length_cons]
    omega

/-- A word ends where neither a character nor an escape goes on with it. -/
theorem moves_nameTail {fuel : Nat} (enough : here.rest.length < fuel) :
    Moves (Scanner.nameTail fuel) here () (wordTail 0 here.rest) := by
  -- By induction on the rounds. Each but the last goes over a character or an escape.
  induction fuel generalizing here with
  | zero => exact absurd enough (Nat.not_lt_zero _)
  | succ fuel ih =>
    obtain ⟨rest, split⟩ := List.takeWhile_prefix (l := here.rest) isWordPart
    have inside : ∀ c ∈ here.rest.takeWhile isWordPart, isWordPart c = true :=
      List.all_eq_true.mp List.all_takeWhile
    have moves := @moves_eatWhile here isWordPart
    generalize here.rest.takeWhile isWordPart = front at split inside moves
    have left : (here.advance front.length).rest = rest := by
      rw [Cursor.rest_advance, ← split, List.drop_left]
    have fewer : rest.length ≤ fuel := by
      rw [← split, List.length_append] at enough
      omega
    rw [← split, wordTail_parts inside]
    refine moves.bind (moves_peek.look ?_)
    rw [left]
    generalize here.advance front.length = there at left
    subst left
    cases text : there.rest with
    | nil => exact .pure
    | cons c rest =>
      rw [text, List.length_cons] at fewer
      dsimp only [List.head?_cons]
      split
      · rename_i isMark
        subst isMark
        have noPart : ¬continuesWord '\\' = true := by decide
        rw [wordTail, if_neg noPart]
        cases found : escapeSize? ('\\' :: rest) with
        | none => exact (moves_eatEscape_other (text ▸ found)).look .pure
        | some size =>
          obtain ⟨front, back, split, width, positive, -⟩ := exists_append_of_escapeSize? found
          have whole := congrArg List.length split
          rw [List.length_append, List.length_cons] at whole
          obtain ⟨digits, rfl⟩ : ∃ digits, size = digits + 1 := ⟨size - 1, by omega⟩
          have behind : (there.advance (digits + 1)).rest = rest.drop digits := by
            rw [Cursor.rest_advance, text, List.drop_succ_cons]
          have more := @ih (there.advance (digits + 1))
            (by rw [behind, List.length_drop]; omega)
          rw [behind] at more
          refine ((moves_eatEscape (text ▸ found)).bind more).congr ?_
          have passed : wordTail digits rest = digits + wordTail 0 (rest.drop digits) :=
            wordTail_pending (by omega)
          show _ = wordTail digits rest + 1
          omega
      · split
        · rename_i goesOn
          have behind : (there.advance 1).rest = rest := Cursor.rest_advance_one text
          have more := @ih (there.advance 1) (by rw [behind]; omega)
          rw [behind] at more
          rw [wordTail, if_pos goesOn, Nat.add_comm]
          exact (moves_bump_head text).bind more
        · rename_i noMark noPart
          have noEscape : escapeSize? (c :: rest) = none := by
            unfold escapeSize?
            split <;> simp_all
          rw [wordTail, if_neg noPart, noEscape]
          exact .pure

/-- What a word can start with is taken. -/
theorem moves_wordHead {head : Nat} (found : wordHead? here.rest = some head) :
    Moves Scanner.wordHead here true head := by
  refine moves_peek.look ?_
  cases text : here.rest with
  | nil => rw [text] at found; cases found
  | cons c rest =>
    dsimp only [List.head?_cons]
    -- A backslash starts an escape, and any other head is a single letter.
    by_cases isMark : c = '\\'
    · subst isMark
      rw [text] at found
      rw [if_pos rfl]
      exact moves_eatEscape (text ▸ found)
    · rw [text, wordHead?] at found
      · cases found
        rw [if_neg isMark]
        exact (moves_bump_head text).done
      · exact isMark

/-- What no word can start with stays. -/
theorem moves_wordHead_other (none : wordHead? here.rest = none) :
    Moves Scanner.wordHead here false 0 := by
  refine moves_peek.look ?_
  cases text : here.rest with
  | nil => exact .pure
  | cons c rest =>
    dsimp only [List.head?_cons]
    -- Without a head the scanner looks and does not move.
    by_cases isMark : c = '\\'
    · subst isMark
      rw [text] at none
      rw [if_pos rfl]
      exact moves_eatEscape_other (text ▸ none)
    · rw [text, wordHead?] at none
      · cases none
      · exact isMark

/-- A word and its text. -/
theorem moves_word : Moves Scanner.word here (word here.rest).kind (word here.rest).size := by
  refine moves_get.look ?_
  unfold word
  cases found : wordHead? here.rest with
  | none => exact (moves_wordHead_other found).look .pure
  | some head =>
    refine (moves_wordHead found).bind (moves_rounds.look ?_)
    refine Moves.congr (Moves.bind (moves_nameTail (Nat.lt_succ_self _)) ?_) (Nat.add_zero _)
    rw [Cursor.advance_advance]
    exact (moves_since here _).done

/-! ### Tokens that may be malformed -/

/-- Two extensions are one. -/
theorem Scan.extend_extend (front more : Nat) (scan : Scan) :
    (scan.extend more).extend front = scan.extend (front + more) := by
  simp [Scan.extend, Nat.add_assoc]

/-- Two characters more are one and another. -/
theorem Scan.extend_two (scan : Scan) : scan.extend 2 = (scan.extend 1).extend 1 :=
  (Scan.extend_extend 1 1 scan).symm

/-- The scanner goes as far as the scan says and finds its kind; nothing found is malformed. -/
def Finds (scanner : Scanner (Option TokenKind)) (here : Cursor) (scan : Scan) : Prop :=
  ∃ found, Moves scanner here found scan.size ∧ found.getD .invalid = scan.kind

namespace Finds

variable {finder : α → Scanner (Option TokenKind)} {found : Option TokenKind} {scan : Scan}

/-- A result that is given moves nowhere. -/
theorem pure : Finds (pure found) here ⟨found.getD .invalid, 0⟩ :=
  ⟨found, .pure, rfl⟩

/-- A scanner behind another that moved on. -/
theorem bind (first : Moves scanner here result count)
    (second : Finds (finder result) (here.advance count) scan) :
    Finds (scanner >>= finder) here (scan.extend count) := by
  obtain ⟨found, moves, kind⟩ := second
  exact ⟨found, first.bind moves, kind⟩

/-- A scanner behind one that only looks. -/
theorem look (first : Moves scanner here result 0) (second : Finds (finder result) here scan) :
    Finds (scanner >>= finder) here scan := by
  obtain ⟨found, moves, kind⟩ := second
  exact ⟨found, first.look moves, kind⟩

/-- A move of the same length is the same move. -/
theorem congr {other : Scan} {scanner : Scanner (Option TokenKind)}
    (finds : Finds scanner here scan) (same : scan = other) : Finds scanner here other :=
  same ▸ finds

/-- A token that ends where a scanner does. -/
theorem done {kind : TokenKind} (moves : Moves scanner here result count) :
    Finds (scanner >>= fun _ => Pure.pure (some kind)) here ⟨kind, count⟩ :=
  ⟨some kind, moves.done, rfl⟩

/-- A token that is never malformed. -/
theorem of_moves {scanner : Scanner TokenKind} {kind : TokenKind}
    (moves : Moves scanner here kind count) : Finds (some <$> scanner) here ⟨kind, count⟩ :=
  ⟨some kind, moves.map, rfl⟩

end Finds

/-- A private name is found behind its sign. -/
theorem finds_privateName {mark : Char} {rest : List Char} (text : here.rest = mark :: rest)
    (ascii : isAscii mark = true) : Finds Scanner.privateName here (privateName here.rest) := by
  have behind : (here.advance 1).rest = rest := Cursor.rest_advance_one text
  have bumped := moves_bump_one text ascii
  rw [text]
  -- The mark is taken first, and then the name behind it needs a head of its own.
  cases rest with
  | nil =>
    show Finds _ _ (Scan.extend 1 ⟨.invalid, 0⟩)
    refine .bind bumped (.look moves_peek ?_)
    rw [behind]
    exact .pure
  | cons c rest =>
    rw [privateName]
    split
    · rename_i malformed
      show Finds _ _ (Scan.extend 1 ⟨.invalid, 0⟩)
      refine .bind bumped (.look moves_peek ?_)
      rw [behind]
      dsimp only [List.head?_cons]
      rw [if_pos malformed]
      exact .pure
    · rename_i opens
      have whole : Scan.mk .privateName (wordTail 0 rest + 2)
          = (Scan.extend 1 ⟨.privateName, wordTail 0 rest⟩).extend 1 := by
        simp [Scan.extend]
        omega
      rw [whole]
      refine .bind bumped (.look moves_peek ?_)
      have further : ((here.advance 1).advance 1).rest = rest :=
            Cursor.rest_advance_one behind
      rw [behind]
      dsimp only [List.head?_cons]
      rw [if_neg opens]
      refine .bind (moves_bump_head behind) (.look moves_rounds ?_)
      have tail := moves_nameTail (Nat.lt_succ_self ((here.advance 1).advance 1).rest.length)
      rw [further] at tail ⊢
      exact .done tail

/-- Either letter marks an exponent. -/
theorem moves_exponentMark (isMark : here.rest.head? = some 'e' ∨ here.rest.head? = some 'E') :
    Moves Scanner.exponentMark here true 1 := by
  by_cases lower : here.rest.head? = some 'e'
  · show Moves _ _ _ (1 + 0)
    refine .bind (moves_eat lower) ?_
    exact .pure
  · exact (moves_eat_other lower).look (moves_eat (isMark.resolve_left lower))

/-- Without its mark there is no exponent. -/
theorem moves_exponentMark_other (lower : here.rest.head? ≠ some 'e')
    (upper : here.rest.head? ≠ some 'E') : Moves Scanner.exponentMark here false 0 :=
  (moves_eat_other lower).look (moves_eat_other upper)

/-- An exponent needs a character behind its mark. -/
theorem finds_exponent : Finds Scanner.exponent here (exponent here.rest) := by
  unfold exponent
  -- The mark, then a sign if there is one, then the digits: each step is one move of the scanner.
  split
  · rename_i text
    refine .look (moves_exponentMark_other ?_ ?_) .pure
    · rw [text]; nofun
    · rw [text]; nofun
  · rename_i mark rest text
    have behind : (here.advance 1).rest = rest := Cursor.rest_advance_one text
    split
    · rename_i isMark
      have bumped : Moves Scanner.exponentMark here true 1 :=
        moves_exponentMark (by simpa [text] using isMark)
      split
      · show Finds _ _ (Scan.extend 1 ⟨.invalid, 0⟩)
        refine .bind bumped (.look moves_peek ?_)
        rw [behind]
        exact .pure
      · rename_i c digits
        have goes : Moves Scanner.peek (here.advance 1) (some c) 0 := by
          have moves := @moves_peek (here.advance 1)
          rwa [behind] at moves
        split
        · rename_i signed
          have isSign : c = '+' ∨ c = '-' := by simpa using signed
          have narrow : isAscii c = true := by rcases isSign with rfl | rfl <;> rfl
          have whole : Scan.mk .number ((digits.takeWhile isDigit).length + 2)
              = (Scan.extend 1 ⟨.number, (digits.takeWhile isDigit).length⟩).extend 1 := by
            simp only [Scan.extend, Scan.mk.injEq, true_and]
            omega
          have further : ((here.advance 1).advance 1).rest = digits :=
            Cursor.rest_advance_one behind
          have run := @moves_eatWhile ((here.advance 1).advance 1) isDigit
          rw [further] at run
          rw [whole]
          refine .bind bumped (.look goes ?_)
          dsimp only
          rw [if_pos isSign]
          exact .bind (moves_bump_one behind narrow) (.done run)
        · rename_i unsigned
          have noSign : ¬(c = '+' ∨ c = '-') := by simpa using unsigned
          have whole : Scan.mk .number (((c :: digits).takeWhile isDigit).length + 1)
              = Scan.extend 1 ⟨.number, ((c :: digits).takeWhile isDigit).length⟩ := by
            simp only [Scan.extend, Scan.mk.injEq, true_and]
            omega
          have run := @moves_eatWhile (here.advance 1) isDigit
          rw [behind] at run
          rw [whole]
          refine .bind bumped (.look goes ?_)
          dsimp only
          rw [if_neg noSign]
          exact .done run
    · rename_i isOther
      refine .look (moves_exponentMark_other ?_ ?_) .pure
      · simp_all
      · simp_all

/-- A fraction is found as far as its digits go. -/
theorem finds_fraction : Finds Scanner.fraction here (fraction here.rest) := by
  unfold fraction
  -- A point is followed by digits and an exponent, and without it only the exponent remains.
  split
  · rename_i rest text
    have behind : (here.advance 1).rest = rest := Cursor.rest_advance_one text
    have run := @moves_eatWhile (here.advance 1) isDigit
    have more := @finds_exponent ((here.advance 1).advance (rest.takeWhile isDigit).length)
    rw [behind] at run
    rw [Cursor.rest_advance, behind] at more
    refine .congr (.bind (moves_eat (by rw [text]; rfl)) (.bind run more)) ?_
    simp only [Scan.extend, Scan.mk.injEq, true_and]
    omega
  · rename_i noPoint
    refine .look (moves_eat_other fun isPoint => ?_) finds_exponent
    obtain ⟨rest, text⟩ := List.head?_eq_some_iff.mp isPoint
    exact noPoint _ text

/-- Digits, and what may follow them. -/
theorem finds_number : Finds Scanner.number here (number here.rest) := by
  unfold number
  dsimp only
  have run := @moves_eatWhile here isDigit
  generalize (here.rest.takeWhile isDigit).length = count at run
  split
  · rename_i suffixed
    show Finds _ _ (Scan.extend count (Scan.extend 1 ⟨.bigint, 0⟩))
    refine .bind run (.bind (moves_eat suffixed) ?_)
    exact .pure
  · rename_i plain
    exact .bind run (.look (moves_eat_other plain) finds_fraction)

/-- The digits of a radix are taken behind its mark. -/
theorem moves_radixNumber (isRadixDigit : Char → Bool) {zero mark : Char} {rest : List Char}
    (text : here.rest = zero :: mark :: rest) (narrow : isAscii zero = true)
    (ascii : isAscii mark = true) :
    Moves (Scanner.radixNumber isRadixDigit) here (radixNumber isRadixDigit here.rest).kind
      (radixNumber isRadixDigit here.rest).size := by
  -- The two characters of the prefix are narrow; behind them come digits and the mark of a large
  -- one.
  have marked : Moves (Scanner.bump 2) here () 2 := by
    have width : byteSize [zero, mark] = 2 := by
      simp [byteSize, utf8Size_of_isAscii narrow, utf8Size_of_isAscii ascii]
    have moves := moves_bump_append (show here.rest = [zero, mark] ++ rest from text)
    rwa [width] at moves
  have digits := @moves_eatWhile (here.advance 2) isRadixDigit
  rw [Cursor.rest_advance] at digits
  unfold radixNumber
  generalize ((here.rest.drop 2).takeWhile isRadixDigit).length = count at digits
  have further : ((here.advance 2).advance count).rest = here.rest.drop (count + 2) := by
    rw [Cursor.rest_advance, Cursor.rest_advance, List.drop_drop, Nat.add_comm]
  dsimp only
  split
  · rename_i suffixed
    refine Moves.congr (.bind marked (.bind digits (.bind (moves_eat ?_) .pure))) ?_
    · rw [further, suffixed]
    · simp only
      omega
  · rename_i plain
    refine Moves.congr (.bind marked (.bind digits (.bind (moves_eat_other ?_) .pure))) ?_
    · rw [further]
      exact plain
    · simp only
      omega

/-- Moving over the whole text leaves nothing. -/
theorem moves_bump_all : Moves (Scanner.bump (byteSize here.rest)) here () here.rest.length :=
  moves_bump_append (List.append_nil _).symm

/-- A search that finds nothing moves over the whole text. -/
theorem moves_bump_front {front rest : List Char} (split : here.rest = front ++ rest) :
    Moves (Scanner.bump (byteSize front)) here () front.length
      ∧ (here.advance front.length).rest = rest :=
  ⟨moves_bump_append split, by rw [Cursor.rest_advance, split, List.drop_left]⟩

/-- A string ends at its closing quote, in front of a line feed, or with the text. -/
theorem finds_stringTail {quote : Char} (ascii : isAscii quote = true) (noFeed : quote ≠ '\n')
    (noMark : quote ≠ '\\') {fuel : Nat} (enough : here.rest.length < fuel) :
    Finds (Scanner.stringTail quote fuel) here (stringTail quote here.rest) := by
  -- By induction on the rounds. Each but the last goes over a backslash and what it takes along.
  induction fuel generalizing here with
  | zero => exact absurd enough (Nat.not_lt_zero _)
  | succ fuel ih =>
    have bare {front : List Char} (plain : ∀ c ∈ front, c ∉ ['\\', '\n', quote]) :
        ∀ c ∈ front, c ≠ quote ∧ c ≠ '\n' ∧ c ≠ '\\' := fun c inside => by
      have outside := plain c inside
      simp only [List.mem_cons, List.not_mem_nil, or_false, not_or] at outside
      exact ⟨outside.2.2, outside.2.1, outside.1⟩
    have narrow : ∀ c ∈ ['\\', '\n', quote], isAscii c = true := by
      simp only [List.forall_mem_cons]
      exact ⟨rfl, rfl, ascii, nofun⟩
    refine .look moves_rest ?_
    rcases findByte?_cases _ narrow here.rest with
      ⟨none, plain⟩ | ⟨front, stop, rest, split, plain, isStop, found⟩
    · have whole := stringTail_bare (bare plain) []
      rw [List.append_nil] at whole
      rw [none, whole]
      refine .bind moves_bump_all ?_
      exact .pure
    · obtain ⟨moves, behind⟩ := moves_bump_front split
      rw [found, split, stringTail_bare (bare plain)]
      refine .bind moves ?_
      generalize here.advance front.length = there at behind
      have goes : Moves Scanner.peek there (some stop) 0 := by
        have goes := @moves_peek there
        rwa [behind] at goes
      refine .look goes ?_
      dsimp only
      have bumped := moves_bump_one behind (narrow stop isStop)
      have further : (there.advance 1).rest = rest := Cursor.rest_advance_one behind
      rw [stringTail.eq_def]
      dsimp only
      split
      · rename_i isFeed
        subst isFeed
        rw [if_neg noFeed.symm]
        exact .pure
      · rename_i noLine
        split
        · rename_i isMark
          subst isMark
          rw [if_neg noMark.symm]
          cases rest with
          | nil =>
            show Finds _ _ (Scan.extend 1 ⟨.invalid, 0⟩)
            refine .bind bumped (.look (moves_bumpChar_nil further) ?_)
            exact .pure
          | cons escaped rest =>
            have last : ((there.advance 1).advance 1).rest = rest :=
            Cursor.rest_advance_one further
            have more := @ih ((there.advance 1).advance 1) (by
              rw [split, List.length_append, List.length_cons, List.length_cons] at enough
              rw [last]
              omega)
            rw [last] at more
            dsimp only
            rw [Scan.extend_two]
            exact .bind bumped (.bind (moves_bumpChar_cons further) more)
        · rename_i noEscape
          have isQuote : stop = quote := by simpa [noLine, noEscape] using isStop
          rw [if_pos isQuote]
          exact .done bumped

/-- A string in the quotes that it starts with. -/
theorem finds_string {quote : Char} {rest : List Char} (text : here.rest = quote :: rest)
    (isQuote : quote = '"' ∨ quote = '\'') : Finds Scanner.string here (string here.rest) := by
  have behind : (here.advance 1).rest = rest := Cursor.rest_advance_one text
  have tail : Finds (Scanner.stringTail quote ((here.advance 1).rest.length + 1)) (here.advance 1)
      (stringTail quote (here.advance 1).rest) := by
    rcases isQuote with rfl | rfl
    · exact finds_stringTail rfl (by decide) (by decide) (Nat.lt_succ_self _)
    · exact finds_stringTail rfl (by decide) (by decide) (Nat.lt_succ_self _)
  rw [text]
  refine .bind (moves_bumpChar_cons text) (.look moves_rounds ?_)
  rwa [behind] at tail ⊢

/-- Text in which nothing ends a template is moved over. -/
theorem templateText_plain {front : List Char} (plain : ∀ c ∈ front, c ∉ ['\\', '`', '$'])
    (rest : List Char) :
    templateText (front ++ rest) = (templateText rest).extend front.length := by
  induction front with
  | nil => simp [Scan.extend]
  | cons c front ih =>
    obtain ⟨first, others⟩ := List.forall_mem_cons.mp plain
    simp only [List.mem_cons, List.not_mem_nil, or_false, not_or] at first
    rw [List.cons_append, templateText.eq_def]
    dsimp only
    rw [if_neg first.2.1, if_neg first.1, if_neg fun opens => first.2.2 opens.1, ih others,
      Scan.extend_extend, Nat.add_comm, List.length_cons]

/-- Template text ends at a backtick, at a substitution, or with the text. -/
theorem finds_templateText {fuel : Nat} (enough : here.rest.length < fuel) :
    Finds (Scanner.templateText fuel) here (templateText here.rest) := by
  -- By induction on the rounds. Each but the last goes over a character that is searched for.
  induction fuel generalizing here with
  | zero => exact absurd enough (Nat.not_lt_zero _)
  | succ fuel ih =>
    refine .look moves_rest ?_
    rcases findByte?_cases ['\\', '`', '$'] (by simp [isAscii]) here.rest with
      ⟨none, plain⟩ | ⟨front, stop, rest, split, plain, isStop, found⟩
    · have whole := templateText_plain plain []
      rw [List.append_nil] at whole
      rw [none, whole]
      refine .bind moves_bump_all ?_
      exact .pure
    · obtain ⟨moves, behind⟩ := moves_bump_front split
      rw [found, split, templateText_plain plain]
      refine .bind moves ?_
      generalize here.advance front.length = there at behind
      have further : (there.advance 1).rest = rest := Cursor.rest_advance_one behind
      have bumped := moves_bumpChar_cons behind
      rw [split, List.length_append, List.length_cons] at enough
      rw [templateText.eq_def]
      dsimp only
      by_cases isMark : stop = '\\'
      · subst isMark
        rw [if_neg (by decide), if_pos rfl]
        cases rest with
        | nil =>
          show Finds _ _ (Scan.extend 1 ⟨.invalid, 0⟩)
          refine .bind bumped (.look (moves_bumpChar_nil further) ?_)
          exact .pure
        | cons escaped rest =>
          have last : ((there.advance 1).advance 1).rest = rest :=
            Cursor.rest_advance_one further
          rw [List.length_cons] at enough
          have more := @ih ((there.advance 1).advance 1) (by rw [last]; omega)
          rw [last] at more
          dsimp only
          rw [Scan.extend_two]
          exact .bind bumped (.bind (moves_bumpChar_cons further) more)
      rw [if_neg isMark]
      by_cases closes : stop = '`'
      · subst closes
        show Finds _ _ (Scan.extend 1 ⟨.templateEnd, 0⟩)
        refine .bind bumped ?_
        exact .pure
      rw [if_neg closes]
      have opens : stop = '$' := by simpa [isMark, closes] using isStop
      by_cases brace : rest.head? = some '{'
      · rw [if_pos ⟨opens, brace⟩]
        show Finds _ _ (Scan.extend 1 (Scan.extend 1 ⟨.templatePart, 0⟩))
        refine .bind bumped ?_
        dsimp only
        rw [if_neg isMark, if_neg closes]
        refine .bind (moves_eat (further ▸ brace)) ?_
        exact .pure
      · have more := @ih (there.advance 1) (by rw [further]; omega)
        rw [further] at more
        rw [if_neg fun both => brace both.2]
        refine .bind bumped ?_
        dsimp only
        rw [if_neg isMark, if_neg closes]
        exact .look (moves_eat_other (further ▸ brace)) more

/-- A regular expression ends with its flags, at a line feed, or with the text. -/
theorem finds_regexTail {fuel : Nat} (enough : here.rest.length < fuel) (inClass : Bool) :
    Finds (Scanner.regexTail fuel inClass) here (regexTail inClass here.rest) := by
  -- By induction on the rounds, each of which goes over a character.
  induction fuel generalizing here inClass with
  | zero => exact absurd enough (Nat.not_lt_zero _)
  | succ fuel ih =>
    cases text : here.rest with
    | nil =>
      refine .look (moves_bumpChar_nil text) ?_
      exact .pure
    | cons c rest =>
      rw [text, List.length_cons] at enough
      have behind : (here.advance 1).rest = rest := Cursor.rest_advance_one text
      have bumped := moves_bumpChar_cons text
      have more (inClass : Bool) :
          Finds (Scanner.regexTail fuel inClass) (here.advance 1) (regexTail inClass rest) := by
        have more := @ih (here.advance 1) (by rw [behind]; omega) inClass
        rwa [behind] at more
      rw [regexTail.eq_def]
      dsimp only
      by_cases isFeed : c = '\n'
      · rw [if_pos isFeed]
        show Finds _ _ (Scan.extend 1 ⟨.invalid, 0⟩)
        refine .bind bumped ?_
        dsimp only
        rw [if_pos isFeed]
        exact .pure
      rw [if_neg isFeed]
      by_cases isMark : c = '\\'
      · rw [if_pos isMark]
        cases rest with
        | nil =>
          show Finds _ _ (Scan.extend 1 ⟨.invalid, 0⟩)
          refine .bind bumped ?_
          dsimp only
          rw [if_neg isFeed, if_pos isMark]
          refine .look (moves_bumpChar_nil behind) ?_
          exact .pure
        | cons escaped rest =>
          rw [List.length_cons] at enough
          have last : ((here.advance 1).advance 1).rest = rest :=
            Cursor.rest_advance_one behind
          have next := moves_bumpChar_cons behind
          have further := @ih ((here.advance 1).advance 1) (by rw [last]; omega) inClass
          rw [last] at further
          dsimp only
          split
          · rename_i endsLine
            show Finds _ _ (Scan.extend 1 (Scan.extend 1 ⟨.invalid, 0⟩))
            refine .bind bumped ?_
            dsimp only
            rw [if_neg isFeed, if_pos isMark]
            refine .bind next ?_
            dsimp only
            rw [if_pos endsLine]
            exact .pure
          · rename_i goesOn
            rw [Scan.extend_two]
            refine .bind bumped ?_
            dsimp only
            rw [if_neg isFeed, if_pos isMark]
            refine .bind next ?_
            dsimp only
            rw [if_neg goesOn]
            exact further
      rw [if_neg isMark]
      by_cases opens : c = '['
      · rw [if_pos opens]
        refine .bind bumped ?_
        dsimp only
        rw [if_neg isFeed, if_neg isMark, if_pos opens]
        exact more true
      rw [if_neg opens]
      by_cases closes : c = ']'
      · rw [if_pos closes]
        refine .bind bumped ?_
        dsimp only
        rw [if_neg isFeed, if_neg isMark, if_neg opens, if_pos closes]
        exact more false
      rw [if_neg closes]
      by_cases ends : c = '/' ∧ ¬inClass = true
      · have flags := @moves_eatWhile (here.advance 1) isWordPart
        rw [behind] at flags
        have whole : Scan.mk .regex ((rest.takeWhile isWordPart).length + 1)
            = Scan.extend 1 ⟨.regex, (rest.takeWhile isWordPart).length⟩ := by
          simp [Scan.extend, Nat.add_comm]
        rw [if_pos ends, whole]
        refine .bind bumped ?_
        dsimp only
        rw [if_neg isFeed, if_neg isMark, if_neg opens, if_neg closes, if_pos ends]
        exact .done flags
      · rw [if_neg ends]
        refine .bind bumped ?_
        dsimp only
        rw [if_neg isFeed, if_neg isMark, if_neg opens, if_neg closes, if_neg ends]
        exact more inClass

/-- A regular expression is found behind its slash. -/
theorem finds_regex {rest : List Char} (text : here.rest = '/' :: rest) :
    Finds Scanner.regex here ((regexTail false rest).extend 1) := by
  have behind : (here.advance 1).rest = rest := Cursor.rest_advance_one text
  have tail := @finds_regexTail (here.advance 1) _ (Nat.lt_succ_self _) false
  refine .bind (moves_bump_one text rfl) (.look moves_rounds ?_)
  rwa [behind] at tail ⊢

/-- A punctuator stands in front of the text, and all of its characters are ASCII. -/
theorem finds_punctuator :
    Finds Scanner.punctuator here
      (match Punctuator.longest? here.rest with
        | some symbol => ⟨.symbol symbol, symbol.text.length⟩
        | none => ⟨.invalid, 0⟩) := by
  refine .look moves_rest ?_
  cases found : Punctuator.longest? here.rest with
  | none => exact .pure
  | some mark =>
    obtain ⟨rest, split⟩ := Punctuator.isPrefix_of_longest? found
    exact .done (moves_bump_append split.symm)

/-- Both decide alike. -/
theorem Finds.either {condition : Prop} [Decidable condition]
    {one other : Scanner (Option TokenKind)} {scan scanToo : Scan}
    (holds : condition → Finds one here scan) (fails : ¬condition → Finds other here scanToo) :
    Finds (if condition then one else other) here (if condition then scan else scanToo) := by
  split
  · exact holds ‹_›
  · exact fails ‹_›

/-- What is found at the start of a text that holds no trivia there. -/
theorem finds_significant (mode : LexMode) :
    Finds (Scanner.significant mode) here (significant mode here.rest) := by
  refine .look moves_peek ?_
  cases text : here.rest with
  | nil => exact .pure
  | cons c rest =>
    have head : (c :: rest)[1]? = rest.head? := by cases rest <;> rfl
    have second := @moves_peekAt here 1
    have third := @moves_peekAt here 2
    rw [text, head] at second
    rw [text, List.getElem?_cons_succ, ← List.head?_drop] at third
    have radix (isRadixDigit : Char → Bool) {lower upper : Char} (lowerAscii : isAscii lower = true)
        (upperAscii : isAscii upper = true)
        (marked : c = '0' ∧ (rest.head? = some lower ∨ rest.head? = some upper)) :
        Finds (some <$> Scanner.radixNumber isRadixDigit) here
          (radixNumber isRadixDigit (c :: rest)) := by
      obtain ⟨rfl, isMark⟩ := marked
      obtain ⟨mark, rest, rfl⟩ : ∃ mark rest', rest = mark :: rest' := by
        cases rest with
        | nil => simp at isMark
        | cons mark rest => exact ⟨mark, rest, rfl⟩
      have narrow : isAscii mark = true := by
        simp only [List.head?_cons, Option.some.injEq] at isMark
        rcases isMark with rfl | rfl
        · exact lowerAscii
        · exact upperAscii
      have moves := moves_radixNumber isRadixDigit text rfl narrow
      rw [text] at moves
      exact .of_moves moves
    refine .look second ?_
    unfold significant
    dsimp only
    -- Every way to start a token is asked in turn, and each has a lemma of its own.
    refine .either (radix _ rfl rfl) fun _ => ?_
    refine .either (radix _ rfl rfl) fun _ => ?_
    refine .either (radix _ rfl rfl) fun _ => ?_
    refine .either (fun _ => text ▸ finds_number) fun _ => ?_
    refine .either (fun quote => text ▸ finds_string text quote) fun _ => ?_
    refine .either (fun isTick => ?_) fun _ => ?_
    · have behind : (here.advance 1).rest = rest := Cursor.rest_advance_one text
      have more := finds_templateText (Nat.lt_succ_self (here.advance 1).rest.length)
      refine .bind (moves_bump_one text (isTick ▸ rfl)) (.look moves_rounds ?_)
      rwa [behind] at more ⊢
    refine .either (fun isMark => text ▸ finds_privateName text (isMark ▸ rfl)) fun _ => ?_
    refine .either (fun slash => finds_regex (slash.1 ▸ text)) fun _ => ?_
    refine .look third (.either (fun mark => ?_) fun _ => ?_)
    · exact .done (moves_bump_one text (mark.1 ▸ rfl))
    refine .either (fun _ => text ▸ .of_moves moves_word) fun _ => ?_
    exact text ▸ finds_punctuator

/-! ### What stands between tokens -/

/-- The bytes through the close of a block comment. -/
def closeSize (body : List Char) : Nat :=
  match findBytes? (utf8 ['*', '/']) (utf8 body) with
  | some index => index + 2
  | none => byteSize body

/-- A close is found in front of its two characters, and never inside of another one. -/
theorem closeSize_eq (body : List Char) :
    closeSize body = byteSize (body.take (blockCommentTail body)) := by
  have goesOn {c : Char} {rest : List Char}
      (found : findBytes? (utf8 ['*', '/']) (utf8 (c :: rest))
        = (findBytes? (utf8 ['*', '/']) (utf8 rest)).map (· + c.utf8Size)) :
      closeSize (c :: rest) = c.utf8Size + closeSize rest := by
    unfold closeSize
    rw [found]
    cases findBytes? (utf8 ['*', '/']) (utf8 rest) with
    | none => rfl
    | some index => simp only [Option.map_some]; omega
  -- Along the body, up to the first place where it closes.
  induction body with
  | nil => rfl
  | cons c rest ih =>
    rw [blockCommentTail]
    split
    · rename_i closes
      obtain ⟨rfl, slash⟩ := closes
      obtain ⟨rest, rfl⟩ := List.head?_eq_some_iff.mp slash
      rfl
    · rename_i noClose
      rw [List.take_succ_cons, byteSize, ← ih]
      refine goesOn ?_
      rw [utf8_cons]
      by_cases isStar : c = '*'
      · -- The first byte of the close is not followed by the second one.
        subst isStar
        have slash : (utf8 rest).head? ≠ some '/'.toUInt8 := fun same =>
          noClose ⟨rfl, (head?_utf8 rfl rest).mp same⟩
        have noPrefix : (utf8 ['*', '/']).isPrefixOf ('*'.toUInt8 :: utf8 rest) = false := by
          cases bytes : utf8 rest with
          | nil => rfl
          | cons byte more =>
            rw [bytes] at slash
            have differs : ('/'.toUInt8 == byte) = false :=
              Bool.eq_false_iff.mpr fun same => slash (congrArg some (eq_of_beq same).symm)
            show ('*'.toUInt8 == '*'.toUInt8 && ('/'.toUInt8 == byte && _)) = false
            rw [differs, Bool.false_and, Bool.and_false]
        show findBytes? (utf8 ['*', '/']) ('*'.toUInt8 :: utf8 rest) = _
        rw [findBytes?, noPrefix]
        rfl
      · have others : ∀ byte ∈ String.utf8EncodeChar c, byte ≠ '*'.toUInt8 := by
          intro byte inside same
          have outside := (spelledBy_stops ['*'] (by simp [isAscii])).not_of_mem_encode
            (by simpa using isStar) inside
          rw [same] at outside
          cases outside
        have passed := @findBytes?_append _ ['/'.toUInt8] _ others (utf8 rest)
        rwa [String.length_utf8EncodeChar] at passed

/-- What is known after pieces of trivia that start at the offset. -/
def Skipped.after (skipped : Skipped) (offset : Nat) (trivia : List Trivia) : Skipped where
  breaksLine := skipped.breaksLine || trivia.any Trivia.breaksLine
  isPure := skipped.isPure || (trivia.filterMap Trivia.comment?).any isPureMark
  comments := skipped.comments ++ legalComments offset trivia

variable {skipped : Skipped} {offset : Nat}

/-- Without trivia nothing is skipped. -/
@[simp]
theorem Skipped.after_nil : skipped.after offset [] = skipped := by
  simp [Skipped.after, legalComments]

/-- Trivia are skipped one after another. -/
theorem Skipped.after_cons (piece : Trivia) (trivia : List Trivia) :
    skipped.after offset (piece :: trivia)
      = (skipped.after offset [piece]).after (offset + byteSize piece.text) trivia := by
  simp only [Skipped.after, List.any_cons, List.any_nil, List.filterMap_cons, List.filterMap_nil,
    legalComments, Bool.or_assoc, Bool.or_false]
  cases piece.comment? with
  | none => simp
  | some text => by_cases legal : isLegal text = true <;> simp [legal]

/-- A line break is remembered. -/
theorem Skipped.after_lineBreak {c : Char} :
    skipped.after offset [.lineBreak c] = skipped.orBreaks true := by
  simp [Skipped.after, Skipped.orBreaks, Trivia.breaksLine, Trivia.comment?, legalComments]

/-- Blank space leaves nothing to remember. -/
theorem Skipped.after_blank {c : Char} : skipped.after offset [.blank c] = skipped := by
  simp [Skipped.after, Trivia.breaksLine, Trivia.comment?, legalComments]

/-- A comment in the text may hold a line break. -/
theorem Skipped.after_blockComment (text : List Char) :
    skipped.after offset [.blockComment text]
      = (skipped.orBreaks (text.any isLineTerminator)).andComment ⟨offset, offset + byteSize text⟩
          text := by
  by_cases legal : isLegal text = true <;>
    simp [Skipped.after, Skipped.orBreaks, Skipped.andComment, Trivia.breaksLine, Trivia.comment?,
      Trivia.text, legalComments, legal]

/-- A comment at the end of a line is remembered as a comment. -/
theorem Skipped.after_lineComment (text : List Char) :
    skipped.after offset [.lineComment text]
      = skipped.andComment ⟨offset, offset + byteSize text⟩ text := by
  by_cases legal : isLegal text = true <;>
    simp [Skipped.after, Skipped.andComment, Trivia.breaksLine, Trivia.comment?, Trivia.text,
      legalComments, legal]

/-- A comment that was moved over is taken down with its text. -/
theorem moves_recordSince (start : Cursor) (count : Nat) :
    Moves (Scanner.recordSince start skipped) (start.advance count)
      (skipped.andComment ⟨start.offset, (start.advance count).offset⟩ (start.rest.take count)) 0 :=
  moves_get.look (moves_since start count).done

/-- A comment in the text is taken to its end. -/
theorem moves_blockComment {body : List Char} (text : here.rest = '/' :: '*' :: body) :
    Moves (Scanner.blockComment skipped) here
      (skipped.after here.offset [.blockComment (here.rest.take (blockCommentTail body + 2))])
      (blockCommentTail body + 2) := by
  -- The search runs over bytes and the size is in characters, so both are brought together first.
  have behind : dropBytes 2 here.rest = .ok body := text ▸ dropBytes_append ['/', '*'] body
  have inside : takeBytes (closeSize body) body = .ok (body.take (blockCommentTail body)) :=
    closeSize_eq body ▸ takeBytes_take (blockCommentTail body) body
  have whole : here.rest.take (blockCommentTail body + 2)
      = '/' :: '*' :: body.take (blockCommentTail body) := by
    rw [text, List.take_succ_cons, List.take_succ_cons]
  have width : byteSize (here.rest.take (blockCommentTail body + 2)) = 2 + closeSize body := by
    have slash : ('/' : Char).utf8Size = 1 := rfl
    have star : ('*' : Char).utf8Size = 1 := rfl
    rw [whole, byteSize, byteSize, slash, star, closeSize_eq]
    omega
  have bumped := @moves_bump here (blockCommentTail body + 2)
  rw [width] at bumped
  have recorded := @moves_recordSince (skipped.orBreaks
    ((body.take (blockCommentTail body)).any isLineTerminator)) here (blockCommentTail body + 2)
  have moves : Moves (Scanner.blockComment skipped) here
      ((skipped.orBreaks ((body.take (blockCommentTail body)).any isLineTerminator)).andComment
        ⟨here.offset, (here.advance (blockCommentTail body + 2)).offset⟩
        (here.rest.take (blockCommentTail body + 2))) (blockCommentTail body + 2 + 0) := by
    refine .look moves_get (.look (moves_lift behind) (.look (moves_lift inside) ?_))
    exact .bind bumped recorded
  have breaks : (here.rest.take (blockCommentTail body + 2)).any isLineTerminator
      = (body.take (blockCommentTail body)).any isLineTerminator := by
    rw [whole]
    rfl
  rw [Skipped.after_blockComment, breaks]
  exact moves

/-- A comment at the end of a line is taken up to the break. -/
theorem moves_lineComment :
    let comment := here.rest.takeWhile fun next => next != '\n' && next != '\r'
    Moves (Scanner.lineComment skipped) here (skipped.after here.offset [.lineComment comment])
      comment.length := by
  intro comment
  obtain ⟨rest, split⟩ : comment <+: here.rest := List.takeWhile_prefix _
  have front : here.rest.take comment.length = comment := by rw [← split, List.take_left]
  -- The search for the end of the line runs over bytes and finds a narrow character.
  have width : (findByte? ['\n', '\r'] here.rest).getD (byteSize here.rest) = byteSize comment := by
    have goesOn {front : List Char} (plain : ∀ c ∈ front, c ∉ ['\n', '\r']) :
        ∀ c ∈ front, (c != '\n' && c != '\r') = true := fun c inside => by
      simpa using plain c inside
    rcases findByte?_cases ['\n', '\r'] (by simp [isAscii]) here.rest with
      ⟨none, plain⟩ | ⟨front, stop, rest, text, plain, isStop, found⟩
    · have whole : comment = here.rest := by
        have cut := @List.takeWhile_append_of_pos _ _ here.rest [] (goesOn plain)
        simpa only [List.append_nil, List.takeWhile_nil] using cut
      rw [none, whole]
      rfl
    · have ends : ¬(stop != '\n' && stop != '\r') = true := by
        have isEnd : stop = '\n' ∨ stop = '\r' := by simpa using isStop
        rcases isEnd with rfl | rfl <;> decide
      have same : comment = front := by
        have cut := @List.takeWhile_append_of_pos _ _ front (stop :: rest) (goesOn plain)
        simp only [comment, text, cut, List.takeWhile_cons, if_neg ends, List.append_nil]
      rw [found, same]
      rfl
  have recorded := @moves_recordSince skipped here comment.length
  rw [front] at recorded
  have stop : (here.advance comment.length).offset = here.offset + byteSize comment := by
    rw [Cursor.advance, front]
  rw [stop] at recorded
  rw [Skipped.after_lineComment]
  have moves := moves_bump_append split.symm
  rw [← width] at moves
  show Moves _ _ _ (comment.length + 0)
  refine .look moves_get (.bind moves ?_)
  exact recorded

/-- What a comment opens with. -/
theorem startsWith_pair (first second c : Char) (rest : List Char) :
    startsWith [first, second] (c :: rest) = true ↔ c = first ∧ rest.head? = some second := by
  cases rest with
  | nil => simp [startsWith]
  | cons d rest =>
    simp only [startsWith, Bool.and_true, Bool.and_eq_true, beq_iff_eq, List.head?_cons,
      Option.some.injEq]
    exact ⟨fun both => ⟨both.1.symm, both.2.symm⟩, fun both => ⟨both.1.symm, both.2.symm⟩⟩

/-- All trivia at a place are moved over. -/
theorem moves_skipTrivia {fuel rounds : Nat} (enough : here.rest.length < fuel)
    (long : here.rest.length ≤ rounds) :
    Moves (Scanner.skipTrivia fuel skipped) here
      (skipped.after here.offset (leadingTrivia rounds here.rest))
      ((leadingTrivia rounds here.rest).flatMap Trivia.text).length := by
  -- By induction on the rounds, each of which but the last goes over a piece.
  induction fuel generalizing here skipped rounds with
  | zero => exact absurd enough (Nat.not_lt_zero _)
  | succ fuel ih =>
    cases rounds with
    | zero =>
      have none := List.eq_nil_of_length_eq_zero (Nat.le_zero.mp long)
      refine .look moves_peek ?_
      rw [none]
      simpa [leadingTrivia] using Moves.pure
    | succ rounds =>
      have goesOn {β : Type} {piece : Trivia} {scanner : Scanner β} {next : β → Scanner Skipped} {result : β}
          (found : triviaPiece? here.rest = some piece)
          (moves : Moves scanner here result piece.text.length)
          (same : next result = Scanner.skipTrivia fuel (skipped.after here.offset [piece])) :
          Moves (scanner >>= next) here
            (skipped.after here.offset (leadingTrivia (rounds + 1) here.rest))
            ((leadingTrivia (rounds + 1) here.rest).flatMap Trivia.text).length := by
        have positive := triviaPiece?_nonempty found
        have inside := (triviaPiece?_isPrefix found).length_le
        have front := List.prefix_iff_eq_take.mp (triviaPiece?_isPrefix found)
        have offset : (here.advance piece.text.length).offset
            = here.offset + byteSize piece.text := by
          rw [Cursor.advance, ← front]
        have fewer : (here.advance piece.text.length).rest.length < here.rest.length := by
          rw [Cursor.rest_advance, List.length_drop]
          omega
        have more := @ih (here.advance piece.text.length) (skipped.after here.offset [piece]) rounds
          (by omega) (by omega)
        rw [offset, Cursor.rest_advance, ← same] at more
        rw [leadingTrivia, found]
        dsimp only
        rw [Skipped.after_cons, List.flatMap_cons, List.length_append]
        exact moves.bind more
      have ends (none : triviaPiece? here.rest = none) :
          skipped.after here.offset (leadingTrivia (rounds + 1) here.rest) = skipped
            ∧ ((leadingTrivia (rounds + 1) here.rest).flatMap Trivia.text).length = 0 := by
        rw [leadingTrivia, none]
        exact ⟨Skipped.after_nil, rfl⟩
      refine .look moves_peek ?_
      cases text : here.rest with
      | nil =>
        obtain ⟨same, size⟩ := ends (text ▸ rfl)
        rw [text] at same size
        rw [same, size]
        exact .pure
      | cons c rest =>
        dsimp only [List.head?_cons]
        rw [← text]
        by_cases breaks : isLineTerminator c = true
        · have found : triviaPiece? here.rest = some (.lineBreak c) := by
            rw [text, triviaPiece?, if_pos breaks]
          rw [if_pos breaks]
          exact goesOn found (moves_bump_head text) (congrArg _ Skipped.after_lineBreak.symm)
        rw [if_neg breaks]
        by_cases blank : isBlank c = true
        · have found : triviaPiece? here.rest = some (.blank c) := by
            rw [text, triviaPiece?, if_neg breaks, if_pos blank]
          rw [if_pos blank]
          exact goesOn found (moves_bump_head text) (congrArg _ Skipped.after_blank.symm)
        rw [if_neg blank]
        have opens (second : Char) := startsWith_pair '/' second c rest
        rw [← text] at opens
        by_cases block : c = '/' ∧ rest.head? = some '*'
        · obtain ⟨body, same⟩ := List.head?_eq_some_iff.mp block.2
          have found : triviaPiece? here.rest
              = some (.blockComment (here.rest.take (blockCommentTail body + 2))) := by
            rw [text, triviaPiece?, if_neg breaks, if_neg blank, if_pos block, same, List.drop_one,
              List.tail_cons]
          have width : (here.rest.take (blockCommentTail body + 2)).length
              = blockCommentTail body + 2 := by
            have inside := blockCommentTail_le body
            rw [List.length_take, text, same, List.length_cons, List.length_cons]
            omega
          refine .look moves_rest ?_
          rw [if_pos ((opens '*').mpr block)]
          refine goesOn found ?_ rfl
          exact (moves_blockComment (by rw [text, block.1, same])).congr width.symm
        refine .look moves_rest ?_
        rw [if_neg fun starts => block ((opens '*').mp starts)]
        refine .look moves_rest ?_
        by_cases line : c = '/' ∧ rest.head? = some '/'
        · have found : triviaPiece? here.rest
              = some (.lineComment (here.rest.takeWhile fun next => next != '\n' && next != '\r')) := by
            rw [text, triviaPiece?, if_neg breaks, if_neg blank, if_neg block, if_pos line]
          rw [if_pos ((opens '/').mpr line)]
          exact goesOn found moves_lineComment rfl
        · have none : triviaPiece? here.rest = none := by
            rw [text, triviaPiece?, if_neg breaks, if_neg blank, if_neg block, if_neg line]
          obtain ⟨same, size⟩ := ends none
          rw [if_neg fun starts => line ((opens '/').mp starts), same, size]
          exact .pure

/-! ### One step -/

/-- The trivia that a step finds in front of its token. -/
def gapTrivia (mode : LexMode) (text : List Char) : List Trivia :=
  if mode = .template then [] else leadingTrivia text.length text

/-- What stands between two tokens is taken as a whole. -/
theorem moves_gap (mode : LexMode) :
    Moves (Scanner.gap mode) here (Skipped.after {} here.offset (gapTrivia mode here.rest))
      ((gapTrivia mode here.rest).flatMap Trivia.text).length := by
  unfold Scanner.gap gapTrivia
  split
  · rw [Skipped.after_nil]
    exact .pure
  · exact .look moves_rounds (moves_skipTrivia (Nat.lt_succ_self _) (Nat.le_refl _))

/-- Nothing is taken exactly if no character is. -/
theorem advance_offset_eq_iff {count : Nat} (inside : count ≤ here.rest.length) :
    (here.advance count).offset = here.offset ↔ count = 0 := by
  cases count with
  | zero => simp
  | succ count =>
    cases text : here.rest with
    | nil => simp [text] at inside
    | cons c rest =>
      have positive := c.utf8Size_pos
      refine iff_of_false (fun same => ?_) (Nat.succ_ne_zero _)
      rw [Cursor.advance, text, List.take_succ_cons, byteSize] at same
      simp only at same
      omega

/-- An invalid token that is empty takes one more character, if there is one. -/
theorem moves_kind (mode : LexMode) :
    Moves (Scanner.kind mode) here (scan mode here.rest).kind (scan mode here.rest).size := by
  -- What was found decides, apart from the repair of an empty token.
  let found : Scan :=
    if mode = .template then templateText here.rest
    else if here.rest.isEmpty then ⟨.eof, 0⟩
    else significant mode here.rest
  have finds : Finds (Scanner.found mode) here found := by
    refine .either (fun _ => ?_) fun _ => .look moves_rest (.either (fun _ => ?_) fun _ => ?_)
    · exact .look moves_rounds (finds_templateText (Nat.lt_succ_self _))
    · exact .pure
    · exact finds_significant mode
  have inside : found.size ≤ here.rest.length := by
    simp only [found]
    split
    · exact (templateText_fits here.rest).inside
    · cases here.rest with
      | nil => exact Nat.le_refl 0
      | cons c rest => exact (significant_fits mode c rest).inside
  have whole : scan mode here.rest
      = if found.kind = .invalid ∧ found.size = 0 then ⟨.invalid, min 1 here.rest.length⟩
        else found := rfl
  clear_value found
  obtain ⟨result, moves, kind⟩ := finds
  rw [whole]
  refine .look moves_get ?_
  by_cases isEmpty : found.kind = .invalid ∧ found.size = 0
  · rw [if_pos isEmpty, ← Nat.zero_add (min 1 here.rest.length)]
    rw [isEmpty.2] at moves
    refine .bind moves ?_
    refine .look moves_get ?_
    dsimp only
    rw [kind, Cursor.advance_zero, if_pos ⟨isEmpty.1, rfl⟩]
    exact isEmpty.1 ▸ moves_bumpChar.done
  · rw [if_neg isEmpty]
    show Moves _ _ _ (found.size + 0)
    refine .bind moves ?_
    refine .look moves_get ?_
    dsimp only
    rw [kind, if_neg fun both => isEmpty (both.imp_right (advance_offset_eq_iff inside).mp)]
    exact .pure

/-- The token of a step is what stands between the place behind the gap and the next one. -/
theorem moves_token (mode : LexMode) :
    ∃ count, Moves (Scanner.token mode) here ((step mode here).token, (step mode here).comments) count
      ∧ here.advance count = (step mode here).next := by
  let front := ((gapTrivia mode here.rest).flatMap Trivia.text).length
  let start := here.advance front
  let size := (scan mode start.rest).size
  refine ⟨front + (size + 0), .bind (moves_gap mode) (.look moves_get ?_), ?_⟩
  · refine .bind (moves_kind mode) ?_
    refine .look moves_get ?_
    refine .look (moves_since start size) ?_
    exact .pure
  · rw [Nat.add_zero, ← Cursor.advance_advance]
    rfl

/-- The lexer takes no slice that is not there and needs no more rounds than it has. It gives the
token that counting characters gives, whatever the mode and wherever it stands. -/
theorem lexNext_eq (mode : LexMode) (here : Cursor) : lexNext mode here = .ok (step mode here) := by
  obtain ⟨count, moves, next⟩ := @moves_token here mode
  show (Scanner.token mode here >>= fun found => Except.ok _) = _
  rw [moves, next]
  rfl

/-- The first token of a text is never given up for a slice that is not there. -/
theorem first_eq (text : String) : first text = (step .standard (.ofString text)).token := by
  rw [first, lexNext_eq]

end Downlevel.Lexer
