import Downlevel.Proofs.Lexing.Tiling
import Downlevel.Proofs.Reading.Buffer
import Downlevel.Proofs.Reading.Yields

/-! Names come from tokens, and every token that can stand for a name is spelled like one. -/

namespace Downlevel

namespace Lexer

open Text

variable {mode : LexMode} {here : Cursor}

/-- A name is found outside of templates only, in front of the end of the source. -/
theorem scan_eq_significant {text : List Char}
    (named : (scan mode text).kind.isMemberName = true) :
    scan mode text = significant mode text ∧ text ≠ [] := by
  -- What is no name stays none when it is made to take a character.
  have kept (found : Scan) (isName : (if found.kind = .invalid ∧ found.size = 0 then
      ⟨.invalid, min 1 text.length⟩ else found : Scan).kind.isMemberName = true) :
      (if found.kind = .invalid ∧ found.size = 0 then ⟨.invalid, min 1 text.length⟩
        else found : Scan) = found := by
    by_cases invalid : found.kind = .invalid ∧ found.size = 0
    · rw [if_pos invalid] at isName
      cases isName
    · exact if_neg invalid
  have same := kept _ named
  change scan mode text = _ at same
  by_cases inTemplate : mode = .template
  · rw [same, if_pos inTemplate, templateText_noName] at named
    cases named
  · rw [if_neg inTemplate] at same
    cases text with
    | nil =>
      rw [same] at named
      cases named
    | cons c rest => exact ⟨same, nofun⟩

/-- What a scan finds to be a name opens like one. -/
theorem opens_of_scan {text : List Char} (named : (scan mode text).kind.isMemberName = true) :
    ∃ c rest, text = c :: rest ∧ c ≠ '\x00' := by
  obtain ⟨same, nonempty⟩ := scan_eq_significant named
  rw [same] at named
  cases text with
  | nil => exact absurd rfl nonempty
  | cons c rest =>
    refine ⟨c, rest, rfl, ?_⟩
    rintro rfl
    simp [significant_noName mode (c := '\x00') (by decide) (by decide) rest] at named

/-- A word is no private name. -/
theorem word_ne_private (text : List Char) : (word text).kind ≠ .privateName := by
  have noMark (spelling : List Char) : wordKind spelling ≠ .privateName := by
    unfold wordKind
    repeat' split
    all_goals nofun
  unfold word
  split
  · nofun
  · exact noMark _

/-- A private name is a number sign and what opens like a name behind it. -/
theorem opens_of_scan_private {text : List Char} (named : (scan mode text).kind = .privateName) :
    ∃ c rest, text = '#' :: c :: rest ∧ c ≠ '#' ∧ c ≠ '\x00' ∧ 2 ≤ (scan mode text).size := by
  have isName : (scan mode text).kind.isMemberName = true := by rw [named]; rfl
  obtain ⟨same, nonempty⟩ := scan_eq_significant isName
  rw [same] at named isName ⊢
  cases text with
  | nil => exact absurd rfl nonempty
  | cons mark rest =>
    -- A word is none, and other tokens have no name; so the mark is what opens a private name.
    by_cases opens : opensWord mark = true
    · rw [significant_word mode opens] at named
      exact absurd named (word_ne_private _)
    · by_cases marked : mark = '#'
      · subst marked
        rw [significant_privateName] at named ⊢
        cases rest with
        | nil => cases named
        | cons c rest =>
          rw [privateName] at named ⊢
          -- Without a letter behind the mark the token is invalid.
          split at named
          · cases named
          · rename_i isWord
            refine ⟨c, rest, rfl, ?_, ?_, ?_⟩
            · rintro rfl
              exact isWord (by decide)
            · rintro rfl
              exact isWord (by decide)
            · rw [if_neg isWord]
              exact Nat.le_add_left ..
      · simp [significant_noName mode (by simpa using opens) marked rest] at isName

/-- A token that can name a member is spelled. -/
theorem isSpelled_step (named : (step mode here).token.kind.isMemberName = true) :
    IsSpelled (step mode here).token.text := by
  obtain ⟨_, following, _, _, _, _, kind, text, _⟩ := step_split mode here
  rw [kind] at named
  obtain ⟨c, rest, rfl, noPlaceholder⟩ := opens_of_scan named
  obtain ⟨-, positive⟩ := scan_cons mode c rest
  refine ⟨c, rest.take ((scan mode (c :: rest)).size - 1), ?_, noPlaceholder⟩
  rw [text, List.take_cons positive]

/-- A private name keeps its number sign. -/
theorem isPrivatelySpelled_step (named : (step mode here).token.kind = .privateName) :
    IsPrivatelySpelled (step mode here).token.text := by
  obtain ⟨_, following, _, _, _, _, kind, text, _⟩ := step_split mode here
  rw [kind] at named
  obtain ⟨c, rest, rfl, noMark, noPlaceholder, long⟩ := opens_of_scan_private named
  refine ⟨c, rest.take ((scan mode ('#' :: c :: rest)).size - 2), ?_, noMark, noPlaceholder⟩
  rw [text, List.take_cons (by omega), List.take_cons (by omega), Nat.sub_sub]

end Lexer

section Tokens

variable {token : Token}

/-- Whatever can be bound can name a member. -/
theorem TokenKind.isMemberName_of_isBindable {kind : TokenKind} (bindable : kind.isBindable = true) :
    kind.isMemberName = true := by
  cases kind <;> first | rfl | cases bindable

namespace Token.IsLexed

/-- A token that can name a member is spelled like a name. -/
theorem isSpelled (isLexed : token.IsLexed) (named : token.kind.isMemberName = true) :
    IsSpelled token.text := by
  obtain ⟨mode, here, one, read, rfl⟩ := isLexed
  rw [Lexer.lexNext_eq] at read
  cases read
  exact Lexer.isSpelled_step named

/-- A token that can be bound is spelled like a name. -/
theorem isBound (isLexed : token.IsLexed) (bindable : token.kind.isBindable = true) :
    IsSpelled token.text :=
  isLexed.isSpelled (TokenKind.isMemberName_of_isBindable bindable)

/-- A private name is spelled like a name behind its sign. -/
theorem isPrivatelySpelled (isLexed : token.IsLexed) (named : token.kind = .privateName) :
    IsPrivatelySpelled token.text := by
  obtain ⟨mode, here, one, read, rfl⟩ := isLexed
  rw [Lexer.lexNext_eq] at read
  cases read
  exact Lexer.isPrivatelySpelled_step named

end Token.IsLexed

end Tokens

namespace Reader

variable {reader : Reader} {token : Token}

/-- The next token in standard mode is known. -/
def Shows (reader : Reader) (token : Token) : Prop :=
  ∃ ahead, reader.buffer[reader.next]? = some ahead ∧ ahead.mode = .standard ∧ ahead.token = token

/-- Looking once more changes nothing. -/
theorem Shows.look (shows : reader.Shows token) : reader.look .standard = .ok (token, reader) := by
  obtain ⟨ahead, found, read, rfl⟩ := shows
  simp only [Reader.look, inMode, found, read, if_true, Bind.bind, Except.bind]
  rfl

/-- A reader that shows a token is inside of its buffer. -/
theorem Shows.inside (shows : reader.Shows token) : reader.next ≤ reader.buffer.size := by
  obtain ⟨ahead, found, -⟩ := shows
  exact Nat.le_of_lt (Array.getElem?_eq_some_iff.mp found).1

/-- If the buffer can be made ready for a mode, it holds what was taken, and behind it a token of that
mode or nothing. -/
theorem inMode_spec {mode : LexMode} {later : Reader} (inside : reader.next ≤ reader.buffer.size)
    (ready : reader.inMode mode = .ok later) :
    later.next = reader.next
      ∧ (∀ index < reader.next, later.buffer[index]? = reader.buffer[index]?)
      ∧ (later.buffer.size = reader.next
        ∨ ∃ ahead, later.buffer[reader.next]? = some ahead ∧ ahead.mode = mode) := by
  -- A token that was read in another mode is forgotten, and with it everything behind it.
  unfold inMode at ready
  split at ready
  · rename_i ahead found
    split at ready
    · rename_i read
      cases ready
      exact ⟨rfl, fun _ _ => rfl, .inr ⟨ahead, found, read⟩⟩
    · -- Only where the lexer can be set back is anything forgotten.
      simp only [resetTo, setLexer, Bind.bind, Except.bind] at ready
      split at ready
      · cases ready
      · cases ready
        refine ⟨rfl, fun index small => ?_, .inl (by simpa using inside)⟩
        simp [small, Nat.lt_of_lt_of_le small inside]
  · rename_i none
    cases ready
    have ends := Nat.le_antisymm (Array.getElem?_eq_none_iff.mp none) inside
    exact ⟨rfl, fun _ _ => rfl, .inl ends⟩

/-- What a look does: it finds the token behind those that were taken, or puts it there. What was
taken stays. -/
theorem look_spec {mode : LexMode} {later : Reader} (inside : reader.next ≤ reader.buffer.size)
    (looks : reader.look mode = .ok (token, later)) :
    ∃ ahead, token = ahead.token ∧ ahead.mode = mode
      ∧ later.buffer[reader.next]? = some ahead
      ∧ later.next = reader.next
      ∧ ∀ index < reader.next, later.buffer[index]? = reader.buffer[index]? := by
  simp only [look, Bind.bind, Except.bind] at looks
  split at looks
  · cases looks
  · rename_i middle ready
    obtain ⟨next, taken, ends | ⟨ahead, found, read⟩⟩ := inMode_spec inside ready
    · -- A buffer that ends with what was taken gets the token at its end.
      have none : middle.buffer[middle.next]? = none :=
        Array.getElem?_eq_none (Nat.le_of_eq (ends.trans next.symm))
      rw [none] at looks
      dsimp only at looks
      rw [lexMore_eq] at looks
      cases looks
      refine ⟨lexed mode middle.lexer, rfl, rfl, ?_, next, fun index small => ?_⟩
      · rw [grown_entry, if_pos ends.symm]
      · rw [grown_entry, if_neg (ends ▸ Nat.ne_of_lt small), taken index small]
    · rw [next, found] at looks
      cases looks
      exact ⟨ahead, rfl, read, found, next, taken⟩

/-- Every token that the reader gives comes from the lexer, now or earlier. -/
theorem isLexed_look {mode : LexMode} {later : Reader} (inside : reader.next ≤ reader.buffer.size)
    (looks : reader.look mode = .ok (token, later)) : token.IsLexed := by
  obtain ⟨ahead, rfl, -⟩ := look_spec inside looks
  exact ahead.isLexed

/-- A token that was looked at is known. -/
theorem shows_look {later : Reader} (inside : reader.next ≤ reader.buffer.size)
    (looks : reader.look .standard = .ok (token, later)) : later.Shows token := by
  obtain ⟨ahead, same, read, found, next, -⟩ := look_spec inside looks
  exact ⟨ahead, next ▸ found, read, same.symm⟩

end Reader

namespace Parser

variable {α β : Type} {reader later : Reader} {token : Token} {mode : LexMode}

/-- Whatever the parser gives from the reader on is as described. -/
def YieldsFrom (reader : Reader) (parser : Parser α) (described : α → Prop) : Prop :=
  ∀ result later, parser reader = .ok result later → described result

/-- A token can be looked at only inside of the buffer. -/
theorem peekIn_ok (run : peekIn mode reader = .ok token later) :
    reader.next ≤ reader.buffer.size ∧ reader.look mode = .ok (token, later) := by
  -- A place beyond the buffer cannot be read, so a reading that succeeds is inside.
  by_cases inside : reader.next ≤ reader.buffer.size
  · refine ⟨inside, ?_⟩
    cases looks : reader.look mode with
    | ok pair =>
      obtain ⟨found, middle⟩ := pair
      rw [peekIn_eq inside looks] at run
      cases run
      rfl
    | error misread =>
      simp only [peekIn, Bind.bind, EStateM.bind, reading_eq inside, looks] at run
      cases run
  · have stops := reading_broken (Nat.lt_of_not_le inside)
    simp [peekIn, Bind.bind, EStateM.bind, stops] at run

/-- Taking a token is looking at it and moving on. -/
theorem takeIn_ok (run : takeIn mode reader = .ok token later) :
    reader.next ≤ reader.buffer.size ∧ ∃ middle, reader.look mode = .ok (token, middle)
      ∧ { middle with next := middle.next + 1 } = later := by
  simp only [takeIn, Bind.bind, EStateM.bind] at run
  split at run
  · rename_i found middle ran
    obtain ⟨inside, looks⟩ := peekIn_ok ran
    cases run
    exact ⟨inside, middle, looks, rfl⟩
  · cases run

namespace Yields

variable {rest : Token → Parser β} {final : β → Prop} {described : α → Prop}

/-- The next token comes from the lexer, in every mode. -/
theorem peekIn : Yields (Parser.peekIn mode) Token.IsLexed := by
  intro reader token later run
  obtain ⟨inside, looks⟩ := peekIn_ok run
  exact Reader.isLexed_look inside looks

/-- The next token comes from the lexer. -/
theorem peek : Yields Parser.peek Token.IsLexed :=
  peekIn

/-- A token that is taken comes from the lexer, in every mode. -/
theorem takeIn : Yields (Parser.takeIn mode) Token.IsLexed :=
  peekIn.bind fun _ isLexed => .next fun _ => .pure isLexed

/-- A token that is taken comes from the lexer. -/
theorem take : Yields Parser.take Token.IsLexed :=
  takeIn

/-- A token that had to be of a kind is of that kind. -/
theorem require {kind : TokenKind} :
    Yields (Parser.require kind) fun token => token.IsLexed ∧ token.kind = kind :=
  take.bind fun _ isLexed => .ite (fun same => .pure ⟨isLexed, same⟩) fun _ => .fail

/-- What comes behind a look at the next token may rely on the reader to show it. -/
theorem peeked (second : ∀ token reader, token.IsLexed → reader.Shows token →
    YieldsFrom reader (rest token) final) :
    Yields (Parser.peek >>= rest) final := by
  intro reader last later run
  -- The token that is looked at is the one that the reader shows from then on.
  simp only [Bind.bind, EStateM.bind] at run
  split at run
  · rename_i token middle ran
    obtain ⟨inside, looks⟩ := peekIn_ok ran
    have shows := Reader.shows_look inside looks
    exact second token middle (peek reader token middle ran) shows last later run
  · cases run

end Yields

namespace YieldsFrom

variable {rest : Token → Parser β} {final : β → Prop}

/-- The token that the reader shows is the one that is seen, and nothing changes. -/
theorem peek (shows : reader.Shows token) (second : YieldsFrom reader (rest token) final) :
    YieldsFrom reader (Parser.peek >>= rest) final := by
  have same : (Parser.peek >>= rest) reader = rest token reader := by
    simp only [Parser.peek, Bind.bind, EStateM.bind, peekIn_eq shows.inside shows.look]
  intro result later run
  exact second result later (same ▸ run)

/-- The token that the reader shows is the one that is taken. -/
theorem take (shows : reader.Shows token) (second : Yields (rest token) final) :
    YieldsFrom reader (Parser.take >>= rest) final := by
  have same : (Parser.take >>= rest) reader = rest token { reader with next := reader.next + 1 } := by
    simp only [Parser.take, Bind.bind, EStateM.bind, takeIn_eq shows.inside shows.look]
  intro result later run
  exact second _ result later (same ▸ run)

/-- A choice gives what both of its sides do. -/
theorem ite {condition : Prop} [Decidable condition] {parser other : Parser β}
    (holds : condition → YieldsFrom reader parser final)
    (fails : ¬condition → YieldsFrom reader other final) :
    YieldsFrom reader (if condition then parser else other) final := by
  split
  · exact holds ‹_›
  · exact fails ‹_›

end YieldsFrom

/-- After a look at two tokens, the reader shows the first. -/
theorem shows_peek2 {first second : Token} (run : peek2 reader = .ok (first, second) later) :
    first.IsLexed ∧ later.Shows first := by
  have took (token : Token) (middle last : Reader) (ran : take middle = .ok token last) :=
    takeIn_ok ran
  have lexed (token : Token) (middle last : Reader) (ran : take middle = .ok token last) :=
    Yields.take middle token last ran
  simp only [peek2, Bind.bind, EStateM.bind, checkpoint_run, restore_run] at run
  split at run
  · rename_i found middle ran
    split at run
    · rename_i other last ran'
      cases run
      obtain ⟨inside, looked, looks, isMiddle⟩ := took _ _ _ ran
      obtain ⟨inside', looked', looks', isLast⟩ := took _ _ _ ran'
      obtain ⟨ahead, same, read, shown, next, -⟩ := Reader.look_spec inside looks
      obtain ⟨-, -, -, -, -, kept⟩ := Reader.look_spec inside' looks'
      refine ⟨lexed _ _ _ ran, ahead, ?_, read, same.symm⟩
      -- The second token is behind the first, which stays where it is.
      have front : reader.next < middle.next := by
        rw [← isMiddle, next]
        exact Nat.lt_succ_self _
      show last.buffer[reader.next]? = some ahead
      rw [← isLast]
      exact (kept _ front).trans (isMiddle ▸ shown)
    · cases run
  · cases run

namespace Yields

variable {β : Type} {final : β → Prop}

/-- Two tokens that were looked at come from the lexer. -/
theorem peek2 : Yields Parser.peek2 fun (first, second) => first.IsLexed ∧ second.IsLexed :=
  .next fun _ => take.bind fun _ first => take.bind fun _ second => .next fun _ =>
    .pure ⟨first, second⟩

/-- What comes behind a look at two tokens may rely on the reader to show the first. -/
theorem peeked2 {rest : Token × Token → Parser β}
    (second : ∀ first second reader, first.IsLexed → reader.Shows first →
      YieldsFrom reader (rest (first, second)) final) :
    Yields (Parser.peek2 >>= rest) final := by
  intro reader last later run
  simp only [Bind.bind, EStateM.bind] at run
  split at run
  · rename_i both middle ran
    obtain ⟨isLexed, shows⟩ := shows_peek2 ran
    exact second both.1 both.2 middle isLexed shows last later run
  · cases run

end Yields

section Names

/-- A name that is bound is spelled. -/
theorem yields_bindingId : Yields bindingId fun (_, name) => IsSpelled name :=
  .next fun _ => (Yields.take.bind fun _ isLexed =>
    .ite (fun bindable => .pure (isLexed.isBound bindable)) fun _ => .fail).bind
      fun _ spelled => .next fun _ => .pure spelled

/-- So is the name of a class or function. -/
theorem yields_bindingName? : Yields bindingName? fun name => ∀ own ∈ name, IsSpelled own := by
  refine Yields.peek.bind fun token isLexed => .ite (fun bindable => ?_) fun _ => ?_
  · refine .next fun _ => .pure ?_
    simpa using isLexed.isBound bindable
  · exact .pure nofun

/-- A function has no name that is not spelled like one. -/
theorem yields_functionHead : Yields functionHead fun head => ∀ own ∈ head.name, IsSpelled own :=
  .next fun _ => .next fun _ => .next fun _ => yields_bindingName?.bind fun _ spelled =>
    .pure spelled

/-- A key that is a word or a private name is spelled like one. -/
theorem yields_directKey :
    Yields directKey fun name => (name.kind = .identifier → IsSpelled name.text)
      ∧ (name.kind = .privateName → IsPrivatelySpelled name.text) := by
  refine .spanned (Yields.take.bind fun token isLexed => ?_)
  -- Only names and keywords are spelled like names, and only private names like private ones.
  split
  · exact .next fun _ => .pure fun _ => .pure ⟨nofun, nofun⟩
  · exact .pure fun _ => .pure ⟨nofun, nofun⟩
  · exact .next fun _ => .pure fun _ => .pure ⟨nofun, nofun⟩
  · rename_i isPrivate
    exact .pure fun _ => .pure ⟨nofun, fun _ => isLexed.isPrivatelySpelled isPrivate⟩
  · rename_i isName
    exact .pure fun _ => .pure ⟨fun _ => isLexed.isSpelled (by rw [isName]; rfl), nofun⟩
  · rename_i word isWord
    exact .pure fun _ => .pure ⟨fun _ => isLexed.isSpelled (by rw [isWord]; rfl), nofun⟩
  · exact .fail

/-- The label of a jump is spelled. -/
theorem yields_jumpLabel : Yields jumpLabel fun label => ∀ own ∈ label, IsSpelled own := by
  refine Yields.peek.bind fun token isLexed => .ite (fun bindable => ?_) fun _ => ?_
  · refine .next fun _ => .next fun _ => .pure ?_
    simpa using isLexed.isBound (Bool.and_eq_true_iff.mp bindable).1
  · exact .next fun _ => .pure nofun

end Names

section Lists

variable {isExport : Bool}

/-- A name in an import or export list. Only where it needs an alias may it be none that can be
bound. -/
theorem yields_listedName {token : Token} (isLexed : token.IsLexed) :
    Yields (listedName isExport token) fun (name, needsAlias) =>
      name.IsRead ∧ (isExport = false → needsAlias = false → IsSpelled name.text) := by
  refine .ite (fun _ => .next fun _ => .pure ⟨trivial, ?_⟩) fun _ => .ite (fun bindable => ?_)
    fun _ => .ite (fun isKeyword => ?_) fun _ => .fail
  · rintro rfl ⟨⟩
  · have spelled := isLexed.isBound bindable
    exact .pure ⟨spelled, fun _ _ => spelled⟩
  · refine .pure ⟨isLexed.isSpelled ?_, ?_⟩
    · cases kind : token.kind <;> rw [kind] at isKeyword <;> first | rfl | exact isKeyword
    · rintro rfl ⟨⟩

/-- An alias is spelled where it is bound. -/
theorem yields_listedAlias :
    Yields (listedAlias isExport) fun name => isExport = false → IsSpelled name := by
  refine Yields.take.bind fun token isLexed =>
    .ite (fun isText => Yields.any.weaken ?_) fun _ => .ite (fun isName => .pure ?_)
    fun _ => .fail
  · rintro _ - rfl
    cases isText.2
  · rintro rfl
    exact isLexed.isBound (isName.resolve_right nofun)

/-- An entry of an import list binds a name. -/
theorem yields_listEntry :
    Yields (listEntry isExport) fun (name, bound) =>
      name.IsRead ∧ (isExport = false → IsSpelled bound) := by
  refine Yields.take.bind fun token isLexed => (yields_listedName isLexed).bind
    fun (name, needsAlias) ⟨isRead, spelled⟩ => ?_
  refine .next fun _ => .ite (fun _ => ?_) fun _ => ?_
  · exact yields_listedAlias.bind fun _ inAlias => .pure ⟨isRead, inAlias⟩
  · exact .checked fun none =>
      .pure ⟨isRead, fun isImport => spelled isImport (by simpa using none)⟩

/-- The entries of an import list bind names. -/
theorem yields_listEntries :
    Yields (listEntries isExport) fun entries => ∀ entry ∈ entries,
      entry.1.IsRead ∧ (isExport = false → IsSpelled entry.2) :=
  .next fun _ => (Yields.commaList yields_listEntry).bind fun _ all => .next fun _ => .pure all

/-- An import binds a name. -/
theorem yields_importBinding : Yields importBinding IsSpelled :=
  yields_bindingId.bind fun _ spelled => .pure spelled

/-- What an import binds besides the default was read. -/
theorem yields_importNames : Yields importNames ImportNames.IsRead := by
  refine .next fun _ => .ite (fun _ => ?_) fun _ => ?_
  · exact .next fun _ => yields_importBinding.bind fun _ spelled => .pure spelled
  · refine yields_listEntries.bind fun entries all => .pure ?_
    exact List.forall_mem_map.mpr fun entry mem => ⟨(all entry mem).1, (all entry mem).2 rfl⟩

/-- All that an import binds are names. -/
theorem yields_importClause :
    Yields importClause fun (default, names) =>
      (∀ own ∈ default, IsSpelled own) ∧ ∀ list ∈ names, list.IsRead := by
  refine .next fun _ => .ite (fun _ => ?_) fun _ => ?_
  · refine yields_importBinding.bind fun default spelled => .next fun _ => .ite (fun _ => ?_)
      fun _ => .pure ?_
    · exact yields_importNames.bind fun _ isRead => .pure (by simpa using ⟨spelled, isRead⟩)
    · simpa using spelled
  · exact yields_importNames.bind fun _ isRead => .pure (by simpa using isRead)

/-- What is exported by name is spelled, unless it is a string. -/
theorem yields_exportNames :
    Yields exportNames fun names => ∀ entries, names = .specific entries →
      ∀ entry ∈ entries, entry.exportable.IsRead := by
  refine .next fun _ => .ite (fun _ => .next fun _ => .ite (fun _ => ?_) fun _ => ?_) fun _ => ?_
  · exact .next fun _ => .pure nofun
  · exact .pure nofun
  · refine yields_listEntries.bind fun entries all => .pure ?_
    rintro _ ⟨⟩
    exact List.forall_mem_map.mpr fun entry mem => (all entry mem).1

end Lists

end Parser

end Downlevel
