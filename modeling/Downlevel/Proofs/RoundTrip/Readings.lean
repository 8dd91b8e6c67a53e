import Downlevel.Proofs.Reading.Buffer
import Downlevel.Proofs.Reading.Yields
import Downlevel.Proofs.RoundTrip.Lexemes

/-! Reading a source of which the tokens are known in advance: where a reader stands among them, what
the small parsers do there, and parsers that get from given tokens to others. -/

namespace Downlevel

open Downlevel.Parser

/-- A source and its tokens. None of them is an arrow. -/
structure Tape where
  start : Lexer.Cursor
  lexemes : List Lexeme
  /-- What has been reported so far. -/
  told : List Report := []
  spelled : Spells start.rest lexemes
  arrowless : ∀ lexeme ∈ lexemes, lexeme.kind ≠ .symbol .equalsChevronRight

namespace Tape

/-- The place in front of each token. -/
def place (tape : Tape) : Nat → Lexer.Cursor
  | 0 => tape.start
  | count + 1 => (Lexer.step .standard (tape.place count)).next

/-- The same tokens, with more reported. -/
def telling (tape : Tape) (told : List Report) : Tape :=
  { tape with told := tape.told ++ told }

/-- Reports leave the tape its lexemes. -/
@[simp] theorem lexemes_telling (tape : Tape) (told : List Report) :
    (tape.telling told).lexemes = tape.lexemes := rfl

/-- Telling nothing leaves the tape as it is. -/
@[simp] theorem telling_nil (tape : Tape) : tape.telling [] = tape := by
  simp [telling]

/-- Reports are told one after another. -/
@[simp] theorem telling_telling (tape : Tape) (told more : List Report) :
    (tape.telling told).telling more = tape.telling (told ++ more) := by
  simp [telling, List.append_assoc]

/-- Reports leave the tape its places. -/
@[simp] theorem place_telling (tape : Tape) (told : List Report) (count : Nat) :
    (tape.telling told).place count = tape.place count := by
  induction count with
  | zero => rfl
  | succ count ih => rw [place, place, ih]

variable {tape : Tape} {lexeme : Lexeme} {ahead after : List Lexeme} {reader : Reader}

/-- The tokens from any place on are spelled there. -/
theorem spelled_drop (tape : Tape) (count : Nat) :
    Spells (tape.place count).rest (tape.lexemes.drop count) := by
  -- Counting along the lexemes: each step of the scanner starts the next one where the last ended.
  induction count with
  | zero => exact tape.spelled
  | succ count ih =>
    rw [← List.drop_drop, List.drop_one]
    cases found : tape.lexemes.drop count with
    | nil => trivial
    | cons lexeme rest =>
      rw [found] at ih
      obtain ⟨more, ⟨size, starts⟩, later⟩ := ih
      rw [place, (starts _ .standard trivial).2.1]
      exact later

/-- What a step of the lexer finds at a place. -/
theorem step_place {count : Nat} (found : tape.lexemes[count]? = some lexeme) {mode : LexMode}
    (readIn : lexeme.IsReadIn mode) :
    lexeme.Matches (Lexer.step mode (tape.place count)).token
      ∧ (Lexer.step mode (tape.place count)).next = tape.place (count + 1)
      ∧ (Lexer.step mode (tape.place count)).comments = [] := by
  have spelled := tape.spelled_drop count
  rw [List.drop_eq_getElem?_toList_append, found] at spelled
  obtain ⟨more, ⟨size, starts⟩, later⟩ := spelled
  obtain ⟨own, next, comments⟩ := starts (tape.place count).offset mode readIn
  -- The mode changes how a lexeme is scanned and not how far, so the place agrees with that of the
  -- standard mode.
  refine ⟨own, ?_, comments⟩
  rw [place]
  exact next.trans (starts _ .standard trivial).2.1.symm

/-- A reader of the source: what it has taken is what stands there, with nothing more to report. -/
structure Holds (tape : Tape) (reader : Reader) : Prop where
  sound : reader.Sound
  limit : tape.lexemes.length < reader.limit
  taken : ∀ index < reader.next, ∃ lexeme found, tape.lexemes[index]? = some lexeme
    ∧ reader.buffer[index]? = some found ∧ lexeme.Matches found.token
  places : ∀ count ≤ reader.next, reader.cursor count = tape.place count
  reports : reader.reports = tape.told
  comments : reader.comments = []

/-- A reader of the source that has the given tokens ahead. -/
structure At (tape : Tape) (ahead : List Lexeme) (reader : Reader) : Prop extends
    tape.Holds reader where
  ahead : tape.lexemes.drop reader.next = ahead

/-- No more is taken than there is. -/
theorem Holds.next_le (holds : tape.Holds reader) : reader.next ≤ tape.lexemes.length := by
  by_contra more
  obtain ⟨lexeme, -, found, -⟩ := holds.taken tape.lexemes.length (Nat.lt_of_not_le more)
  simp at found

/-- No token of the source is marked as the start of a pure call. -/
theorem Holds.isPureAt (holds : tape.Holds reader) (offset : Nat) :
    reader.isPureAt offset = false := by
  unfold Reader.isPureAt
  cases found : (reader.buffer.take reader.next).find? (·.token.span.start == offset) with
  | none => rfl
  | some first =>
    obtain ⟨index, inside, rfl⟩ := Array.mem_iff_getElem.mp (Array.mem_of_find?_eq_some found)
    rw [Array.size_extract] at inside
    obtain ⟨lexeme, token, -, known, own⟩ := holds.taken index (by omega)
    obtain ⟨bound, rfl⟩ := Array.getElem?_eq_some_iff.mp known
    simpa using own.unmarked

/-- Looking at the next token finds the one that stands there, and taking it leaves the others. -/
theorem At.look (stands : tape.At (lexeme :: ahead) reader) {mode : LexMode}
    (readIn : lexeme.IsReadIn mode) :
    ∃ token later, reader.look mode = .ok (token, later) ∧ lexeme.Matches token
      ∧ tape.At (lexeme :: ahead) later ∧ tape.At ahead { later with next := later.next + 1 } := by
  have found : tape.lexemes[reader.next]? = some lexeme := by
    rw [← List.head?_drop, stands.ahead]
    rfl
  have here : reader.place = tape.place reader.next := stands.places _ (Nat.le_refl _)
  obtain ⟨own, behind, silent⟩ := step_place found readIn
  obtain ⟨later, looks, keeps, next, reports, last, comments⟩ := stands.sound.look mode
  rw [here] at looks last comments
  -- What was taken is still there, at the same places.
  have taken (index : Nat) (small : index < reader.next) := keeps.taken index small ▸
    stands.taken index small
  have places {count : Nat} (small : count ≤ reader.next) : later.cursor count = tape.place count :=
    (Reader.cursor_congr keeps.source fun index less =>
      keeps.taken index (Nat.lt_of_lt_of_le less small)).trans (stands.places count small)
  have told := reports.trans stands.reports
  have quiet := (comments silent).trans stands.comments
  have limit := keeps.limit ▸ stands.limit
  have bound := (Array.getElem?_eq_some_iff.mp last).1
  refine ⟨_, later, looks, own, ⟨⟨keeps.sound, limit, next ▸ taken,
    fun count small => places (next ▸ small), told, quiet⟩, next ▸ stands.ahead⟩,
    ⟨⟨⟨next ▸ bound, keeps.sound.entries, keeps.sound.position, keeps.sound.limited⟩, limit,
      fun index small => ?_, fun count small => ?_, told, quiet⟩, ?_⟩⟩
  · rcases Nat.lt_or_eq_of_le (Nat.le_of_lt_succ (next ▸ small)) with front | rfl
    · exact taken index front
    · exact ⟨lexeme, _, found, last, own⟩
  · rcases Nat.lt_or_eq_of_le (next ▸ small : count ≤ reader.next + 1) with front | rfl
    · exact places (Nat.le_of_lt_succ front)
    · have there : later.cursor reader.next = tape.place reader.next := places (Nat.le_refl _)
      show later.cursor (reader.next + 1) = _
      rw [Reader.cursor_succ last, there]
      exact behind
  · show tape.lexemes.drop (later.next + 1) = ahead
    rw [next, ← List.drop_drop, stands.ahead]
    rfl

end Tape

end Downlevel

namespace Downlevel.Parser

variable {α β γ σ : Type} {tape : Tape} {lexeme : Lexeme} {ahead middle after : List Lexeme}

/-- From where the given tokens are ahead the parser comes to an end as the goal asks for. -/
structure Reaches (tape : Tape) (parser : Parser α) (ahead : List Lexeme)
    (goal : α → Reader → Prop) : Prop where
  run : ∀ reader, tape.At ahead reader → ∃ result later, parser reader = .ok result later
    ∧ goal result later

/-- The reader has the given tokens ahead, and the result is as described. -/
abbrev Lands (tape : Tape) (after : List Lexeme) (described : α → Prop) : α → Reader → Prop :=
  fun result later => tape.At after later ∧ described result

/-- From where the given tokens are ahead the parser gets to where the others are, with a result as
described. -/
abbrev Reads (tape : Tape) (parser : Parser α) (ahead after : List Lexeme)
    (described : α → Prop) : Prop :=
  Reaches tape parser ahead (Lands tape after described)

/-- The reader has the given tokens ahead and has reported something, and both the result and what was
reported are as described. -/
abbrev Tells (tape : Tape) (after : List Lexeme) (described : α → List Report → Prop) :
    α → Reader → Prop :=
  fun result later => ∃ told, (tape.telling told).At after later ∧ described result told

/-- The checkpoint stands where the given tokens are ahead. -/
structure Checkpoint.Marks (saved : Checkpoint) (tape : Tape) (ahead : List Lexeme) : Prop where
  ahead : tape.lexemes.drop saved.next = ahead
  inside : saved.next ≤ tape.lexemes.length
  told : saved.reports = tape.told.length

/-- Going back to a place that was passed. -/
theorem restore_at {saved : Checkpoint} (marks : saved.Marks tape ahead) {reader : Reader}
    (holds : tape.Holds reader) (passed : saved.next ≤ reader.next) :
    ∃ later, restore saved reader = .ok () later ∧ tape.At ahead later := by
  refine ⟨_, rfl, ⟨⟨Nat.le_trans passed holds.sound.inside, holds.sound.entries,
    holds.sound.position, holds.sound.limited⟩, holds.limit, fun index small => ?_,
    fun count small => ?_, ?_, holds.comments⟩, marks.ahead⟩
  · exact holds.taken index (Nat.lt_of_lt_of_le small passed)
  · exact holds.places count (Nat.le_trans small passed)
  · simp [holds.reports, marks.told]

namespace Reaches

variable {parser : Parser α} {rest : α → Parser β} {known described : α → Prop} {final : β → Prop}
  {goal : β → Reader → Prop} {told : List Report}

/-- A result that is given takes no lexemes. -/
theorem pure {result : α} (holds : described result) :
    Reads tape (Pure.pure result) ahead ahead described :=
  ⟨fun reader stands => ⟨result, reader, rfl, stands, holds⟩⟩

/-- One parser after another reads what both do. -/
theorem bind (first : Reads tape parser ahead middle known)
    (second : ∀ result, known result → Reaches tape (rest result) middle goal) :
    Reaches tape (parser >>= rest) ahead goal := by
  refine ⟨fun reader stands => ?_⟩
  obtain ⟨result, between, ran, there, holds⟩ := first.run reader stands
  obtain ⟨last, later, goesOn, done⟩ := (second result holds).run between there
  refine ⟨last, later, ?_, done⟩
  simp only [Bind.bind, EStateM.bind, ran, goesOn]

/-- Reaching one goal is reaching another that follows from it. -/
theorem imp {aim goal : α → Reader → Prop} (holds : Reaches tape parser ahead aim)
    (implies : ∀ result later, aim result later → goal result later) :
    Reaches tape parser ahead goal := by
  refine ⟨fun reader stands => ?_⟩
  obtain ⟨result, later, ran, done⟩ := holds.run reader stands
  exact ⟨result, later, ran, implies result later done⟩

/-- What follows from the description holds as well. -/
theorem weaken (holds : Reads tape parser ahead after known)
    (implies : ∀ result, known result → described result) :
    Reads tape parser ahead after described :=
  holds.imp fun result _ ⟨there, shown⟩ => ⟨there, implies result shown⟩

/-- What is done with a result says nothing more about the reader. -/
theorem pack {pack : α → β} (holds : Reaches tape parser ahead fun result => goal (pack result)) :
    Reaches tape (parser >>= fun result => Pure.pure (pack result)) ahead goal := by
  refine ⟨fun reader stands => ?_⟩
  obtain ⟨result, later, ran, done⟩ := holds.run reader stands
  refine ⟨pack result, later, ?_, done⟩
  simp only [Bind.bind, EStateM.bind, ran]
  rfl

/-- Behind a report one more is on the tape. -/
theorem report {problem : Problem} {span : Span} {parser : Parser β}
    (later : Reaches (tape.telling [⟨problem, span⟩]) parser ahead goal) :
    Reaches tape (Parser.report problem span >>= fun _ => parser) ahead goal := by
  refine ⟨fun reader stands => later.run _ ⟨⟨stands.sound.remarked, stands.limit,
    stands.taken, fun count small => ?_, ?_, stands.comments⟩, stands.ahead⟩⟩
  · rw [Tape.place_telling]
    exact stands.places count small
  · exact congrArg (· ++ _) stands.reports

/-- What was reported stays on the tape for what comes next. -/
theorem bind_tells {known : α → List Report → Prop}
    (first : Reaches tape parser ahead (Tells tape middle known))
    (second : ∀ result told, known result told →
      Reaches (tape.telling told) (rest result) middle goal) :
    Reaches tape (parser >>= rest) ahead goal := by
  refine ⟨fun reader stands => ?_⟩
  obtain ⟨result, between, ran, told, there, holds⟩ := first.run reader stands
  obtain ⟨last, later, goesOn, done⟩ := (second result told holds).run between there
  refine ⟨last, later, ?_, done⟩
  simp only [Bind.bind, EStateM.bind, ran, goesOn]

/-- What was reported is told with the result. -/
theorem pure_tells {described : α → List Report → Prop} {result : α}
    (holds : described result told) :
    Reaches (tape.telling told) (Pure.pure result) ahead (Tells tape ahead described) :=
  ⟨fun reader stands => ⟨result, reader, rfl, told, stands, holds⟩⟩

/-- A parser that reports nothing tells nothing. -/
theorem silent (holds : Reads tape parser ahead after known) :
    Reaches tape parser ahead (Tells tape after fun result told => told = [] ∧ known result) :=
  holds.imp fun _ _ ⟨there, shown⟩ => ⟨[], by rwa [Tape.telling_nil], rfl, shown⟩

/-- The next token is one of the source, and there are no more ahead than it has. -/
theorem of_ahead {goal : α → Reader → Prop} (holds : (∀ found ∈ ahead, found ∈ tape.lexemes) →
    ahead.length ≤ tape.lexemes.length → Reaches tape parser ahead goal) :
    Reaches tape parser ahead goal := by
  refine ⟨fun reader stands => ?_⟩
  refine (holds (fun found mem => ?_) ?_).run reader stands
  · rw [← stands.ahead] at mem
    exact List.mem_of_mem_drop mem
  · rw [← stands.ahead, List.length_drop]
    exact Nat.sub_le _ _

end Reaches

namespace Reads

variable {parser : Parser α} {described : α → Prop}

/-- A reader of the source stands inside its buffer. -/
theorem reading : Reads tape reading ahead ahead (tape.Holds ·) :=
  ⟨fun reader stands => ⟨reader, reader, reading_eq stands.sound.inside, stands, stands.toHolds⟩⟩

/-- Looking at the next token. -/
theorem peekIn {mode : LexMode} (readIn : lexeme.IsReadIn mode) :
    Reads tape (peekIn mode) (lexeme :: ahead) (lexeme :: ahead) lexeme.Matches := by
  refine ⟨fun reader stands => ?_⟩
  obtain ⟨token, later, looks, own, there, -⟩ := stands.look readIn
  exact ⟨token, later, peekIn_eq stands.sound.inside looks, there, own⟩

/-- Looking at the next lexeme takes none. -/
theorem peek : Reads tape peek (lexeme :: ahead) (lexeme :: ahead) lexeme.Matches :=
  peekIn trivial

/-- Taking the next token. -/
theorem takeIn {mode : LexMode} (readIn : lexeme.IsReadIn mode) :
    Reads tape (takeIn mode) (lexeme :: ahead) ahead lexeme.Matches := by
  refine ⟨fun reader stands => ?_⟩
  obtain ⟨token, later, looks, own, -, there⟩ := stands.look readIn
  exact ⟨token, _, takeIn_eq stands.sound.inside looks, there, own⟩

/-- Taking the next lexeme takes one. -/
theorem take : Reads tape take (lexeme :: ahead) ahead lexeme.Matches :=
  takeIn trivial

/-- Remembering a place. -/
theorem checkpoint : Reads tape checkpoint ahead ahead (·.Marks tape ahead) := by
  refine ⟨fun reader stands => ?_⟩
  exact ⟨⟨reader.next, reader.reports.length⟩, reader, rfl, stands, stands.ahead,
    stands.next_le, congrArg List.length stands.reports⟩

/-- Going back to a place from which no more tokens were ahead than here. -/
theorem restore {saved : Checkpoint} (marks : saved.Marks tape ahead)
    (passed : after.length ≤ ahead.length) :
    Reads tape (restore saved) after ahead fun _ => True := by
  refine ⟨fun reader stands => ?_⟩
  obtain ⟨later, ran, there⟩ := restore_at marks stands.toHolds (by
    have inside := marks.inside
    have next := stands.next_le
    rw [← marks.ahead, ← stands.ahead, List.length_drop, List.length_drop] at passed
    omega)
  exact ⟨(), later, ran, there, trivial⟩

/-- Looking at the next two tokens. -/
theorem peek2 {second : Lexeme} :
    Reads tape peek2 (lexeme :: second :: ahead) (lexeme :: second :: ahead)
      fun pair => lexeme.Matches pair.1 ∧ second.Matches pair.2 := by
  refine checkpoint.bind fun saved marks => take.bind fun first isFirst =>
    take.bind fun next isNext => (restore marks ?_).bind fun _ _ => .pure ⟨isFirst, isNext⟩
  simp only [List.length_cons]
  omega

/-- A token of the kind is accepted. -/
theorem accept {kind : TokenKind} (same : lexeme.kind = kind) :
    Reads tape (accept kind) (lexeme :: ahead) ahead (· = true) := by
  refine peek.bind fun token own => ?_
  rw [if_pos (own.kind.trans same)]
  exact take.bind fun _ _ => .pure rfl

/-- A token of another kind is not accepted. -/
theorem refuse {kind : TokenKind} (other : lexeme.kind ≠ kind) :
    Reads tape (Parser.accept kind) (lexeme :: ahead) (lexeme :: ahead) (· = false) := by
  refine peek.bind fun token own => ?_
  rw [if_neg fun same => other (own.kind.symm.trans same)]
  exact .pure rfl

/-- A token of the kind is what was required. -/
theorem require {kind : TokenKind} (same : lexeme.kind = kind) :
    Reads tape (require kind) (lexeme :: ahead) ahead lexeme.Matches := by
  refine take.bind fun token own => ?_
  rw [if_pos (own.kind.trans same)]
  exact .pure own

/-- A symbol that comes next is taken. -/
theorem symbol {mark : Punctuator} :
    Reads tape (symbol mark) (.ofSymbol mark :: ahead) ahead fun _ => True :=
  Reaches.bind (require rfl) fun _ _ => .pure trivial

/-- The symbol is accepted. -/
theorem acceptSymbol {mark : Punctuator} :
    Reads tape (Parser.accept (.symbol mark)) (.ofSymbol mark :: ahead) ahead (· = true) :=
  accept rfl

/-- Telling whether the next token is the symbol. -/
theorem nextIs {mark : Punctuator} :
    Reads tape (nextIs mark) (lexeme :: ahead) (lexeme :: ahead)
      (· = (lexeme.kind == .symbol mark)) :=
  peek.bind fun token own => .pure (by rw [own.kind])

/-- A semicolon ends a statement. -/
theorem endStatement :
    Reads tape endStatement (.ofSymbol .semicolon :: ahead) ahead fun _ => True := by
  refine peek.bind fun token own => ?_
  rw [if_pos (show token.kind = .symbol .semicolon from own.kind)]
  exact take.bind fun _ _ => .pure trivial

/-- So does the end of the source, which stays ahead. -/
theorem endStatement_eof :
    Reads tape Parser.endStatement (Lexeme.eof :: ahead) (Lexeme.eof :: ahead) fun _ => True := by
  refine peek.bind fun token own => ?_
  have isEof : token.kind = .eof := own.kind
  rw [if_neg (by simp [isEof]), if_pos (.inr (.inl isEof))]
  exact .pure trivial

/-- What there is to know about a reader of the source. -/
theorem get : Reads tape (MonadState.get : Parser Reader) ahead ahead (tape.Holds ·) :=
  ⟨fun reader stands => ⟨reader, reader, rfl, stands, stands.toHolds⟩⟩

/-- The end of the last token is known, whatever it is. -/
theorem lastEnd : Reads tape lastEnd ahead ahead fun _ => True :=
  ⟨fun reader stands => ⟨reader.lastEnd, reader, lastEnd_eq stands.sound.inside, stands, trivial⟩⟩

end Reads

/-- The span around a parser is known, whatever it is. -/
theorem Reaches.spanned {parser : Parser α} {described : α → Prop}
    (holds : Reads tape parser ahead after described) (nonempty : ahead ≠ []) :
    Reads tape (spanned parser) ahead after fun pair => described pair.2 := by
  obtain ⟨lexeme, rest, rfl⟩ := List.exists_cons_of_ne_nil nonempty
  exact Reads.peek.bind fun _ _ => holds.bind fun _ shown => Reads.lastEnd.bind fun _ _ => .pure shown

/-- The same around a parser that may report something. -/
theorem Reaches.spanned_tells {parser : Parser α} {described : α → List Report → Prop}
    (holds : Reaches tape parser ahead (Tells tape after described)) (nonempty : ahead ≠ []) :
    Reaches tape (Parser.spanned parser) ahead
      (Tells tape after fun pair told => described pair.2 told) := by
  obtain ⟨lexeme, rest, rfl⟩ := List.exists_cons_of_ne_nil nonempty
  exact Reads.peek.bind fun _ _ => holds.bind_tells fun _ _ shown =>
    Reads.lastEnd.bind fun _ _ => .pure_tells shown

/-- The rounds of a loop come to an end as the goal asks for, if it may go round as often as there are
tokens ahead and once more. -/
def Runs (tape : Tape) (step : σ → Parser (Round σ β)) (state : σ) (ahead : List Lexeme)
    (goal : β → Reader → Prop) : Prop :=
  ∀ fuel, ahead.length < fuel → Reaches tape (iterate fuel step state) ahead goal

namespace Runs

variable {step : σ → Parser (Round σ β)} {state : σ} {known : σ → Prop} {described : β → Prop}
  {goal : β → Reader → Prop}

/-- One round, behind which the rest of them stand on some tape. -/
theorem round (once : Reaches tape (step state) ahead fun next later =>
      match next with
      | .again state => ∃ tape middle, tape.At middle later ∧ middle.length < ahead.length
        ∧ Runs tape step state middle goal
      | .done result => goal result later) :
    Runs tape step state ahead goal := by
  -- The fuel is at least the number of lexemes left, and a round that goes on consumed one, so the
  -- rest of the run has enough.
  intro fuel enough
  cases fuel with
  | zero => exact absurd enough (Nat.not_lt_zero _)
  | succ fuel =>
    refine ⟨fun reader stands => ?_⟩
    obtain ⟨next, between, ran, shown⟩ := once.run reader stands
    cases next with
    | again state =>
      obtain ⟨tape, middle, there, shorter, later⟩ := shown
      obtain ⟨result, last, goesOn, reached⟩ := (later fuel (by omega)).run between there
      refine ⟨result, last, ?_, reached⟩
      simp only [iterate, Bind.bind, EStateM.bind, ran, goesOn]
    | done result =>
      refine ⟨result, between, ?_, shown⟩
      simp only [iterate, Bind.bind, EStateM.bind, ran]
      rfl

/-- A round that is the last. -/
theorem done (round : Reads tape (step state) ahead after (Round.Holds (fun _ => False) described)) :
    Runs tape step state ahead (Lands tape after described) :=
  .round <| round.imp fun next _ ⟨there, shown⟩ =>
    match next with
    | .again _ => shown.elim
    | .done _ => ⟨there, shown⟩

/-- A round that takes a token, with others behind it. -/
theorem again (round : Reads tape (step state) ahead middle (Round.Holds known fun _ => False))
    (shorter : middle.length < ahead.length)
    (later : ∀ state, known state → Runs tape step state middle goal) :
    Runs tape step state ahead goal :=
  .round <| round.imp fun next _ ⟨there, shown⟩ =>
    match next with
    | .again state => ⟨tape, middle, there, shorter, later state shown⟩
    | .done _ => shown.elim

/-- A round that takes a token and may report something. -/
theorem tells {known : σ → List Report → Prop}
    (round : Reaches tape (step state) ahead
      (Tells tape middle fun next told => next.Holds (known · told) fun _ => False))
    (shorter : middle.length < ahead.length)
    (later : ∀ state told, known state told → Runs (tape.telling told) step state middle goal) :
    Runs tape step state ahead goal :=
  .round <| round.imp fun next _ ⟨told, there, shown⟩ =>
    match next with
    | .again state => ⟨tape.telling told, middle, there, shorter, later state told shown⟩
    | .done _ => shown.elim

/-- What follows from the goal is reached as well. -/
theorem imp {aim : β → Reader → Prop} (holds : Runs tape step state ahead aim)
    (implies : ∀ result later, aim result later → goal result later) :
    Runs tape step state ahead goal :=
  fun fuel enough => (holds fuel enough).imp implies

/-- What follows from the description holds as well. -/
theorem weaken {stronger : β → Prop} (holds : Runs tape step state ahead (Lands tape after stronger))
    (implies : ∀ result, stronger result → described result) :
    Runs tape step state ahead (Lands tape after described) :=
  holds.imp fun result _ ⟨there, shown⟩ => ⟨there, implies result shown⟩

end Runs

/-- A loop goes round as often as it has to, since a reader knows how long its source is. -/
theorem Reaches.loop {step : σ → Parser (Round σ β)} {state : σ} {goal : β → Reader → Prop}
    (rounds : Runs tape step state ahead goal) : Reaches tape (loop step state) ahead goal := by
  refine ⟨fun reader stands => ?_⟩
  refine (rounds reader.limit ?_).run reader stands
  have limit := stands.limit
  rw [← stands.ahead, List.length_drop]
  omega

end Downlevel.Parser
