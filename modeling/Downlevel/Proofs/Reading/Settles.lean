import Downlevel.Parser
import Downlevel.Proofs.Reading.Buffer

/-! A parser is done with a place of the source when it comes to an end there: what it gives depends
on the place alone, and more depth or longer loops would not change it. -/

namespace Downlevel

open Lexer

/-- A reader whose loops may go round more often. -/
def Reader.widen (extra : Nat) (reader : Reader) : Reader :=
  { reader with limit := reader.limit + extra }

/-- Where the lexer is set does not depend on how often a loop may go round. -/
theorem Reader.setLexer_widen (extra offset : Nat) (reader : Reader) :
    (reader.widen extra).setLexer offset = (reader.setLexer offset).map (widen extra) := by
  unfold setLexer
  rw [show (reader.widen extra).source = reader.source from rfl]
  cases Text.dropBytes offset reader.source <;> rfl

/-- Nor does what is forgotten. -/
theorem Reader.inMode_widen (extra : Nat) (mode : LexMode) (reader : Reader) :
    (reader.widen extra).inMode mode = (reader.inMode mode).map (widen extra) := by
  simp only [Reader.inMode]
  rw [show (reader.widen extra).buffer = reader.buffer from rfl,
    show (reader.widen extra).next = reader.next from rfl]
  split
  · split
    · rfl
    · exact setLexer_widen extra _ { reader with
        buffer := reader.buffer.take reader.next
        next := reader.next }
  · rfl

/-- Nor does looking at a token. -/
theorem Reader.look_widen {extra : Nat} {mode : LexMode} {reader later : Reader} {token : Token}
    (looks : reader.look mode = .ok (token, later)) :
    (reader.widen extra).look mode = .ok (token, later.widen extra) := by
  simp only [look, inMode_widen, Bind.bind, Except.bind] at looks ⊢
  cases ready : reader.inMode mode with
  | error misread =>
    rw [ready] at looks
    cases looks
  | ok middle =>
    rw [ready] at looks
    simp only [Except.map] at looks ⊢
    rw [show (middle.widen extra).buffer[(middle.widen extra).next]?
      = middle.buffer[middle.next]? from rfl]
    split at looks
    · cases looks
      rfl
    · -- The token is read at the same place, and the rest of the reader is not looked at.
      rw [lexMore_eq] at looks ⊢
      cases looks
      rfl

namespace Parser

/-- How the run of a parser ends next to that of another one, whose depth and loops are no shorter:
both give the same, unless the first is cut short where it may be. What the base had taken and
reported is still there. -/
inductive Settled {α : Type} (short : Prop) (extra : Nat) (base : Reader)
    (after : α → Cursor → Prop) :
    (run other : EStateM.Result ParseFailure Reader α) → Prop
  | ok {result : α} {later : Reader} :
    base.Keeps later → after result later.place →
    Settled short extra base after (.ok result later) (.ok result (later.widen extra))
  | malformed {error : SyntaxError} {later : Reader} :
    base.Keeps later →
    Settled short extra base after (.error (.malformed error) later)
      (.error (.malformed error) (later.widen extra))
  | exhausted {later : Reader} {other : EStateM.Result ParseFailure Reader α} :
    short → Settled short extra base after (.error .exhausted later) other

/-- What a parser does at a place, next to another one whose depth and loops are no shorter: from
every reader that stands there and went on from the base, the two end the same way. -/
def Settles {α : Type} (short : Prop) (extra : Nat) (base : Reader) (here : Cursor)
    (parser other : Parser α) (after : α → Cursor → Prop) : Prop :=
  ∀ reader, base.Keeps reader → reader.place = here →
    Settled short extra base after (parser reader) (other (reader.widen extra))

/-- What comes out leaves less text. -/
abbrev Takes {α : Type} (short : Prop) (extra : Nat) (base : Reader) (here : Cursor)
    (parser other : Parser α) : Prop :=
  Settles short extra base here parser other fun _ place => place.left < here.left

/-- What comes out leaves no more text. -/
abbrev Lasts {α : Type} (short : Prop) (extra : Nat) (base : Reader) (here : Cursor)
    (parser other : Parser α) : Prop :=
  Settles short extra base here parser other fun _ place => place.left ≤ here.left

/-- A loop that goes round again left less text, and none leaves more. -/
def Round.Shortens {σ β : Type} (here : Cursor) : Round σ β → Cursor → Prop
  | .again _, place => place.left < here.left
  | .done _, place => place.left ≤ here.left

/-- A round of a loop that goes on only when it took something. -/
abbrev Rounds {σ β : Type} (short : Prop) (extra : Nat) (base : Reader) (here : Cursor)
    (parser other : Parser (Round σ β)) : Prop :=
  Settles short extra base here parser other (Round.Shortens here)

namespace Settles

variable {α β σ : Type} {short : Prop} {extra : Nat} {base : Reader} {here : Cursor}
variable {parser other : Parser α} {rest rest' : α → Parser β}
variable {after weaker : α → Cursor → Prop} {final : β → Cursor → Prop}

/-- A result that is given takes no text. -/
theorem pure {result : α} (holds : after result here) :
    Settles short extra base here (Pure.pure result) (Pure.pure result) after := by
  rintro reader keeps rfl
  exact .ok keeps holds

/-- A syntax error is the same at any depth. -/
theorem fail {error : SyntaxError} :
    Settles short extra base here (Parser.fail error) (Parser.fail error) after :=
  fun _ keeps _ => .malformed keeps

/-- One parser after another settles if both do. -/
theorem bind (first : Settles short extra base here parser other after)
    (second : ∀ result place, after result place →
      Settles short extra base place (rest result) (rest' result) final) :
    Settles short extra base here (parser >>= rest) (other >>= rest') final := by
  intro reader keeps stands
  -- The two runs of the first part end alike, and only where they succeed does the second one
  -- matter.
  have ran := first reader keeps stands
  simp only [Bind.bind, EStateM.bind]
  generalize parser reader = run at ran
  generalize other (reader.widen extra) = wide at ran
  cases ran with
  | ok keeps holds => exact second _ _ holds _ keeps rfl
  | malformed keeps => exact .malformed keeps
  | exhausted isShort => exact .exhausted isShort

/-- What follows of the end holds as well. -/
theorem weaken (holds : Settles short extra base here parser other after)
    (implies : ∀ result place, after result place → weaker result place) :
    Settles short extra base here parser other weaker := by
  intro reader keeps stands
  have ran := holds reader keeps stands
  generalize parser reader = run at ran
  generalize other (reader.widen extra) = wide at ran
  cases ran with
  | ok keeps shown => exact .ok keeps (implies _ _ shown)
  | malformed keeps => exact .malformed keeps
  | exhausted isShort => exact .exhausted isShort

/-- A parser that takes something leaves no more text. -/
theorem lasts (takes : Takes short extra base here parser other) :
    Lasts short extra base here parser other :=
  takes.weaken fun _ _ => Nat.le_of_lt

/-- Packing a result changes nothing else. -/
theorem map {pack : α → β} {behind : Cursor → Prop}
    (holds : Settles short extra base here parser other fun _ => behind) :
    Settles short extra base here (pack <$> parser) (pack <$> other) fun _ => behind := by
  rw [← bind_pure_comp, ← bind_pure_comp]
  exact holds.bind fun _ _ shown => .pure shown

/-- A choice settles if both of its sides do. -/
theorem ite {condition : Prop} [Decidable condition] {no no' : Parser α}
    (holds : condition → Settles short extra base here parser other after)
    (fails : ¬condition → Settles short extra base here no no' after) :
    Settles short extra base here (if condition then parser else no)
      (if condition then other else no') after := by
  split
  · exact holds ‹_›
  · exact fails ‹_›

/-- Behind a check that fails nothing is left to do. -/
theorem check {condition : Prop} [Decidable condition] {error : SyntaxError}
    {rest rest' : β → Parser α}
    (holds : ¬condition → Settles short extra base here parser other after) :
    Settles short extra base here (if condition then Parser.fail error >>= rest else parser)
      (if condition then Parser.fail error >>= rest' else other) after := by
  refine .ite (fun _ => ?_) holds
  have stops : Settles short extra base here (Parser.fail error) (Parser.fail error)
      fun (_ : β) _ => False := fail
  exact stops.bind fun _ _ => False.elim

section Tokens

/-- What comes behind a look at a token, which depends on the place only. -/
theorem peekIn {mode : LexMode} {rest rest' : Token → Parser β}
    (holds : Settles short extra base here (rest (step mode here).token)
      (rest' (step mode here).token) final) :
    Settles short extra base here (Parser.peekIn mode >>= rest) (Parser.peekIn mode >>= rest')
      final := by
  -- Both readers are inside their buffers, and they show the same token.
  rintro reader keeps rfl
  obtain ⟨later, looks, goesOn, next, -⟩ := keeps.sound.look mode
  have inside : (reader.widen extra).next ≤ (reader.widen extra).buffer.size := keeps.sound.inside
  have stands : later.place = reader.place := by
    rw [Reader.place, next]
    exact goesOn.cursor_next
  have ran := holds _ (keeps.trans goesOn) stands
  simp only [Bind.bind, EStateM.bind, peekIn_eq keeps.sound.inside looks,
    peekIn_eq inside (Reader.look_widen looks)]
  exact ran

/-- What comes behind a look at a token in standard mode. -/
theorem peek {rest rest' : Token → Parser β}
    (holds : Settles short extra base here (rest (step .standard here).token)
      (rest' (step .standard here).token) final) :
    Settles short extra base here (Parser.peek >>= rest) (Parser.peek >>= rest') final :=
  peekIn holds

/-- What comes behind a token that is taken goes on from the place behind the token. -/
theorem takeIn {mode : LexMode} {rest rest' : Token → Parser β}
    (holds : Settles short extra base (step mode here).next (rest (step mode here).token)
      (rest' (step mode here).token) final) :
    Settles short extra base here (Parser.takeIn mode >>= rest) (Parser.takeIn mode >>= rest')
      final := by
  -- Both readers take the same token, and stand behind it.
  rintro reader keeps rfl
  obtain ⟨later, looks, goesOn, stands, -⟩ := keeps.sound.take mode
  have inside : (reader.widen extra).next ≤ (reader.widen extra).buffer.size := keeps.sound.inside
  have ran := holds _ (keeps.trans goesOn) stands
  simp only [Bind.bind, EStateM.bind, takeIn_eq keeps.sound.inside looks,
    takeIn_eq inside (Reader.look_widen looks)]
  exact ran

/-- What comes behind a token that is taken in standard mode. -/
theorem take {rest rest' : Token → Parser β}
    (holds : Settles short extra base (step .standard here).next
      (rest (step .standard here).token) (rest' (step .standard here).token) final) :
    Settles short extra base here (Parser.take >>= rest) (Parser.take >>= rest') final :=
  takeIn holds

/-- A checkpoint makes the reader a base to come back to. -/
theorem checkpoint {rest rest' : Checkpoint → Parser β}
    (holds : ∀ saved : Reader, saved.place = here →
      Settles short extra saved here (rest ⟨saved.next, saved.reports.length⟩)
        (rest' ⟨saved.next, saved.reports.length⟩) final) :
    Settles short extra base here (Parser.checkpoint >>= rest) (Parser.checkpoint >>= rest')
      final := by
  intro reader keeps stands
  have ran := holds reader stands reader (.refl keeps.sound) stands
  -- What the reader keeps from now on it keeps of the older base as well.
  have older {run other : EStateM.Result ParseFailure Reader β}
      (ran : Settled short extra reader final run other) :
      Settled short extra base final run other := by
    cases ran with
    | ok goesOn holds => exact .ok (keeps.trans goesOn) holds
    | malformed goesOn => exact .malformed (keeps.trans goesOn)
    | exhausted isShort => exact .exhausted isShort
  exact older ran

/-- Coming back to the base. -/
theorem restore {rest rest' : PUnit → Parser β}
    (holds : Settles short extra base base.place (rest ()) (rest' ()) final) :
    Settles short extra base here
      (Parser.restore ⟨base.next, base.reports.length⟩ >>= rest)
      (Parser.restore ⟨base.next, base.reports.length⟩ >>= rest') final := by
  intro reader keeps _
  obtain ⟨goesBack, stands, -⟩ := keeps.back
  exact holds _ goesBack stands

/-- Two tokens that were looked at ahead. -/
theorem peek2 {rest rest' : Token × Token → Parser β}
    (holds : Settles short extra base here
      (rest ((step .standard here).token, (step .standard (step .standard here).next).token))
      (rest' ((step .standard here).token, (step .standard (step .standard here).next).token))
      final) :
    Settles short extra base here (Parser.peek2 >>= rest) (Parser.peek2 >>= rest') final := by
  -- The look ahead goes back to where it started.
  have ahead : Settles short extra base here Parser.peek2 Parser.peek2 fun pair place =>
      pair = ((step .standard here).token, (step .standard (step .standard here).next).token)
        ∧ place = here :=
    .checkpoint fun saved stands => .take <| .take <| .restore <| .pure ⟨rfl, stands⟩
  refine ahead.bind ?_
  rintro _ _ ⟨rfl, rfl⟩
  exact holds

/-- Three tokens that were looked at ahead; nothing need be known about them. -/
theorem peek3 {rest rest' : Token × Token × Token → Parser β}
    (holds : ∀ ahead, Settles short extra base here (rest ahead) (rest' ahead) final) :
    Settles short extra base here (Parser.peek3 >>= rest) (Parser.peek3 >>= rest') final := by
  have ahead : Settles short extra base here Parser.peek3 Parser.peek3 fun _ place =>
      place = here :=
    .checkpoint fun saved stands => .take <| .take <| .take <| .restore <| .pure stands
  refine ahead.bind ?_
  rintro three _ rfl
  exact holds three

/-- A token other than the mark of the end that may be taken. -/
theorem accept {kind : TokenKind} (goesOn : kind ≠ .eof) :
    Settles short extra base here (Parser.accept kind) (Parser.accept kind) fun was place =>
      place.left ≤ here.left ∧ (was = true → place.left < here.left) := by
  refine .peek <| .ite (fun same => ?_) fun _ => .pure ⟨Nat.le_refl _, nofun⟩
  have less : (step .standard here).next.left < here.left :=
    step_left_lt nofun (same ▸ goesOn)
  exact .take <| .pure ⟨Nat.le_of_lt less, fun _ => less⟩

/-- A token other than the mark of the end that has to be taken. -/
theorem require {kind : TokenKind} (goesOn : kind ≠ .eof) :
    Settles short extra base here (Parser.require kind) (Parser.require kind) fun token place =>
      token = (step .standard here).token ∧ token.kind = kind ∧ place.left < here.left := by
  refine .take <| .ite (fun same => .pure ⟨rfl, same, ?_⟩) fun _ => .fail
  exact step_left_lt nofun (same ▸ goesOn)

/-- A symbol takes some text. -/
theorem symbol {mark : Punctuator} :
    Takes short extra base here (Parser.symbol mark) (Parser.symbol mark) :=
  (require (by nofun)).bind fun _ _ shows => .pure shows.2.2

/-- A keyword takes some text. -/
theorem keyword {word : Keyword} :
    Takes short extra base here (Parser.keyword word) (Parser.keyword word) :=
  (require (by nofun)).bind fun _ _ shows => .pure shows.2.2

/-- What comes behind a look at the kind of the next token. -/
theorem nextIs {mark : Punctuator} {rest rest' : Bool → Parser β}
    (holds : ∀ isNext, Settles short extra base here (rest isNext) (rest' isNext) final) :
    Settles short extra base here (Parser.nextIs mark >>= rest) (Parser.nextIs mark >>= rest')
      final := by
  have looked : Settles short extra base here (Parser.nextIs mark) (Parser.nextIs mark)
      fun _ place => place = here :=
    .peek <| .pure rfl
  refine looked.bind ?_
  rintro isNext _ rfl
  exact holds isNext

/-- The end of a statement gives no text back. -/
theorem endStatement : Lasts short extra base here Parser.endStatement Parser.endStatement := by
  refine .peek <| .ite (fun _ => .take <| .pure ?_) fun _ => .ite (fun _ => .pure ?_) fun _ => .fail
  · exact step_left_le .standard here
  · exact Nat.le_refl _

end Tokens

section Places

/-- What comes behind a question for the place of the last token. -/
theorem lastEnd {rest rest' : Nat → Parser β}
    (holds : ∀ stop, Settles short extra base here (rest stop) (rest' stop) final) :
    Settles short extra base here (Parser.lastEnd >>= rest) (Parser.lastEnd >>= rest') final := by
  intro reader keeps stands
  have inside : (reader.widen extra).next ≤ (reader.widen extra).buffer.size := keeps.sound.inside
  simp only [Bind.bind, EStateM.bind, lastEnd_eq keeps.sound.inside, lastEnd_eq inside]
  exact holds reader.lastEnd reader keeps stands

/-- What comes behind a look at the whole reader. -/
theorem reading {rest rest' : Reader → Parser β}
    (holds : ∀ reader, Settles short extra base here (rest reader) (rest' (reader.widen extra)) final) :
    Settles short extra base here (Parser.reading >>= rest) (Parser.reading >>= rest') final := by
  intro reader keeps stands
  have inside : (reader.widen extra).next ≤ (reader.widen extra).buffer.size := keeps.sound.inside
  simp only [Bind.bind, EStateM.bind, reading_eq keeps.sound.inside, reading_eq inside]
  exact holds reader reader keeps stands

/-- A span does not change what is taken. -/
theorem spanned {behind : Cursor → Prop}
    (holds : Settles short extra base here parser other fun _ => behind) :
    Settles short extra base here (Parser.spanned parser) (Parser.spanned other)
      fun _ => behind :=
  .peek <| holds.bind fun _ _ shown => .lastEnd fun _ => .pure shown

/-- A report does not either. -/
theorem report {problem : Problem} {span : Span} :
    Settles short extra base here (Parser.report problem span) (Parser.report problem span)
      fun _ place => place = here := by
  rintro reader keeps rfl
  have goesOn : base.Keeps { reader with reports := reader.reports ++ [⟨problem, span⟩] } :=
    { keeps with
      sound := keeps.sound.remarked
      reports := keeps.reports.trans (List.prefix_append _ _) }
  exact .ok goesOn rfl

/-- Comments are no tokens. -/
theorem takeComments {upTo : Nat} :
    Settles short extra base here (Parser.takeComments upTo) (Parser.takeComments upTo)
      fun _ place => place = here := by
  rintro reader keeps rfl
  have sound : Reader.Sound { reader with commentsUpTo := max reader.commentsUpTo upTo } :=
    keeps.sound.remarked
  exact .ok { keeps with sound } rfl

/-- Skipping comments takes no text. -/
theorem skipComments :
    Settles short extra base here Parser.skipComments Parser.skipComments
      fun _ place => place = here := by
  rintro reader keeps rfl
  have inside : (reader.widen extra).next ≤ (reader.widen extra).buffer.size := keeps.sound.inside
  have sound : Reader.Sound { reader with commentsUpTo := reader.lastEnd } :=
    keeps.sound.remarked
  rw [skipComments_eq keeps.sound.inside, skipComments_eq inside]
  exact .ok { keeps with sound } rfl

end Places

section Loops

variable {round round' : σ → Parser (Round σ β)} {state : σ}

/-- A loop has come to an end once it went round as often as there are characters left, and once
more. -/
theorem iterate {fuel : Nat} (enough : here.left < fuel)
    (settles : ∀ state place, place.left ≤ here.left →
      Rounds short extra base place (round state) (round' state)) :
    Lasts short extra base here (Parser.iterate fuel round state)
      (Parser.iterate (fuel + extra) round' state) := by
  -- By induction on the fuel: a round that is not the last leaves fewer characters.
  induction fuel generalizing here state with
  | zero => exact absurd enough (Nat.not_lt_zero _)
  | succ fuel ih =>
    rw [Nat.add_right_comm]
    refine (settles state here (Nat.le_refl _)).bind fun next place shortens => ?_
    cases next with
    | done result => exact .pure shortens
    | again state =>
      have less : place.left < here.left := shortens
      have later := @ih place state (by omega) fun state further no_more =>
        settles state further (by omega)
      exact later.weaken fun _ further no_more => by omega

/-- A loop of the grammar comes to an end. -/
theorem loop
    (settles : ∀ state place, place.left ≤ here.left →
      Rounds short extra base place (round state) (round' state)) :
    Lasts short extra base here (Parser.loop round state) (Parser.loop round' state) := by
  rintro reader keeps rfl
  exact iterate keeps.sound.place_left_lt settles reader keeps rfl

/-- Items with commas between them, each of which takes something. -/
theorem commaRound {close : Punctuator} {items : List α}
    (item : Takes short extra base here parser other) :
    Rounds short extra base here (Parser.commaRound close parser items)
      (Parser.commaRound close other items) := by
  refine .nextIs fun isDone => .ite (fun _ => .pure (Nat.le_refl _)) fun _ => ?_
  refine item.bind fun next behind less => ?_
  refine (accept (by nofun)).bind fun was further shows => ?_
  have less : further.left < here.left := Nat.lt_of_le_of_lt shows.1 less
  exact .ite (fun _ => .pure less) fun _ => .pure (Nat.le_of_lt less)

/-- A list of items gives no text back if each item takes some. -/
theorem commaList {close : Punctuator}
    (item : ∀ place, place.left ≤ here.left → Takes short extra base place parser other) :
    Lasts short extra base here (Parser.commaList close parser)
      (Parser.commaList close other) :=
  .loop fun _ place no_more => .commaRound (item place no_more)

end Loops

end Settles

end Parser

end Downlevel
