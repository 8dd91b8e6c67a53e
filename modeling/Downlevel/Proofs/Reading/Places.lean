import Downlevel.Proofs.Reading.Settles

/-! Where the tokens that a parser takes stand in the source: none of them is in front of those that
were taken before. -/

namespace Downlevel

namespace Lexer

open Text

/-- The second place is no further from the end of the same text. -/
def Cursor.Before (here place : Cursor) : Prop :=
  ∃ front, here.rest = front ++ place.rest ∧ place.offset = here.offset + byteSize front

namespace Cursor.Before

variable {start here place : Cursor}

/-- A place comes no later than itself. -/
theorem refl (here : Cursor) : here.Before here :=
  ⟨[], rfl, rfl⟩

/-- Places in order stay in order. -/
theorem trans (first : start.Before here) (second : here.Before place) : start.Before place := by
  obtain ⟨front, rest₁, offset₁⟩ := first
  obtain ⟨more, rest₂, offset₂⟩ := second
  refine ⟨front ++ more, by rw [rest₁, rest₂, List.append_assoc], ?_⟩
  rw [offset₂, offset₁, byteSize_append, Nat.add_assoc]

/-- Of two places of a text the one with more text left comes first. -/
theorem of_left_le (first : start.Before here) (second : start.Before place)
    (no_more : place.left ≤ here.left) : here.Before place := by
  obtain ⟨front, rest₁, offset₁⟩ := first
  obtain ⟨whole, rest₂, offset₂⟩ := second
  -- The text in front of the earlier place is a part of that in front of the later one.
  rcases List.append_eq_append_iff.mp (rest₁.symm.trans rest₂)
    with ⟨more, rfl, rest⟩ | ⟨more, rfl, rest⟩
  · exact ⟨more, rest, by rw [offset₂, offset₁, byteSize_append, Nat.add_assoc]⟩
  · have lengths := congrArg List.length rest
    rw [List.length_append] at lengths
    obtain rfl : more = [] := List.length_eq_zero_iff.mp (by unfold left at no_more; omega)
    exact ⟨[], rest.symm, by simp [offset₁, offset₂, byteSize]⟩

/-- Places come in the order of their offsets. -/
theorem offset_le (before : here.Before place) : here.offset ≤ place.offset := by
  obtain ⟨front, -, offset⟩ := before
  omega

/-- A place with less text left is further on. -/
theorem offset_lt (before : here.Before place) (less : place.left < here.left) :
    here.offset < place.offset := by
  obtain ⟨front, rest, offset⟩ := before
  cases front with
  | nil =>
    have same : here.left = place.left := congrArg List.length rest
    omega
  | cons c front =>
    have positive := c.utf8Size_pos
    rw [offset, byteSize]
    omega

end Cursor.Before

/-- Every step goes on in the same text. -/
theorem before_step (mode : LexMode) (here : Cursor) : here.Before (step mode here).next := by
  obtain ⟨gap, following, rest, -, -, -, -, -, -, -, next⟩ := step_split mode here
  rw [next]
  refine ⟨gap ++ following.take (scan mode following).size, ?_, ?_⟩
  · rw [rest, List.append_assoc, List.take_append_drop]
  · rw [byteSize_append, Nat.add_assoc]

/-- Where the next token starts. -/
def startOf (here : Cursor) : Nat :=
  (step .standard here).token.span.start

/-- The next token starts no earlier than its place. -/
theorem offset_le_startOf (here : Cursor) : here.offset ≤ startOf here := by
  obtain ⟨gap, following, -, -, -, -, -, -, start, -, -⟩ := step_split .standard here
  rw [startOf, start]
  exact Nat.le_add_right _ _

/-- A token that is not the end of the source starts in front of the place behind it. -/
theorem startOf_lt {here : Cursor} (goesOn : (step .standard here).token.kind ≠ .eof) :
    startOf here < (step .standard here).next.offset := by
  obtain ⟨gap, following, -, -, -, -, kind, -, start, -, next⟩ := step_split .standard here
  rw [startOf, start, next]
  -- At the end of the text there is only the last token; any other has a first character.
  cases following with
  | nil =>
    rw [kind, scan_nil, if_neg nofun] at goesOn
    exact absurd rfl goesOn
  | cons c tail =>
    obtain ⟨size, isSize⟩ := Nat.exists_eq_succ_of_ne_zero
      (Nat.ne_of_gt (scan_cons .standard c tail).2)
    have positive := c.utf8Size_pos
    dsimp only
    rw [isSize, List.take_succ_cons, byteSize]
    omega

end Lexer

open Lexer

/-- Every place of the buffer is one of the source. -/
theorem Reader.start_before (reader : Reader) (count : Nat) :
    reader.start.Before (reader.cursor count) := by
  obtain ⟨front, split, reached⟩ := reader.cursor_reached count
  exact ⟨front, split, reached.trans (Nat.zero_add _).symm⟩

namespace Parser

/-- What holds of a result and the place behind it, whenever a parser comes to its end. -/
abbrev Arrives {α : Type} (base : Reader) (here : Cursor) (parser : Parser α)
    (after : α → Cursor → Prop) : Prop :=
  Settles True 0 base here parser parser after

/-- What holds behind a round of a loop, which goes on with a state that is known. -/
def Round.Known {σ β : Type} (known : σ → Cursor → Prop) (final : β → Cursor → Prop) :
    Round σ β → Cursor → Prop
  | .again state, place => known state place
  | .done result, place => final result place

namespace Settles

variable {α β σ : Type} {short : Prop} {extra : Nat} {base : Reader} {here : Cursor}
variable {parser other : Parser α} {after : α → Cursor → Prop} {final : β → Cursor → Prop}

/-- A place behind which there is no more text comes later. -/
theorem before (holds : Settles short extra base here parser other after) :
    Settles short extra base here parser other fun result place =>
      after result place ∧ (place.left ≤ here.left → here.Before place) := by
  rintro reader keeps rfl
  have ran := holds reader keeps rfl
  generalize parser reader = run at ran
  generalize other (reader.widen extra) = wide at ran
  -- Both places are reached from the start of the same source.
  cases ran with
  | malformed goesOn => exact .malformed goesOn
  | exhausted isShort => exact .exhausted isShort
  | @ok _ later goesOn shown =>
    refine .ok goesOn ⟨shown, fun no_more => ?_⟩
    have start := reader.start_before reader.next
    rw [show reader.start = later.start from congrArg (Cursor.mk 0)
      (keeps.source.trans goesOn.source.symm)] at start
    exact start.of_left_le (later.start_before _) no_more

/-- What leaves no more text goes on in the source. -/
theorem onward (lasts : Lasts short extra base here parser other) :
    Settles short extra base here parser other fun _ place => here.offset ≤ place.offset :=
  lasts.before.weaken fun _ _ shown => (shown.2 shown.1).offset_le

/-- What takes something goes on for at least a byte. -/
theorem further (takes : Takes short extra base here parser other) :
    Settles short extra base here parser other fun _ place => here.offset < place.offset :=
  takes.before.weaken fun _ _ shown => (shown.2 (Nat.le_of_lt shown.1)).offset_lt shown.1

/-- A token other than the mark of the end starts in front of the place behind it. -/
theorem past {kind : TokenKind} (goesOn : kind ≠ .eof) :
    Settles short extra base here (Parser.require kind) (Parser.require kind)
      fun token place => token.span.start = startOf here ∧ startOf here < place.offset :=
  .take <| .ite (fun same => .pure ⟨rfl, startOf_lt (same ▸ goesOn)⟩) fun _ => .fail

/-- A symbol ends behind where it starts. -/
theorem symbol_past {mark : Punctuator} :
    Settles short extra base here (Parser.symbol mark) (Parser.symbol mark)
      fun _ place => startOf here < place.offset :=
  (past (by nofun)).bind fun _ _ shows => .pure shows.2

/-- A keyword ends behind where it starts. -/
theorem keyword_past {word : Keyword} :
    Settles short extra base here (Parser.keyword word) (Parser.keyword word)
      fun _ place => startOf here < place.offset :=
  (past (by nofun)).bind fun _ _ shows => .pure shows.2

/-- A token that may be taken. -/
theorem accept_past {kind : TokenKind} (goesOn : kind ≠ .eof) :
    Settles short extra base here (Parser.accept kind) (Parser.accept kind)
      fun was place => here.offset ≤ place.offset ∧ (was = false → place = here)
        ∧ (was = true → startOf here < place.offset) := by
  refine .peek <| .ite (fun same => .take <| .pure ?_) fun _ =>
    .pure ⟨Nat.le_refl _, fun _ => rfl, nofun⟩
  exact ⟨(before_step _ here).offset_le, nofun, fun _ => startOf_lt (same ▸ goesOn)⟩

/-- What comes behind a span, which starts where the first token does. -/
theorem spannedThen {rest rest' : Span × α → Parser β}
    (holds : Settles short extra base here parser other after)
    (goesOn : ∀ stop result place, after result place →
      Settles short extra base place (rest (⟨startOf here, stop⟩, result))
        (rest' (⟨startOf here, stop⟩, result)) final) :
    Settles short extra base here (Parser.spanned parser >>= rest)
      (Parser.spanned other >>= rest') final := by
  -- The token in front of the part is where its span starts.
  have started : Settles short extra base here (Parser.spanned parser) (Parser.spanned other)
      fun found place => found.1.start = startOf here ∧ after found.2 place :=
    .peek <| holds.bind fun _ _ shown => .lastEnd fun _ => .pure ⟨rfl, shown⟩
  refine started.bind ?_
  rintro ⟨⟨start, stop⟩, result⟩ place ⟨starts, shown⟩
  obtain rfl : start = startOf here := starts
  exact goesOn stop result place shown

/-- What is known of the state of a loop in front of each round is known until the loop ends. -/
theorem cycle {round : σ → Parser (Round σ β)} (known : σ → Cursor → Prop) {state : σ}
    (starts : known state here)
    (rounds : ∀ state place, known state place →
      Arrives base place (round state) (Round.Known known final)) :
    Arrives base here (Parser.loop round state) final := by
  -- The limit may cut the loop short, and until then each round leaves a state that is known.
  have runs (fuel : Nat) {state : σ} {here : Cursor} (starts : known state here) :
      Arrives base here (Parser.iterate fuel round state) final := by
    induction fuel generalizing state here with
    | zero => exact fun _ _ _ => .exhausted trivial
    | succ fuel ih =>
      refine (rounds state here starts).bind fun next place shows => ?_
      cases next with
      | done result => exact .pure shows
      | again state => exact ih shows
  exact fun reader keeps stands => runs reader.limit starts reader keeps stands

end Settles

end Parser

end Downlevel
