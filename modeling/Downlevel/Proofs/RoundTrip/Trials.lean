import Downlevel.Proofs.RoundTrip.Readings

/-! Attempts that may fail: where they leave the reader, so that it can go back. -/

namespace Downlevel.Parser

variable {α β σ : Type} {tape : Tape} {lexeme : Lexeme} {ahead middle after : List Lexeme}

/-- From where the given tokens are ahead the parser gets to one of the possible places with one of
the possible results, or it meets a token that does not belong there. -/
structure Tries (tape : Tape) (parser : Parser α) (ahead : List Lexeme)
    (possible : α → List Lexeme → Prop) : Prop where
  run : ∀ reader, tape.At ahead reader →
    match parser reader with
    | .ok result later =>
      ∃ after, possible result after ∧ tape.At after later ∧ reader.next ≤ later.next
    | .error (.malformed error) later =>
      error.fault ≠ .lineBreakBeforeArrow ∧ tape.Holds later ∧ reader.next ≤ later.next
    | .error .exhausted _ => False

namespace Tries

variable {parser : Parser α} {rest : α → Parser β} {known : α → Prop}
  {possible : α → List Lexeme → Prop} {final : β → List Lexeme → Prop}

/-- A result that is given is possible where it is. -/
theorem pure {result : α} (holds : possible result ahead) :
    Tries tape (Pure.pure result) ahead possible :=
  ⟨fun _ stands => ⟨ahead, holds, stands, Nat.le_refl _⟩⟩

/-- One parser after another tries what both do. -/
theorem bind (first : Tries tape parser ahead possible)
    (second : ∀ result after, possible result after → Tries tape (rest result) after final) :
    Tries tape (parser >>= rest) ahead final := by
  refine ⟨fun reader stands => ?_⟩
  have own := first.run reader stands
  -- Cases on the first run and, where it gives a result, on the second; a failure of either is a
  -- failure of the whole, at the place where it happened.
  simp only [Bind.bind, EStateM.bind]
  cases ran : parser reader with
  | ok result between =>
    rw [ran] at own
    obtain ⟨middle, holds, there, early⟩ := own
    have later := (second result middle holds).run between there
    dsimp only
    cases goesOn : rest result between with
    | ok last done =>
      rw [goesOn] at later
      obtain ⟨after, shown, stands, late⟩ := later
      exact ⟨after, shown, stands, Nat.le_trans early late⟩
    | error failure done =>
      rw [goesOn] at later
      cases failure with
      | malformed error => exact ⟨later.1, later.2.1, Nat.le_trans early later.2.2⟩
      | exhausted => exact later
  | error failure between =>
    rw [ran] at own
    cases failure with
    | malformed error => exact own
    | exhausted => exact own

/-- The two ways in which an attempt ends. -/
theorem ends (tries : Tries tape parser ahead possible) {reader : Reader}
    (stands : tape.At ahead reader) :
    (∃ result later after, parser reader = .ok result later ∧ possible result after)
      ∨ ∃ error later, parser reader = .error (.malformed error) later
        ∧ error.fault ≠ .lineBreakBeforeArrow ∧ tape.Holds later ∧ reader.next ≤ later.next := by
  have own := tries.run reader stands
  -- A try that runs out of depth is excluded, so it ends with a result or with an error at a later
  -- place.
  cases ran : parser reader with
  | ok result later =>
    rw [ran] at own
    obtain ⟨after, shown, -⟩ := own
    exact .inl ⟨result, later, after, rfl, shown⟩
  | error failure later =>
    rw [ran] at own
    cases failure with
    | malformed error => exact .inr ⟨error, later, rfl, own⟩
    | exhausted => exact own.elim

/-- What is read for certain is no trial. -/
theorem of_reads (holds : Reads tape parser ahead after known) (passed : after.length ≤ ahead.length) :
    Tries tape parser ahead fun result place => known result ∧ place = after := by
  refine ⟨fun reader stands => ?_⟩
  obtain ⟨result, later, ran, there, shown⟩ := holds.run reader stands
  rw [ran]
  refine ⟨after, ⟨shown, rfl⟩, there, ?_⟩
  have next := stands.next_le
  rw [← there.ahead, ← stands.ahead, List.length_drop, List.length_drop] at passed
  omega

/-- A trial behind what is read for certain. -/
theorem reads_bind (first : Reads tape parser ahead middle known)
    (passed : middle.length ≤ ahead.length)
    (second : ∀ result, known result → Tries tape (rest result) middle final) :
    Tries tape (parser >>= rest) ahead final :=
  (of_reads first passed).bind fun result _ ⟨shown, same⟩ => same ▸ second result shown

/-- What follows from what is possible is possible. -/
theorem weaken {weaker : α → List Lexeme → Prop} (holds : Tries tape parser ahead possible)
    (implies : ∀ result after, possible result after → weaker result after) :
    Tries tape parser ahead weaker := by
  have same : Tries tape (parser >>= Pure.pure) ahead weaker :=
    holds.bind fun result after shown => pure (implies result after shown)
  rwa [bind_pure] at same

/-- An error other than that of an arrow is possible. -/
theorem fail {error : SyntaxError} (other : error.fault ≠ .lineBreakBeforeArrow) :
    Tries tape (Parser.fail error) ahead possible :=
  ⟨fun _ stands => ⟨other, stands.toHolds, Nat.le_refl _⟩⟩

/-- An attempt never goes back. -/
theorem shorter (holds : Tries tape parser ahead possible) :
    Tries tape parser ahead fun result after =>
      possible result after ∧ after.length ≤ ahead.length := by
  refine ⟨fun reader stands => ?_⟩
  have own := holds.run reader stands
  -- Both places are counted on the same tape, and the reader never goes back.
  cases ran : parser reader with
  | ok result later =>
    rw [ran] at own
    obtain ⟨after, shown, there, passed⟩ := own
    refine ⟨after, ⟨shown, ?_⟩, there, passed⟩
    rw [← there.ahead, ← stands.ahead, List.length_drop, List.length_drop]
    omega
  | error failure later =>
    rw [ran] at own
    cases failure <;> exact own

/-- The tokens ahead are some of the source. -/
theorem of_ahead (holds : (∀ found ∈ ahead, found ∈ tape.lexemes) →
    Tries tape parser ahead possible) : Tries tape parser ahead possible := by
  refine ⟨fun reader stands => ?_⟩
  refine (holds fun found mem => ?_).run reader stands
  rw [← stands.ahead] at mem
  exact List.mem_of_mem_drop mem

/-- A token that is required is there or makes the attempt fail. -/
theorem require {kind : TokenKind} :
    Tries tape (require kind) (lexeme :: ahead) fun _ place => lexeme.kind = kind ∧ place = ahead := by
  refine reads_bind Reads.take (Nat.le_succ _) fun token own => ?_
  split
  · rename_i same
    exact pure ⟨own.kind.symm.trans same, rfl⟩
  · exact fail (by simp [Token.error])

/-- There is no arrow. -/
theorem require_arrow :
    Tries tape (Parser.require (.symbol .equalsChevronRight)) (lexeme :: ahead) fun _ _ => False :=
  of_ahead fun there => require.weaken fun _ _ ⟨arrow, _⟩ =>
    tape.arrowless lexeme (there lexeme List.mem_cons_self) arrow

/-- A symbol is taken only if it comes next. -/
theorem symbol {mark : Punctuator} :
    Tries tape (symbol mark) (lexeme :: ahead) fun _ place =>
      lexeme.kind = .symbol mark ∧ place = ahead :=
  require.bind fun _ _ shown => pure shown

/-- A token is accepted or stays ahead. -/
theorem accept {kind : TokenKind} :
    Tries tape (accept kind) (lexeme :: ahead) fun accepted place =>
      accepted = true ∧ lexeme.kind = kind ∧ place = ahead
        ∨ accepted = false ∧ lexeme.kind ≠ kind ∧ place = lexeme :: ahead := by
  by_cases same : lexeme.kind = kind
  · exact (of_reads (Reads.accept same) (Nat.le_succ _)).weaken fun _ _ ⟨accepted, there⟩ =>
      .inl ⟨accepted, same, there⟩
  · exact (of_reads (Reads.refuse same) (Nat.le_refl _)).weaken fun _ _ ⟨accepted, there⟩ =>
      .inr ⟨accepted, same, there⟩

/-- The span around a trial is known, whatever it is. -/
theorem spanned (holds : Tries tape parser ahead possible) (nonempty : ahead ≠ []) :
    Tries tape (spanned parser) ahead fun pair after => possible pair.2 after := by
  obtain ⟨lexeme, rest, rfl⟩ := List.exists_cons_of_ne_nil nonempty
  exact reads_bind Reads.peek (Nat.le_refl _) fun _ _ => holds.bind fun _ _ shown =>
    reads_bind Reads.lastEnd (Nat.le_refl _) fun _ _ => pure shown

/-- What cannot go well is not made better by what comes behind it. -/
theorem hopeless_bind (never : Tries tape parser ahead fun _ _ => False) :
    Tries tape (parser >>= rest) ahead final :=
  never.bind fun _ _ absurd => absurd.elim

/-- What never succeeds does not succeed with its span. -/
theorem spanned_hopeless (never : Tries tape parser ahead fun _ _ => False) (nonempty : ahead ≠ []) :
    Tries tape (Parser.spanned parser) ahead fun _ _ => False :=
  spanned never nonempty

end Tries

/-- The rounds of a loop that may fail, if it may go round as often as there are tokens ahead and once
more. -/
def TriesRuns (tape : Tape) (step : σ → Parser (Round σ β)) (state : σ) (ahead : List Lexeme)
    (possible : β → List Lexeme → Prop) : Prop :=
  ∀ fuel, ahead.length < fuel → Tries tape (iterate fuel step state) ahead possible

/-- A loop goes on after every round that takes a token. -/
theorem TriesRuns.round {step : σ → Parser (Round σ β)} {state : σ}
    {possible : β → List Lexeme → Prop}
    (once : Tries tape (step state) ahead fun round place =>
      match round with
      | .again state => place.length < ahead.length ∧ TriesRuns tape step state place possible
      | .done result => possible result place) :
    TriesRuns tape step state ahead possible := by
  intro fuel enough
  -- The fuel is at least the number of lexemes left, and a round that goes on consumed one.
  cases fuel with
  | zero => exact absurd enough (Nat.not_lt_zero _)
  | succ fuel =>
    refine once.bind fun next place shown => ?_
    cases next with
    | again state => exact shown.2 fuel (by have := shown.1; omega)
    | done result => exact .pure shown

/-- A loop ends as its rounds let it. -/
theorem Tries.loop {step : σ → Parser (Round σ β)} {state : σ}
    {possible : β → List Lexeme → Prop} (rounds : TriesRuns tape step state ahead possible) :
    Tries tape (loop step state) ahead possible := by
  refine ⟨fun reader stands => ?_⟩
  refine (rounds reader.limit ?_).run reader stands
  have limit := stands.limit
  rw [← stands.ahead, List.length_drop]
  omega

/-- An attempt that cannot go well is given up at the place where it began. -/
theorem Reads.giveUp {grammar : Grammar} {context : Context} {stops : List TokenKind}
    (hopeless : Tries tape (grammar.arrowExpr context stops) ahead fun _ _ => False) :
    Reads tape (grammar.arrowExpr? context stops) ahead ahead (· = none) := by
  refine Reads.checkpoint.bind fun saved marks => ?_
  refine ⟨fun reader stands => ?_⟩
  -- The checkpoint is where the reader stands: both have the same lexemes ahead.
  have same : saved.next = reader.next := by
    have inside := marks.inside
    have next := stands.next_le
    have lengths := congrArg List.length (marks.ahead.trans stands.ahead.symm)
    rw [List.length_drop, List.length_drop] at lengths
    omega
  -- The failed try leaves the reader further on; restoring takes it back to the checkpoint.
  rcases hopeless.ends stands with ⟨_, _, _, -, never⟩ | ⟨error, later, ran, other, holds, passed⟩
  · exact never.elim
  · obtain ⟨back, restored, there⟩ := restore_at marks holds (same ▸ passed)
    refine ⟨none, back, ?_, there, rfl⟩
    simp only [attempt, Bind.bind, EStateM.bind, ran, if_neg other, restored]
    rfl

end Downlevel.Parser
