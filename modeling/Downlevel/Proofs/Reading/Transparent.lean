import Downlevel.Proofs.Reading.SettledStatements

/-! The buffer of the reader cannot be told from the lexer itself: whatever is looked at, taken and set
back, every token is the one the lexer gives behind the last token that was taken. -/

namespace Downlevel

open Lexer

/-- All that a parser without a buffer has to know: the place behind the last token that was taken, and
the reports. -/
structure Standing where
  place : Cursor
  reports : List Report

/-- Where a reader stands. -/
def Reader.standing (reader : Reader) : Standing :=
  ⟨reader.place, reader.reports⟩

namespace Standing

/-- What the lexer reads at the place. There is always something. -/
def ahead (here : Standing) (mode : LexMode) : { one : Step // lexNext mode here.place = .ok one } :=
  ⟨step mode here.place, lexNext_eq mode here.place⟩

/-- The token that comes next. -/
def token (here : Standing) (mode : LexMode) : Token :=
  (here.ahead mode).1.token

/-- The place behind that token. -/
def next (here : Standing) (mode : LexMode) : Standing :=
  { here with place := (here.ahead mode).1.next }

end Standing

namespace Parser

/-- One use of the reader. -/
inductive Move
  | peek (mode : LexMode)
  | take (mode : LexMode)
  | accept (kind : TokenKind)
  | peek2
  | peek3
  | report (problem : Problem) (span : Span)
  | checkpoint
  /-- Goes back to the checkpoint that so many others were made after, which are given up. -/
  | restore (others : Nat)

/-- What one use of the reader tells. -/
structure Answer where
  tokens : List Token := []
  accepted : Bool := false

/-- A reader and the checkpoints that can be gone back to, the last one first. -/
structure Session where
  reader : Reader
  saved : List Checkpoint

namespace Session

/-- A session at the start of a source. -/
def ofString (source : String) : Session :=
  ⟨.ofString source, []⟩

/-- What the parser does for a move. Only a checkpoint that is still there is gone back to. -/
def action (saved : List Checkpoint) : Move → Parser (Answer × List Checkpoint)
  | .peek mode => return ({ tokens := [← peekIn mode] }, saved)
  | .take mode => return ({ tokens := [← takeIn mode] }, saved)
  | .accept kind => return ({ accepted := ← accept kind }, saved)
  | .peek2 => do
    let (first, second) ← peek2
    return ({ tokens := [first, second] }, saved)
  | .peek3 => do
    let (first, second, third) ← peek3
    return ({ tokens := [first, second, third] }, saved)
  | .report problem span => do
    report problem span
    return ({}, saved)
  | .checkpoint => return ({}, (← checkpoint) :: saved)
  | .restore others =>
    match saved.drop others with
    | [] => return ({}, saved)
    | back :: older => do
      restore back
      return ({}, back :: older)

/-- Makes a move. -/
def move (session : Session) (one : Move) : Except ParseFailure (Answer × Session) :=
  match action session.saved one session.reader with
  | .ok (answer, saved) reader => .ok (answer, ⟨reader, saved⟩)
  | .error failure _ => .error failure

/-- Makes one move after the other. -/
def run (session : Session) : List Move → Except ParseFailure (List Answer × Session)
  | [] => .ok ([], session)
  | one :: moves => do
    let (answer, session) ← session.move one
    let (answers, session) ← session.run moves
    return (answer :: answers, session)

/-- Two sessions that no moves can tell apart, neither by what they tell nor by the reports that are
there in the end. -/
def Alike (one other : Session) : Prop :=
  ∀ moves, ∃ answers last last', one.run moves = .ok (answers, last)
    ∧ other.run moves = .ok (answers, last') ∧ last.reader.reports = last'.reader.reports

end Session

/-- Where a parser without a buffer stands, and where it stood at the checkpoints that can be gone back
to. -/
structure Plain where
  now : Standing
  saved : List Standing

namespace Plain

/-- The start of a source. -/
def ofString (source : String) : Plain :=
  ⟨⟨.ofString source, []⟩, []⟩

/-- Makes a move, and asks the lexer for every token anew. -/
def move : Plain → Move → Answer × Plain
  | ⟨now, saved⟩, .peek mode => ({ tokens := [now.token mode] }, ⟨now, saved⟩)
  | ⟨now, saved⟩, .take mode => ({ tokens := [now.token mode] }, ⟨now.next mode, saved⟩)
  | ⟨now, saved⟩, .accept kind =>
    if (now.token .standard).kind = kind then ({ accepted := true }, ⟨now.next .standard, saved⟩)
    else ({}, ⟨now, saved⟩)
  | ⟨now, saved⟩, .peek2 =>
    let second := now.next .standard
    ({ tokens := [now.token .standard, second.token .standard] }, ⟨now, saved⟩)
  | ⟨now, saved⟩, .peek3 =>
    let second := now.next .standard
    let third := second.next .standard
    ({ tokens := [now.token .standard, second.token .standard, third.token .standard] },
      ⟨now, saved⟩)
  | ⟨now, saved⟩, .report problem span =>
    ({}, ⟨{ now with reports := now.reports ++ [⟨problem, span⟩] }, saved⟩)
  | ⟨now, saved⟩, .checkpoint => ({}, ⟨now, now :: saved⟩)
  | ⟨now, saved⟩, .restore others =>
    match saved.drop others with
    | [] => ({}, ⟨now, saved⟩)
    | back :: older => ({}, ⟨back, back :: older⟩)

/-- Makes one move after the other. -/
def run (plain : Plain) : List Move → List Answer × Plain
  | [] => ([], plain)
  | one :: moves =>
    let (answer, plain) := plain.move one
    let (answers, plain) := plain.run moves
    (answer :: answers, plain)

end Plain

/-- How many checkpoints are there behind one that so many are there behind now, after more moves;
nothing if an older one was gone back to. -/
def checkpointsBehind : (count : Nat) → List Move → Option Nat
  | count, [] => some count
  | count, .checkpoint :: moves => checkpointsBehind (count + 1) moves
  | count, .restore others :: moves =>
    if others ≤ count then checkpointsBehind (count - others) moves else none
  | count, _ :: moves => checkpointsBehind count moves

section Moves

variable {reader : Reader}

/-- A parser goes from a reader to a place, with the reports that are there then. -/
def Leads {α : Type} (parser : Parser α) (reader : Reader) (result : α) (there : Standing) : Prop :=
  ∃ later, parser reader = .ok result later ∧ reader.Keeps later ∧ later.standing = there

/-- A look shows the token that the lexer gives, and leads nowhere. -/
theorem leads_peekIn (sound : reader.Sound) (mode : LexMode) :
    Leads (peekIn mode) reader (reader.standing.token mode) reader.standing := by
  obtain ⟨later, looks, keeps, next, reports, -⟩ := sound.look mode
  have place : later.place = reader.place := by
    rw [Reader.place, next]
    exact keeps.cursor_next
  refine ⟨later, peekIn_eq sound.inside looks, keeps, ?_⟩
  rw [Reader.standing, place, reports]
  rfl

/-- A token that is taken is the same, and leads behind it. -/
theorem leads_takeIn (sound : reader.Sound) (mode : LexMode) :
    Leads (takeIn mode) reader (reader.standing.token mode) (reader.standing.next mode) := by
  obtain ⟨later, looks, keeps, place, reports⟩ := sound.take mode
  refine ⟨_, takeIn_eq sound.inside looks, keeps, ?_⟩
  rw [Reader.standing, place]
  exact congrArg (Standing.mk _) reports

/-- Nothing more. -/
theorem Leads.pure {α : Type} (sound : reader.Sound) (result : α) :
    Leads (Pure.pure result) reader result reader.standing :=
  ⟨reader, rfl, .refl sound, rfl⟩

/-- One step after another. -/
theorem Leads.bind {α β : Type} {parser : Parser α} {rest : α → Parser β} {first : α} {last : β}
    {there further : Standing} (leads : Leads parser reader first there)
    (goesOn : ∀ later : Reader, later.Sound → later.standing = there →
      Leads (rest first) later last further) :
    Leads (parser >>= rest) reader last further := by
  obtain ⟨later, run, keeps, stands⟩ := leads
  obtain ⟨final, run', keeps', stands'⟩ := goesOn later keeps.sound stands
  refine ⟨final, ?_, keeps.trans keeps', stands'⟩
  simp only [Bind.bind, EStateM.bind, run, run']

/-- A token of the kind is taken if it comes next. -/
theorem leads_accept (sound : reader.Sound) (kind : TokenKind) :
    Leads (accept kind) reader (decide ((reader.standing.token .standard).kind = kind))
      (if (reader.standing.token .standard).kind = kind then reader.standing.next .standard
        else reader.standing) := by
  -- The token is looked at in any case, and taken only if it is of the kind.
  refine (leads_peekIn sound .standard).bind fun later sound stands => ?_
  rw [← stands]
  split
  · rename_i same
    rw [decide_eq_true same]
    refine (leads_takeIn sound .standard).bind fun final sound stands => ?_
    rw [← stands]
    exact .pure sound true
  · rename_i other
    rw [decide_eq_false other]
    exact .pure sound false

/-- A parser that goes back to where it started shows what is ahead. -/
theorem leads_back {α : Type} {ahead : Parser α} {result : α} {there : Standing}
    (leads : Leads ahead reader result there) :
    Leads (do
      let saved ← checkpoint
      let result ← ahead
      restore saved
      return result) reader result reader.standing := by
  obtain ⟨later, run, keeps, -⟩ := leads
  -- Going back restores the place and the reports, which is all that the standing is made of.
  obtain ⟨goesBack, place, reports⟩ := keeps.back
  refine ⟨_, ?_, goesBack, ?_⟩
  · simp only [Bind.bind, EStateM.bind, checkpoint_run, run]
    rfl
  · rw [Reader.standing, place]
    exact congrArg (Standing.mk _) reports

/-- Looking at two tokens takes none. -/
theorem leads_peek2 (sound : reader.Sound) :
    Leads peek2 reader
      (reader.standing.token .standard, (reader.standing.next .standard).token .standard)
      reader.standing := by
  -- Two tokens are taken, and then the reader goes back.
  have ahead : Leads (do
      let first ← take
      let second ← take
      return (first, second)) reader
      (reader.standing.token .standard, (reader.standing.next .standard).token .standard)
      ((reader.standing.next .standard).next .standard) := by
    refine (leads_takeIn sound .standard).bind fun later sound stands => ?_
    rw [← stands]
    refine (leads_takeIn sound .standard).bind fun last sound stands => ?_
    rw [← stands]
    exact .pure sound _
  have whole := leads_back ahead
  simp only [bind_assoc, pure_bind] at whole
  exact whole

/-- Looking at three tokens takes none. -/
theorem leads_peek3 (sound : reader.Sound) :
    Leads peek3 reader
      (reader.standing.token .standard, (reader.standing.next .standard).token .standard,
        ((reader.standing.next .standard).next .standard).token .standard)
      reader.standing := by
  -- Three tokens are taken, and then the reader goes back.
  have ahead : Leads (do
      let first ← take
      let second ← take
      let third ← take
      return (first, second, third)) reader
      (reader.standing.token .standard, (reader.standing.next .standard).token .standard,
        ((reader.standing.next .standard).next .standard).token .standard)
      (((reader.standing.next .standard).next .standard).next .standard) := by
    refine (leads_takeIn sound .standard).bind fun later sound stands => ?_
    rw [← stands]
    refine (leads_takeIn sound .standard).bind fun last sound stands => ?_
    rw [← stands]
    refine (leads_takeIn sound .standard).bind fun final sound stands => ?_
    rw [← stands]
    exact .pure sound _
  have whole := leads_back ahead
  simp only [bind_assoc, pure_bind] at whole
  exact whole

/-- Reporting takes no token. -/
theorem leads_report (sound : reader.Sound) (problem : Problem) (span : Span) :
    Leads (report problem span) reader ()
      { reader.standing with reports := reader.reports ++ [⟨problem, span⟩] } := by
  have keeps : reader.Keeps { reader with reports := reader.reports ++ [⟨problem, span⟩] } :=
    { Reader.Keeps.refl sound with
      sound := sound.remarked
      reports := List.prefix_append _ _ }
  exact ⟨_, rfl, keeps, rfl⟩

end Moves

/-- Each checkpoint is that of a reader that the next one, and the reader now, went on from. -/
inductive Chain : (reader : Reader) → List Checkpoint → List Standing → Prop
  | nil (reader : Reader) : Chain reader [] []
  | cons {base reader : Reader} {saved : List Checkpoint} {standings : List Standing} :
    base.Keeps reader → Chain base saved standings →
    Chain reader (⟨base.next, base.reports.length⟩ :: saved) (base.standing :: standings)

namespace Chain

variable {reader later : Reader} {saved : List Checkpoint} {standings : List Standing}

/-- The checkpoints stay when the reader goes on. -/
theorem keep (chain : Chain reader saved standings) (keeps : reader.Keeps later) :
    Chain later saved standings := by
  cases chain with
  | nil => exact .nil later
  | cons goesOn older => exact .cons (goesOn.trans keeps) older

/-- Without the last ones the others are still there. -/
theorem drop (chain : Chain reader saved standings) (others : Nat) :
    Chain reader (saved.drop others) (standings.drop others) := by
  induction chain generalizing others with
  | nil reader => simpa using Chain.nil reader
  | cons goesOn older ih =>
    cases others with
    | zero => exact .cons goesOn older
    | succ others => exact (ih others).keep goesOn

end Chain

/-- A session that stands where a parser without a buffer does. -/
structure Session.Stands (session : Session) (plain : Plain) : Prop where
  sound : session.reader.Sound
  now : session.reader.standing = plain.now
  saved : Chain session.reader session.saved plain.saved

/-- A session at the start. -/
theorem stands_ofString (source : String) :
    (Session.ofString source).Stands (Plain.ofString source) :=
  ⟨Reader.sound_ofString source, rfl, .nil _⟩

/-- Every move tells what the lexer does, and leads where it leads without the buffer. -/
theorem stands_move {session : Session} {plain : Plain} (stands : session.Stands plain)
    (one : Move) : ∃ later, session.move one = .ok ((plain.move one).1, later)
      ∧ later.Stands (plain.move one).2 := by
  obtain ⟨reader, saved⟩ := session
  obtain ⟨now, standings⟩ := plain
  obtain ⟨sound, now, chain⟩ := stands
  dsimp only at sound now chain
  subst now
  -- What leads from the reader to a place leads the session there.
  have moved {α : Type} {parser : Parser α} {result : α} {there : Standing} (pack : α → Answer)
      (leads : Leads parser reader result there)
      (same : Session.action saved one = (do return (pack (← parser), saved))) :
      ∃ later, Session.move ⟨reader, saved⟩ one = .ok (pack result, later)
        ∧ later.Stands ⟨there, standings⟩ := by
    obtain ⟨later, run, keeps, stands⟩ := leads
    refine ⟨⟨later, saved⟩, ?_, keeps.sound, stands, chain.keep keeps⟩
    simp only [Session.move, same, Bind.bind, EStateM.bind, run]
    rfl
  cases one with
  | peek mode => exact moved (fun token => { tokens := [token] }) (leads_peekIn sound mode) rfl
  | take mode => exact moved (fun token => { tokens := [token] }) (leads_takeIn sound mode) rfl
  | accept kind =>
    obtain ⟨later, run, stands⟩ :=
      moved (fun was => { accepted := was }) (leads_accept sound kind) rfl
    refine ⟨later, ?_, ?_⟩
    · rw [run]
      simp only [Plain.move]
      split <;> simp [*]
    · simp only [Plain.move]
      split <;> simpa [*] using stands
  | peek2 => exact moved (fun pair => { tokens := [pair.1, pair.2] }) (leads_peek2 sound) rfl
  | peek3 =>
    exact moved (fun three => { tokens := [three.1, three.2.1, three.2.2] }) (leads_peek3 sound) rfl
  | report problem span => exact moved (fun _ => {}) (leads_report sound problem span) rfl
  | checkpoint =>
    exact ⟨⟨reader, ⟨reader.next, reader.reports.length⟩ :: saved⟩, rfl, sound, rfl,
      .cons (.refl sound) chain⟩
  | restore others =>
    have left := chain.drop others
    generalize dropped : saved.drop others = some at left
    generalize droppedToo : standings.drop others = someToo at left
    cases left with
    | nil =>
      refine ⟨⟨reader, saved⟩, ?_, ?_⟩
      · simp only [Session.move, Session.action, Plain.move, dropped, droppedToo]
        rfl
      · simp only [Plain.move, droppedToo]
        exact ⟨sound, rfl, chain⟩
    | cons keeps older =>
      rename_i base earlier _
      obtain ⟨goesBack, place, reports⟩ := keeps.back
      refine ⟨⟨{ reader with
          next := base.next
          reports := reader.reports.take base.reports.length },
        ⟨base.next, base.reports.length⟩ :: earlier⟩, ?_, ?_⟩
      · simp only [Session.move, Session.action, Plain.move, dropped, droppedToo]
        rfl
      · simp only [Plain.move, droppedToo]
        refine ⟨goesBack.sound, ?_, .cons goesBack older⟩
        rw [Reader.standing, place]
        exact congrArg (Standing.mk _) reports

/-- So does any number of moves. -/
theorem stands_run {session : Session} {plain : Plain} (stands : session.Stands plain)
    (moves : List Move) : ∃ later, session.run moves = .ok ((plain.run moves).1, later)
      ∧ later.Stands (plain.run moves).2 := by
  induction moves generalizing session plain with
  | nil => exact ⟨session, rfl, stands⟩
  | cons one moves ih =>
    obtain ⟨middle, move, stands⟩ := stands_move stands one
    obtain ⟨later, run, stands⟩ := ih stands
    refine ⟨later, ?_, stands⟩
    simp only [Session.run, move, Bind.bind, Except.bind, run]
    rfl

/-- Sessions that stand at the same place cannot be told apart, however their buffers came to be. -/
theorem alike_of_stands {one other : Session} {plain : Plain} (stands : one.Stands plain)
    (standsToo : other.Stands plain) : one.Alike other := by
  intro moves
  obtain ⟨last, run, there⟩ := stands_run stands moves
  obtain ⟨last', run', there'⟩ := stands_run standsToo moves
  refine ⟨_, last, last', run, run', ?_⟩
  have same := there.now.trans there'.now.symm
  exact congrArg Standing.reports same

/-- While no older checkpoint is gone back to, a checkpoint stays below the later ones. -/
theorem run_drop_checkpointsBehind {plain : Plain} {count last : Nat} {moves : List Move}
    {back : Standing} {older : List Standing} (there : plain.saved.drop count = back :: older)
    (behind : checkpointsBehind count moves = some last) :
    (plain.run moves).2.saved.drop last = back :: older := by
  -- By induction on the moves, each of which leaves the checkpoint where it is counted.
  induction moves generalizing plain count with
  | nil =>
    cases behind
    exact there
  | cons one moves ih =>
    obtain ⟨now, saved⟩ := plain
    cases one with
    | checkpoint => exact @ih ⟨now, now :: saved⟩ (count + 1) there behind
    | restore others =>
      simp only [checkpointsBehind] at behind
      split at behind
      · rename_i inside
        refine @ih (Plain.move ⟨now, saved⟩ (.restore others)).2 (count - others) ?_ behind
        dsimp only at there
        have rest : (saved.drop others).drop (count - others) = back :: older := by
          rw [List.drop_drop, Nat.add_sub_cancel' inside, there]
        simp only [Plain.move]
        cases dropped : saved.drop others with
        | nil =>
          rw [dropped, List.drop_nil] at rest
          cases rest
        | cons first rest' =>
          rw [dropped] at rest
          exact rest
      · cases behind
    | peek mode => exact @ih ⟨now, saved⟩ count there behind
    | take mode => exact @ih ⟨now.next mode, saved⟩ count there behind
    | accept kind =>
      refine @ih (Plain.move ⟨now, saved⟩ (.accept kind)).2 count ?_ behind
      simp only [Plain.move]
      split <;> exact there
    | peek2 => exact @ih ⟨now, saved⟩ count there behind
    | peek3 => exact @ih ⟨now, saved⟩ count there behind
    | report problem span => exact @ih ⟨_, saved⟩ count there behind

/-- Moves after moves. -/
theorem Plain.run_append (plain : Plain) (front back : List Move) :
    (plain.run (front ++ back)).2 = ((plain.run front).2.run back).2 := by
  induction front generalizing plain with
  | nil => rfl
  | cons one front ih => exact ih (plain.move one).2

/-- Going back to a checkpoint leads to where it was made, with the older checkpoints still there. -/
theorem Plain.run_restore (plain : Plain) {between : List Move} {count : Nat}
    (behind : checkpointsBehind 0 between = some count) :
    (plain.run (.checkpoint :: between ++ [.restore count])).2 = (plain.run [.checkpoint]).2 := by
  obtain ⟨now, saved⟩ := plain
  -- What was saved first is still the last but what the moves in between saved and have not used.
  have kept := @run_drop_checkpointsBehind ⟨now, now :: saved⟩ 0 count between now saved rfl behind
  have split : (Plain.run ⟨now, saved⟩ (.checkpoint :: between ++ [.restore count])).2
      = ((Plain.run ⟨now, now :: saved⟩ between).2.move (.restore count)).2 :=
    Plain.run_append ⟨now, now :: saved⟩ between [.restore count]
  rw [split]
  generalize (Plain.run ⟨now, now :: saved⟩ between).2 = later at kept
  obtain ⟨there, standings⟩ := later
  simp only [Plain.move, kept]
  rfl

/-- An attempt to read an arrow function that is given up leaves the reader where it was, with the
reports that were there. -/
theorem arrowExpr?_abandoned {depth : Nat} {context : Context} {stops : List TokenKind}
    {reader later : Reader} (sound : reader.Sound)
    (run : (grammar depth).arrowExpr? context stops reader = .ok none later) :
    reader.Keeps later ∧ later.standing = reader.standing := by
  -- Even an attempt that is cut short keeps what was taken and reported before it.
  have parts : (grammar depth).Settles True 0 (reader.place.left + 1) (grammar depth) :=
    grammar_settles 0 (.inl trivial)
  have tried := @takes_arrowExpr _ _ _ _ _ reader _ context stops parts (Nat.le_succ _) reader
    (.refl sound) rfl
  rw [arrowExpr?_eq] at run
  generalize (grammar depth).arrowExpr context stops reader = ran at run tried
  generalize (grammar depth).arrowExpr context stops (reader.widen 0) = wide at tried
  cases tried with
  | ok keeps _ => cases run
  | exhausted _ => cases run
  | malformed keeps =>
    dsimp only at run
    split at run
    · cases run
    · cases run
      obtain ⟨goesBack, place, reports⟩ := keeps.back
      refine ⟨goesBack, ?_⟩
      rw [Reader.standing, place]
      exact congrArg (Standing.mk _) reports

/-- The buffer is a cache that no moves can find. Every move tells what the lexer gives behind the last
token that was taken; a session that went back to a checkpoint is like the one that made it; and so is
one that gave up an attempt to read an arrow function. -/
theorem reader_transparent (source : String) :
    (∀ moves, ∃ last,
        (Session.ofString source).run moves = .ok (((Plain.ofString source).run moves).1, last)
          ∧ last.reader.standing = ((Plain.ofString source).run moves).2.now)
      ∧ (∀ before between count, checkpointsBehind 0 between = some count →
        ∃ answers answers' made back,
          (Session.ofString source).run (before ++ [.checkpoint]) = .ok (answers, made)
            ∧ (Session.ofString source).run (before ++ (.checkpoint :: between ++ [.restore count]))
              = .ok (answers', back)
            ∧ back.Alike made)
      ∧ ∀ moves answers session depth context stops later,
        (Session.ofString source).run moves = .ok (answers, session) →
        (grammar depth).arrowExpr? context stops session.reader = .ok none later →
          Session.Alike ⟨later, session.saved⟩ session := by
  have stands := stands_run (stands_ofString source)
  refine ⟨fun moves => ?_, fun before between count behind => ?_,
    fun moves answers session depth context stops later reached run => ?_⟩
  · -- Every run of moves gives what it gives on plain tokens.
    obtain ⟨last, run, there⟩ := stands moves
    exact ⟨last, run, there.now⟩
  · -- Going back is on plain tokens what not having gone at all is.
    obtain ⟨made, run, there⟩ := stands (before ++ [.checkpoint])
    obtain ⟨back, run', there'⟩ := stands (before ++ (.checkpoint :: between ++ [.restore count]))
    rw [Plain.run_append, Plain.run_restore _ behind, ← Plain.run_append] at there'
    exact ⟨_, _, made, back, run, run', alike_of_stands there' there⟩
  · -- An attempt that is given up leaves the reader standing where it was.
    obtain ⟨last, run', there⟩ := stands moves
    rw [reached] at run'
    cases run'
    obtain ⟨keeps, standing⟩ := arrowExpr?_abandoned there.sound run
    have gaveUp : Session.Stands ⟨later, session.saved⟩ ((Plain.ofString source).run moves).2 :=
      ⟨keeps.sound, standing.trans there.now, there.saved.keep keeps⟩
    exact alike_of_stands gaveUp there

/-- Whether an attempt was given up. -/
def isGivenUp {α : Type} : EStateM.Result ParseFailure Reader (Option α) → Bool
  | .ok none _ => true
  | _ => false

/-- A run that was given up ended without a result. -/
theorem eq_ok_of_isGivenUp {α : Type} {run : EStateM.Result ParseFailure Reader (Option α)}
    (gaveUp : isGivenUp run = true) : ∃ later, run = .ok none later := by
  cases run with
  | ok result later =>
    cases result with
    | none => exact ⟨later, rfl⟩
    | some result => cases gaveUp
  | error failure later => cases gaveUp

/-- A group that is first tried as an arrow function, and a token that is first read in another mode. -/
theorem reader_transparent_group :
    checkpointsBehind 0 [.take .regex] = some 0
      ∧ (∃ answers answers' made back,
        (Session.ofString "(a)").run [.checkpoint] = .ok (answers, made)
          ∧ (Session.ofString "(a)").run [.checkpoint, .take .regex, .restore 0]
            = .ok (answers', back)
          ∧ back.Alike made)
      ∧ ∃ later, (grammar 3).arrowExpr? {} [] (Reader.ofString "(a)") = .ok none later
        ∧ Session.Alike ⟨later, []⟩ (Session.ofString "(a)") := by
  -- The attempt fails at the end of the file, since no arrow follows.
  have gaveUp : isGivenUp ((grammar 3).arrowExpr? {} [] (Reader.ofString "(a)")) = true := by
    decide +kernel
  obtain ⟨later, run⟩ := eq_ok_of_isGivenUp gaveUp
  obtain ⟨-, back, abandoned⟩ := reader_transparent "(a)"
  exact ⟨rfl, back [] [.take .regex] 0 rfl, later, run, abandoned [] [] _ 3 {} [] later rfl run⟩

end Parser

end Downlevel
