import Downlevel.Proofs.Reading.SettledStatements

/-! Reading comes to an end on every source, with a depth that the length of the source bounds, and no
loop of the grammar goes round without taking a token. -/

namespace Downlevel

open Lexer

/-- Reads a program with bounds of its own on the depth of the rules and on the rounds of a loop. -/
def parseBounded (depth limit : Nat) (source : String) : Except ParseFailure Parsed :=
  match Parser.program (Parser.grammar depth) { Reader.ofString source with limit } with
  | .ok program reader => .ok ⟨program, reader.reports⟩
  | .error failure _ => .error failure

namespace Parser

/-- A round of a loop that goes on leaves less text than it found, from every reader that a source
leads to. -/
def Progresses {σ β : Type} (round : σ → Parser (Round σ β)) : Prop :=
  ∀ (state next : σ) (reader later : Reader), reader.Sound →
    round state reader = .ok (.again next) later → later.place.left < reader.place.left

/-- No loop of a grammar goes round without taking a token. -/
structure Grammar.Progresses (grammar : Grammar) : Prop where
  stmts : ∀ context ends, Parser.Progresses (grammar.stmtRound context ends)
  branches : ∀ context, Parser.Progresses (grammar.branchRound context)
  declarators : ∀ context, Parser.Progresses (grammar.declaratorRound context)
  classMembers : ∀ context, Parser.Progresses (grammar.memberRound context)
  objectMembers : ∀ context, Parser.Progresses (commaRound .braceClose (grammar.objectMember context))
  params : ∀ context, Parser.Progresses (grammar.paramRound context)
  properties : ∀ context, Parser.Progresses (grammar.propertyRound context)
  slots : ∀ context, Parser.Progresses (grammar.slotRound context)
  arguments : ∀ context, Parser.Progresses (commaRound .parenthesisClose (grammar.argument context))
  items : ∀ context, Parser.Progresses (grammar.arrayRound context)
  templates : ∀ context, Parser.Progresses (grammar.templateRound context)
  callees : ∀ context, Parser.Progresses (grammar.calleeRound context)
  suffixes : ∀ context level stops, Parser.Progresses (grammar.suffixRound context level stops)
  listEntries : ∀ isExport, Parser.Progresses (commaRound .braceClose (listEntry isExport))

/-- What is known about a round at every place is known about the loop. -/
theorem progresses_of_rounds {σ β : Type} {round : σ → Parser (Round σ β)}
    (rounds : ∀ (base : Reader) (here : Cursor) (state : σ),
      Rounds True 0 base here (round state) (round state)) : Progresses round := by
  intro state next reader later sound run
  have ran := rounds reader reader.place state reader (.refl sound) rfl
  rw [run] at ran
  generalize round state (reader.widen 0) = wide at ran
  cases ran with
  | ok keeps shortens => exact shortens

/-- The loops take something in every round, however deep the grammar is. -/
theorem grammar_progresses (depth : Nat) : (grammar depth).Progresses := by
  -- Where parts may be cut short there is room for every place.
  have parts (here : Cursor) :
      (grammar depth).Settles True 0 (here.left + 2) (grammar depth) :=
    grammar_settles 0 (.inl trivial)
  have small (here : Cursor) : here.left < here.left + 2 := by omega
  exact {
    stmts := fun _ _ => progresses_of_rounds fun _ here _ =>
      rounds_stmt (parts here) (Nat.lt_succ_self _)
    branches := fun _ => progresses_of_rounds fun _ here _ => rounds_branch (parts here) (small here)
    declarators := fun _ => progresses_of_rounds fun _ here _ =>
      rounds_declarator (parts here) (small here)
    classMembers := fun _ => progresses_of_rounds fun _ here _ =>
      rounds_member (parts here) (small here)
    objectMembers := fun _ => progresses_of_rounds fun _ here _ =>
      .commaRound (takes_objectMember (parts here) (small here))
    params := fun _ => progresses_of_rounds fun _ here _ => rounds_param (parts here) (small here)
    properties := fun _ => progresses_of_rounds fun _ here _ =>
      rounds_property (parts here) (small here)
    slots := fun _ => progresses_of_rounds fun _ here _ => rounds_slot (parts here) (small here)
    arguments := fun _ => progresses_of_rounds fun _ here _ =>
      .commaRound (takes_argument (parts here) (small here))
    items := fun _ => progresses_of_rounds fun _ here _ => rounds_array (parts here) (small here)
    templates := fun _ => progresses_of_rounds fun _ here _ =>
      rounds_template (parts here) (small here)
    callees := fun _ => progresses_of_rounds fun _ here _ => rounds_callee (parts here) (small here)
    suffixes := fun _ _ _ => progresses_of_rounds fun _ here _ =>
      rounds_suffix (parts here) (Nat.le_of_lt (small here))
    listEntries := fun _ => progresses_of_rounds fun _ _ _ => .commaRound takes_listEntry }

end Parser

/-- The least bounds that the length of a source asks for are enough, and larger ones give the
same. -/
theorem parseBounded_settled (source : String) (deeper longer : Nat) :
    parseBounded (source.length + 2 + deeper) (source.length + 1 + longer) source
        = parseBounded (source.length + 2) (source.length + 1) source
      ∧ ((∃ parsed, parseBounded (source.length + 2) (source.length + 1) source = .ok parsed)
        ∨ ∃ error, parseBounded (source.length + 2) (source.length + 1) source
          = .error (.malformed error)) := by
  have sound : Reader.Sound { Reader.ofString source with limit := source.length + 1 } :=
    ⟨Nat.le_refl 0, (Reader.sound_ofString source).entries, rfl, Nat.lt_succ_self _⟩
  -- The first statement needs room for one character more than there are, and one again.
  have parts : (Parser.grammar (source.length + 2)).Settles False longer (source.length + 2)
      (Parser.grammar (source.length + 2 + deeper)) :=
    Parser.grammar_settles deeper (.inr (Nat.le_refl _))
  have room : (Cursor.ofString source).left + 1 < source.length + 2 := Nat.lt_succ_self _
  have ran := Parser.settles_program parts room _ (.refl sound) rfl
  unfold parseBounded
  change Parser.Settled _ _ _ _ _ (Parser.program (Parser.grammar (source.length + 2 + deeper))
    { Reader.ofString source with limit := source.length + 1 + longer }) at ran
  generalize Parser.program (Parser.grammar (source.length + 2))
    { Reader.ofString source with limit := source.length + 1 } = run at ran
  generalize Parser.program (Parser.grammar (source.length + 2 + deeper))
    { Reader.ofString source with limit := source.length + 1 + longer } = wide at ran
  cases ran with
  | ok keeps _ => exact ⟨rfl, .inl ⟨_, rfl⟩⟩
  | malformed keeps => exact ⟨rfl, .inr ⟨_, rfl⟩⟩
  | exhausted never => exact never.elim

/-- The bounds that the parser takes are above those that suffice, so reading is the same. -/
theorem parse_eq_parseBounded (source : String) :
    parse source = parseBounded (source.length + 2) (source.length + 1) source := by
  -- The depth that is used is that of the bound and some more, which makes no difference.
  have deep : parseDepth source = source.length + 2 + (source.length + 6) := by
    unfold parseDepth
    rw [String.length_toList]
    omega
  have bounded : parse source
      = parseBounded (source.length + 2 + (source.length + 6)) (source.length + 1 + 1) source := by
    -- The limit that is used is already that of the source.
    have reader : { Reader.ofString source with limit := source.length + 1 + 1 }
        = Reader.ofString source := by
      simp only [Reader.ofString, String.length_toList]
    rw [parse, deep]
    unfold parseWithin parseBounded
    rewrite [reader]
    generalize Parser.program _ _ = run
    cases run <;> rfl
  rw [bounded, (parseBounded_settled source (source.length + 6) 1).1]

/-- Reading gives a program or a syntax error: it never runs out of depth, and never looks behind the
tokens that it has. -/
theorem parse_ends (source : String) :
    (∃ parsed, parse source = .ok parsed) ∨ ∃ error, parse source = .error (.malformed error) := by
  rw [parse_eq_parseBounded]
  exact (parseBounded_settled source 0 0).2

/-- Reading gives a program or a syntax error on every source. A depth that the length of the source
bounds is enough, and longer loops are not needed either: with any more of both the result is the
same. Every round of a loop takes a token or is the last. -/
theorem parse_terminates (source : String) :
    ((∃ parsed, parse source = .ok parsed) ∨ ∃ error, parse source = .error (.malformed error))
      ∧ (∀ deeper longer, parseBounded (source.length + 2 + deeper) (source.length + 1 + longer) source
          = parse source)
      ∧ ∀ depth, (Parser.grammar depth).Progresses := by
  refine ⟨parse_ends source, fun deeper longer => ?_, Parser.grammar_progresses⟩
  rw [parse_eq_parseBounded]
  exact (parseBounded_settled source deeper longer).1

end Downlevel
