import Downlevel.Parser.Expression
import Downlevel.Parser.Statement

/-! Reading a source file: the rules of the grammar tied together. -/

namespace Downlevel

namespace Parser

/-- The grammar with at most the given depth of rules inside one another. -/
def grammar : (depth : Nat) → Grammar
  | 0 =>
    { expr := fun _ _ _ => throw .exhausted
      operand := fun _ _ => throw .exhausted
      suffix := fun _ _ _ _ => throw .exhausted
      pattern := fun _ => throw .exhausted
      stmt := fun _ => throw .exhausted }
  | depth + 1 =>
    { expr := fun context level stops => (grammar depth).exprRule context level stops
      operand := fun context stops => (grammar depth).operandRule context stops
      suffix := fun context left level stops => (grammar depth).suffixRule context left level stops
      pattern := fun context => (grammar depth).patternRule context
      stmt := fun context => (grammar depth).stmtRule context }

/-- A whole source file. -/
def program (grammar : Grammar) : Parser Program := do
  let body ← grammar.stmtList {} [.eof]
  let _ ← require .eof
  return ⟨body⟩

end Parser

/-- A program and what there is to tell about it. -/
structure Parsed where
  program : Program
  reports : List Report

/-- More depth than the rules can reach in a source: every second rule inside another one takes a
token, and every token but the last holds a character. -/
def parseDepth (source : String) : Nat :=
  2 * source.toList.length + 8

/-- Reads a program from its source with at most the given depth of rules inside one another. -/
def parseWithin (depth : Nat) (source : String) : Except ParseFailure Parsed :=
  match Parser.program (Parser.grammar depth) (Reader.ofString source) with
  | .ok program reader => .ok ⟨program, reader.reports⟩
  | .error failure _ => .error failure

/-- Reads a program from its source. -/
def parse (source : String) : Except ParseFailure Parsed :=
  parseWithin (parseDepth source) source

end Downlevel
