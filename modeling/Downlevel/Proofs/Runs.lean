import Downlevel.Source

/-! Running the parser and the lowering on a source text, for what can be said about a single run. -/

namespace Downlevel

/-- The source can be read, and what was read passes the test. -/
def readsTo (source : String) (test : Parsed → Bool) : Bool :=
  match parse source with
  | .error _ => false
  | .ok parsed => test parsed

/-- A source that reads has a program. -/
theorem exists_of_readsTo {source : String} {test : Parsed → Bool}
    (reads : readsTo source test = true) :
    ∃ parsed, parse source = .ok parsed ∧ test parsed = true := by
  unfold readsTo at reads
  split at reads
  · cases reads
  · rename_i parsed read
    exact ⟨parsed, read, reads⟩

/-- A run that succeeds has a result. -/
theorem exists_of_isOk {ε α : Type} {run : Except ε α} (isOk : run.isOk = true) :
    ∃ result, run = .ok result := by
  cases run with
  | ok result => exact ⟨result, rfl⟩
  | error => cases isOk

/-- The source can be read and lowered, and what comes out passes the test. -/
def lowersTo (source : String) (options : Options) (test : Lowered → Bool) : Bool :=
  match parse source with
  | .error _ => false
  | .ok parsed =>
    match parsed.program.lower options parsed.program.scopes with
    | .error _ => false
    | .ok lowered => test lowered

/-- A source that lowers has a program and what that becomes. -/
theorem exists_of_lowersTo {source : String} {options : Options} {test : Lowered → Bool}
    (lowers : lowersTo source options test = true) :
    ∃ parsed lowered, parse source = .ok parsed
      ∧ parsed.program.lower options parsed.program.scopes = .ok lowered ∧ test lowered = true := by
  -- Both the reading and the lowering can fail, and then the test is not even made.
  unfold lowersTo at lowers
  split at lowers
  · cases lowers
  · rename_i parsed read
    split at lowers
    · cases lowers
    · rename_i lowered run
      exact ⟨parsed, lowered, read, run, lowers⟩

end Downlevel
