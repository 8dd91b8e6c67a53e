import Downlevel.Lowering
import Downlevel.Parser
import Downlevel.Scope.Survey

/-! From a source text to the lowered program. -/

namespace Downlevel

/-- Why a source text has no lowered form. -/
inductive SourceFailure
  /-- The text is not a program. -/
  | unreadable (failure : ParseFailure)
  /-- The program can be read and not lowered. -/
  | stuck (fault : Lowering.Fault)

/-- Reads a program and lowers it for the target. What reading has to tell comes first. -/
def lowerSource (source : String) (options : Options) : Except SourceFailure Parsed :=
  match parse source with
  | .error failure => .error (.unreadable failure)
  | .ok parsed =>
    match parsed.program.lower options parsed.program.scopes with
    | .error fault => .error (.stuck fault)
    | .ok lowered => .ok ⟨lowered.program, parsed.reports ++ lowered.reports⟩

end Downlevel
