import Downlevel.Span

/-! Diagnostics are problems shown to the user; reporting one never stops the work. -/

namespace Downlevel

/-- How grave a diagnostic is. -/
inductive Severity
  | error
  | warning
  | note
deriving DecidableEq

/-- The word a severity is shown as. -/
def Severity.word : Severity → String
  | .error => "error"
  | .warning => "warning"
  | .note => "note"

/-- A further place that a diagnostic points to. -/
structure Label where
  span : Span
  message : String
  isPrimary : Bool := false
deriving DecidableEq

/-- A problem with a stable code, shown at its primary span. -/
structure Diagnostic where
  code : String
  severity : Severity := .error
  message : String
  primary : Span
  labels : List Label := []
  notes : List String := []
deriving DecidableEq

namespace Diagnostic

/-- Only errors make a run fail. -/
def isError (diagnostic : Diagnostic) : Bool :=
  diagnostic.severity == .error

/-- The first line of every form of a diagnostic. -/
def headline (diagnostic : Diagnostic) : String :=
  diagnostic.severity.word ++ "[" ++ diagnostic.code ++ "]: " ++ diagnostic.message

/-- The short form: the headline and one line for each note. -/
def summary (diagnostic : Diagnostic) : String :=
  diagnostic.notes.foldl (fun text note => text ++ "\nnote: " ++ note) diagnostic.headline

/-- A line and a column as shown to the user. -/
def showPosition (position : Span.Position) : String :=
  toString position.line ++ ":" ++ toString position.column

/-- The full form, with positions in the named file. There is none when a span splits a
character. -/
def render? (diagnostic : Diagnostic) (file source : String) : Option String := do
  let primary ← diagnostic.primary.position? source
  let labels ← diagnostic.labels.mapM fun label => do
    let position ← label.span.position? source
    return "  | " ++ showPosition position ++ ": " ++ label.message ++ "\n"
  let notes := diagnostic.notes.map fun note => "  = note: " ++ note ++ "\n"
  return diagnostic.headline ++ "\n --> " ++ file ++ ":" ++ showPosition primary ++ "\n"
    ++ String.join labels ++ String.join notes

end Diagnostic

end Downlevel
