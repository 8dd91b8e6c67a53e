import Downlevel.CommandLine.Arguments
import Downlevel.CommandLine.Surroundings
import Downlevel.Json.Parse
import Downlevel.Options.Json
import Downlevel.Printer
import Downlevel.Source
import Downlevel.Text.Utf8
import Downlevel.Tree.Json

/-! A run of the program: arguments, options, input, output and messages, in this order. -/

namespace Downlevel.CommandLine

/-- Why the options of a run cannot be told. -/
inductive ConfigError
  | unreadable (path : String) (error : FileError)
  | invalid (path : String)
deriving DecidableEq

/-- What a user is told about a configuration. -/
def ConfigError.message : ConfigError → String
  | .unreadable path error => "failed to read " ++ path ++ ": " ++ error.message
  | .invalid path => "invalid config " ++ path ++ ": not a set of options"

/-- Options that a configuration file holds. -/
def configured (path : String) (content : Except FileError (List UInt8)) :
    Except ConfigError Options :=
  match content with
  | .error error => .error (.unreadable path error)
  | .ok bytes =>
    match Text.decodeUtf8 bytes with
    | .error _ => .error (.unreadable path .notText)
    | .ok text =>
      match Json.parse? text >>= Options.ofJson? with
      | some options => .ok options
      | none => .error (.invalid path)

/-- A target with features taken away and added. What is said last about a feature counts. -/
def Arguments.adjust (arguments : Arguments) (target : Target) : Target where
  edition := arguments.edition.getD target.edition
  unsupported := (target.unsupported ++ arguments.unsupported).filter (· ∉ arguments.supported)
  supported :=
    target.supported.filter (· ∉ arguments.unsupported) ++ arguments.supported

/-- Options with what the arguments say on top. A stem that was not chosen comes from the input. -/
def Arguments.override (arguments : Arguments) (options : Options) : Options where
  target := arguments.adjust options.target
  paramPurity := options.paramPurity
  definesFields := options.definesFields && !arguments.assignsFields
  fileStem :=
    if options.fileStem = ({} : Options).fileStem then
      (arguments.input.bind fileStem?).getD options.fileStem
    else options.fileStem

/-- The options of a run: the configuration if there is one, then the arguments on top. -/
def Arguments.options {m : Type → Type} [Monad m] (arguments : Arguments)
    (surroundings : Surroundings m) : m (Except ConfigError Options) := do
  match arguments.config with
  | none => return .ok (arguments.override {})
  | some path =>
    let content ← surroundings.read (some path)
    return (configured path content).map arguments.override

/-- How a run ends: its status and what it tells the user. -/
structure Outcome where
  status : Nat := 0
  messages : String := ""
deriving DecidableEq

/-- A run that ends with an error. -/
def Outcome.failed (message : String) : Outcome :=
  ⟨1, "error: " ++ message ++ "\n"⟩

/-- A diagnostic as it is shown for a run. -/
def shown (diagnostic : Diagnostic) (file source : String) : String :=
  (diagnostic.render? file source).getD ""

/-- How a run without a result ends. -/
def SourceFailure.outcome (failure : SourceFailure) (file source : String) : Outcome :=
  match failure with
  | .unreadable (.malformed error) => ⟨1, shown error.diagnostic file source⟩
  | .unreadable .exhausted => ⟨101, "error: the input is nested too deeply\n"⟩
  | .stuck _ => ⟨101, "error: the input cannot be lowered\n"⟩

/-- How a run with a result ends. Errors are told and do not keep the result back. -/
def reportsOutcome (reports : List Report) (file source : String) : Outcome where
  status := if reports.any (·.diagnostic.isError) then 1 else 0
  messages := String.join (reports.map fun report => shown report.diagnostic file source)

/-- The text that a run writes. -/
def Arguments.outputText (arguments : Arguments) (program : Program) : String :=
  if arguments.printsTree then program.toJson.pretty ++ "\n" else program.print

/-- Lowers the input as the arguments say. -/
def Arguments.run {m : Type → Type} [Monad m] (arguments : Arguments)
    (surroundings : Surroundings m) : m Outcome := do
  match ← arguments.options surroundings with
  | .error error => return .failed error.message
  | .ok options =>
    let file := arguments.input.getD "stdin"
    match ← surroundings.read arguments.input with
    | .error error => return .failed ("failed to read " ++ file ++ ": " ++ error.message)
    | .ok bytes =>
      match Text.decodeUtf8 bytes with
      | .error fault => return .failed ("input is not valid UTF-8: " ++ fault.message)
      | .ok source =>
        match lowerSource source options with
        | .error failure => return SourceFailure.outcome failure file source
        | .ok result =>
          match ← surroundings.write arguments.output (arguments.outputText result.program) with
          | .error error =>
            let name := arguments.output.getD "stdout"
            return .failed ("failed to write " ++ name ++ ": " ++ error.message)
          | .ok () => return reportsOutcome result.reports file source

/-- A run with the given arguments. -/
def run {m : Type → Type} [Monad m] (surroundings : Surroundings m) (arguments : List String) :
    m Outcome := do
  match Arguments.parse arguments with
  | .ok arguments => arguments.run surroundings
  | .error .helpRequested =>
    let _ ← surroundings.write none helpText
    return {}
  | .error error => return ⟨2, "error: " ++ error.message ++ "\n"⟩

end Downlevel.CommandLine
