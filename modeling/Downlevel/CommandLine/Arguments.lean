import Downlevel.CommandLine.Flag
import Downlevel.Target.Spelling

/-! Arguments of the command line. -/

namespace Downlevel.CommandLine

/-- What a user asks for. -/
structure Arguments where
  input : Option String := none
  output : Option String := none
  edition : Option Edition := none
  unsupported : List Feature := []
  supported : List Feature := []
  config : Option String := none
  assignsFields : Bool := false
  printsTree : Bool := false
  logLevel : String := "warn"
  logsJson : Bool := false
deriving DecidableEq

/-- Why arguments ask for no run. -/
inductive UsageError
  | unknownArgument (argument : String)
  | repeatedFlag (flag : Flag)
  | missingValue (flag : Flag)
  | wrongValue (flag : Flag) (error : SpellingError)
  | unexpectedValue (flag : Flag) (value : String)
  | helpRequested
deriving DecidableEq

/-- What a user is told about wrong arguments. -/
def UsageError.message : UsageError → String
  | .unknownArgument argument => "unexpected argument '" ++ argument ++ "' found"
  | .repeatedFlag flag => "the argument '" ++ flag.text ++ "' cannot be used multiple times"
  | .missingValue flag => "a value is required for '" ++ flag.text ++ "' but none was supplied"
  | .wrongValue flag error => "invalid value for '" ++ flag.text ++ "': " ++ error.message
  | .unexpectedValue flag value =>
    "unexpected value '" ++ value ++ "' for '" ++ flag.text ++ "' found; no more were expected"
  | .helpRequested => helpText

/-- Arguments of which some are read. -/
structure Reading where
  arguments : Arguments := {}
  seen : List Flag := []
  /-- The last flag with the values behind it, as long as it has no effect yet. -/
  pending : Option (Flag × List String) := none

/-- The path that is the value of a flag. -/
def pathValue (flag : Flag) (text : String) : Except UsageError String :=
  if text.isEmpty then .error (.missingValue flag) else .ok text

/-- The features that are the values of a flag. -/
def featureValues (flag : Flag) (texts : List String) : Except UsageError (List Feature) :=
  texts.mapM fun text => (Feature.ofSpelling text).mapError (.wrongValue flag)

/-- The edition that is the value of a flag. -/
def editionValue (flag : Flag) (text : String) : Except UsageError Edition :=
  (Edition.ofSpelling text).mapError (.wrongValue flag)

/-- Arguments with the values of one more flag. -/
def Arguments.set (arguments : Arguments) (flag : Flag) (values : List String) :
    Except UsageError Arguments := do
  match flag with
  | .unsupported =>
    let features ← featureValues flag (values.flatMap (·.splitOn ","))
    return { arguments with unsupported := arguments.unsupported ++ features }
  | .supported =>
    let features ← featureValues flag (values.flatMap (·.splitOn ","))
    return { arguments with supported := arguments.supported ++ features }
  | .assignSemantics => return { arguments with assignsFields := true }
  | .ast => return { arguments with printsTree := true }
  | .logJson => return { arguments with logsJson := true }
  | .help => throw .helpRequested
  | .input => return { arguments with input := some (← pathValue flag (String.join values)) }
  | .output => return { arguments with output := some (← pathValue flag (String.join values)) }
  | .config => return { arguments with config := some (← pathValue flag (String.join values)) }
  | .target => return { arguments with edition := some (← editionValue flag (String.join values)) }
  | .logLevel => return { arguments with logLevel := String.join values }

namespace Reading

/-- Lets a flag have its effect. Only flags with many values may come again. -/
def apply (reading : Reading) (flag : Flag) (values : List String) :
    Except UsageError Reading := do
  if flag.arity ≠ .none && values.isEmpty then throw (.missingValue flag)
  if flag.arity ≠ .many && flag ∈ reading.seen then throw (.repeatedFlag flag)
  return {
    arguments := ← reading.arguments.set flag values
    seen := flag :: reading.seen
    pending := none }

/-- Lets the pending flag have its effect. -/
def settle (reading : Reading) : Except UsageError Reading :=
  match reading.pending with
  | some (flag, values) => reading.apply flag values
  | none => .ok reading

/-- A flag without a value at hand. One that takes values waits for them. -/
def flag (reading : Reading) (flag : Flag) : Except UsageError Reading := do
  let reading ← reading.settle
  if flag.arity = .none then reading.apply flag []
  else return { reading with pending := some (flag, []) }

/-- A flag with a value attached to it. -/
def flagWith (reading : Reading) (flag : Flag) (value : String) : Except UsageError Reading := do
  if flag.arity = .none then throw (.unexpectedValue flag value)
  let reading ← reading.settle
  reading.apply flag [value]

/-- The name of a flag behind two dashes. -/
def longFlag (reading : Reading) (argument : String) (name : List Char) :
    Except UsageError Reading :=
  let long := name.takeWhile (· != '=')
  match Flag.ofLong? (String.ofList long), name.dropWhile (· != '=') with
  | none, _ => .error (.unknownArgument argument)
  | some flag, [] => reading.flag flag
  | some flag, _ :: value => reading.flagWith flag (String.ofList value)

/-- Letters of flags behind one dash. The rest behind the letter of a flag that takes a value is its
value. -/
def shortFlags (reading : Reading) : List Char → Except UsageError Reading
  | [] => .ok reading
  | letter :: rest =>
    match Flag.ofShort? letter with
    | none => .error (.unknownArgument ("-" ++ String.singleton letter))
    | some flag =>
      if flag.arity = .none then do shortFlags (← reading.flag flag) rest
      else
        match rest with
        | [] => reading.flag flag
        | '=' :: value => reading.flagWith flag (String.ofList value)
        | value => reading.flagWith flag (String.ofList value)

/-- An argument that is no flag. It has to be a value of the pending flag. -/
def value (reading : Reading) (argument : String) : Except UsageError Reading :=
  match reading.pending with
  | some (flag, values) =>
    if flag.arity = .many || values.isEmpty then
      .ok { reading with pending := some (flag, values ++ [argument]) }
    else .error (.unknownArgument argument)
  | none => .error (.unknownArgument argument)

/-- One argument. A single dash is a value. -/
def step (reading : Reading) (argument : String) : Except UsageError Reading :=
  match argument.toList with
  | '-' :: '-' :: name => reading.longFlag argument name
  | '-' :: c :: letters => reading.shortFlags (c :: letters)
  | _ => reading.value argument

/-- All arguments in order. Nothing may stand behind two dashes alone. -/
def steps (reading : Reading) : List String → Except UsageError Reading
  | [] => reading.settle
  | "--" :: rest =>
    match rest with
    | [] => reading.settle
    | argument :: _ => .error (.unknownArgument argument)
  | argument :: rest => do steps (← reading.step argument) rest

end Reading

/-- The request that arguments spell. -/
def Arguments.parse (arguments : List String) : Except UsageError Arguments :=
  (Reading.steps {} arguments).map (·.arguments)

end Downlevel.CommandLine
