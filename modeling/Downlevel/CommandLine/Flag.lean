/-! The flags of the command line. -/

namespace Downlevel.CommandLine

/-- How many values a flag takes. -/
inductive Arity
  | none
  | one
  /-- At least one; a comma parts values as well. -/
  | many
deriving DecidableEq

/-- A flag of the command line. -/
inductive Flag
  | input
  | output
  | target
  | unsupported
  | supported
  | config
  | assignSemantics
  | ast
  | logLevel
  | logJson
  | help
deriving DecidableEq

namespace Flag

/-- All flags, in the order in which the help shows them. -/
def all : List Flag :=
  [.input, .output, .target, .unsupported, .supported, .config, .assignSemantics, .ast, .logLevel,
    .logJson, .help]

/-- The name that stands behind two dashes. -/
def long : Flag → String
  | .input => "input"
  | .output => "output"
  | .target => "target"
  | .unsupported => "unsupported"
  | .supported => "supported"
  | .config => "config"
  | .assignSemantics => "assign-semantics"
  | .ast => "ast"
  | .logLevel => "log-level"
  | .logJson => "log-json"
  | .help => "help"

/-- The letter that stands behind one dash. -/
def short? : Flag → Option Char
  | .input => some 'i'
  | .output => some 'o'
  | .target => some 't'
  | .help => some 'h'
  | _ => none

/-- How many values the flag takes. -/
def arity : Flag → Arity
  | .input | .output | .target | .config | .logLevel => .one
  | .unsupported | .supported => .many
  | .assignSemantics | .ast | .logJson | .help => .none

/-- What the flag is for. -/
def purpose : Flag → String
  | .input => "File to lower; omit for stdin"
  | .output => "Output destination; omit for stdout"
  | .target => "Edition the output must run in"
  | .unsupported => "Features to lower even if the target has them, e.g. `optional-chain`"
  | .supported => "Features to keep even if the target lacks them"
  | .config => "JSON file with lowering options. Flags override its values"
  | .assignSemantics => "Assign class fields instead of defining them"
  | .ast => "Print the lowered syntax tree as JSON instead of code"
  | .logLevel => "Log filter [default: warn]"
  | .logJson => "Write logs as JSON lines"
  | .help => "Print help"

/-- The flag of the given name. -/
def ofLong? (name : String) : Option Flag :=
  all.find? (·.long = name)

/-- The flag of the given letter. -/
def ofShort? (letter : Char) : Option Flag :=
  all.find? (·.short? = some letter)

/-- The flag as a user writes it. -/
def text (flag : Flag) : String :=
  "--" ++ flag.long

/-- The line of the help about the flag. -/
def helpLine (flag : Flag) : String :=
  let short := match flag.short? with
    | some letter => "-" ++ String.singleton letter ++ ", "
    | none => "    "
  let value := match flag.arity with
    | .none => ""
    | .one => " <VALUE>"
    | .many => " <VALUE>..."
  "  " ++ short ++ flag.text ++ value ++ "\n          " ++ flag.purpose ++ "\n"

end Flag

/-- What a user who asks for help is told. -/
def helpText : String :=
  "Lowers modern JavaScript syntax for older environments\n\n"
    ++ "Usage: downlevel [OPTIONS]\n\nOptions:\n"
    ++ String.join (Flag.all.map Flag.helpLine)

end Downlevel.CommandLine
