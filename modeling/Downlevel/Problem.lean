import Downlevel.Diagnostic
import Downlevel.Operator
import Downlevel.Tree

/-! Problems found while reading or lowering a program, apart from how they are shown. -/

namespace Downlevel

/-- A construct that a target may lack and for which no lowered form exists. -/
inductive Construct
  | restArguments
  | defaultArguments
  | destructuring
  | lexicalDeclaration (keyword : DeclKeyword)
  | forOfLoop
  | classes
  | nestedObjectRest
  | loopOrCatchObjectRest
  | fieldsWithoutSuperCall
  | generator
  | asyncFunction
  | forAwaitLoop
deriving DecidableEq

namespace Construct

/-- What a construct is called when it is reported. -/
def text : Construct → String
  | .restArguments => "rest arguments"
  | .defaultArguments => "default arguments"
  | .destructuring => "destructuring"
  | .lexicalDeclaration keyword => keyword.text
  | .forOfLoop => "for-of loops"
  | .classes => "class syntax"
  | .nestedObjectRest => "nested object rest patterns"
  | .loopOrCatchObjectRest => "object rest patterns in loop or catch bindings"
  | .fieldsWithoutSuperCall =>
    "class fields in a constructor without a top-level super call"
  | .generator => "generator functions"
  | .asyncFunction => "async functions"
  | .forAwaitLoop => "for-await loops"

/-- The stable code a construct is reported under. -/
def code : Construct → String
  | .generator => "LJ0101"
  | .asyncFunction => "LJ0102"
  | .forAwaitLoop => "LJ0103"
  | _ => "LJ0100"

end Construct

/-- Something to tell the user about a program that could be read. -/
inductive Problem
  /-- Nullish coalescing meets a logical operator without parentheses between them. -/
  | ambiguousNullish (later earlier : Operator)
  | unsupported (construct : Construct)
  | topLevelAwait
deriving DecidableEq

/-- A problem at its place. -/
structure Report where
  problem : Problem
  span : Span
deriving DecidableEq

namespace Problem

/-- The stable code of a problem. -/
def code : Problem → String
  | .ambiguousNullish .. => "LJ0001"
  | .unsupported construct => construct.code
  | .topLevelAwait => "LJ0104"

/-- What a problem says to the user. -/
def message : Problem → String
  | .ambiguousNullish later earlier =>
    "Cannot use \"" ++ later.text ++ "\" with \"" ++ earlier.text ++ "\" without parentheses"
  | .unsupported construct =>
    "Transforming " ++ construct.text
      ++ " to the configured target environment is not supported yet"
  | .topLevelAwait => "Top-level await is not available in the configured target environment"

/-- What else there is to say about a problem. -/
def notes : Problem → List String
  | .ambiguousNullish later earlier =>
    let first := earlier.text
    let second := later.text
    ["Expressions of the form \"x " ++ first ++ " y " ++ second
      ++ " z\" are not allowed in JavaScript. You must disambiguate between \"(x " ++ first
      ++ " y) " ++ second ++ " z\" and \"x " ++ first ++ " (y " ++ second
      ++ " z)\" by adding parentheses."]
  | .unsupported _ | .topLevelAwait => []

end Problem

/-- A report as it is shown to the user. -/
def Report.diagnostic (report : Report) : Diagnostic where
  code := report.problem.code
  message := report.problem.message
  primary := report.span
  notes := report.problem.notes

end Downlevel
