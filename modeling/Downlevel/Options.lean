import Downlevel.Target

/-! What a user can choose about a run. -/

namespace Downlevel

/-- Which default values of parameters count as harmless, so that an asynchronous function may
evaluate them before its promise exists. -/
inductive ParamPurity
  /-- Literals, names, functions, and what signs and brackets make of these. -/
  | syntactic
  /-- Literals only. -/
  | conservative
deriving DecidableEq, Inhabited

namespace ParamPurity

/-- The name of a choice. -/
def name : ParamPurity → String
  | .syntactic => "syntactic"
  | .conservative => "conservative"

/-- The choice of the given name. -/
def ofName? (name : String) : Option ParamPurity :=
  [syntactic, conservative].find? (·.name = name)

end ParamPurity

/-- How to lower a file. -/
structure Options where
  target : Target := {}
  paramPurity : ParamPurity := .syntactic
  /-- Class fields are defined as properties and not assigned. -/
  definesFields : Bool := true
  /-- What a class without a name that is the default export is named after. -/
  fileStem : String := "stdin"
deriving DecidableEq, Inhabited

end Downlevel
