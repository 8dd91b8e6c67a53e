import Downlevel.Json
import Downlevel.Options

/-! Options and targets as JSON. Fields may be left out, and unknown ones are ignored. -/

namespace Downlevel

namespace Json

/-- The value of a field that occurs at most once. -/
def field? (name : String) (fields : List (String × Json)) : Option (Option Json) :=
  match fields.filter (·.1 = name) with
  | [] => some none
  | [(_, value)] => some (some value)
  | _ => none

/-- The values of the named fields of an object. An array gives them in order, and may end early. -/
def namedFields? (names : List String) : Json → Option (List (Option Json))
  | .object fields => names.mapM fun name => field? name fields
  | .array items =>
    if names.length < items.length then none
    else some (items.map some ++ List.replicate (names.length - items.length) none)
  | _ => none

/-- A text. -/
def text? : Json → Option String
  | .string value => some value
  | _ => none

/-- A truth value. -/
def bool? : Json → Option Bool
  | .bool value => some value
  | _ => none

/-- The name of a choice, written as a text or as the only field of an object, which holds
nothing. -/
def choice? : Json → Option String
  | .string name => some name
  | .object [(name, .null)] => some name
  | _ => none

/-- Reads a field, or takes the default in its absence. -/
def orDefault {α : Type} (read : Json → Option α) (default : α) : Option Json → Option α
  | some value => read value
  | none => some default

end Json

/-- A set of features as an array of their names. -/
def Feature.listOfJson? : Json → Option (List Feature)
  | .array items => items.mapM fun item => item.choice? >>= Feature.ofName?
  | _ => none

/-- A target as JSON. -/
def Target.ofJson? (json : Json) : Option Target := do
  let defaults : Target := {}
  match ← json.namedFields? ["version", "unsupported", "supported"] with
  | [edition, unsupported, supported] =>
    return {
      edition := ← Json.orDefault (·.choice? >>= Edition.ofName?) defaults.edition edition
      unsupported := ← Json.orDefault Feature.listOfJson? defaults.unsupported unsupported
      supported := ← Json.orDefault Feature.listOfJson? defaults.supported supported }
  | _ => none

/-- Options as JSON. -/
def Options.ofJson? (json : Json) : Option Options := do
  let defaults : Options := {}
  let names := ["target", "param_purity", "use_define_for_class_fields", "file_stem"]
  match ← json.namedFields? names with
  | [target, purity, defines, stem] =>
    return {
      target := ← Json.orDefault Target.ofJson? defaults.target target
      paramPurity :=
        ← Json.orDefault (·.choice? >>= ParamPurity.ofName?) defaults.paramPurity purity
      definesFields := ← Json.orDefault Json.bool? defaults.definesFields defines
      fileStem := ← Json.orDefault Json.text? defaults.fileStem stem }
  | _ => none

end Downlevel
