import Downlevel.Target
import Downlevel.Text.Printable

/-! Targets as users spell them, and what they are told about a spelling that names nothing. -/

namespace Downlevel

/-- Why a text names no part of a target. -/
inductive SpellingError
  | unknownEdition (text : String)
  | unknownFeature (text : String)
deriving DecidableEq

/-- What a user is told about a wrong spelling. -/
def SpellingError.message : SpellingError → String
  | .unknownEdition text =>
    "unknown target " ++ Text.spell text ++ "; expected es5, es6, es2015 to es2022, or esnext"
  | .unknownFeature text => "unknown feature " ++ Text.spell text

/-- The edition that a user spells. -/
def Edition.ofSpelling (text : String) : Except SpellingError Edition :=
  match Edition.ofText? text with
  | some edition => .ok edition
  | none => .error (.unknownEdition text)

/-- The feature that a user spells. -/
def Feature.ofSpelling (text : String) : Except SpellingError Feature :=
  match Feature.ofName? text with
  | some feature => .ok feature
  | none => .error (.unknownFeature text)

/-- The target that a user spells. The edition is looked at first, then what is taken away. -/
def Target.ofSpelling (edition : String) (unsupported supported : List String) :
    Except SpellingError Target := do
  let edition ← Edition.ofSpelling edition
  let unsupported ← unsupported.mapM Feature.ofSpelling
  let supported ← supported.mapM Feature.ofSpelling
  return { edition, unsupported, supported }

end Downlevel
