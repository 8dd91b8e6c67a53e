import Downlevel.Target.Feature

/-! The environment that a program has to run in. -/

namespace Downlevel

/-- An edition, with single features taken away or added. -/
structure Target where
  edition : Edition := .esNext
  unsupported : List Feature := []
  supported : List Feature := []
deriving DecidableEq, Inhabited

namespace Target

/-- Whether the environment has the feature. What is taken away wins over what is added, and both
win over the edition. -/
def supports (target : Target) (feature : Feature) : Bool :=
  if feature ∈ target.unsupported then false
  else if feature ∈ target.supported then true
  else feature.edition.rank ≤ target.edition.rank

/-- The features taken away, each once and in order. -/
def unsupportedFeatures (target : Target) : List Feature :=
  Feature.all.filter (· ∈ target.unsupported)

/-- The features added, each once and in order. -/
def supportedFeatures (target : Target) : List Feature :=
  Feature.all.filter (· ∈ target.supported)

/-- The short text of a target, such as `es2020 -bigint +arrow`. -/
def text (target : Target) : String :=
  target.edition.name ++ String.join (target.unsupportedFeatures.map (" -" ++ ·.name))
    ++ String.join (target.supportedFeatures.map (" +" ++ ·.name))

end Target

end Downlevel
