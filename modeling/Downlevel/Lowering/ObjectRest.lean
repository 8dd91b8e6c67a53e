import Downlevel.Lowering.State

/-! The rest of an object pattern as a call that leaves out the keys that were picked. -/

namespace Downlevel

namespace Lowering

mutual

/-- Whether a pattern takes the rest of an object anywhere. -/
def hasObjectRest : Pattern → Bool
  | .object _ properties rest =>
    rest.isSome || propertiesHaveRest properties || optionHasRest rest
  | .array _ slots rest => slotsHaveRest slots || optionHasRest rest
  | .id .. | .target .. => false

/-- The same for a pattern that may be absent. -/
def optionHasRest : Option Pattern → Bool
  | none => false
  | some pattern => hasObjectRest pattern

/-- The same for an element of an array pattern. -/
def slotHasRest : PatternSlot → Bool
  | .hole => false
  | .slot target _ => hasObjectRest target

/-- The same for the elements of an array pattern. -/
def slotsHaveRest : List PatternSlot → Bool
  | [] => false
  | slot :: rest => slotHasRest slot || slotsHaveRest rest

/-- The same for a property of an object pattern. -/
def propertyHasRest : PatternProperty → Bool
  | ⟨_, _, target, _, _⟩ => hasObjectRest target

/-- The same for the properties of an object pattern. -/
def propertiesHaveRest : List PatternProperty → Bool
  | [] => false
  | property :: rest => propertyHasRest property || propertiesHaveRest rest

end

/-- The keys to leave out of the rest. A computed key that cannot be repeated is evaluated in the
pattern into a made-up name. -/
def restKeys : List PatternProperty → Lower (List PatternProperty × List Expr)
  | [] => return ([], [])
  | property :: more => do
    let (property, key) ← match property.key with
      | .direct name => pure (property, .str property.span name.text)
      | .computed value =>
        match value.shape with
        | .str _ | .num _ => pure (property, value)
        | _ => do
          let (first, again) ← capture value
          pure ({ property with key := .computed first },
            .helper property.span "__restKey" [again])
    let (properties, keys) ← restKeys more
    return (property :: properties, key :: keys)

/-- An object pattern without its rest, and the rest, each with its value. The source is evaluated
twice. -/
def splitRest (span : Span) (properties : List PatternProperty) (rest : Pattern) (source : Expr) :
    Lower (List (Pattern × Expr)) := do
  let (picked, keys) ← restKeys properties
  let taken := .helper span "__objRest" [source, .array span keys]
  if picked.isEmpty then return [(rest, taken)]
  return [(.object span picked none, source), (rest, taken)]

/-- Whether a pattern takes the rest of an object below its root. -/
def hasNestedRest (properties : List PatternProperty) (rest : Pattern) : Bool :=
  propertiesHaveRest properties || hasObjectRest rest

/-- Splits the rest off an assigned pattern, if there is one at its root and nowhere else. The value
of the assignment stays the source. -/
def splitAssignedRest? (span : Span) (properties : List PatternProperty) (rest : Option Pattern)
    (value : Expr) : Lower (Option Expr) := do
  match rest with
  | some rest =>
    if hasNestedRest properties rest then
      unsupported span .nestedObjectRest
      return none
    let name ← alloc
    let source := Expr.id span name
    let parts ← splitRest span properties rest source
    let assigned := parts.map fun (target, value) => .assign span target.toExpr value
    return some (.sequence (.assign span source value) (assigned ++ [source]))
  | none =>
    if propertiesHaveRest properties then unsupported span .nestedObjectRest
    return none

/-- Splits the rest off a declared pattern, if there is one. -/
def splitDeclarator (declarator : Declarator) : Lower (List Declarator) := do
  let span := declarator.pattern.span
  match declarator with
  | ⟨.object _ properties (some rest), some init⟩ =>
    if hasNestedRest properties rest then
      unsupported span .nestedObjectRest
      return [declarator]
    let isName := match init.shape with
      | .id _ => true
      | _ => false
    -- A source that is only read by the rest is evaluated once anyway.
    if properties.isEmpty || isName then
      let parts ← splitRest span properties rest init
      return parts.map fun (target, value) => ⟨target, some value⟩
    let name ← allocBound
    let parts ← splitRest span properties rest (.id span name)
    return .ofName span name (some init) :: parts.map fun (target, value) => ⟨target, some value⟩
  | _ =>
    if hasObjectRest declarator.pattern then unsupported span .nestedObjectRest
    return [declarator]

/-- Splits the rest off all declared patterns that have one. -/
def splitDeclarators (declarators : List Declarator) : Lower (List Declarator) :=
  return (← declarators.mapM splitDeclarator).flatten

/-- A parameter without the rest of its pattern, and what the body has to declare instead. -/
def splitParam (param : Param) : Lower (Param × Option Declarator) := do
  match param.pattern with
  | .object _ properties (some rest) =>
    if hasNestedRest properties rest then
      unsupported param.span .nestedObjectRest
      return (param, none)
    let name ← allocBound
    return ({ param with pattern := .id param.span name },
      some ⟨param.pattern, some (.id param.span name)⟩)
  | pattern =>
    if hasObjectRest pattern then unsupported param.span .nestedObjectRest
    return (param, none)

/-- Parameters without the rests of their patterns, and the statement that declares those in the
body. -/
def splitParams (params : List Param) : Lower (List Param × Option Stmt) := do
  let split ← params.mapM splitParam
  match split.filterMap (·.2) with
  | [] => return (params, none)
  | first :: more =>
    let declarators ← splitDeclarators (first :: more)
    return (split.map (·.1), some ⟨first.pattern.span, .varDecl false .varDecl declarators⟩)

/-- Tells the user about the rest of an object in a binding that leaves no place to split it. -/
def unsplittableRest (pattern : Pattern) : Lower Unit := do
  if hasObjectRest pattern then
    require .objectRestSpread pattern.span .loopOrCatchObjectRest

end Lowering

end Downlevel
