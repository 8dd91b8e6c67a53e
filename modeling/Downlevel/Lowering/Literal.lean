import Downlevel.Lowering.Chain
import Downlevel.Lowering.Function
import Downlevel.Text.Escape

/-! Literals that a target may lack: large integers, templates and object spreads. -/

namespace Downlevel

namespace Lowering

/-- Digits without the separators between them. -/
def withoutSeparators (digits : String) : List Char :=
  digits.toList.filter (· != '_')

/-- A large integer as a call. -/
def bigintCall (span : Span) (digits : String) : Expr :=
  let value := Expr.str span (String.ofList (withoutSeparators digits))
  .of span (.call .plain true (.id span "BigInt") [⟨false, value⟩])

/-- The value of the digits of a large integer, in any of the notations that there are. -/
def bigintValue? (digits : String) : Option Nat :=
  let number? (radix : Nat) (body : List Char) : Option Nat :=
    if body.isEmpty then none else Text.digitsValue? radix 0 body
  match withoutSeparators digits with
  | '0' :: 'x' :: rest | '0' :: 'X' :: rest => number? 16 rest
  | '0' :: 'o' :: rest | '0' :: 'O' :: rest => number? 8 rest
  | '0' :: 'b' :: rest | '0' :: 'B' :: rest => number? 2 rest
  | all => number? 10 all

/-- Lowers a key. A large integer becomes the string of its decimal digits. -/
def lowerKey : KeyForms → Lower Key
  | .computed value => return .computed (← rooted value)
  | .direct name => do
    if name.kind = .bigint ∧ (← lacks .bigint) then
      match bigintValue? name.text with
      | some value => return .direct { name with text := toString value, kind := .string }
      | none => return .direct name
    return .direct name

/-- Raw template text, in which all line ends are the same. -/
def normalizeLines : List Char → List Char
  | '\r' :: '\n' :: rest => '\n' :: normalizeLines rest
  | '\r' :: rest => '\n' :: normalizeLines rest
  | c :: rest => c :: normalizeLines rest
  | [] => []

/-- The raw text of a part of a template. -/
def rawText (text : String) : String :=
  String.ofList (normalizeLines text.toList)

/-- The value of raw text, or nothing when an escape is malformed. -/
def cooked (raw : String) : Lower (Option String) :=
  match Text.cook raw with
  | .ok value => return value
  | .error _ => throw .misread

/-- The value of a part of a template; text that cannot be decoded stands for itself. -/
def partValue (span : Span) (text : String) : Lower Expr := do
  let raw := rawText text
  return .str span ((← cooked raw).getD raw)

/-- The substitutions of a template and the texts that are not empty, in order. -/
def operands (span : Span) : List TemplateSpan → Lower (List Expr)
  | [] => return []
  | part :: rest => do
    let behind ← if part.text.isEmpty then pure [] else List.singleton <$> partValue span part.text
    return part.value :: behind ++ (← operands span rest)

/-- A template as a sum that starts with a string. -/
def templateToSum (span : Span) (head : String) (spans : List TemplateSpan) : Lower Expr := do
  let first ← partValue span head
  return (← operands span spans).foldl (.binary span .addition) first

/-- The strings of a template, decoded and, where that makes a difference, also raw. What cannot be
decoded has no value. -/
def templateStrings (span : Span) (texts : List String) : Lower (List Expr) := do
  let raws := texts.map rawText
  let values ← raws.mapM cooked
  let decoded := .array span (values.map fun value => (value.map (.str span)).getD (.undefined span))
  if values = raws.map some then return [decoded]
  else return [decoded, .array span (raws.map (.str span))]

/-- A tagged template as a call. Its strings are made once for each place, in a name of the
module. -/
def taggedToCall (span : Span) (tag : Expr) (receiver : Option Expr) (head : String)
    (spans : List TemplateSpan) : Lower Expr := do
  let made := .helper span "__template" (← templateStrings span (head :: spans.map (·.text)))
  let name ← allocIn 0 none none true
  let strings := .binary span .logicalOr (.id span name) (.assign span (.id span name) made)
  let args := strings :: spans.map (·.value)
  match receiver with
  | some receiver => return .callWithThis span tag receiver (args.map (⟨false, ·⟩))
  | none => return .call span tag args

/-- A tagged template. -/
def taggedTemplate (origin : Origin) (tag : ExprForms) (head : String)
    (spans : Lower (List TemplateSpan)) : Lower Expr := do
  let (tag, receiver) ← calledExpr tag
  let spans ← spans
  if receiver.isNone ∧ (← supports .templateLiteral) then
    return ⟨origin, .tagged tag head spans⟩
  taggedToCall origin.span tag receiver head spans

/-- The call that adds members to those made so far. The first ones are an object literal. -/
def addMembers (span : Span) (sofar : Option Expr) (members : List ObjectMember) : Expr :=
  let literal := Expr.of span (.object members)
  match sofar with
  | none => literal
  | some sofar => .helper span "__spreadProps" [sofar, literal]

/-- Members from the first spread on, added to what was made so far; those without a spread are
collected first. -/
def spreadMembers (span : Span) :
    (sofar : Option Expr) → (collected : List ObjectMember) → List ObjectMember → Expr
  | sofar, collected, .spread _ value :: rest =>
    let base := match sofar with
      | some sofar => if collected.isEmpty then sofar else addMembers span (some sofar) collected
      | none => addMembers span none collected
    spreadMembers span (some (.helper span "__spreadValues" [base, value])) [] rest
  | sofar, collected, member :: rest => spreadMembers span sofar (collected ++ [member]) rest
  | some sofar, [], [] => sofar
  | sofar, collected, [] => addMembers span sofar collected

/-- Whether a member is a spread. -/
def isSpread : ObjectMember → Bool
  | .spread .. => true
  | _ => false

/-- An object literal whose members are lowered. -/
def objectLiteral (origin : Origin) (members : List ObjectMember) : Lower Expr := do
  if members.any isSpread ∧ (← lacks .objectRestSpread) then
    return spreadMembers origin.span none [] members
  return ⟨origin, .object members⟩

/-- A member of an object literal that stands for itself. -/
def shorthandMember (span : Span) (name : String) : Lower ObjectMember := do
  if name = "arguments" then
    if let some other ← resolveArguments then
      return .valued span (.direct ⟨span, name, .identifier⟩) (.field (some (.id span other)))
  return .shorthand span name

end Lowering

end Downlevel
