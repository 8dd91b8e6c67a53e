import Downlevel.Lowering.Private
import Downlevel.Lowering.Receiver

/-! Optional chains become conditionals that test the base once, and callees keep the receiver that
they are called on. -/

namespace Downlevel

namespace Lowering

/-- What a chain is used for. -/
inductive ChainMode
  | value
  /-- The operand of `delete`, which is true when the chain is cut short. -/
  | delete
  /-- A callee, which needs the object of its last access as a receiver. -/
  | callee
deriving DecidableEq

/-- A link of a chain whose parts are lowered. -/
inductive Link
  | member (span : Span) (name : String)
  | computed (span : Span) (key : Expr)
  | call (span : Span) (isPure : Bool) (args : List Arg)

/-- Whether the first link of a chain is a call. -/
def startsWithCall : List Link → Bool
  | .call .. :: _ => true
  | _ => false

namespace LinkForms

/-- Whether a link is a call. -/
def isCall : LinkForms → Bool
  | .call .. => true
  | _ => false

/-- Lowers the parts of a link. -/
def lower : LinkForms → Lower Link
  | .member span name => return .member span name
  | .computed span key => return .computed span (← key)
  | .call span isPure args => return .call span isPure (← args)

/-- Whether a link is a private member that cannot stay. -/
def isLoweredPrivate : LinkForms → Lower Bool
  | .member _ name => return (← privateBinding? name).isSome
  | _ => return false

end LinkForms

/-- Whether an expression is nullish by its name: `null`, or an `undefined` that nothing in the file
binds. -/
def isBareNullish (bindsUndefined : Bool) (e : Expr) : Bool :=
  match e.shape with
  | .null => true
  | .id name => name == "undefined" && !bindsUndefined
  | _ => false

/-- Whether an expression is always nullish, whatever it does before. -/
def isNullish (bindsUndefined : Bool) : Expr → Bool
  | ⟨_, .unary .void _⟩ => true
  | ⟨_, .binary .comma _ right⟩ => isNullish bindsUndefined right
  | e => isBareNullish bindsUndefined e

/-- Whether any scope of the file binds `undefined`. -/
def bindsUndefined : Lower Bool :=
  return (← read).scopes.declares "undefined"

/-- The expressions of a sequence, however it is nested. -/
def commaParts : Expr → List Expr
  | ⟨_, .binary .comma left right⟩ => commaParts left ++ commaParts right
  | ⟨origin, shape⟩ => [.of origin.span shape]

/-- What an expression that is always nullish does besides. -/
def nullishEffects : Expr → List Expr
  | ⟨_, .binary .comma left right⟩ => commaParts left ++ nullishEffects right
  | ⟨_, .unary .void operand⟩ => if isReusable operand then [] else [operand]
  | _ => []

/-- The value of a chain that is cut short. -/
def cutShort (span : Span) (mode : ChainMode) : Expr :=
  if mode = .delete then .bool span true else .undefined span

/-- What remains of a chain whose base is always nullish. -/
def collapse (span : Span) (mode : ChainMode) (base : Expr) : Expr :=
  let remains := match nullishEffects base with
    | [] => cutShort span mode
    | first :: rest => .sequence first (rest ++ [cutShort span mode])
  { remains with origin := { remains.origin with collapsed := true } }

/-- Follows the links of a chain from a value on; a call takes the receiver that was kept for it.
Gives also the receiver that a call of the result has to pass. -/
def followLinks (mode : ChainMode) :
    List Link → (current : Expr) → (receiver : Option Expr) → Lower (Expr × Option Expr)
  | [], current, _ => return (current, none)
  | .member span name :: rest, current, receiver => do
    if startsWithCall rest && (← privateBinding? name).isSome then
      let (object, receiver) ← capture current
      followLinks mode rest (← memberOrPrivate span object name) (some receiver)
    else if mode = .callee ∧ rest.isEmpty then
      let (object, receiver) ← capture current
      return (← memberOrPrivate span object name, some receiver)
    else
      followLinks mode rest (← memberOrPrivate span current name) receiver
  | .computed span key :: rest, current, receiver => do
    if mode = .callee ∧ rest.isEmpty then
      let (object, receiver) ← capture current
      return (.computed span object key, some receiver)
    else
      followLinks mode rest (.computed span current key) receiver
  | .call span isPure args :: rest, current, receiver =>
    let called := match receiver with
      | some receiver => .callWithThis span current receiver args
      | none => .of span (.call .plain isPure current args)
    followLinks mode rest called none

/-- Lowers a chain, with the receiver that a call of the result has to pass. -/
def lowerChain (span : Span) (mode : ChainMode) (chain : ChainForms) :
    Lower (Expr × Option Expr) := do
  let some base := chain.base | throw .brokenChain
  if isNullish (← bindsUndefined) base.source then
    let value ← base.value
    -- The links never run, but what they mention may still need names.
    let _ ← chain.links.mapM LinkForms.lower
    return (collapse span mode value, none)
  let isCalled := chain.links.head?.any LinkForms.isCall
  let (head, receiver) ← if isCalled then base.callee else (·, none) <$> base.value
  let links ← chain.links.mapM LinkForms.lower
  let (first, again) ← capture head
  -- A bare `eval` would run in the scope around it.
  let isEval := isCalled && receiver.isNone && head.isId "eval"
  let again := if isEval then (Expr.num span "0").andThen again else again
  let (result, resultReceiver) ← followLinks mode links again receiver
  let result := if mode = .delete then .unary span .delete result else result
  let test := .binary span .equality first (.null span)
  return (.cond span test (cutShort span mode) result, resultReceiver)

/-- Whether a chain cannot stay. -/
def needsLowering (chain : ChainForms) : Lower Bool := do
  if ← chain.links.anyM LinkForms.isLoweredPrivate then return true
  if ← lacks .optionalChain then return true
  let unbound := isBareNullish (← bindsUndefined)
  return chain.base.any fun base => unbound base.source

/-- Lowers a chain if it cannot stay. -/
def optionalChain (forms : ExprForms) (mode : ChainMode) : Lower (Expr × Option Expr) := do
  if ← needsLowering forms.chain then lowerChain forms.source.span mode forms.chain
  else return (← forms.natively, none)

/-- A callee or tag, and the receiver to pass when the object of its last access is lost. -/
def calledExpr (forms : ExprForms) : Lower (Expr × Option Expr) := do
  if forms.source.isChained then optionalChain forms .callee
  else
    match ← privateMember? forms with
    | some (binding, object) =>
      let (function, receiver) ← privateCallee forms.source.span binding object
      return (function, some receiver)
    | none => return (← forms.value, none)

/-- Whether an expression is `super`. -/
def isSuper (e : Expr) : Bool :=
  match e.shape with
  | .super => true
  | _ => false

/-- A callee split from its receiver, if it has one. -/
def splitCallee (forms : ExprForms) : Lower (Expr × Option Expr) := do
  if forms.source.isChained || (← privateMember? forms).isSome then calledExpr forms
  else
    let span := forms.source.span
    match forms.place with
    | .member object value name =>
      if isSuper object then
        return (.member span object name, some (← thisValue span))
      let (first, receiver) ← capture (← value)
      return (.member span first name, some receiver)
    | .computed object value key =>
      if isSuper object then
        let key ← key
        return (.computed span object key, some (← thisValue span))
      let (first, receiver) ← capture (← value)
      return (.computed span first (← key), some receiver)
    | .identifier _ | .other => return (← forms.value, none)

end Lowering

end Downlevel
