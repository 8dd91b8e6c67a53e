import Downlevel.Lowering.Literal
import Downlevel.Tree.Build

/-! The meaning of expressions: what they evaluate to, and what they do on the way to a state that
only the operations of the language can see. -/

namespace Downlevel

namespace Meaning

/-- Values and the operations on them. The operations do what they like to a hidden state, and each
of them may throw. -/
structure World where
  Value : Type
  State : Type
  this : Value
  undefined : Value
  null : Value
  bool : Bool → Value
  num : String → Value
  str : String → Value
  /-- The large integer that a text of digits stands for. -/
  bigint : Value → Value
  isNullish : Value → Bool
  isTrue : Value → Bool
  get : (object key : Value) → State → Except Value Value × State
  set : (object key value : Value) → State → Except Value Unit × State
  delete : (object key : Value) → State → Except Value Value × State
  call : (function receiver : Value) → (args : List Value) → State → Except Value Value × State
  pow : (base exponent : Value) → State → Except Value Value × State
  isNullish_undefined : isNullish undefined = true
  isNullish_null : isNullish null = true
  isTrue_bool : ∀ value, isTrue (bool value) = value

/-- How evaluating something ends. -/
inductive Ending (W : World) (α : Type)
  | value (result : α)
  | thrown (error : W.Value)
  /-- Code of this kind is given no meaning here. -/
  | unknown

/-- What variables hold, and the hidden state. -/
structure Memory (W : World) where
  vars : String → W.Value
  hidden : W.State

/-- An evaluation. What it did to the memory stays when it throws. -/
def Run (W : World) (α : Type) : Type :=
  Memory W → Ending W α × Memory W

namespace Run

variable {W : World} {α β : Type}

/-- Ends with a result at once. -/
def done (result : α) : Run W α :=
  fun memory => (.value result, memory)

/-- Goes on with the result of an evaluation that has one. -/
def next (run : Run W α) (rest : α → Run W β) : Run W β :=
  fun memory =>
    match run memory with
    | (.value result, memory) => rest result memory
    | (.thrown error, memory) => (.thrown error, memory)
    | (.unknown, memory) => (.unknown, memory)

instance : Monad (Run W) where
  pure := done
  bind := next

/-- Gives no meaning. -/
def unknown : Run W α :=
  fun memory => (.unknown, memory)

/-- Does something to the hidden state. -/
def operate (operation : W.State → Except W.Value α × W.State) : Run W α :=
  fun memory =>
    match operation memory.hidden with
    | (.ok result, hidden) => (.value result, { memory with hidden })
    | (.error error, hidden) => (.thrown error, { memory with hidden })

/-- Reads a variable. -/
def readVar (name : String) : Run W W.Value :=
  fun memory => (.value (memory.vars name), memory)

/-- Writes a variable. -/
def writeVar (name : String) (value : W.Value) : Run W Unit :=
  fun memory =>
    (.value (), { memory with vars := fun other => if other = name then value else memory.vars other })

end Run

/-- A value, and the receiver that a call of it passes on. -/
structure Found (W : World) where
  value : W.Value
  receiver : W.Value

variable {W : World}

namespace Found

/-- A value that was not found on any object. -/
def plain (value : W.Value) : Found W :=
  ⟨value, W.undefined⟩

/-- What remains of a chain outside of it; one that was cut short is undefined. -/
def settle : Option (Found W) → Found W
  | some found => found
  | none => plain W.undefined

/-- What was found is found. -/
@[simp]
theorem settle_some (found : Found W) : settle (some found) = found :=
  rfl

/-- A chain that is cut short is undefined. -/
@[simp]
theorem settle_none : settle (none : Option (Found W)) = plain W.undefined :=
  rfl

/-- A plain value is that value. -/
@[simp]
theorem plain_value (value : W.Value) : (plain value).value = value :=
  rfl

/-- A plain value has no receiver. -/
@[simp]
theorem plain_receiver (value : W.Value) : (plain value).receiver = W.undefined :=
  rfl

/-- What a link of a chain starts from, unless the chain is cut short there or before. -/
def follow (link : ChainLink) (object : Option (Found W)) : Option (Found W) :=
  match link with
  | .plain => some (settle object)
  | .opens => if W.isNullish (settle object).value then none else some (settle object)
  | .continues => object

end Found

/-- A place that can be read and written. -/
inductive Ref (W : World)
  | variable (name : String)
  | property (object key : W.Value)

namespace Ref

/-- Reads a place. -/
def read : Ref W → Run W W.Value
  | .variable name => .readVar name
  | .property object key => .operate (W.get object key)

/-- Writes a place, and gives the value written. -/
def write (value : W.Value) : Ref W → Run W W.Value
  | .variable name => do
    .writeVar name value
    return value
  | .property object key => do
    .operate (W.set object key value)
    return value

end Ref

/-- A function that only lowered code calls. -/
inductive Helper (W : World)
  /-- Calls the function with the first argument as the receiver. -/
  | withReceiver (function : W.Value)
  | power
  | bigint

/-- Calls a helper. -/
def Helper.call : Helper W → List W.Value → Run W W.Value
  | .withReceiver function, receiver :: args => .operate (W.call function receiver args)
  | .power, [base, exponent] => .operate (W.pow base exponent)
  | .bigint, [digits] => return W.bigint digits
  | _, _ => .unknown

/-- Whether an expression is a name or a member. -/
def isNamed (e : Expr) : Bool :=
  match e.shape with
  | .id _ | .member .. => true
  | _ => false

/-- Whether lowering made up the callee of a call: only then does the callee, which is a name or a
member, stand for the whole span. -/
def isMade (span : Span) (link : ChainLink) (callee : Expr) : Bool :=
  link == .plain && isNamed callee && callee.span == span

/-- Whether an expression is the null literal. -/
def isNullLiteral (e : Expr) : Bool :=
  match e.shape with
  | .null => true
  | _ => false

/-- The operator that decides about the right operand of a logical operation or assignment, by the
left value. -/
def goesRight (W : World) (op : Operator) (left : W.Value) : Bool :=
  match op with
  | .logicalAnd | .assignmentLogicalAnd => W.isTrue left
  | .logicalOr | .assignmentLogicalOr => !W.isTrue left
  | _ => W.isNullish left

/-- The digits of a large integer as it is written. A low line between them says nothing. -/
def writtenDigits : List Char → List Char
  | [] => []
  | c :: rest => if c = '_' then writtenDigits rest else c :: writtenDigits rest

mutual

/-- Evaluates an expression. A chain that is cut short finds nothing. -/
def find : Expr → Run W (Option (Found W))
  | ⟨origin, shape⟩ => findShape origin.span shape

/-- Evaluates the expression of the span and the shape. -/
def findShape (span : Span) : Shape → Run W (Option (Found W))
  | .id name => do return some (.plain (← .readVar name))
  | .this => return some (.plain W.this)
  | .null => return some (.plain W.null)
  | .bool value => return some (.plain (W.bool value))
  | .num text => return some (.plain (W.num text))
  | .str value => return some (.plain (W.str value))
  | .bigint digits =>
    return some (.plain (W.bigint (W.str (String.ofList (writtenDigits digits.toList)))))
  | .member link object name => do
    match Found.follow link (← find object) with
    | none => return none
    | some object =>
      return some ⟨← .operate (W.get object.value (W.str name)), object.value⟩
  | .computed link object key => do
    match Found.follow link (← find object) with
    | none => return none
    | some object =>
      let key := Found.settle (← find key)
      return some ⟨← .operate (W.get object.value key.value), object.value⟩
  | .call link _ callee args => do
    if isMade span link callee then
      let helper ← findHelper callee
      let args ← findArgs args
      return some (.plain (← helper.call args))
    else
      match Found.follow link (← find callee) with
      | none => return none
      | some function =>
        let args ← findArgs args
        return some (.plain (← .operate (W.call function.value function.receiver args)))
  | .cond test consequent alternate => do
    let test := Found.settle (← find test)
    let chosen ← if W.isTrue test.value then find consequent else find alternate
    return some (.plain (Found.settle chosen).value)
  | .unary op operand => do
    match op with
    | .void =>
      let _ ← find operand
      return some (.plain W.undefined)
    | .delete => return some (.plain (← remove operand))
    | _ => .unknown
  | .binary op left right => do
    match op with
    | .comma =>
      let _ ← find left
      return some (.plain (Found.settle (← find right)).value)
    | .logicalAnd | .logicalOr | .nullishCoalescing =>
      let left := Found.settle (← find left)
      if goesRight W op left.value then
        return some (.plain (Found.settle (← find right)).value)
      else
        return some (.plain left.value)
    | .exponentiation =>
      let base := Found.settle (← find left)
      let exponent := Found.settle (← find right)
      return some (.plain (← .operate (W.pow base.value exponent.value)))
    | .equality | .inequality =>
      -- Only a comparison with the null literal has a meaning here.
      let left := Found.settle (← find left)
      if isNullLiteral right then
        return some (.plain (W.bool (W.isNullish left.value == (op == .equality))))
      else
        .unknown
    | .assignment =>
      let ref ← findRef left
      let value := Found.settle (← find right)
      return some (.plain (← ref.write value.value))
    | .assignmentLogicalAnd | .assignmentLogicalOr | .assignmentNullishCoalescing =>
      let ref ← findRef left
      let old ← ref.read
      if goesRight W op old then
        let value := Found.settle (← find right)
        return some (.plain (← ref.write value.value))
      else
        return some (.plain old)
    | .assignmentExponentiation =>
      let ref ← findRef left
      let old ← ref.read
      let exponent := Found.settle (← find right)
      let value ← .operate (W.pow old exponent.value)
      return some (.plain (← ref.write value))
    | _ => .unknown
  | _ => .unknown

/-- Evaluates the parts of a place. -/
def findRef : Expr → Run W (Ref W)
  | ⟨_, .id name⟩ => return .variable name
  | ⟨_, .member .plain object name⟩ => do
    return .property (Found.settle (← find object)).value (W.str name)
  | ⟨_, .computed .plain object key⟩ => do
    let object := Found.settle (← find object)
    return .property object.value (Found.settle (← find key)).value
  | _ => .unknown

/-- Removes a member, which is true when its chain is cut short. -/
def remove : Expr → Run W W.Value
  | ⟨_, .member link object name⟩ => do
    match Found.follow link (← find object) with
    | none => return W.bool true
    | some object => .operate (W.delete object.value (W.str name))
  | ⟨_, .computed link object key⟩ => do
    match Found.follow link (← find object) with
    | none => return W.bool true
    | some object =>
      let key := Found.settle (← find key)
      .operate (W.delete object.value key.value)
  | _ => .unknown

/-- Evaluates arguments, none of which is spread. -/
def findArgs : List Arg → Run W (List W.Value)
  | [] => return []
  | ⟨isSpread, value⟩ :: rest => do
    if isSpread then .unknown
    else
      let first := Found.settle (← find value)
      return first.value :: (← findArgs rest)

/-- The helper that a callee made by lowering stands for. -/
def findHelper : Expr → Run W (Helper W)
  | ⟨_, .member _ function name⟩ => do
    if name = "call" then return .withReceiver (Found.settle (← find function)).value
    else .unknown
  | ⟨_, .id name⟩ =>
    if name = "__pow" then return .power
    else if name = "BigInt" then return .bigint
    else .unknown
  | _ => .unknown

end

/-- The value of an expression. -/
def eval (e : Expr) : Run W W.Value := do
  return (Found.settle (← find e)).value

end Meaning

end Downlevel
