import Downlevel.Lowering.Chain
import Downlevel.Lowering.ObjectRest

/-! Operators that a target may lack, and assignments whose left side cannot stay. -/

namespace Downlevel

namespace Lowering

/-- A place split into parts that can be read and then written. -/
inductive Place
  | identifier (name : String)
  | member (object : Expr) (name : String)
  | computed (object key : Expr)

namespace Place

/-- Reads a place. -/
def read (span : Span) : Place → Lower Expr
  | .identifier name => return .id span name
  | .member object name => memberOrPrivate span object name
  | .computed object key => return .computed span object key

/-- Writes a place. -/
def write (span : Span) (value : Expr) : Place → Lower Expr
  | .identifier name => return .assign span (.id span name) value
  | .member object name => assignMemberOrPrivate span object name value
  | .computed object key => return .assign span (.computed span object key) value

end Place

/-- The parts of a place for the first access and for all later ones. -/
def PlaceForms.split? : PlaceForms → Option (Lower (Place × Place))
  | .identifier name => some (return (.identifier name, .identifier name))
  | .member _ value name => some do
    let (object, again) ← capture (← value)
    return (.member object name, .member again name)
  | .computed _ value key => some do
    let (object, objectAgain) ← capture (← value)
    let (key, keyAgain) ← capture (← key)
    return (.computed object key, .computed objectAgain keyAgain)
  | .other => none

/-- The left value unless it is nullish, and else the right one. -/
def nullishOr (span : Span) (left right : Expr) : Lower Expr := do
  let (first, again) ← capture left
  return .cond span (.binary span .inequality first (.null span)) again right

/-- An assignment that happens depending on what the place holds. -/
def logicalAssignment (span : Span) (op : Operator) (split : Lower (Place × Place))
    (right : Lower Expr) : Lower Expr := do
  let (first, again) ← split
  let right ← right
  let read ← first.read span
  let write ← again.write span right
  match op with
  | .assignmentLogicalAnd => return .binary span .logicalAnd read write
  | .assignmentLogicalOr => return .binary span .logicalOr read write
  | .assignmentNullishCoalescing =>
    if ← lacks .nullishCoalescing then nullishOr span read write
    else return .binary span .nullishCoalescing read write
  | _ => throw (.notLogical op)

/-- A compound assignment as a plain one. The place is evaluated before the right side, so writing
takes its first access. -/
def compoundAssignment (span : Span) (op : Operator) (split : Lower (Place × Place))
    (right : Lower Expr) : Lower Expr := do
  let (first, again) ← split
  let right ← right
  let read ← again.read span
  let value :=
    if op = .exponentiation ∧ (← lacks .exponentOperator) then
      .helper span "__pow" [read, right]
    else .binary span op read right
  first.write span value

/-- A plain assignment. -/
def plainAssignment (origin : Origin) (left : ExprForms) (right : Lower Expr) : Lower Expr := do
  match ← privateMember? left with
  | some (binding, object) =>
    let object ← object
    return binding.write origin.span object (← right)
  | none =>
    let target ← left.target
    let value ← right
    match target.shape with
    | .objectPattern properties rest =>
      if ← lacks .objectRestSpread then
        if let some split ← splitAssignedRest? origin.span properties rest value then
          return split
    | _ => pure ()
    return ⟨origin, .binary .assignment target value⟩

/-- Whether an operator assigns depending on what the place holds. -/
def isLogicalAssignment (op : Operator) : Bool :=
  op == .assignmentLogicalAnd || op == .assignmentLogicalOr || op == .assignmentNullishCoalescing

/-- Any operator other than an assignment. -/
def plainBinary (origin : Origin) (op : Operator) (left right : ExprForms) : Lower Expr := do
  let first ← left.value
  let second ← right.value
  if op = .nullishCoalescing ∧ (← lacks .nullishCoalescing) then
    nullishOr origin.span first second
  else if op = .exponentiation ∧ (← lacks .exponentOperator) then
    return .helper origin.span "__pow" [first, second]
  else
    return ⟨origin, .binary op first second⟩

/-- A binary operator of any kind. -/
def binary (origin : Origin) (op : Operator) (left right : ExprForms) : Lower Expr := do
  let span := origin.span
  let isPrivate := (← privateMember? left).isSome
  if op = .assignment then plainAssignment origin left right.value
  else
    match op.compound?, left.place.split? with
    | some plain, some split =>
      if isLogicalAssignment op then
        if isPrivate || (← lacks .logicalAssignment) then
          return ← logicalAssignment span op split right.value
      else if isPrivate || (op = .assignmentExponentiation && (← lacks .exponentOperator)) then
        return ← compoundAssignment span plain split right.value
      let target ← left.target
      return ⟨origin, .binary op target (← right.value)⟩
    | some _, none =>
      let target ← left.target
      return ⟨origin, .binary op target (← right.value)⟩
    | none, _ =>
      match op, left.place with
      | .isIn, .identifier name =>
        match ← privateBinding? name with
        | some binding => return binding.check span (← right.value)
        | none => plainBinary origin op left right
      | _, _ => plainBinary origin op left right

/-- Waits for a promise in the way of the function around. -/
def awaited (span : Span) (promise : Expr) : Lower Expr := do
  match (← here).awaitForm with
  | .await => return .unary span .await promise
  | .yield => return .of span (.yield false (some promise))
  | .yieldAwait => return .of span (.yield false (some (.new span "__await" [promise])))

/-- An operator in front of its operand. -/
def unary (origin : Origin) (op : Operator) (operand : ExprForms) : Lower Expr := do
  match op with
  | .delete =>
    if operand.source.isChained then
      if ← needsLowering operand.chain then
        return (← lowerChain operand.source.span .delete operand.chain).1
      return ⟨origin, .unary op (← operand.natively)⟩
    return ⟨origin, .unary op (← operand.value)⟩
  | .prefixIncrement | .prefixDecrement => return ⟨origin, .unary op (← operand.target)⟩
  | .await =>
    let promise ← operand.value
    let owner ← here
    if owner.kind = .module ∧ (← lacks .topLevelAwait) then report origin.span .topLevelAwait
    if owner.awaitForm = .await then return ⟨origin, .unary op promise⟩
    awaited origin.span promise
  | _ => return ⟨origin, .unary op (← operand.value)⟩

end Lowering

end Downlevel
