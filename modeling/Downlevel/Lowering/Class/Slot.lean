import Downlevel.Lowering.Class.PrivateNames
import Downlevel.Lowering.Literal

/-! Where each member of a class goes. -/

namespace Downlevel

namespace Lowering

/-- Which members leave the class body. -/
structure ClassPolicy where
  instanceFields : Bool
  staticFields : Bool
  staticBlocks : Bool
  /-- Fields are defined as properties and not assigned. -/
  defines : Bool
deriving DecidableEq

/-- Whether a member is a static block. -/
def ClassMemberForms.isStaticBlock (member : ClassMemberForms) : Bool :=
  match member.value with
  | .staticBlock .. => true
  | _ => false

/-- Fields move along with private names, and static blocks along with static fields, so that
everything still happens in order. -/
def classPolicy (members : List ClassMemberForms) (privates : PrivateNames) :
    Lower ClassPolicy := do
  let lowersPrivate (isStatic : Bool) :=
    privates.any fun (_, binding) => binding.any (·.isStatic = isStatic)
  let staticFields := (← lacks .classStaticField) || lowersPrivate true
  let blocksStay ← supports .classStaticBlock
  return {
    instanceFields := (← lacks .classField) || lowersPrivate false
    staticFields
    staticBlocks := members.any (·.isStaticBlock) && (!blocksStay || staticFields)
    defines := (← read).options.definesFields }

/-- A member whose parts are lowered, with the place it goes to. -/
inductive Slot
  | kept (member : ClassMember)
  /-- A field that is defined elsewhere. -/
  | defined (span : Span) (isStatic : Bool) (key : Key) (init : Option Expr)
  /-- A field that is assigned elsewhere. -/
  | assigned (span : Span) (isStatic : Bool) (key : Key) (init : Expr)
  /-- A field that nothing is assigned to; only its key is evaluated. -/
  | dropped (key : Key)
  | privateField (span : Span) (isStatic : Bool) (name : String) (binding : PrivateBinding)
      (init : Option Expr)
  /-- A private method or accessor, and the name of its function. -/
  | privateFunction (span : Span) (name : String) (binding : PrivateBinding) (function : String)
      (func : Func)
  | staticCode (code : List Expr)

/-- Lowers an initializer. One that moves behind the class names the class instead of `this`; gives
also whether it does so. -/
def fieldInit (init : Option (Lower Expr)) (className : Option String) :
    Lower (Option Expr × Bool) := do
  match init with
  | none => return (none, false)
  | some step =>
    let owner : Owner :=
      { kind := if className.isSome then .staticInit else .fieldInit
        frame := (← get).temps.current
        thisAlias := className }
    let (value, owner) ← inOwner owner step
    return (some value, className.isSome && owner.usesThis)

/-- Lowers the statements of a static block. Gives what they have to declare, and whether a block
that moves names the class instead of `this`. -/
def staticBlock (span : Span) (body : Lower (List Stmt)) (className : Option String) :
    Lower (List Stmt × List Temp × Bool) := do
  let scope := ((← read).scopes.scopeAt? span .function).getD (← get).temps.owner
  let inside : Lower (List Stmt × Owner) := do
    let owner : Owner :=
      { kind := if className.isSome then .staticInit else .fieldInit
        frame := (← get).temps.current
        thisAlias := className }
    inOwner owner body
  let ((stmts, owner), temps) ← inFrame .function scope inside
  return (stmts, temps, className.isSome && owner.usesThis)

/-- The values of statements that are all expressions. -/
def exprStmts? : List Stmt → Option (List Expr)
  | [] => some []
  | ⟨_, .expr value⟩ :: rest => (exprStmts? rest).map (value :: ·)
  | _ :: _ => none

/-- A static block as expressions: its own ones, or else a call of a function around it. -/
def staticCode (span : Span) (body : List Stmt) (temps : List Temp) : List Expr :=
  match if temps.isEmpty then exprStmts? body else none with
  | some values => values
  | none =>
    let func : Func := ⟨span, true, false, false, [], .block (Temp.declareIn span temps body)⟩
    [.of span (.call .plain (Purity.areRemovableStmts body) (.of span (.arrow func)) [])]

/-- Which function of a private name a member is. -/
inductive FunctionRole
  | method
  | getter
  | setter
deriving DecidableEq

/-- The name of the function that stands in for a private method or accessor. -/
def PrivateBinding.function? (binding : PrivateBinding) (role : FunctionRole) : Option String :=
  match binding.role, role with
  | .method function, .method => some function
  | .accessor getter _, .getter => getter
  | .accessor _ setter, .setter => setter
  | _, _ => none

/-- The member value that a function of the role is. -/
def FunctionRole.value (role : FunctionRole) (func : Func) : MemberValue :=
  match role with
  | .method => .method func
  | .getter => .getter func
  | .setter => .setter func

/-- Where a method or accessor goes. -/
def functionSlot (span : Span) (key : Key) (isStatic : Bool) (role : FunctionRole)
    (func : Lower Func) : Lower Slot := do
  let func ← func
  match key.privateName? with
  | none => return .kept ⟨span, key, isStatic, role.value func⟩
  | some name =>
    match ← privateBinding? name with
    | none => return .kept ⟨span, key, isStatic, role.value func⟩
    | some binding =>
      match binding.function? role with
      | some function => return .privateFunction span name binding function func
      | none => throw (.privateClash name)

/-- Where a field goes, and whether its initializer names the class. -/
def fieldSlot (policy : ClassPolicy) (className : String) (span : Span) (key : Key)
    (isStatic : Bool) (init : Option (Lower Expr)) : Lower (Slot × Bool) := do
  let name := key.privateName?
  let binding ← match name with
    | some name => privateBinding? name
    | none => pure none
  let leaves := if isStatic then policy.staticFields else policy.instanceFields
  let moves := binding.isSome || (name.isNone && leaves)
  let (init, usesThis) ← fieldInit init (if moves && isStatic then some className else none)
  let slot : Slot :=
    match name, binding, moves with
    | some name, some binding, _ => .privateField span isStatic name binding init
    | _, _, false => .kept ⟨span, key, isStatic, .field init⟩
    | _, _, true =>
      if policy.defines then .defined span isStatic key init
      else
        match init with
        | some init => .assigned span isStatic key init
        | none => .dropped key
  return (slot, usesThis)

/-- Where a static block goes, and whether it names the class. -/
def blockSlot (policy : ClassPolicy) (className : String) (member : ClassMember) (span : Span)
    (body : Lower (List Stmt)) : Lower (Slot × Bool) := do
  if policy.staticBlocks then
    let (body, temps, usesThis) ← staticBlock span body (some className)
    return (.staticCode (staticCode span body temps), usesThis)
  let (body, temps, _) ← staticBlock span body none
  let block : Block := ⟨span, Temp.declareIn span temps body⟩
  return (.kept { member with value := .staticBlock block }, false)

/-- Lowers a member and decides where it goes. Gives also whether code that moves behind the class
names it. -/
def memberSlot (policy : ClassPolicy) (className : String) (member : ClassMemberForms) :
    Lower (Slot × Bool) := do
  let span := member.span
  let isStatic := member.isStatic
  let key ← lowerKey member.key
  match member.value with
  | .method func => return (← functionSlot span key isStatic .method func, false)
  | .getter func => return (← functionSlot span key isStatic .getter func, false)
  | .setter func => return (← functionSlot span key isStatic .setter func, false)
  | .field init => fieldSlot policy className span key isStatic init
  | .staticBlock blockSpan body =>
    let empty : ClassMember := ⟨span, key, isStatic, .field none⟩
    blockSlot policy className empty blockSpan body
  | .accessor init =>
    let (init, _) ← fieldInit init none
    return (.kept ⟨span, key, isStatic, .accessor init⟩, false)

end Lowering

end Downlevel
