import Downlevel.SyntaxError
import Downlevel.Tree.Build

/-! An expression to the left of an equals sign is read again as the target of an assignment. -/

namespace Downlevel

/-- The error of an expression that cannot be assigned to. -/
def invalidTarget (span : Span) : SyntaxError :=
  ⟨.invalidAssignmentTarget, span, none⟩

/-- Whether a property stands for both its key and the name it binds. -/
def isShorthandFor (key : Key) (target : Pattern) : Bool :=
  match key, target.name? with
  | .direct name, some bound => name.kind == .identifier && name.text == bound
  | _, _ => false

mutual

/-- Reads an expression as a pattern. -/
def Expr.toPattern : Expr → Except SyntaxError Pattern
  | ⟨origin, .array items⟩ => do
    let (slots, rest) ← slotsOfItems origin.span items
    return .array origin.span slots rest
  | ⟨origin, .object members⟩ => do
    let (properties, rest) ← propertiesOfMembers members
    return .object origin.span properties rest
  | ⟨origin, .id name⟩ => return .id origin.span name
  | ⟨origin, .arrayPattern slots rest⟩ => return .array origin.span slots rest
  | ⟨origin, .objectPattern properties rest⟩ => return .object origin.span properties rest
  | ⟨origin, .member link object name⟩ =>
    if link.isChained then throw (invalidTarget origin.span)
    else return .target origin.span ⟨origin, .member link object name⟩
  | ⟨origin, .computed link object key⟩ =>
    if link.isChained then throw (invalidTarget origin.span)
    else return .target origin.span ⟨origin, .computed link object key⟩
  | ⟨origin, _⟩ => throw (invalidTarget origin.span)

/-- The slots and the rest of an array pattern; nothing may follow the rest. -/
def slotsOfItems (span : Span) :
    List ArrayItem → Except SyntaxError (List PatternSlot × Option Pattern)
  | [] => return ([], none)
  | .spread value :: later => do
    let rest ← value.toPattern
    if later.isEmpty then return ([], some rest)
    throw (invalidTarget span)
  | .single ⟨_, .binary .assignment left right⟩ :: later => do
    let target ← left.toPattern
    let (slots, rest) ← slotsOfItems span later
    return (.slot target (some right) :: slots, rest)
  | .single value :: later => do
    let target ← value.toPattern
    let (slots, rest) ← slotsOfItems span later
    return (.slot target none :: slots, rest)
  | .hole :: later => do
    let (slots, rest) ← slotsOfItems span later
    return (.hole :: slots, rest)

/-- The properties and the rest of an object pattern; nothing may follow the rest. -/
def propertiesOfMembers :
    List ObjectMember → Except SyntaxError (List PatternProperty × Option Pattern)
  | [] => return ([], none)
  | .spread _ value :: later => do
    let rest ← value.toPattern
    match later with
    | [] => return ([], some rest)
    | .valued span .. :: _ | .shorthand span _ :: _ | .spread span _ :: _ =>
      throw (invalidTarget span)
  | .valued span key (.field (some ⟨_, .binary .assignment left right⟩)) :: later => do
    let target ← left.toPattern
    let (properties, rest) ← propertiesOfMembers later
    return (⟨span, key, target, isShorthandFor key target, some right⟩ :: properties, rest)
  | .valued span key (.field (some value)) :: later => do
    let target ← value.toPattern
    let (properties, rest) ← propertiesOfMembers later
    return (⟨span, key, target, isShorthandFor key target, none⟩ :: properties, rest)
  | .valued span _ _ :: _ => throw (invalidTarget span)
  | .shorthand span name :: later => do
    let (properties, rest) ← propertiesOfMembers later
    let key := Key.direct ⟨span, name, .identifier⟩
    return (⟨span, key, .id span name, true, none⟩ :: properties, rest)

end

/-- An array pattern or an object pattern. -/
def Pattern.isStructured : Pattern → Bool
  | .array .. | .object .. => true
  | .id .. | .target .. => false

/-- Reads an expression as the target of an assignment by the operator. Only a plain assignment
takes a pattern, which a literal always gives. -/
def Expr.toTarget (op : Operator) (e : Expr) : Except ParseFailure Expr :=
  match e.shape with
  | .id _ => return e
  | .member link .. | .computed link .. =>
    if link.isChained then throw (.malformed (invalidTarget e.span)) else return e
  | .array _ | .object _ =>
    if op = .assignment then
      match e.toPattern with
      | .ok pattern => if pattern.isStructured then return pattern.toExpr else throw .broken
      | .error error => throw (.malformed error)
    else throw (.malformed (invalidTarget e.span))
  | _ => throw (.malformed (invalidTarget e.span))

end Downlevel
