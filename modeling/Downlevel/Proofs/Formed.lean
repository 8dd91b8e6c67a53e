import Downlevel.Proofs.Nodes

/-! What every program that was read has in common, beyond what its tree could say by itself. -/

namespace Downlevel

/-- Whether an expression is a name, or an access outside of any chain. -/
def Expr.isPlace (e : Expr) : Bool :=
  match e.shape with
  | .id _ => true
  | .member link .. | .computed link .. => !link.isChained
  | _ => false

/-- Whether an expression is a pattern. -/
def Expr.isPattern (e : Expr) : Bool :=
  match e.shape with
  | .arrayPattern .. | .objectPattern .. => true
  | _ => false

/-- Whether a member value is one that an object literal can hold. -/
def MemberValue.isOfObject : MemberValue → Bool
  | .accessor _ | .staticBlock _ => false
  | _ => true

/-- Whether an expression is a template with a tag. -/
def Expr.isTagged (e : Expr) : Bool :=
  match e.shape with
  | .tagged .. => true
  | _ => false

/-- A link that goes on with a chain is behind one, or behind a template. -/
def ChainLink.Follows (link : ChainLink) (object : Expr) : Prop :=
  link = .continues → object.isChained = true ∨ object.isTagged = true

/-- A plain link can follow anything. -/
theorem follows_plain (object : Expr) : ChainLink.plain.Follows object :=
  nofun

/-- A link that starts a chain can follow anything. -/
theorem follows_opens (object : Expr) : ChainLink.opens.Follows object :=
  nofun

/-- Whether a body stands in braces. -/
def Body.isBlock : Body → Bool
  | .block _ => true
  | .value _ => false

/-- The function of a method, a getter or a setter. -/
def MemberValue.func? : MemberValue → Option Func
  | .getter func | .setter func | .method func => some func
  | _ => none

mutual

/-- Whether a pattern writes a member anywhere. -/
def hasTarget : Pattern → Bool
  | .id .. => false
  | .array _ slots rest => slotsHaveTarget slots || optionHasTarget rest
  | .object _ properties rest => propertiesHaveTarget properties || optionHasTarget rest
  | .target .. => true

/-- The same for a pattern that may be absent. -/
def optionHasTarget : Option Pattern → Bool
  | none => false
  | some pattern => hasTarget pattern

/-- The same for an element of an array pattern. -/
def slotHasTarget : PatternSlot → Bool
  | .hole => false
  | .slot target _ => hasTarget target

/-- The same for the elements of an array pattern. -/
def slotsHaveTarget : List PatternSlot → Bool
  | [] => false
  | slot :: rest => slotHasTarget slot || slotsHaveTarget rest

/-- The same for a property of an object pattern. -/
def propertyHasTarget : PatternProperty → Bool
  | ⟨_, _, target, _, _⟩ => hasTarget target

/-- The same for the properties of an object pattern. -/
def propertiesHaveTarget : List PatternProperty → Bool
  | [] => false
  | property :: rest => propertyHasTarget property || propertiesHaveTarget rest

end

/-- Elements of an array pattern have no targets if none of them has. -/
theorem slotsHaveTarget_eq_false {slots : List PatternSlot} :
    slotsHaveTarget slots = false ↔ ∀ slot ∈ slots, slotHasTarget slot = false := by
  induction slots with
  | nil => simp [slotsHaveTarget]
  | cons _ _ ih => simp [slotsHaveTarget, ih]

/-- Properties of an object pattern have no targets if none of them has. -/
theorem propertiesHaveTarget_eq_false {properties : List PatternProperty} :
    propertiesHaveTarget properties = false
      ↔ ∀ property ∈ properties, propertyHasTarget property = false := by
  induction properties with
  | nil => simp [propertiesHaveTarget]
  | cons _ _ ih => simp [propertiesHaveTarget, ih]

/-- A name that a source can hold: it is not empty, and does not start as the placeholders do. -/
def IsSpelled (name : String) : Prop :=
  ∃ c rest, name.toList = c :: rest ∧ c ≠ '\x00'

/-- A private name that a source can hold, with its number sign. -/
def IsPrivatelySpelled (name : String) : Prop :=
  ∃ c rest, name.toList = '#' :: c :: rest ∧ c ≠ '#' ∧ c ≠ '\x00'

/-- A name in an import or export list that was read. -/
def ModuleName.IsRead : ModuleName → Prop
  | .identifier name => IsSpelled name
  | .string _ => True

/-- What was read of an import statement besides the default. -/
def ImportNames.IsRead : ImportNames → Prop
  | .all boundAs => IsSpelled boundAs
  | .specific names => ∀ entry ∈ names, entry.importable.IsRead ∧ IsSpelled entry.boundAs

/-- A member of a class that was read: private names have their number sign, and methods are no
arrow functions and are written with braces. -/
structure ClassMember.Formed (member : ClassMember) : Prop where
  isPrivate : ∀ name ∈ member.key.privateName?, IsPrivatelySpelled name
  isMethod : ∀ func ∈ member.value.func?, func.isArrow = false ∧ func.body.isBlock = true

/-- The name and the members of a class that was read. -/
structure ClassFormed (name : Option String) (members : List ClassMember) : Prop where
  name : ∀ own ∈ name, IsSpelled own
  members : ∀ member ∈ members, member.Formed

/-- What holds for every node that was read: names are spelled, assignments write places or, if they
are plain ones, patterns, parameters bind names only, links that go on with a chain follow one,
object literals hold no members that only classes have, a whole module that is exported comes from
somewhere, and nothing is left of a chain yet. -/
def Node.Formed : Node → Prop
  | .origin own => own.collapsed = false
  | .shape (.id name) => IsSpelled name
  | .shape (.binary op left _) =>
    op.isAssignment = true → left.isPlace = true ∨ op = .assignment ∧ left.isPattern = true
  | .shape (.call link _ object _) | .shape (.computed link object _) | .shape (.member link object _) =>
    link.Follows object
  | .shape (.function name _) => ∀ own ∈ name, IsSpelled own
  | .shape (.classExpr name _ members) => ClassFormed name members
  | .param own => hasTarget own.pattern = false
  | .pattern (.id _ name) => IsSpelled name
  | .pattern (.target _ place) => place.isPlace = true
  | .objectMember (.valued _ _ value) => value.isOfObject = true
  | .objectMember (.shorthand _ name) => IsSpelled name
  | .stmt (.breakTo label) | .stmt (.continueTo label) => ∀ own ∈ label, IsSpelled own
  | .stmt (.label name _) => IsSpelled name
  | .stmt (.classDecl _ name _ members) => ClassFormed name members
  | .stmt (.functionDecl _ name _) => ∀ own ∈ name, IsSpelled own
  | .stmt (.exportNames (.all _) module) => module.isSome = true
  | .stmt (.exportNames (.specific names) _) => ∀ entry ∈ names, entry.exportable.IsRead
  | .stmt (.importNames default names _) =>
    (∀ own ∈ default, IsSpelled own) ∧ ∀ list ∈ names, list.IsRead
  | _ => True

end Downlevel
