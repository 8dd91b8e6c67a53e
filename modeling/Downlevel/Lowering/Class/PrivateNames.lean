import Downlevel.Lowering.Class.Accessor
import Downlevel.Tree.Search

/-! Which private names of a class are replaced, and by what. -/

namespace Downlevel

namespace Lowering

/-- What declares a private name. -/
inductive PrivateKind
  | field
  | method
  | accessor
deriving DecidableEq

/-- What kind of private name a member can declare. -/
def MemberForms.privateKind? : MemberForms → Option PrivateKind
  | .field _ => some .field
  | .method _ => some .method
  | .getter _ | .setter _ => some .accessor
  | .accessor _ | .staticBlock .. => none

/-- A private name as a class declares it; the first member that has it decides. -/
structure DeclaredPrivate where
  name : String
  kind : PrivateKind
  isStatic : Bool
  hasGetter : Bool
  hasSetter : Bool
deriving DecidableEq

/-- Whether a member is a getter. -/
def MemberForms.isGetter : MemberForms → Bool
  | .getter _ => true
  | _ => false

/-- Whether a member is a setter. -/
def MemberForms.isSetter : MemberForms → Bool
  | .setter _ => true
  | _ => false

/-- Adds a member to the private names found so far. -/
def addPrivate (found : List DeclaredPrivate) (member : ClassMemberForms) : List DeclaredPrivate :=
  match member.key.privateName?, member.value.privateKind? with
  | some name, some kind =>
    if found.any (·.name = name) then
      found.map fun entry =>
        if entry.name = name then
          { entry with
            hasGetter := entry.hasGetter || member.value.isGetter
            hasSetter := entry.hasSetter || member.value.isSetter }
        else entry
    else
      found ++ [⟨name, kind, member.isStatic, member.value.isGetter, member.value.isSetter⟩]
  | _, _ => found

/-- The private names of a class in the order of the source. -/
def declaredPrivates (members : List ClassMemberForms) : List DeclaredPrivate :=
  members.foldl addPrivate []

/-- The features that a kind of private name takes, for instances and for classes. -/
def PrivateKind.features : PrivateKind → Feature × Feature
  | .field => (.classPrivateField, .classPrivateStaticField)
  | .method => (.classPrivateMethod, .classPrivateStaticMethod)
  | .accessor => (.classPrivateAccessor, .classPrivateStaticAccessor)

/-- Whether a private name could stay. -/
def DeclaredPrivate.isSupported (entry : DeclaredPrivate) : Lower Bool := do
  let (instanceFeature, staticFeature) := entry.kind.features
  if ← lacks instanceFeature then return false
  if entry.isStatic then supports staticFeature else return true

/-- Whether a shape asks if an object has a private member. -/
def isBrandCheck : Shape → Bool
  | .binary .isIn ⟨_, .id name⟩ _ => isPrivateName name
  | _ => false

/-- Hands out the names that stand in for a private name. -/
def bindPrivate (entry : DeclaredPrivate) : Lower PrivateBinding := do
  let base := dropLeading '#' entry.name
  let storage ← allocNamed ("_" ++ base)
  let role ← match entry.kind with
    | .field => pure PrivateRole.field
    | .method => .method <$> allocNamed (base ++ "_fn")
    | .accessor => do
      let getter ← if entry.hasGetter then some <$> allocNamed (base ++ "_get") else pure none
      let setter ← if entry.hasSetter then some <$> allocNamed (base ++ "_set") else pure none
      pure (.accessor getter setter)
  return ⟨role, storage, entry.isStatic⟩

/-- Decides which private names of a class are replaced. If one name of the instances is, all of
them are, so that all are in place before any initializer runs. The same holds for those of the
class. -/
def declarePrivates (source : List ClassMember) (members : List ClassMemberForms) :
    Lower PrivateNames := do
  let found := declaredPrivates members
  if found.isEmpty then return []
  let checks := (← lacks .classPrivateBrandCheck) && Search.inClassMembers isBrandCheck source
  let unsupported ← found.filterM fun entry => return !(← entry.isSupported)
  let isLowered (isStatic : Bool) := checks || unsupported.any (·.isStatic = isStatic)
  found.mapM fun entry => do
    if isLowered entry.isStatic then return (entry.name, some (← bindPrivate entry))
    else return (entry.name, none)

end Lowering

end Downlevel
