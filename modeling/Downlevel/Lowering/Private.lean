import Downlevel.Lowering.Forms

/-! Private names that cannot stay, and the calls that take the place of their uses. -/

namespace Downlevel

namespace Lowering

namespace PrivateBinding

/-- Reads the private member of an object. -/
def read (binding : PrivateBinding) (span : Span) (object : Expr) : Expr :=
  let storage := Expr.id span binding.storage
  match binding.role with
  | .method function => .helper span "__privateMethod" [object, storage, .id span function]
  | .accessor (some getter) _ => .helper span "__privateGet" [object, storage, .id span getter]
  | _ => .helper span "__privateGet" [object, storage]

/-- Writes the private member of an object. -/
def write (binding : PrivateBinding) (span : Span) (object value : Expr) : Expr :=
  let storage := Expr.id span binding.storage
  match binding.role with
  | .accessor _ (some setter) =>
    .helper span "__privateSet" [object, storage, value, .id span setter]
  | _ => .helper span "__privateSet" [object, storage, value]

/-- Asks whether an object has the private member. -/
def check (binding : PrivateBinding) (span : Span) (object : Expr) : Expr :=
  .helper span "__privateIn" [.id span binding.storage, object]

/-- A function that an accessor may have, as an argument. -/
def accessorArg (span : Span) : Option String → Expr
  | some name => .id span name
  | none => .undefined span

/-- A property that reads and writes the private member of an object. -/
def wrapper (binding : PrivateBinding) (span : Span) (object : Expr) : Expr :=
  let functions := match binding.role with
    | .accessor getter setter => [accessorArg span setter, accessorArg span getter]
    | _ => []
  .member span
    (.helper span "__privateWrapper" (object :: .id span binding.storage :: functions)) "_"

end PrivateBinding

/-- The binding that stands in for the private member that an expression is, with the object. -/
def privateMember? (forms : ExprForms) : Lower (Option (PrivateBinding × Lower Expr)) := do
  match forms.place with
  | .member _ object name => return (← privateBinding? name).map (·, object)
  | _ => return none

/-- Reads a member that is private or not. -/
def memberOrPrivate (span : Span) (object : Expr) (name : String) : Lower Expr := do
  match ← privateBinding? name with
  | some binding => return binding.read span object
  | none => return .member span object name

/-- Writes a member that is private or not. -/
def assignMemberOrPrivate (span : Span) (object : Expr) (name : String) (value : Expr) :
    Lower Expr := do
  match ← privateBinding? name with
  | some binding => return binding.write span object value
  | none => return .assign span (.member span object name) value

/-- A private callee as the function and the receiver to call it with. -/
def privateCallee (span : Span) (binding : PrivateBinding) (object : Lower Expr) :
    Lower (Expr × Expr) := do
  let (first, receiver) ← capture (← object)
  return (binding.read span first, receiver)

end Lowering

end Downlevel
