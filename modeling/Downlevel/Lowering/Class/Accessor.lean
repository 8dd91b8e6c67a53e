import Downlevel.NameSupply
import Downlevel.Lowering.Private
import Downlevel.Text.Alphanumeric

/-! A field with generated accessors becomes a private field, a getter and a setter. -/

namespace Downlevel

namespace Lowering

/-- The private name that a key is. -/
def KeyForms.privateName? : KeyForms → Option String
  | .direct name => if name.kind = .privateName then some name.text else none
  | .computed _ => none

/-- A text without the given character in front. -/
def dropLeading (c : Char) (text : String) : String :=
  String.ofList (text.toList.dropWhile (· == c))

/-- What the private field behind a key is called, without the number sign. -/
def backingBase (key : KeyName) : String :=
  if key.kind = .privateName then "_" ++ dropLeading '#' key.text
  else
    let base := key.text.toList.map fun c =>
      if Text.isAlphanumeric c || c == '_' || c == '$' then c else '_'
    match base with
    | [] => "_"
    | first :: _ => if first.isDigit then "_" ++ String.ofList base else String.ofList base

/-- A getter that reads a private field. -/
def backingGetter (span : Span) (backing : String) : Lower Func := do
  let value ← memberOrPrivate span (.this span) backing
  return ⟨span, false, false, false, [], .block [.returns span value]⟩

/-- A setter that writes a private field. -/
def backingSetter (span : Span) (backing : String) : Lower Func := do
  let write ← assignMemberOrPrivate span (.this span) backing (.id span "_")
  return ⟨span, false, false, false, [.ofName span "_"], .block [.expr write]⟩

/-- What the private field behind a key is called, and the keys of the getter and the setter. A
computed key is evaluated once, by the getter. -/
def accessorKeys : KeyForms → Lower (String × KeyForms × KeyForms)
  | .direct name => return (backingBase name, .direct name, .direct name)
  | .computed key => do
    let name ← alloc
    let span := key.source.span
    let again := Expr.id span name
    let first : ExprForms :=
      { source := .assign span again key.source
        value := return .assign span again (← key.value) }
    return (dropLeading '_' name, .computed first,
      .computed { source := again, value := return again })

/-- Replaces the fields with generated accessors among the members, given the private names that are
taken. -/
def expandAccessors : (taken : List String) → List ClassMemberForms → Lower (List ClassMemberForms)
  | _, [] => return []
  | taken, member :: rest => do
    match member.value with
    | .accessor init =>
      let (base, getterKey, setterKey) ← accessorKeys member.key
      let backing := freshName taken ("#" ++ base)
      let rest ← expandAccessors (backing :: taken) rest
      return { member with
            key := .direct ⟨member.span, backing, .privateName⟩
            value := .field init }
        :: { member with key := getterKey, value := .getter (backingGetter member.span backing) }
        :: { member with key := setterKey, value := .setter (backingSetter member.span backing) }
        :: rest
    | _ => return member :: (← expandAccessors taken rest)

/-- The members of a class without generated accessors, if the target lacks those. -/
def withoutAccessors (members : List ClassMemberForms) : Lower (List ClassMemberForms) := do
  if ← supports .decorator then return members
  expandAccessors (members.filterMap (·.key.privateName?)) members

end Lowering

end Downlevel
