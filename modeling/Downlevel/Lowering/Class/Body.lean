import Downlevel.Lowering.Class.Keys

/-! A class put together again: what runs when an object is made, what runs behind the class, and
what stays in its body. -/

namespace Downlevel

namespace Lowering

/-- The key of a field as a value. -/
def fieldKey : Key → Expr
  | .computed value => value
  | .direct name =>
    match name.kind with
    | .number => .num name.span name.text
    | .bigint => .str name.span ((bigintValue? name.text).elim name.text toString)
    | _ => .str name.span name.text

/-- The place that a field is assigned to. -/
def fieldPlace (span : Span) (receiver : Expr) (key : Key) : Expr :=
  match key with
  | .direct ⟨_, text, .identifier⟩ => .member span receiver text
  | key => .computed span receiver (fieldKey key)

/-- What a member that moves does to the object it belongs to. -/
def Slot.inits (isStatic : Bool) (receiver : Span → Expr) : Slot → List Expr
  | .defined span ofClass key init =>
    if ofClass = isStatic then
      [.helper span "__publicField" (receiver span :: fieldKey key :: init.toList)]
    else []
  | .assigned span ofClass key init =>
    if ofClass = isStatic then [.assign span (fieldPlace span (receiver span) key) init] else []
  | .privateField span ofClass _ binding init =>
    if ofClass = isStatic then
      [.helper span "__privateAdd" (receiver span :: .id span binding.storage :: init.toList)]
    else []
  | .staticCode code => if isStatic then code else []
  | .kept _ | .dropped _ | .privateFunction .. => []

/-- Marks an object as one that has the private methods and accessors, before any initializer can
call them. -/
def addBrands (span : Span) (isStatic : Bool) (receiver : Expr) (privates : PrivateNames) :
    List Expr :=
  privates.filterMap fun (_, binding) =>
    match binding with
    | none => none
    | some binding =>
      if binding.role ≠ .field ∧ binding.isStatic = isStatic then
        some (.helper span "__privateAdd" [receiver, .id span binding.storage])
      else none

/-- The private name of a member that moves. -/
def Slot.privateName? : Slot → Option String
  | .privateField _ _ name .. | .privateFunction _ name .. => some name
  | _ => none

/-- The private names of members that move are among those that the class replaces. -/
def requireOwn (privates : PrivateNames) (slot : Slot) : Lower Unit := do
  if let some name := slot.privateName? then
    if (privates.lookup name).join.isNone then throw (.foreignPrivate name)

/-- Makes the storage of private names, each once, and the functions that stand in for methods and
accessors. -/
def makeStorage : (made : List String) → List Slot → List Expr
  | _, [] => []
  | made, slot :: rest =>
    let storage (span : Span) (name : String) (binding : PrivateBinding) (kind : String) :
        List Expr :=
      if made.contains name then []
      else [.assign span (.id span binding.storage) (.new span kind [])]
    match slot with
    | .privateField span _ name binding _ =>
      storage span name binding "WeakMap" ++ makeStorage (name :: made) rest
    | .privateFunction span name binding function func =>
      let value := .of span (.function none func)
      storage span name binding "WeakSet"
        ++ .assign span (.id span function) value :: makeStorage (name :: made) rest
    | _ => makeStorage made rest

/-- The members that stay. -/
def keptMembers (slots : List Slot) : List ClassMember :=
  slots.filterMap fun slot =>
    match slot with
    | .kept member => some member
    | _ => none

/-- Whether a member is the constructor. -/
def isConstructor : ClassMember → Bool
  | ⟨_, .direct name, false, .method _⟩ => name.text == "constructor" && name.kind != .privateName
  | _ => false

/-- A constructor that does what a class without one does. -/
def plainConstructor (span : Span) (isDerived : Bool) : ClassMember :=
  let call := Expr.of span
    (.call .plain false (.of span .super) [⟨true, .id span "arguments"⟩])
  let body := if isDerived then [Stmt.expr call] else []
  ⟨span, .direct ⟨span, "constructor", .identifier⟩, false,
    .method ⟨span, false, false, false, [], .block body⟩⟩

/-- Whether a statement calls the constructor of the base class. -/
def isSuperCall (stmt : Stmt) : Bool :=
  match stmt.shape with
  | .expr ⟨_, .call _ _ ⟨_, .super⟩ _⟩ => true
  | _ => false

/-- Puts statements behind the first call of the base constructor, if there is one. -/
def insertBehindSuper? (inits : List Stmt) : List Stmt → Option (List Stmt)
  | [] => none
  | stmt :: rest =>
    if isSuperCall stmt then some (stmt :: inits ++ rest)
    else (insertBehindSuper? inits rest).map (stmt :: ·)

/-- Puts statements behind the directives of a body. -/
def insertBehindPrologue (inits body : List Stmt) : List Stmt :=
  body.takeWhile Temp.isPrologue ++ inits ++ body.dropWhile Temp.isPrologue

/-- The body of a constructor with initializers in it. -/
def initializedBody (span : Span) (isDerived : Bool) (inits body : List Stmt) :
    Lower (List Stmt) := do
  if !isDerived then return insertBehindPrologue inits body
  match insertBehindSuper? inits body with
  | some body => return body
  | none =>
    unsupported span .fieldsWithoutSuperCall
    return insertBehindPrologue inits body

/-- Puts initializers into the constructor, which moves to the front of the class. -/
def addToConstructor (span : Span) (isDerived : Bool) (inits : List Expr)
    (members : List ClassMember) : Lower (List ClassMember) := do
  if inits.isEmpty then return members
  let found := (members.find? isConstructor).getD (plainConstructor span isDerived)
  let others := members.eraseP isConstructor
  match found.value with
  | .method ⟨funcSpan, isArrow, isAsync, isGenerator, params, .block body⟩ =>
    let body ← initializedBody found.span isDerived (inits.map Stmt.expr) body
    let func : Func := ⟨funcSpan, isArrow, isAsync, isGenerator, params, .block body⟩
    return { found with value := .method func } :: others
  | _ => throw .noConstructor

/-- A class in parts. In what runs behind it, a placeholder stands for its name. -/
structure LoweredClass where
  heritage : Option Expr
  members : List ClassMember
  before : List Expr
  behind : List Expr
  placeholder : String
  /-- The code behind the class names it instead of `this`. -/
  usesThis : Bool

/-- What stands for the name of a class with the given number of classes around; no source can
contain it. -/
def classPlaceholder (depth : Nat) : String :=
  "\x00class" ++ toString depth

/-- Lowers a class. -/
def lowerClass (span : Span) (heritage : Option (Lower Expr)) (source : List ClassMember)
    (forms : List ClassMemberForms) : Lower LoweredClass := do
  require .classes span .classes
  let heritage ← heritage.mapM id
  let forms ← withoutAccessors forms
  let privates ← declarePrivates source forms
  let policy ← classPolicy forms privates
  let placeholder := classPlaceholder ((← read).classes.length + 1)
  let inside : Lower (List (Slot × Bool)) := forms.mapM (memberSlot policy placeholder)
  let visited ←
    withReader (fun (setting : Setting) => { setting with classes := privates :: setting.classes })
      inside
  let (slots, before) ← chainComputedKeys (visited.map (·.1))
  slots.forM (requireOwn privates)
  let inits := addBrands span false (.this span) privates ++ slots.flatMap (Slot.inits false .this)
  let className := fun (_ : Span) => Expr.id span placeholder
  let statics := addBrands span true (.id span placeholder) privates
    ++ slots.flatMap (Slot.inits true className)
  let members ← addToConstructor span heritage.isSome inits (keptMembers slots)
  return {
    heritage
    members
    before
    behind := makeStorage [] slots ++ statics
    placeholder
    usesThis := visited.any (·.2) }

end Lowering

end Downlevel
