import Downlevel.Options
import Downlevel.Problem
import Downlevel.Temp

/-! What lowering a program keeps in mind, and the steps that all of it shares. -/

namespace Downlevel

namespace Lowering

/-- What gives meaning to `this` and `arguments`. -/
inductive OwnerKind
  | module
  | function
  | arrow
  /-- A field initializer or static block that stays in its class. -/
  | fieldInit
  /-- A static initializer or static block that moves behind its class. -/
  | staticInit
deriving DecidableEq

/-- How waiting for a promise is written. -/
inductive AwaitForm
  | await
  /-- As a `yield` of a generator that stands in for an asynchronous function. -/
  | yield
  /-- As a marked `yield` of a generator that stands in for an asynchronous generator. -/
  | yieldAwait
deriving DecidableEq

/-- A function, initializer or block that the lowering is inside of. -/
structure Owner where
  kind : OwnerKind
  /-- The frame of its body, which declares the other names of `this` and `arguments`. -/
  frame : Nat
  /-- An arrow that turns into a function with a `this` of its own. -/
  losesArrow : Bool := false
  /-- An arrow whose body moves into a generator. -/
  isLifted : Bool := false
  awaitForm : AwaitForm := .await
  /-- An asynchronous function that stays one. -/
  isNativeAsync : Bool := false
  thisAlias : Option String := none
  argumentsAlias : Option String := none
  usesThis : Bool := false
  usesArguments : Bool := false

/-- What a private name has become. -/
inductive PrivateRole
  | field
  | method (function : String)
  | accessor (getter setter : Option String)
deriving DecidableEq

/-- The bindings that stand in for a private name. -/
structure PrivateBinding where
  role : PrivateRole
  /-- The map of a field, or the set of the objects that have the method or accessor. -/
  storage : String
  isStatic : Bool
deriving DecidableEq

/-- The private names of a class. Those that stay have no binding, and hide the names of classes
around. -/
abbrev PrivateNames := List (String × Option PrivateBinding)

/-- What does not change while one part of a program is lowered. -/
structure Setting where
  options : Options
  scopes : ScopeTree
  /-- The private names of the classes around, the innermost first. -/
  classes : List PrivateNames := []
  /-- Parameters are being lowered, whose made-up names cannot be declared by the body. -/
  inParams : Bool := false
  /-- The code never runs. -/
  isDead : Bool := false

/-- What lowering has done so far. -/
structure Progress where
  temps : Temps := {}
  reports : List Report := []
  /-- What the lowering is inside of, the innermost first. -/
  owners : List Owner := [{ kind := .module, frame := 0 }]

/-- Why lowering cannot go on. -/
inductive Fault
  /-- A class declares a private name twice, in two roles. -/
  | privateClash (name : String)
  /-- A member that moves has a private name that its own class does not replace. -/
  | foreignPrivate (name : String)
  /-- A chain goes on behind something that is no part of a chain. -/
  | brokenChain
  /-- There is no frame for a made-up name. -/
  | noFrame
  /-- The lowering is inside of nothing, not even of the module. -/
  | noOwner
  /-- A function that stays as it is has no helper that drives it. -/
  | noDriver
  /-- An operator that is no logical assignment is lowered as one. -/
  | notLogical (op : Operator)
  /-- Initializers go into a constructor that is no method with statements. -/
  | noConstructor
  /-- A text is cut where no character ends. -/
  | misread
deriving DecidableEq

/-- A step of the lowering. -/
abbrev Lower := ReaderT Setting (StateT Progress (Except Fault))

/-- Whether the target lacks a feature. -/
def lacks (feature : Feature) : Lower Bool :=
  return !(← read).options.target.supports feature

/-- Whether the target has a feature. -/
def supports (feature : Feature) : Lower Bool :=
  return (← read).options.target.supports feature

/-- Tells the user about a problem. -/
def report (span : Span) (problem : Problem) : Lower Unit :=
  modify fun progress => { progress with reports := progress.reports ++ [⟨problem, span⟩] }

/-- Tells the user that a construct stays although the target lacks it. -/
def unsupported (span : Span) (construct : Construct) : Lower Unit :=
  report span (.unsupported construct)

/-- Tells the user about a construct if the target lacks its feature. -/
def require (feature : Feature) (span : Span) (construct : Construct) : Lower Unit := do
  if ← lacks feature then unsupported span construct

/-- A made-up name of the frame with the index. -/
def allocIn (frame : Nat) (base : Option String) (init : Option Expr) (declare : Bool) :
    Lower String := do
  let progress ← get
  match progress.temps.allocIn? frame (← read).scopes base init declare with
  | some (name, temps) =>
    set { progress with temps }
    return name
  | none => throw .noFrame

/-- A made-up name of the innermost frame. -/
def allocHere (base : Option String) (declare : Bool) : Lower String := do
  allocIn (← get).temps.current base none declare

/-- The next short name, which the innermost frame declares. -/
def alloc : Lower String :=
  allocHere none true

/-- The next short name, bound by whoever asks for it. -/
def allocBound : Lower String :=
  allocHere none false

/-- A name like the base, which the innermost frame declares. -/
def allocNamed (base : String) : Lower String :=
  allocHere (some base) true

/-- A name like the base, bound by whoever asks for it. -/
def allocNamedBound (base : String) : Lower String :=
  allocHere (some base) false

/-- Runs a step in a frame of its own, and gives what the frame has to declare. -/
def inFrame {α : Type} (kind : FrameKind) (owner : ScopeId) (step : Lower α) :
    Lower (α × List Temp) := do
  modify fun progress => { progress with temps := progress.temps.push kind owner }
  let result ← step
  let progress ← get
  match progress.temps.pop? with
  | some (declared, temps) =>
    set { progress with temps }
    return (result, declared)
  | none => throw .noFrame

/-- What the lowering is directly inside of. -/
def here : Lower Owner := do
  match (← get).owners with
  | owner :: _ => return owner
  | [] => throw .noOwner

/-- Runs a step inside an owner, and gives what became of the owner. -/
def inOwner {α : Type} (owner : Owner) (step : Lower α) : Lower (α × Owner) := do
  modify fun progress => { progress with owners := owner :: progress.owners }
  let result ← withReader (fun setting => { setting with inParams := false }) step
  let progress ← get
  match progress.owners with
  | owner :: around =>
    set { progress with owners := around }
    return (result, owner)
  | [] => throw .noOwner

/-- Runs a step on the parameters of a function. -/
def inParams {α : Type} (step : Lower α) : Lower α :=
  withReader (fun setting => { setting with inParams := true }) step

/-- Runs a step on a branch, which may be one that never runs. -/
def inBranch {α : Type} (isDead : Bool) (step : Lower α) : Lower α :=
  withReader (fun setting => { setting with isDead := setting.isDead || isDead }) step

/-- Identifiers, `this`, `super` and simple literals can be evaluated again without effect. -/
def isReusable (e : Expr) : Bool :=
  match e.shape with
  | .id _ | .this | .super | .null | .bool _ | .num _ | .str _ | .bigint _ => true
  | _ => false

/-- The value of an expression for the first time and for all later times. Unless it can be
repeated, it is evaluated once into a made-up name. -/
def capture (e : Expr) : Lower (Expr × Expr) := do
  if isReusable e then return (e, e)
  let name ← alloc
  return (.assign e.span (.id e.span name) e, .id e.span name)

/-- What a name has been replaced with by the innermost class that declares it as private. -/
def privateBinding? (name : String) : Lower (Option PrivateBinding) := do
  if !isPrivateName name then return none
  return ((← read).classes.findSome? (·.lookup name)).join

end Lowering

end Downlevel
