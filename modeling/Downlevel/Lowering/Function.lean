import Downlevel.Lowering.Forms
import Downlevel.Lowering.ObjectRest
import Downlevel.Purity

/-! Functions: asynchronous ones become generators that a helper drives, and the made-up names of a
body are declared at its start. -/

namespace Downlevel

namespace Lowering

/-- What becomes of a function that a target may lack. -/
inductive FuncMode
  | native
  /-- A generator stands in for an asynchronous function. -/
  | async
  /-- A generator stands in for an asynchronous generator. -/
  | asyncGenerator
deriving DecidableEq

namespace FuncMode

/-- How waiting is written inside a function. -/
def awaitForm : FuncMode → AwaitForm
  | .native => .await
  | .async => .yield
  | .asyncGenerator => .yieldAwait

/-- The helper that drives the generator. -/
def driver : FuncMode → Lower String
  | .native => throw .noDriver
  | .async => return "__async"
  | .asyncGenerator => return "__asyncGenerator"

end FuncMode

/-- Decides what becomes of a function, and tells the user where nothing can be done. -/
def funcMode (span : Span) (isAsync isGenerator : Bool) : Lower FuncMode := do
  let generators ← supports .generator
  match isAsync, isGenerator with
  | false, false => return .native
  | false, true =>
    if !generators then unsupported span .generator
    return .native
  | true, false =>
    if ← supports .asyncAwait then return .native
    if generators then return .async
    unsupported span .asyncFunction
    return .native
  | true, true =>
    if ← supports .asyncGenerator then return .native
    if generators then return .asyncGenerator
    if ← lacks .asyncAwait then unsupported span .asyncFunction
    else unsupported span .generator
    return .native

/-- A call of an arrow function whose parameter holds a made-up name while its body is evaluated. -/
def hostName (span : Span) (name : String) (body : Expr) : Expr :=
  .call span (.of span (.arrow ⟨span, true, false, false, [.ofName span name], .value body⟩)) []

/-- Lowers an expression whose made-up names the body cannot declare: they become parameters of
functions around it, the first one outermost. -/
def hosted (span : Span) (step : Lower Expr) : Lower Expr := do
  let outside := withReader (fun (setting : Setting) => { setting with inParams := false }) step
  let (value, declared) ← inFrame .params (← get).temps.owner outside
  return declared.foldr (fun temp body => hostName span temp.name body) value

/-- Lowers an expression at the root of a default value or a key, which may belong to a
parameter. -/
def rooted (forms : ExprForms) : Lower Expr := do
  if (← read).inParams then hosted forms.source.span forms.value else forms.value

/-- Lowers a pattern that declares. -/
def declaredPattern (forms : PatternForms) : Lower Pattern := do
  if forms.source.name?.isNone then
    require .destructuring forms.source.span .destructuring
  forms.bound

/-- Lowers a parameter. -/
def lowerParam (source : Param) (pattern : PatternForms) (default : Option ExprForms) :
    Lower Param := do
  if source.isRest then require .restArgument source.span .restArguments
  if default.isSome then require .defaultArgument source.span .defaultArguments
  let pattern ← declaredPattern pattern
  let default ← default.mapM rooted
  return { source with pattern, default }

/-- The number of parameters before the first one with a default value or a rest. -/
def arity (params : List Param) : Nat :=
  (params.takeWhile fun param => !param.isRest && param.default.isNone).length

/-- The name of the parameter with the index when its real one moves inside. -/
def placeholderName (index : Nat) : String :=
  "_" ++ toString index

/-- The parameters that stay on an arrow function outside, and the array of its arguments. -/
def arrowForwarding (span : Span) (params : List Param) : List Param × Expr :=
  let names := (List.range (arity params)).map placeholderName
  let rest := placeholderName (arity params)
  (names.map (.ofName span) ++ [{ Param.ofName span rest with isRest := true }],
    .of span (.array
      (names.map (fun name => .single (.id span name)) ++ [.spread (.id span rest)])))

/-- Moves the body of an asynchronous function into a generator. Forwarded parameters move along,
and the function passes its arguments on. -/
def toGenerator (driver : String) (forwards usesThis : Bool) (func : Func) : Func :=
  let span := func.span
  let (outer, inner, args) :=
    if !forwards then (func.params, [], .null span)
    else if func.isArrow then
      let (outer, args) := arrowForwarding span func.params
      (outer, func.params, args)
    else
      ((List.range (arity func.params)).map fun index => .ofName span (placeholderName index),
        func.params, .id span "arguments")
  let receiver := if !func.isArrow || usesThis then .this span else .null span
  let generator : Func := ⟨span, false, false, true, inner, .block func.body.stmts⟩
  let call := .helper span driver [receiver, args, .of span (.function none generator)]
  { func with
    isAsync := false
    isGenerator := false
    params := outer
    body := if func.isArrow then .value call else .block [.returns span call] }

/-- Declares made-up names in a body. -/
def declareInBody (span : Span) (temps : List Temp) (body : Body) : Body :=
  if temps.isEmpty then body else .block (Temp.declareIn span temps body.stmts)

/-- Puts a statement behind the directives of a body. -/
def insertInBody (stmt : Stmt) (body : Body) : Body :=
  .block (body.stmts.takeWhile Temp.isPrologue ++ stmt :: body.stmts.dropWhile Temp.isPrologue)

/-- Moves the rests of object patterns from the parameters into the body. -/
def moveParamRests (params : List Param) (body : Body) : Lower (List Param × Body) := do
  if ← supports .objectRestSpread then return (params, body)
  let (params, declaration) ← splitParams params
  match declaration with
  | some stmt => return (params, insertInBody stmt body)
  | none => return (params, body)

/-- Lowers a function of any kind. -/
def lowerFunc (source : Func) (params : Lower (List Param)) (body : Lower Body) : Lower Func := do
  let span := source.span
  let mode ← funcMode span source.isAsync source.isGenerator
  let setting ← read
  let mayThrow := source.params.any setting.options.paramPurity.mayThrow
  let scope := (setting.scopes.scopeAt? span .function).getD ScopeTree.root
  let losesArrow := source.isArrow && (← lacks .arrow)
  let isKept ← supports (if source.isGenerator then .asyncGenerator else .asyncAwait)
  let inside : Lower ((List Param × Body) × Owner) := do
    let owner : Owner :=
      { kind := if source.isArrow then .arrow else .function
        frame := (← get).temps.current
        losesArrow
        isLifted := source.isArrow && mode != .native
        awaitForm := mode.awaitForm
        isNativeAsync := source.isAsync && mode == .native && isKept }
    inOwner owner do
      let params ← inParams params
      let body ← body
      moveParamRests params body
  let (((params, body), owner), temps) ← inFrame .function scope inside
  let func := { source with params, body := declareInBody span temps body }
  if mode = .native then return func
  let driver ← mode.driver
  let forwards := mayThrow || (!source.isArrow && owner.usesArguments)
  return toGenerator driver forwards owner.usesThis func

/-- An arrow function as a function expression. -/
def arrowToFunction (span : Span) (func : Func) : Expr :=
  .of span (.function none { func with isArrow := false, body := .block func.body.stmts })

end Lowering

end Downlevel
