import Downlevel.Lowering.Function
import Downlevel.Lowering.Operation

/-! Loops over a subject, and those that wait for each of its values. -/

namespace Downlevel

namespace Lowering

/-- The pattern of a loop, which is assigned when no keyword declares it. -/
def loopBinding (keyword : Option DeclKeyword) (binding : PatternForms) : Lower Pattern := do
  let pattern ← match keyword with
    | none => binding.bound
    | some keyword => do
      if keyword ≠ .varDecl then
        require .constAndLet binding.source.span (.lexicalDeclaration keyword)
      declaredPattern binding
  unsplittableRest pattern
  return pattern

/-- The names that a loop uses when it waits without syntax for it. -/
structure LoopNames where
  iter : String
  more : String
  temp : String
  error : String

/-- A loop that waits for each value and closes the iterator when it ends early:
```
try {
  for (var iter = __forAwait(subject), more, temp, error;
      more = !(temp = await iter.next()).done;
      more = false) {
    body
  }
} catch (temp) {
  error = [temp];
} finally {
  try {
    more && (temp = iter.return) && await temp.call(iter);
  } finally {
    if (error) throw error[0];
  }
}
```
-/
def awaitingLoop (span : Span) (names : LoopNames) (subject : Expr) (body : List Stmt) :
    Lower Stmt := do
  let iter := Expr.id span names.iter
  let more := Expr.id span names.more
  let temp := Expr.id span names.temp
  let error := Expr.id span names.error
  let step ← awaited span (.call span (.member span iter "next") [])
  let closing ← awaited span (.call span (.member span temp "call") [iter])
  let isDone := .member span (.assign span temp step) "done"
  let loop : Stmt :=
    ⟨span, .forDecl span .varDecl
      [.ofName span names.iter (some (.helper span "__forAwait" [subject])),
        .ofName span names.more none, .ofName span names.temp none, .ofName span names.error none]
      (some (.assign span more (.unary span .logicalNot isDone)))
      (some (.assign span more (.bool span false)))
      (.block span body)⟩
  let keep := Stmt.expr (.assign span error (.array span [temp]))
  let close := .binary span .logicalAnd
    (.binary span .logicalAnd more (.assign span temp (.member span iter "return"))) closing
  let rethrow : Stmt :=
    ⟨span, .ifThen error ⟨span, .throw (.computed span error (.num span "0"))⟩⟩
  let finish : Stmt := ⟨span, .tryFinally ⟨span, [.expr close]⟩ ⟨span, [rethrow]⟩⟩
  return ⟨span, .tryCatchFinally ⟨span, [loop]⟩ (some (.id span names.temp)) ⟨span, [keep]⟩
    ⟨span, [finish]⟩⟩

/-- Tells the user about a keyword that the target lacks. -/
def requireKeyword (span : Span) (keyword : DeclKeyword) : Lower Unit := do
  if keyword ≠ .varDecl then require .constAndLet span (.lexicalDeclaration keyword)

/-- Declares the names of declarators that are lowered, without the rests of object patterns that
the target lacks. -/
def finishDeclarators (declarators : List Declarator) : Lower (List Declarator) := do
  if ← lacks .objectRestSpread then splitDeclarators declarators else return declarators

/-- Binds the pattern of a loop to a value, as a statement. -/
def bindValue (span : Span) (keyword : Option DeclKeyword) (binding : PatternForms)
    (value : Expr) : Lower Stmt := do
  match keyword with
  | some keyword =>
    requireKeyword span keyword
    let pattern ← declaredPattern binding
    return ⟨span, .varDecl false keyword (← finishDeclarators [⟨pattern, some value⟩])⟩
  | none => return ⟨span, .expr (← plainAssignment ⟨span, false⟩ binding.assigned (return value))⟩

/-- A loop that stays one over a subject. -/
def nativeLoop (span : Span) (isAwait : Bool) (keyword : Option DeclKeyword)
    (binding : PatternForms) (subject : Lower Expr) (body : StmtForms) : Lower Stmt := do
  let pattern ← loopBinding keyword binding
  let subject ← subject
  return ⟨span, .forOf isAwait keyword pattern subject (← body.single)⟩

/-- A loop that waits for each value of its subject. -/
def forAwaitLoop (span : Span) (keyword : Option DeclKeyword) (binding : PatternForms)
    (subject : Lower Expr) (body : StmtForms) : Lower Stmt := do
  let owner ← here
  let isNative ← supports .forAwait
  if owner.kind = .module ∧ (← lacks .topLevelAwait) then
    -- A loop that never runs need not wait.
    if (← read).isDead then return ← nativeLoop span false keyword binding subject body
    report span .topLevelAwait
    nativeLoop span true keyword binding subject body
  else if owner.awaitForm ≠ .await
      ∨ (!isNative ∧ (owner.kind = .module ∨ owner.isNativeAsync)) then
    let names : LoopNames :=
      { iter := ← allocNamedBound "iter"
        more := ← allocNamedBound "more"
        temp := ← allocNamedBound "temp"
        error := ← allocNamedBound "error" }
    let subject ← subject
    let value := .member span (.id span names.temp) "value"
    let first ← bindValue span keyword binding value
    awaitingLoop span names subject (first :: (← body.unbraced))
  else
    if !isNative then unsupported span .forAwaitLoop
    nativeLoop span true keyword binding subject body

end Lowering

end Downlevel
