import Downlevel.Lowering.Class.Body
import Downlevel.Tree.Rename

/-! Class declarations and class expressions, and the names that code behind a class uses for it. -/

namespace Downlevel

namespace Lowering

/-- Expressions as one statement, if there are any. -/
def sequenceStmt : List Expr → List Stmt
  | [] => []
  | first :: rest => [.expr (.sequence first rest)]

/-- A declaration of one name. -/
def declareName (span : Span) (isExported : Bool) (keyword : DeclKeyword) (name : String)
    (value : Expr) : Stmt :=
  ⟨span, .varDecl isExported keyword [.ofName span name (some value)]⟩

/-- Exports a name as the default. -/
def exportAsDefault (span : Span) (name : String) : Stmt :=
  ⟨span, .exportNames (.specific [⟨.identifier name, "default"⟩]) none⟩

/-- Lowers a class declaration. A class whose static code mentions `this` gets a name that nothing
can change. -/
def classDeclaration (span : Span) (exported : Exported) (name : Option String)
    (heritage : Option (Lower Expr)) (source : List ClassMember) (forms : List ClassMemberForms) :
    Lower (List Stmt) := do
  let lowered ← lowerClass span heritage source forms
  let before := sequenceStmt lowered.before
  if lowered.behind.isEmpty then
    return before ++ [⟨span, .classDecl exported name lowered.heritage lowered.members⟩]
  let name ← match name with
    | some name => pure name
    | none => allocNamedBound ((← read).options.fileStem ++ "_default")
  if !lowered.usesThis then
    let behind := renameInExprs lowered.placeholder name lowered.behind
    return before
      ++ ⟨span, .classDecl exported (some name) lowered.heritage lowered.members⟩
      :: behind.map Stmt.expr
  let inner ← allocNamedBound ("_" ++ name)
  let members := renameInMembers name inner lowered.members
  let behind := renameInExprs lowered.placeholder inner (renameInExprs name inner lowered.behind)
  let value := .of span (.classExpr (some inner) lowered.heritage members)
  return before
    ++ declareName span false .constDecl inner value
    :: behind.map Stmt.expr
    ++ declareName span (exported == .byName) .letDecl name (.id span inner)
    :: if exported = .asDefault then [exportAsDefault span name] else []

/-- Lowers a class expression. -/
def classExpression (span : Span) (name : Option String) (heritage : Option (Lower Expr))
    (source : List ClassMember) (forms : List ClassMemberForms) : Lower Expr := do
  let lowered ← lowerClass span heritage source forms
  if lowered.behind.isEmpty then
    return inSequence lowered.before
      (.of span (.classExpr name lowered.heritage lowered.members))
  let temp ← alloc
  let (members, behind) := match name with
    | some name =>
      (renameInMembers name temp lowered.members, renameInExprs name temp lowered.behind)
    | none => (lowered.members, lowered.behind)
  let behind := renameInExprs lowered.placeholder temp behind
  let made := .assign span (.id span temp) (.of span (.classExpr none lowered.heritage members))
  return inSequence (lowered.before ++ made :: behind) (.id span temp)

end Lowering

end Downlevel
