import Downlevel.Lowering.Class
import Downlevel.Lowering.Loop
import Downlevel.Text.Decimal

/-! Statements, of which some turn into several and some vanish. -/

namespace Downlevel

namespace Lowering

/-- Whether a test is always true or always false, as far as its literal tells. -/
def knownTruth (test : Expr) : Option Bool :=
  match test.shape with
  | .bool value => some value
  | .null => some false
  | .num text => (Text.decimal? text).map (!·.roundsToZero)
  | .str value => some !value.isEmpty
  | .unary .void _ => some false
  | _ => none

/-- The value of a collapsed chain is not used by a statement, so only what else it does stays. -/
def exprStmt (span : Span) (value : Expr) : List Stmt :=
  if !value.origin.collapsed then [⟨span, .expr value⟩]
  else
    match value.shape with
    | .binary .comma left _ => [⟨span, .expr left⟩]
    | _ => []

/-- Lowers a declaration of variables. -/
def varDeclarators (span : Span) (keyword : DeclKeyword)
    (declarators : Lower (List Declarator)) : Lower (List Declarator) := do
  requireKeyword span keyword
  finishDeclarators (← declarators)

/-- Lowers a condition with its branches, of which one may never run. -/
def ifStatement (span : Span) (test : Lower Expr) (consequent : StmtForms)
    (alternate : Option StmtForms) : Lower Stmt := do
  let test ← test
  let truth := knownTruth test
  let consequent ← inBranch (truth = some false) consequent.single
  match alternate with
  | none => return ⟨span, .ifThen test consequent⟩
  | some alternate =>
    return ⟨span, .ifElse test consequent (← inBranch (truth = some true) alternate.single)⟩

/-- The parameter of a handler. A handler without one gets a name where it needs one. -/
def handlerParam (span : Span) (param : Option PatternForms) : Lower (Option Pattern) := do
  match param with
  | some param =>
    let pattern ← declaredPattern param
    unsplittableRest pattern
    return some pattern
  | none =>
    if ← lacks .optionalCatchBinding then return some (.id span (← allocNamedBound "e"))
    else return none

/-- What an export statement becomes; a whole module under one name is imported first. -/
def exportStatement (span : Span) (names : ExportNames) (module : Option String) :
    Lower (List Stmt) := do
  match names, module with
  | .all (some outer), some source =>
    if ← lacks .exportStarAs then
      let inner ← if Text.isIdentifierName outer ∧ outer ≠ "default" then allocNamedBound outer
        else allocBound
      return [⟨span, .importNames none (some (.all inner)) source⟩,
        ⟨span, .exportNames (.specific [⟨.identifier inner, outer⟩]) none⟩]
    return [⟨span, .exportNames names module⟩]
  | _, _ => return [⟨span, .exportNames names module⟩]

end Lowering

end Downlevel
