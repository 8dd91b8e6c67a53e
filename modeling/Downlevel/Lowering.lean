import Downlevel.Lowering.Walk

/-! Lowering a whole program for a target. -/

namespace Downlevel

namespace Lowering

/-- Lowers the statements of a module. The names made up for a statement are declared in front of
it. -/
def moduleStep : List Stmt → Lower (List Stmt)
  | [] => return []
  | stmt :: rest => do
    let stmts ← (stmtForms stmt).stmts
    let progress ← get
    let (declared, temps) := progress.temps.finishGroup
    set { progress with temps }
    let declaration := if declared.isEmpty then [] else [Temp.declaration stmt.span declared]
    return declaration ++ stmts ++ (← moduleStep rest)

end Lowering

/-- A program that is lowered, with what there is to tell about it, and its scopes with the names
that were made up. -/
structure Lowered where
  program : Program
  reports : List Report
  scopes : ScopeTree

/-- Lowers what the target lacks. What cannot be lowered stays and is reported. -/
def Program.lower (program : Program) (options : Options) (scopes : ScopeTree) :
    Except Lowering.Fault Lowered := do
  let (body, progress) ← (Lowering.moduleStep program.body).run { options, scopes } |>.run {}
  return {
    program := ⟨body⟩
    reports := progress.reports
    scopes := progress.temps.handedOut.names.foldl ScopeTree.reserve scopes }

end Downlevel
