import Downlevel.Lowering
import Downlevel.Proofs.Remaining.Walk

/-! What is left of a whole program once it is lowered. -/

namespace Downlevel

open Lowering

namespace Lowering

/-- Ends the group of names of the module, and gives those to declare. -/
def closeGroup : Lower (List Temp) := do
  let progress ← get
  set { progress with temps := progress.temps.finishGroup.2 }
  return progress.temps.finishGroup.1

/-- Lowering a module ends a group of names behind every statement. -/
theorem moduleStep_cons (stmt : Stmt) (rest : List Stmt) :
    moduleStep (stmt :: rest) = (do
      let stmts ← (stmtForms stmt).stmts
      let declared ← closeGroup
      let others ← moduleStep rest
      return (if declared.isEmpty then [] else [Temp.declaration stmt.span declared])
        ++ stmts ++ others) :=
  rfl

end Lowering

/-- Nothing is handed out yet at the start. -/
theorem Temps.isSound_empty {scopes : ScopeTree} : Temps.IsSound scopes {} := by
  constructor
  · intro frame mem
    obtain rfl := List.mem_singleton.mp mem
    exact nofun
  · exact nofun

namespace Ending

variable {ending : Ending} {site : Site}

/-- The names of a group are given by plain values. -/
theorem leaves_closeGroup :
    ending.Leaves site closeGroup fun declared => ∀ temp ∈ declared, temp.IsPlain := by
  rintro setting before _ _ fits ⟨⟩
  obtain ⟨plain, sound⟩ := fits.temps.finishGroup
  exact ⟨⟨fun _ => id, rfl, fun _ => sound⟩, fun _ => plain⟩

/-- The statements of a module, with the names that they need, leave nothing but what may remain. -/
theorem leaves_module (stmts : List Stmt) (given : ending.Given site (stmtsNodes stmts)) :
    ending.Leaves site (moduleStep stmts) fun stmts => ending.Keeps site (stmtsNodes stmts) := by
  -- Statement by statement: the temporaries of the group stand in front of what is made of the
  -- statement.
  induction stmts with
  | nil => exact .pure throughout_nil
  | cons stmt rest ih =>
    obtain ⟨inStmt, inRest⟩ := throughout_append.mp given
    rw [moduleStep_cons]
    refine (leaves_stmt stmt inStmt).stmts.bind fun stmts => leaves_closeGroup.bind fun declared => ?_
    refine (ih inRest).bind fun others => .pure fun keepsRest plain keepsStmts => ?_
    refine keeps_stmts.mpr (List.forall_mem_append.mpr
      ⟨List.forall_mem_append.mpr ⟨?_, keeps_stmts.mp keepsStmts⟩, keeps_stmts.mp keepsRest⟩)
    split
    · exact nofun
    · exact List.forall_mem_singleton.mpr (keeps_declaration plain)

/-- What is known at the end of a run over a program that was read. -/
def ofRun (options : Options) (scopes : ScopeTree) (lowered : Lowered)
    (stepsChain waitsInStatic misplaced : Prop) (isOuter : String → Prop) : Ending where
  target := options.target
  reported problem := ∃ report ∈ lowered.reports, report.problem = problem
  isRead := True
  stepsChain
  waitsInStatic
  misplaced
  scopes
  isOuter

/-- What is known at the end of a run over any program. -/
def ofAnyRun (options : Options) (scopes : ScopeTree) : Ending where
  target := options.target
  reported _ := True
  isRead := False
  stepsChain := True
  waitsInStatic := True
  misplaced := True
  scopes
  isOuter _ := True

/-- Nothing need be known about a program that was not read. -/
theorem given_ofAnyRun {options : Options} {scopes : ScopeTree} (nodes : List Occurrence) :
    (ofAnyRun options scopes).Given site nodes :=
  fun _ _ => ⟨nofun, fun _ => trivial, fun _ _ => trivial, fun _ => .inr (.inr trivial),
    fun _ => .inr trivial, fun _ _ => trivial⟩

/-- A run starts right in the module. -/
theorem fits_start {options : Options} {scopes : ScopeTree} (target : options.target = ending.target)
    (same : scopes = ending.scopes) : ending.Fits (.own false) { options, scopes } {} where
  target := target
  scopes := same
  suits := ⟨rfl, rfl⟩
  dead := by
    rintro isDead ⟨⟩
    rfl
  params := nofun
  temps := Temps.isSound_empty

end Ending

variable {program : Program} {options : Options} {scopes : ScopeTree} {lowered : Lowered}

/-- A program lowers to what its statements become. -/
theorem Program.lower_of_ok {body : List Stmt} {progress : Progress}
    (ran : moduleStep program.body { options, scopes } {} = .ok (body, progress)) :
    program.lower options scopes = .ok {
      program := ⟨body⟩
      reports := progress.reports
      scopes := progress.temps.handedOut.names.foldl ScopeTree.reserve scopes } := by
  unfold Program.lower
  simp only [ReaderT.run, StateT.run, ran]
  rfl

/-- A program whose statements cannot be lowered cannot be lowered. -/
theorem Program.lower_of_error {fault : Fault}
    (ran : moduleStep program.body { options, scopes } {} = .error fault) :
    program.lower options scopes = .error fault := by
  unfold Program.lower
  simp only [ReaderT.run, StateT.run, ran]
  rfl

/-- A program that was lowered is one run over its statements. -/
theorem Program.lower_eq (run : program.lower options scopes = .ok lowered) :
    ∃ progress, moduleStep program.body { options, scopes } {} = .ok (lowered.program.body, progress)
      ∧ lowered.reports = progress.reports
      ∧ lowered.scopes = progress.temps.handedOut.names.foldl ScopeTree.reserve scopes := by
  -- The module step runs to a result, or the program has none.
  cases ran : moduleStep program.body { options, scopes } {} with
  | error fault =>
    rw [Program.lower_of_error ran] at run
    cases run
  | ok ended =>
    obtain ⟨body, progress⟩ := ended
    rw [Program.lower_of_ok ran] at run
    cases run
    exact ⟨progress, rfl, rfl, rfl⟩

/-- Nothing is left of a program but what may remain. -/
theorem Program.lower_keeps {stepsChain waitsInStatic misplaced : Prop} {isOuter : String → Prop}
    (given : (Ending.ofRun options scopes lowered stepsChain waitsInStatic misplaced isOuter).Given
      (.own false) program.nodes)
    (run : program.lower options scopes = .ok lowered) :
    (Ending.ofRun options scopes lowered stepsChain waitsInStatic misplaced isOuter).Keeps
      (.own false) lowered.program.nodes := by
  obtain ⟨progress, ran, reports, -⟩ := Program.lower_eq run
  obtain ⟨-, keeps⟩ :=
    Ending.leaves_module program.body given _ _ _ _ (Ending.fits_start rfl rfl) ran
  exact keeps ⟨trivial, fun report mem => ⟨report, reports ▸ mem, rfl⟩⟩

end Downlevel
