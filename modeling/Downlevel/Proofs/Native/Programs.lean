import Downlevel.Proofs.Native.Walk
import Downlevel.Proofs.Reading.Programs
import Downlevel.Proofs.Remaining.Programs
import Downlevel.Proofs.Runs

/-! Lowering for a target that has every feature changes nothing: neither the program nor its scopes,
and there is nothing to report. -/

namespace Downlevel

open Lowering

namespace Native

variable {scopes : ScopeTree}

/-- The statements of a module stay, and as long as no name is made up nothing is declared between
them. -/
theorem moduleStep_unchanged {setting : Setting} (stmts : List Stmt)
    (given : Given scopes (stmtsNodes stmts)) {before : Progress}
    (calm : Calm scopes setting before) (fresh : before.temps = {}) :
    ∃ after, moduleStep stmts setting before = .ok (stmts, after) ∧ Idle before after := by
  induction stmts generalizing before with
  | nil => exact ⟨before, rfl, .refl before⟩
  | cons stmt rest ih =>
    obtain ⟨inStmt, inRest⟩ := given_append.mp given
    obtain ⟨_, middle, ran, idle, rfl⟩ := (stays_stmt stmt inStmt).stmts setting before calm
    have stillFresh : middle.temps = {} := idle.temps.trans fresh
    obtain ⟨after, ranRest, idleRest⟩ := ih inRest (calm.later idle) stillFresh
    refine ⟨after, ?_, idle.trans idleRest⟩
    -- The group of names that ends behind the statement is empty.
    have closed : closeGroup setting middle = .ok ([], middle) := by
      obtain ⟨temps, reports, owners⟩ := middle
      obtain rfl : temps = {} := stillFresh
      rfl
    rw [moduleStep_cons, run_bind ran, run_bind closed, run_bind ranRest]
    rfl

end Native

/-- Some optional chain of the program stands on a literal `null`, or on an `undefined` that no scope
declares. -/
def Program.SkipsChain (program : Program) (scopes : ScopeTree) : Prop :=
  ∃ found ∈ program.nodes, found.node.isSkipped scopes = true

instance (program : Program) (scopes : ScopeTree) : Decidable (program.SkipsChain scopes) :=
  inferInstanceAs (Decidable (∃ found ∈ program.nodes, found.node.isSkipped scopes = true))

/-- A program that was read stays as it is where the target has every feature, unless it has a chain
that never runs. Nothing is reported, and no name is made up. -/
theorem Program.lower_unchanged {source : String} {parsed : Parsed} {options : Options}
    {scopes : ScopeTree} (read : parse source = .ok parsed)
    (complete : ∀ feature, options.target.supports feature = true)
    (runs : ¬parsed.program.SkipsChain scopes) :
    parsed.program.lower options scopes = .ok ⟨parsed.program, [], scopes⟩ := by
  have formed := formed_of_parse read
  -- The parsed program is well-formed, and none of its chains may be skipped: that is what the walk
  -- asks of every node.
  have given : Native.Given scopes parsed.program.nodes := by
    intro found mem
    refine ⟨formed found mem, ?_⟩
    cases skipped : found.node.isSkipped scopes with
    | false => rfl
    | true => exact absurd ⟨found, mem, skipped⟩ runs
  -- The start of the run: the module is the one owner, and nothing is kept.
  have calm : Native.Calm scopes { options, scopes } {} := {
    scopes := rfl
    supports := complete
    kept := List.forall_mem_nil _
    owners := by
      intro owner mem
      obtain rfl := List.mem_singleton.mp mem
      exact ⟨by decide, rfl, rfl, rfl⟩
    owned := List.cons_ne_nil _ _ }
  obtain ⟨after, ran, idle⟩ := Native.moduleStep_unchanged _ given calm rfl
  rw [Program.lower_of_ok ran, idle.reports, idle.temps]
  rfl

/-- A class with private names and an asynchronous function, with chains that may run. -/
theorem Program.lower_unchanged_example :
    let source := "class A \x7b #b = 1; static c = async (x = this?.d) => await x ?? A.#b?.(); \x7d"
    let options : Options := { target := { edition := .esNext } }
    ∃ parsed, parse source = .ok parsed
      ∧ (∀ feature, options.target.supports feature = true)
      ∧ ¬parsed.program.SkipsChain parsed.program.scopes
      ∧ parsed.program.lower options parsed.program.scopes
        = .ok ⟨parsed.program, [], parsed.program.scopes⟩ := by
  intro source options
  have complete : ∀ feature, options.target.supports feature = true := by
    intro feature
    cases feature <;> rfl
  -- The program is parsed and searched by evaluation.
  obtain ⟨parsed, read, runs⟩ := exists_of_readsTo
    (show readsTo source (fun parsed => decide ¬parsed.program.SkipsChain parsed.program.scopes) = true
      by decide +kernel)
  have runs : ¬parsed.program.SkipsChain parsed.program.scopes := of_decide_eq_true runs
  exact ⟨parsed, read, complete, runs, Program.lower_unchanged read complete runs⟩

end Downlevel
