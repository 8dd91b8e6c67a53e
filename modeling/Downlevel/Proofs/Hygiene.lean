import Downlevel.Proofs.Remaining.Programs
import Downlevel.Proofs.Runs
import Downlevel.Proofs.TempHistory

/-! Made-up names meet nothing: neither each other while they could be mixed up, nor the names of the
source, nor those that an earlier run over the same scopes made up. -/

namespace Downlevel

/-- The names that lowering a program makes up. -/
def Program.handedOut (program : Program) (options : Options) (scopes : ScopeTree) : List String :=
  match Lowering.moduleStep program.body { options, scopes } {} with
  | .ok (_, progress) => progress.temps.handedOut.names
  | .error _ => []

/-- Reserved names are recorded, and those recorded before stay so. -/
theorem ScopeTree.mem_foldl_reserve {name : String} (names : List String) (scopes : ScopeTree) :
    name ∈ (names.foldl reserve scopes).names.names
      ↔ name ∈ scopes.names.names ∨ name ∈ names := by
  induction names generalizing scopes with
  | nil => simp
  | cons first rest ih =>
    rw [List.foldl_cons, ih, reserve, NameSet.mem_insert, List.mem_cons, or_assoc, or_left_comm]

namespace Program

variable {program : Program} {options : Options} {scopes : ScopeTree} {lowered : Lowered}
  {name : String}

/-- The scopes record what they did before, and every name that was made up. -/
theorem mem_scopes_of_lower (run : program.lower options scopes = .ok lowered) :
    name ∈ lowered.scopes.names.names
      ↔ name ∈ scopes.names.names ∨ name ∈ program.handedOut options scopes := by
  obtain ⟨progress, ran, -, reserved⟩ := lower_eq run
  rw [reserved, ScopeTree.mem_foldl_reserve, handedOut, ran]

/-- No name that is made up is one of those that the scopes record. -/
theorem handedOut_unrecorded (isMadeUp : name ∈ program.handedOut options scopes) :
    name ∉ scopes.names.names := by
  -- Only a program that is lowered hands out names, and its run starts with nothing recorded.
  unfold handedOut at isMadeUp
  split at isMadeUp
  · rename_i body progress ran
    have fits : (Ending.ofAnyRun options scopes).Fits (.own false) { options, scopes } {} :=
      Ending.fits_start rfl rfl
    obtain ⟨goes, -⟩ :=
      Ending.leaves_module program.body (Ending.given_ofAnyRun _) _ _ _ _ fits ran
    exact (goes.temps Temps.isSound_empty).unrecorded name isMadeUp
  · cases isMadeUp

end Program

/-- Every request that can be made is answered, and the answers keep apart what could be mixed up.
Two runs over the same scopes, one after the other, have no made-up name in common. -/
theorem temps_hygienic :
    (∀ (scopes : ScopeTree) (requests : List TempRequest), Proper 0 requests →
      ∃ temps history, Temps.answerAll? scopes requests ({}, {}) = some (temps, history)
        ∧ Hygienic scopes temps history)
    ∧ ∀ (first second : Program) (options others : Options) (scopes : ScopeTree)
        (lowered again : Lowered), first.lower options scopes = .ok lowered →
      second.lower others lowered.scopes = .ok again →
      ∀ name ∈ first.handedOut options scopes, name ∉ second.handedOut others lowered.scopes := by
  constructor
  · -- One request after the other keeps the record, which has all that hygiene asks for.
    intro scopes requests proper
    obtain ⟨temps, history, answered, recorded⟩ :=
      Recorded.answerAll requests (@Recorded.start scopes) proper
    exact ⟨temps, history, answered, recorded.hygienic⟩
  · -- Names of the first run are in its scopes afterwards, and the second run makes up none of
    -- these.
    intro first second options others scopes lowered again run _ name isMadeUp isMadeUpAgain
    refine Program.handedOut_unrecorded isMadeUpAgain ?_
    exact (Program.mem_scopes_of_lower run).mpr (.inr isMadeUp)

/-- A frame that is opened and closed inside of the module, with names of both asked for in between,
and a program that is lowered once more for another target. -/
theorem temps_hygienic_example :
    let requests : List TempRequest :=
      [.alloc none none none true, .push .function 1, .alloc (some 0) none none true,
        .alloc none (some "_this") (some (.of ⟨0, 0⟩ .this)) true, .pop,
        .alloc none (some "_this") none false, .finishGroup, .alloc none none none true]
    let options : Options := { target := { unsupported := [.nullishCoalescing] } }
    let others : Options := { target := { unsupported := [.optionalChain] } }
    (∃ temps history, Temps.answerAll? {} requests ({}, {}) = some (temps, history)
        ∧ Hygienic {} temps history)
      ∧ ∃ parsed lowered again, parse "a()?.b ?? c" = .ok parsed
        ∧ parsed.program.lower options parsed.program.scopes = .ok lowered
        ∧ lowered.program.lower others lowered.scopes = .ok again
        ∧ ∀ name ∈ parsed.program.handedOut options parsed.program.scopes,
          name ∉ lowered.program.handedOut others lowered.scopes := by
  intro requests options others
  refine ⟨temps_hygienic.1 {} requests rfl, ?_⟩
  -- The second lowering reads the scopes that the first one leaves, so its run depends on that one.
  let runsAgain (lowered : Lowered) : Bool := (lowered.program.lower others lowered.scopes).isOk
  obtain ⟨parsed, lowered, read, run, isOk⟩ :=
    exists_of_lowersTo (show lowersTo "a()?.b ?? c" options runsAgain = true by decide +kernel)
  obtain ⟨again, run'⟩ := exists_of_isOk isOk
  exact ⟨parsed, lowered, again, read, run, run', temps_hygienic.2 _ _ _ _ _ _ _ run run'⟩

end Downlevel
