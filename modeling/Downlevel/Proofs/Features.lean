import Downlevel.Proofs.Reading.Programs
import Downlevel.Proofs.Remaining.Programs
import Downlevel.Proofs.Runs

/-! What a program that was read still needs of its target once it is lowered: nothing that can be
written in another way, nothing else that was not reported, and no function that cannot wait or hand
out values where it does. -/

namespace Downlevel

namespace Program

/-- The program counts a link of an optional chain up or down. -/
def StepsChain (program : Program) : Prop :=
  ∃ found ∈ program.nodes, found.node.StepsChain

/-- The program waits in static code of a class. -/
def WaitsInStatic (program : Program) : Prop :=
  ∃ found ∈ program.nodes, found.site = .static ∧ found.node.Waits

/-- Whatever waits belongs to the module or to an asynchronous function, and whatever hands out
values to a generator. -/
def WellPlaced (program : Program) : Prop :=
  ∀ found ∈ program.nodes, found.site.Allows found.node

/-- The names in the import and export lists of a program that are not those of the module. -/
def outerNames (program : Program) : List String :=
  program.nodes.flatMap (·.node.outerNames)

end Program

section Decidable

/-- Whether a node waits for a promise. -/
def Node.waits : Node → Bool
  | .shape (.unary .await _) | .stmt (.forOf true ..) => true
  | _ => false

/-- Whether a node hands out a value of a generator. -/
def Node.yields : Node → Bool
  | .shape (.yield ..) => true
  | _ => false

/-- Whether a node waits can be decided. -/
theorem Node.waits_iff {node : Node} : node.waits = true ↔ node.Waits := by
  unfold waits Waits
  split <;> simp

/-- Whether a node hands out a value can be decided. -/
theorem Node.yields_iff {node : Node} : node.yields = true ↔ node.Yields := by
  unfold yields Yields
  split <;> simp

instance (node : Node) : Decidable node.Waits :=
  decidable_of_iff _ Node.waits_iff

instance (node : Node) : Decidable node.Yields :=
  decidable_of_iff _ Node.yields_iff

instance (site : Site) (node : Node) : Decidable (site.Allows node) :=
  decidable_of_iff ((node.Waits → site.canAwait = true) ∧ (node.Yields → site.canYield = true))
    ⟨fun ⟨await, yield⟩ => ⟨await, yield⟩, fun allows => ⟨allows.await, allows.yield⟩⟩

instance (program : Program) : Decidable program.WellPlaced :=
  inferInstanceAs (Decidable (∀ found ∈ program.nodes, found.site.Allows found.node))

end Decidable

/-- Sites are the same seen from the module. -/
@[simp] theorem Site.own_false_into (site : Site) : (Site.own false).into site = site := by
  cases site <;> simp [into, branch]

variable {source : String} {parsed : Parsed} {options : Options} {scopes : ScopeTree}
  {lowered : Lowered}

/-- What a program that was read leaves behind. -/
def Lowered.ending (lowered : Lowered) (program : Program) (options : Options)
    (scopes : ScopeTree) (misplaced : Prop) : Ending :=
  .ofRun options scopes lowered program.StepsChain program.WaitsInStatic misplaced
    (· ∈ program.outerNames)

/-- Every node of a program that was read is one that lowering can be given, if it is well placed or
need not stay so. -/
theorem Parsed.given {misplaced : Prop} (read : parse source = .ok parsed)
    (placed : ¬misplaced → parsed.program.WellPlaced) :
    (lowered.ending parsed.program options scopes misplaced).Given (.own false)
      parsed.program.nodes := by
  have formed := formed_of_parse read
  -- What does not depend on where a node stands is known of all that was read. Only `await` and
  -- `yield` also need the right place, unless misplaced ones are allowed for.
  intro found mem
  rw [Site.own_false_into]
  have isOuter : ∀ name ∈ found.node.outerNames, name ∈ parsed.program.outerNames :=
    fun name isName => List.mem_flatMap.mpr ⟨found, mem, isName⟩
  by_cases isMisplaced : misplaced
  · exact ⟨fun _ => formed found mem, fun steps => ⟨found, mem, steps⟩,
      fun waits isStatic => ⟨found, mem, isStatic, waits⟩, fun _ => .inr (.inr isMisplaced),
      fun _ => .inr isMisplaced, isOuter⟩
  · have allows := placed isMisplaced found mem
    exact ⟨fun _ => formed found mem, fun steps => ⟨found, mem, steps⟩,
      fun waits isStatic => ⟨found, mem, isStatic, waits⟩,
      fun waits => .inr (.inl (allows.await waits)), fun yields => .inl (allows.yield yields),
      isOuter⟩

/-- Everything that is left of a program that was read may remain. -/
theorem accounts_lowered {misplaced : Prop} (read : parse source = .ok parsed)
    (placed : ¬misplaced → parsed.program.WellPlaced)
    (run : parsed.program.lower options scopes = .ok lowered) :
    ∀ found ∈ lowered.program.nodes,
      (lowered.ending parsed.program options scopes misplaced).Accounts found.site found.node := by
  intro found mem
  have accounts := Program.lower_keeps (Parsed.given read placed) run found mem
  rwa [Site.own_false_into] at accounts

/-- The names of a lowered program that are not those of the module are those of the source, but for that
of a default export. -/
theorem outerNames_lowered (read : parse source = .ok parsed)
    (run : parsed.program.lower options scopes = .ok lowered) :
    ∀ name ∈ lowered.program.outerNames, name = "default" ∨ name ∈ parsed.program.outerNames := by
  intro name isOuter
  obtain ⟨found, mem, isName⟩ := List.mem_flatMap.mp isOuter
  exact (accounts_lowered read (absurd trivial) run found mem).outside name isName

/-- Whatever can be written in another way is gone where the target lacks it, and so are optional
chains unless the source counts a link of one up or down. -/
theorem rewritables_removed (read : parse source = .ok parsed)
    (run : parsed.program.lower options scopes = .ok lowered) :
    ∀ found ∈ lowered.program.nodes,
      (∀ feature ∈ found.node.rewritable?, options.target.supports feature = true)
      ∧ (options.target.supports .generator = true →
        ∀ feature ∈ found.node.asynchronous?, options.target.supports feature = true)
      ∧ (¬parsed.program.StepsChain → found.node.IsChained →
        options.target.supports .optionalChain = true) := by
  intro found mem
  have accounts := accounts_lowered read (absurd trivial) run found mem
  -- A chain that is left must be one that is stepped into, which the program has none of.
  refine ⟨accounts.rewritten, accounts.synchronous, fun noSteps isChained => ?_⟩
  exact (accounts.unchained isChained).resolve_right noSteps

/-- A template with a tag, a chain and an object with a spread, for an old target. -/
theorem rewritables_removed_example :
    let options : Options := { target := { edition := .es2015 } }
    ∃ parsed lowered, parse "a?.b(c ** d, {...e}); f`g`;" = .ok parsed
      ∧ parsed.program.lower options parsed.program.scopes = .ok lowered
      ∧ ∀ found ∈ lowered.program.nodes,
        (∀ feature ∈ found.node.rewritable?, options.target.supports feature = true)
        ∧ (options.target.supports .generator = true →
          ∀ feature ∈ found.node.asynchronous?, options.target.supports feature = true)
        ∧ (¬parsed.program.StepsChain → found.node.IsChained →
          options.target.supports .optionalChain = true) := by
  -- The run is evaluated, and the theorem says what holds of its outcome.
  intro options
  obtain ⟨parsed, lowered, read, run, -⟩ :=
    exists_of_lowersTo (show lowersTo "a?.b(c ** d, {...e}); f`g`;" options (fun _ => true) = true
      by decide +kernel)
  exact ⟨parsed, lowered, read, run, rewritables_removed read run⟩

/-- Whatever cannot be written in another way was reported where the target lacks it, unless it is of a
form that lowering itself writes. Of patterns that only assign, those of arrays are never reported. -/
theorem constructs_announced (read : parse source = .ok parsed)
    (run : parsed.program.lower options scopes = .ok lowered) :
    ∀ found ∈ lowered.program.nodes,
      (lowered.ending parsed.program options scopes True).Announced found.site found.node :=
  fun found mem => (accounts_lowered read (absurd trivial) run found mem).announced

/-- A generator and a class, for a target that has neither. -/
theorem constructs_announced_example :
    let options : Options := { target := { edition := .es5 } }
    ∃ parsed lowered, parse "function* f() { yield 1 } class A {}" = .ok parsed
      ∧ parsed.program.lower options parsed.program.scopes = .ok lowered
      ∧ ∀ found ∈ lowered.program.nodes,
        (lowered.ending parsed.program options parsed.program.scopes True).Announced found.site
          found.node := by
  intro options
  obtain ⟨parsed, lowered, read, run, -⟩ :=
    exists_of_lowersTo (show lowersTo "function* f() { yield 1 } class A {}" options
      (fun _ => true) = true by decide +kernel)
  exact ⟨parsed, lowered, read, run, constructs_announced read run⟩

/-- Nothing is reported of the arrow around the value of a parameter. -/
example :
    let options : Options :=
      { target := { edition := .es2022, unsupported := [.arrow, .optionalChain] } }
    lowersTo "function f(a = g()?.b) {}" options (fun lowered => lowered.reports.isEmpty
      && lowered.program.nodes.any (·.node matches .shape (.arrow _))) = true := by
  decide +kernel

/-- Nor is anything of a pattern that only assigns. -/
example :
    let options : Options := { target := { edition := .es2022, unsupported := [.destructuring] } }
    lowersTo "[a] = b" options (fun lowered => lowered.reports.isEmpty
      && lowered.program.nodes.any (·.node matches .shape (.arrayPattern ..))) = true := by
  decide +kernel

/-- Waiting and handing out values stay inside of what allows them. -/
theorem wellPlaced_lowered (read : parse source = .ok parsed) (placed : parsed.program.WellPlaced)
    (run : parsed.program.lower options scopes = .ok lowered) : lowered.program.WellPlaced := by
  intro found mem
  have accounts :
      (lowered.ending parsed.program options scopes False).Accounts found.site found.node :=
    accounts_lowered read (fun _ => placed) run found mem
  exact accounts.allowed.resolve_right id

end Downlevel
