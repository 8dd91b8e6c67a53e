import Downlevel.Proofs.Features
import Downlevel.Proofs.Reading.Termination
import Downlevel.Proofs.Runs
import Downlevel.Proofs.Scoping.Printing
import Downlevel.Proofs.Scoping.Programs

/-! What a run from the source to the text cannot do: get stuck on a program without clashes, leave a
placeholder in the program, or mention a made-up name where nothing binds it. -/

namespace Downlevel

section Decidable

instance (members : List ClassMember) : Decidable (OneKindEach members) :=
  inferInstanceAs (Decidable (∀ first ∈ members, ∀ second ∈ members,
    ∀ name ∈ first.key.privateName?, second.key.privateName? = some name →
      ∀ kind ∈ first.value.declaredKind?, ∀ other ∈ second.value.declaredKind?, kind = other))

/-- Whether a node does not clash. -/
def Node.isClean : Node → Bool
  | .shape (.classExpr _ _ members) | .stmt (.classDecl _ _ _ members) => OneKindEach members
  | .shape (.call link _ object _) | .shape (.computed link object _) | .shape (.member link object _) =>
    link != .continues || !object.isTagged
  | _ => true

/-- Whether a node is clean can be decided. -/
theorem Node.isClean_iff {node : Node} : node.isClean = true ↔ node.Clean := by
  unfold isClean Clean
  split <;> simp [imp_iff_not_or]

instance (node : Node) : Decidable node.Clean :=
  decidable_of_iff _ Node.isClean_iff

instance (program : Program) : Decidable program.IsClean :=
  inferInstanceAs (Decidable (∀ found ∈ program.nodes, found.node.Clean))

end Decidable

variable {source : String} {parsed : Parsed} {options : Options} {lowered : Lowered}

/-- A program that was read has scopes, which are what the lowering expects of it. -/
theorem Parsed.given_realm (read : parse source = .ok parsed) (options : Options) :
    parsed.program.scopes? = some parsed.program.scopes
      ∧ (parsed.program.realm options parsed.program.scopes).Given parsed.program.nodes := by
  obtain ⟨scopes, recorded, knows⟩ := parsed.program.scopes?_records
  have same : parsed.program.scopes = scopes := by rw [Program.scopes, recorded, Option.getD_some]
  rw [same]
  exact ⟨recorded, given_of_formed (formed_of_parse read) knows⟩

/-- What comes out mentions nothing but names of the source, names that lowered code expects, and
names that it binds, and all its names can be written. -/
theorem meets_lowered (read : parse source = .ok parsed)
    (run : parsed.program.lower options parsed.program.scopes = .ok lowered) :
    Meets options.fileStem (fun name => (name ∈ parsed.program.scopes.names.names ∧ IsSpelled name)
      ∨ name ∈ runtimeNames) lowered.program.uses := by
  have given := (Parsed.given_realm read options).2
  have grounds : (parsed.program.realm options parsed.program.scopes).Grounds
      fun name => (name ∈ parsed.program.scopes.names.names ∧ IsSpelled name) ∨ name ∈ runtimeNames :=
    ⟨fun _ => .inl, fun _ => .inr, nofun⟩
  exact (Program.lower_works given rfl nofun).2 lowered run _ grounds

/-- Nothing gets stuck on the way from a source to the text: reading ends with a program or with a
syntax error, and a program without clashes has scopes, is lowered for every target, and what comes
out is printed. -/
theorem runs_without_fault (source : String) :
    ((∃ parsed, parse source = .ok parsed) ∨ ∃ error, parse source = .error (.malformed error))
      ∧ ∀ parsed, parse source = .ok parsed → parsed.program.IsClean →
        ∃ scopes, parsed.program.scopes? = some scopes ∧ ∀ options, ∃ lowered,
          parsed.program.lower options scopes = .ok lowered
            ∧ ∃ text, lowered.program.print? = some text := by
  refine ⟨parse_ends source, fun parsed read clean => ?_⟩
  refine ⟨parsed.program.scopes, (Parsed.given_realm read {}).1, fun options => ?_⟩
  cases run : parsed.program.lower options parsed.program.scopes with
  | error fault =>
    -- Every fault of the lowering tells of a clash.
    have given := (Parsed.given_realm read options).2
    exact absurd clean ((Program.lower_works given rfl nofun).1 fault run)
  | ok lowered =>
    exact ⟨lowered, rfl, Option.isSome_iff_exists.mp (Program.print?_isSome (meets_lowered read run))⟩

/-- A class with a private name, a chain that goes on behind a call, and a template with a tag, for a
target that has none of them. -/
theorem runs_without_fault_example :
    let source := "f`a`; class A { #x = a?.b().c; get #y() { return this.#x; } }"
    ∃ parsed, parse source = .ok parsed ∧ parsed.program.IsClean
      ∧ ∃ scopes, parsed.program.scopes? = some scopes ∧ ∀ options, ∃ lowered,
        parsed.program.lower options scopes = .ok lowered
          ∧ ∃ text, lowered.program.print? = some text := by
  intro source
  obtain ⟨parsed, read, clean⟩ := exists_of_readsTo
    (show readsTo source (fun parsed => decide parsed.program.IsClean) = true by decide +kernel)
  have clean := of_decide_eq_true clean
  exact ⟨parsed, read, clean, (runs_without_fault source).2 parsed read clean⟩

/-- The names that lowered code expects can be written. -/
theorem writable_runtime {stem name : String} (isRuntime : name ∈ runtimeNames) :
    Writable stem name := by
  have starts : ∀ own ∈ runtimeNames, own.toList.head?.any (· != '\x00') = true := by decide +kernel
  obtain ⟨c, head, other⟩ := (Option.any_eq_true ..).mp (starts name isRuntime)
  exact writable_of_head head (bne_iff_ne.mp other)

/-- Every identifier of a lowered program can be written: it is not empty, and does not start with the
character of the placeholders. Only the name of the file may bring that in, with the default class. -/
theorem writable_identifiers (read : parse source = .ok parsed)
    (run : parsed.program.lower options parsed.program.scopes = .ok lowered) :
    ∀ name ∈ lowered.program.identifiers, Writable options.fileStem name := by
  intro name isIdentifier
  obtain ⟨use, mem, isName⟩ := List.mem_filterMap.mp isIdentifier
  have sense := meets_lowered read run use mem
  -- What is bound around the program is of the source, or expected; the rest can be written.
  have inWorld (holds : (name ∈ parsed.program.scopes.names.names ∧ IsSpelled name)
      ∨ name ∈ runtimeNames) : Writable options.fileStem name := by
    rcases holds with ⟨-, spelled⟩ | isRuntime
    · exact spelled.writable
    · exact writable_runtime isRuntime
  cases use with
  | free own =>
    cases isName
    exact inWorld sense
  | bound own =>
    cases isName
    exact sense.elim inWorld id
  | fixed own =>
    cases isName
    exact sense
  | stray => cases isName

/-- No placeholder is left. Every identifier of a lowered program can be written; only the name of the
file may bring the character of the placeholders in, with the default class. A name in a list that is
not one of the module may be any text, and is then one of the source. -/
theorem identifiers_writable (read : parse source = .ok parsed)
    (run : parsed.program.lower options parsed.program.scopes = .ok lowered) :
    (∀ name ∈ lowered.program.identifiers, name ≠ ""
        ∧ (name.toList.head? = some '\x00'
          → (options.fileStem ++ "_default").toList <+: name.toList))
      ∧ ∀ name ∈ lowered.program.outerNames,
        name = "default" ∨ name ∈ parsed.program.outerNames :=
  ⟨writable_identifiers read run, outerNames_lowered read run⟩

/-- Static code of a class inside of another one's, and a field of an anonymous class, in a file whose
name could be taken for a placeholder, with a whole module exported under a name that could be. -/
theorem identifiers_writable_example :
    let source := "export default class { static x = class { static y = this; } }
      export * as \"\\x00\" from \"m\";"
    let options : Options := { target := { edition := .es2019 }, fileStem := "\x00a" }
    ∃ parsed lowered, parse source = .ok parsed
      ∧ parsed.program.lower options parsed.program.scopes = .ok lowered
      ∧ (∀ name ∈ lowered.program.identifiers, name ≠ ""
          ∧ (name.toList.head? = some '\x00'
            → (options.fileStem ++ "_default").toList <+: name.toList))
        ∧ ∀ name ∈ lowered.program.outerNames,
          name = "default" ∨ name ∈ parsed.program.outerNames := by
  intro source options
  obtain ⟨parsed, lowered, read, run, -⟩ :=
    exists_of_lowersTo (show lowersTo source options (fun _ => true) = true by decide +kernel)
  exact ⟨parsed, lowered, read, run, identifiers_writable read run⟩

/-- The name of the file may look like a placeholder, and the default class gets its name from it. The
name that something is exported under may look like one as well. -/
theorem default_class_named_like_placeholder :
    (¬∀ source parsed options lowered, parse source = .ok parsed →
      parsed.program.lower options parsed.program.scopes = .ok lowered →
      ∀ name ∈ lowered.program.identifiers, name ≠ "" ∧ name.toList.head? ≠ some '\x00')
    ∧ ¬∀ source parsed options lowered, parse source = .ok parsed →
      parsed.program.lower options parsed.program.scopes = .ok lowered →
      ∀ name ∈ lowered.program.outerNames, name ≠ "" ∧ name.toList.head? ≠ some '\x00' := by
  -- The stem of the file and an alias are both taken over as they are.
  constructor
  · intro plain
    obtain ⟨parsed, lowered, read, run, left⟩ := exists_of_lowersTo
      (show lowersTo "export default class { static x = 1 }"
          { target := { edition := .es2021 }, fileStem := "\x00a" }
          (fun lowered => lowered.program.identifiers.contains "\x00a_default") = true
        by decide +kernel)
    exact (plain _ parsed _ lowered read run _ (List.contains_iff_mem.mp left)).2 (by decide)
  · intro plain
    obtain ⟨parsed, lowered, read, run, left⟩ := exists_of_lowersTo
      (show lowersTo "var a; export \x7b a as \"\\x00x\" \x7d;" {}
          (fun lowered => lowered.program.outerNames.contains "\x00x") = true
        by decide +kernel)
    exact (plain _ parsed _ lowered read run _ (List.contains_iff_mem.mp left)).2 (by decide)

/-- Whatever a lowered program mentions where nothing binds it is a name of the source, or one that
lowered code expects. What a body binds counts for its function's parameters only if it stands for
`this` or `arguments`, so made-up names in parameters are bound there or around the function. -/
theorem madeUp_bound (read : parse source = .ok parsed)
    (run : parsed.program.lower options parsed.program.scopes = .ok lowered) :
    ∀ name ∈ lowered.program.unbound,
      name ∈ parsed.program.scopes.names.names ∨ name ∈ runtimeNames := by
  intro name isUnbound
  obtain ⟨use, mem, isName⟩ := List.mem_filterMap.mp isUnbound
  have sense := meets_lowered read run use mem
  -- A name is unbound only where it is used freely.
  cases use with
  | free own =>
    cases isName
    exact sense.imp_left And.left
  | bound own => cases isName
  | fixed own => cases isName
  | stray => cases isName

/-- Parameters with chains, rests and a class in them, one of which moves into a generator. -/
theorem madeUp_bound_example :
    let source := "async function f({ a, ...b } = g()?.h, c = class { #x = a ??= b; }) { await c; }"
    let options : Options := { target := { edition := .es2015 } }
    ∃ parsed lowered, parse source = .ok parsed
      ∧ parsed.program.lower options parsed.program.scopes = .ok lowered
      ∧ ∀ name ∈ lowered.program.unbound,
        name ∈ parsed.program.scopes.names.names ∨ name ∈ runtimeNames := by
  intro source options
  obtain ⟨parsed, lowered, read, run, -⟩ :=
    exists_of_lowersTo (show lowersTo source options (fun _ => true) = true by decide +kernel)
  exact ⟨parsed, lowered, read, run, madeUp_bound read run⟩

end Downlevel
