import Downlevel.Lowering.Receiver
import Downlevel.Proofs.Meaning.Evaluation
import Downlevel.Proofs.MadeUpNames

/-! Two evaluations agree when they end alike and do the same to the hidden state. The source changes
no variable, while lowered code has variables of its own: the names that it may write are new at every
step, so nothing that was kept in a name is lost. -/

namespace Downlevel

namespace Meaning

variable {W : World} {α β γ δ : Type}

/-- What the variables hold. -/
abbrev Vars (W : World) : Type :=
  String → W.Value

instance : LawfulMonad (Run W) := LawfulMonad.mk' (Run W)
  (by
    intro α run
    funext memory
    change Run.next run Run.done memory = run memory
    unfold Run.next
    split <;> rename_i found <;> exact found.symm)
  (by intros; rfl)
  (by
    intro α β γ run first second
    funext memory
    change Run.next (Run.next run first) second memory
      = Run.next run (fun result => Run.next (first result) second) memory
    unfold Run.next
    cases run memory with
    | mk ending memory => cases ending <;> rfl)

/-- The endings match, with equal hidden states; results are compared by a relation that also sees
the variables of the lowered side. -/
inductive Matches (env : Vars W) (related : α → β → Vars W → Prop) :
    Ending W α × Memory W → Ending W β × Memory W → Prop
  | value {source : α} {lowered : β} {vars : Vars W} {hidden : W.State}
      (holds : related source lowered vars) :
      Matches env related (.value source, ⟨env, hidden⟩) (.value lowered, ⟨vars, hidden⟩)
  | thrown {error : W.Value} {vars vars' : Vars W} {hidden : W.State} :
      Matches env related (.thrown error, ⟨vars, hidden⟩) (.thrown error, ⟨vars', hidden⟩)

/-- A source evaluation, whose variables hold what the environment says, and a lowered one agree from
every hidden state on. -/
def Agree (env vars : Vars W) (source : Run W α) (lowered : Run W β)
    (related : α → β → Vars W → Prop) : Prop :=
  ∀ hidden, Matches env related (source ⟨env, hidden⟩) (lowered ⟨vars, hidden⟩)

namespace Agree

variable {env vars : Vars W} {related : α → β → Vars W → Prop}

/-- Two results agree if they are related. -/
theorem done {source : α} {lowered : β} (holds : related source lowered vars) :
    Agree env vars (pure source) (pure lowered) related :=
  fun _ => .value holds

/-- Agreement is kept by going on in ways that agree. -/
theorem next {first : Run W α} {first' : Run W β} {rest : α → Run W γ} {rest' : β → Run W δ}
    {final : γ → δ → Vars W → Prop} (begins : Agree env vars first first' related)
    (goesOn : ∀ source lowered after, related source lowered after →
      Agree env after (rest source) (rest' lowered) final) :
    Agree env vars (first >>= rest) (first' >>= rest') final := by
  intro hidden
  have start := begins hidden
  change Matches env final (Run.next first rest _) (Run.next first' rest' _)
  unfold Run.next
  -- Both ended alike, and a result hands the same hidden state on.
  generalize first ⟨env, hidden⟩ = found at start ⊢
  generalize first' ⟨vars, hidden⟩ = found' at start ⊢
  cases start with
  | value holds => exact goesOn _ _ _ holds _
  | thrown => exact .thrown

/-- Lowered code may do more than the source once they agree. -/
theorem moreLowered {source : Run W α} {lowered : Run W β} {rest : β → Run W γ}
    {final : α → γ → Vars W → Prop} (begins : Agree env vars source lowered related)
    (goesOn : ∀ result result' after, related result result' after →
      Agree env after (pure result) (rest result') final) :
    Agree env vars source (lowered >>= rest) final := by
  rw [← bind_pure source]
  exact begins.next goesOn

/-- The source may do more than lowered code once they agree. -/
theorem moreSource {source : Run W α} {lowered : Run W β} {rest : α → Run W γ}
    {final : γ → β → Vars W → Prop} (begins : Agree env vars source lowered related)
    (goesOn : ∀ result result' after, related result result' after →
      Agree env after (rest result) (pure result') final) :
    Agree env vars (source >>= rest) lowered final := by
  rw [← bind_pure lowered]
  exact begins.next goesOn

/-- A weaker relation may take the place of the one that was shown. -/
theorem weaken {source : Run W α} {lowered : Run W β} {weaker : α → β → Vars W → Prop}
    (holds : Agree env vars source lowered related)
    (implies : ∀ result result' after, related result result' after → weaker result result' after) :
    Agree env vars source lowered weaker := by
  intro hidden
  have shown := holds hidden
  generalize source ⟨env, hidden⟩ = found at shown ⊢
  generalize lowered ⟨vars, hidden⟩ = found' at shown ⊢
  cases shown with
  | value holds => exact .value (implies _ _ _ holds)
  | thrown => exact .thrown

/-- What the source packs its result into is known of the result. -/
theorem packed {source : Run W γ} {pack : γ → α} {lowered : Run W β}
    (holds : Agree env vars (source >>= fun result => pure (pack result)) lowered related) :
    Agree env vars (source >>= fun result => pure (pack result)) lowered
      fun found found' after => related found found' after ∧ ∃ result, found = pack result := by
  intro hidden
  have shown := holds hidden
  change Matches env related (Run.next source _ _) _ at shown
  change Matches env _ (Run.next source _ _) _
  unfold Run.next at shown ⊢
  generalize source ⟨env, hidden⟩ = ended at shown ⊢
  generalize lowered ⟨vars, hidden⟩ = found' at shown ⊢
  -- The source ran to a result, to an error or to nothing; only the first says what was packed.
  rcases ended with ⟨result | error | _, memory⟩
  · change Matches env related (.value (pack result), memory) _ at shown
    change Matches env _ (.value (pack result), memory) _
    cases shown with
    | value holds => exact .value ⟨holds, result, rfl⟩
  · cases shown with
    | thrown => exact .thrown
  · cases shown

/-- The same operation on both sides, and then whatever agrees for each of its results. -/
theorem operate {operation : W.State → Except W.Value γ × W.State} {rest : γ → Run W α}
    {rest' : γ → Run W β} (goesOn : ∀ result, Agree env vars (rest result) (rest' result) related) :
    Agree env vars (Run.operate operation >>= rest) (Run.operate operation >>= rest') related := by
  intro hidden
  change Matches env related (Run.next (Run.operate operation) rest _)
    (Run.next (Run.operate operation) rest' _)
  simp only [Run.next, Run.operate]
  rcases operation hidden with ⟨error | result, after⟩
  · exact .thrown
  · exact goesOn result after

/-- Lowered code may write a variable of its own on the way. -/
theorem writeLowered {name : String} {value : W.Value} {source : Run W α} {rest : Unit → Run W β}
    (holds : Agree env (fun other => if other = name then value else vars other) source (rest ())
      related) :
    Agree env vars source (Run.writeVar name value >>= rest) related :=
  holds

/-- A lowered step that ends at once with a result can be taken alone. -/
theorem stepLowered {source : Run W α} {step : Run W γ} {rest : γ → Run W β} {result : γ}
    (ends : ∀ hidden, step ⟨vars, hidden⟩ = (.value result, ⟨vars, hidden⟩))
    (holds : Agree env vars source (rest result) related) :
    Agree env vars source (step >>= rest) related := by
  intro hidden
  have shown := holds hidden
  change Matches env related _ (Run.next step rest _)
  simpa only [Run.next, ends hidden] using shown

/-- Two evaluations that branch alike agree if their branches do. -/
theorem branch {condition : Bool} {yes no : Run W α} {yes' no' : Run W β}
    (holdsYes : condition = true → Agree env vars yes yes' related)
    (holdsNo : condition = false → Agree env vars no no' related) :
    Agree env vars (if condition then yes else no) (if condition then yes' else no') related := by
  cases condition with
  | true => exact holdsYes rfl
  | false => exact holdsNo rfl

end Agree

end Meaning

namespace Meaning

open Lowering

/-- What another name can stand for. -/
inductive Aliased
  | this
  | arguments
deriving DecidableEq

/-- The name that an owner has for what is aliased. -/
def Aliased.name? (what : Aliased) (owner : Owner) : Option String :=
  match what with
  | .this => owner.thisAlias
  | .arguments => owner.argumentsAlias

/-- Some owner has the name as another one for what is aliased. -/
def NamedIn (owners : List Owner) (what : Aliased) (name : String) : Prop :=
  ∃ owner ∈ owners, what.name? owner = some name

/-- Some owner around has the name as another one for what is aliased. -/
def HasAlias (progress : Progress) (what : Aliased) (name : String) : Prop :=
  NamedIn progress.owners what name

/-- A name that is not to be handed out any more. Names that do not start with an underscore never
are. -/
def Knows (scopes : ScopeTree) (progress : Progress) (name : String) : Prop :=
  name.toList.head? ≠ some '_' ∨ name ∈ scopes.names.names ∨ progress.temps.Holds name

/-- Lowering can go on: all owners have an open frame, and their other names are handed out. -/
structure Ready (scopes : ScopeTree) (progress : Progress) : Prop where
  frames : ∀ owner ∈ progress.owners, owner.frame ≤ progress.temps.current
  aliases : ∀ what name, HasAlias progress what name → Knows scopes progress name

/-- Later progress knows more names, and other names that came up on the way were new. -/
structure Extends (scopes : ScopeTree) (before after : Progress) : Prop where
  knows : ∀ name, Knows scopes before name → Knows scopes after name
  keeps : ∀ what name, HasAlias before what name → HasAlias after what name
  fresh : ∀ what name, HasAlias after what name →
    HasAlias before what name ∨ ¬Knows scopes before name

/-- A name that lowered code made between two moments may write. -/
def Writable (scopes : ScopeTree) (before after : Progress) (name : String) : Prop :=
  Knows scopes after name ∧ ¬Knows scopes before name ∧ ∀ what, ¬HasAlias after what name

/-- Two states of the variables differ in writable names only. -/
def Keeps (scopes : ScopeTree) (before after : Progress) {W : World} (vars vars' : Vars W) : Prop :=
  ∀ name, ¬Writable scopes before after name → vars' name = vars name

/-- The names of the file hold what they hold in the source, and other names what they stand for. -/
structure Holds (scopes : ScopeTree) (progress : Progress) {W : World} (env vars : Vars W) :
    Prop where
  file : ∀ name ∈ scopes.names.names, vars name = env name
  this : ∀ name, HasAlias progress .this name → vars name = W.this
  arguments : ∀ name, HasAlias progress .arguments name → vars name = env "arguments"

variable {scopes : ScopeTree} {W : World} {first second third : Progress}

namespace Extends

/-- Nothing happened. -/
theorem refl (progress : Progress) : Extends scopes progress progress :=
  ⟨fun _ => id, fun _ _ => id, fun _ _ => .inl⟩

/-- One thing happened after another. -/
theorem trans (earlier : Extends scopes first second) (later : Extends scopes second third) :
    Extends scopes first third where
  knows name known := later.knows name (earlier.knows name known)
  keeps what name held := later.keeps what name (earlier.keeps what name held)
  fresh what name held := by
    rcases later.fresh what name held with held | unknown
    · exact earlier.fresh what name held
    · exact .inr fun known => unknown (earlier.knows name known)

end Extends

namespace Writable

variable {name : String}

/-- What was writable stays so as the start moves back. -/
theorem earlier (begins : Extends scopes first second) (writable : Writable scopes second third name) :
    Writable scopes first third name :=
  ⟨writable.1, fun known => writable.2.1 (begins.knows name known), writable.2.2⟩

/-- What was writable stays so as the end moves on. -/
theorem later (goesOn : Extends scopes second third) (writable : Writable scopes first second name) :
    Writable scopes first third name := by
  refine ⟨goesOn.knows name writable.1, writable.2.1, fun what held => ?_⟩
  rcases goesOn.fresh what name held with held | unknown
  · exact writable.2.2 what held
  · exact unknown writable.1

end Writable

namespace Keeps

variable {vars vars' vars'' : Vars W}

/-- Nothing was written. -/
theorem refl (vars : Vars W) : Keeps scopes first second vars vars :=
  fun _ _ => rfl

/-- One thing was written after another. -/
theorem trans (begins : Extends scopes first second) (goesOn : Extends scopes second third)
    (kept : Keeps scopes first second vars vars') (kept' : Keeps scopes second third vars' vars'') :
    Keeps scopes first third vars vars'' := by
  intro name unwritable
  rw [kept' name fun writable => unwritable (writable.earlier begins),
    kept name fun writable => unwritable (writable.later goesOn)]

/-- Later code may write more. -/
theorem later (goesOn : Extends scopes second third) (kept : Keeps scopes first second vars vars') :
    Keeps scopes first third vars vars' :=
  fun name unwritable => kept name fun writable => unwritable (writable.later goesOn)

/-- Code that was made later may write less. -/
theorem earlier (begins : Extends scopes first second)
    (kept : Keeps scopes second third vars vars') : Keeps scopes first third vars vars' :=
  fun name unwritable => kept name fun writable => unwritable (writable.earlier begins)

/-- Names that were known at the start keep what they hold. -/
theorem known (kept : Keeps scopes first second vars vars') {name : String}
    (isKnown : Knows scopes first name) : vars' name = vars name :=
  kept name fun writable => writable.2.1 isKnown

end Keeps

namespace Holds

variable {env vars vars' : Vars W}

/-- The names of earlier progress are among those of later progress. -/
theorem earlier (begins : Extends scopes first second) (holds : Holds scopes second env vars) :
    Holds scopes first env vars :=
  ⟨holds.file, fun name held => holds.this name (begins.keeps _ name held),
    fun name held => holds.arguments name (begins.keeps _ name held)⟩

/-- Nothing that stands for something else is ever written. -/
theorem kept (goesOn : Extends scopes second third) (holds : Holds scopes third env vars)
    (keeps : Keeps scopes first second vars vars') : Holds scopes third env vars' := by
  have unwritable : ∀ what name, HasAlias third what name → vars' name = vars name := by
    intro what name held
    refine keeps name fun writable => ?_
    exact (writable.later goesOn).2.2 what held
  refine ⟨fun name recorded => ?_, fun name held => ?_, fun name held => ?_⟩
  · rw [keeps.known (.inr (.inl recorded)), holds.file name recorded]
  · rw [unwritable .this name held, holds.this name held]
  · rw [unwritable .arguments name held, holds.arguments name held]

end Holds

end Meaning

end Downlevel
