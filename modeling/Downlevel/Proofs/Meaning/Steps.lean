import Downlevel.Lowering.Chain
import Downlevel.Proofs.Meaning.Names
import Downlevel.Proofs.StateSteps

/-! Steps of the lowering that always end well, and the names that they hand out. -/

namespace Downlevel

namespace Meaning

open Lowering

variable {α β : Type} {setting : Setting} {progress : Progress}

/-- The step ends with a result, can be followed by another one, and the result is as demanded. -/
def Yields (setting : Setting) (progress : Progress) (step : Lower α)
    (demand : Progress → α → Prop) : Prop :=
  ∃ result after, step setting progress = .ok (result, after) ∧ Ready setting.scopes after ∧
    Extends setting.scopes progress after ∧ demand after result

namespace Yields

variable {demand : Progress → α → Prop} {final : Progress → β → Prop}

/-- A result that is there already. -/
theorem done {result : α} (ready : Ready setting.scopes progress)
    (holds : demand progress result) : Yields setting progress (pure result) demand :=
  ⟨result, progress, rfl, ready, .refl _, holds⟩

/-- One step after another. -/
theorem next {step : Lower α} {rest : α → Lower β} (begins : Yields setting progress step demand)
    (goesOn : ∀ result after, Ready setting.scopes after →
      Extends setting.scopes progress after → demand after result →
      Yields setting after (rest result) final) :
    Yields setting progress (step >>= rest) final := by
  obtain ⟨result, after, ends, ready, extended, holds⟩ := begins
  obtain ⟨result', after', ends', ready', extended', holds'⟩ :=
    goesOn result after ready extended holds
  refine ⟨result', after', ?_, ready', extended.trans extended', holds'⟩
  -- The monad runs the second step from the progress the first one left.
  have both : (step >>= rest) setting progress
      = (step setting progress >>= fun pair => rest pair.1 setting pair.2) := rfl
  rw [both, ends]
  exact ends'

/-- The same step with a weaker demand. -/
theorem weaken {step : Lower α} {weaker : Progress → α → Prop}
    (holds : Yields setting progress step demand)
    (implies : ∀ after result, Extends setting.scopes progress after → demand after result →
      weaker after result) :
    Yields setting progress step weaker := by
  obtain ⟨result, after, ends, ready, extended, shown⟩ := holds
  exact ⟨result, after, ends, ready, extended, implies after result extended shown⟩

/-- A step whose result is packed into another one. -/
theorem map {step : Lower α} {pack : α → β} {packed : Progress → β → Prop}
    (holds : Yields setting progress step fun after result => packed after (pack result)) :
    Yields setting progress (pack <$> step) packed := by
  obtain ⟨result, after, ends, ready, extended, shown⟩ := holds
  refine ⟨pack result, after, ?_, ready, extended, shown⟩
  have mapped : (pack <$> step) setting progress
      = (fun pair : α × Progress => (pack pair.1, pair.2)) <$> step setting progress := rfl
  rw [mapped, ends]
  rfl

end Yields

/-- Going on once it is known whether the target lacks a feature. -/
theorem Yields.lacks {feature : Feature} {rest : Bool → Lower α} {demand : Progress → α → Prop}
    (holds : Yields setting progress (rest (!setting.options.target.supports feature)) demand) :
    Yields setting progress (lacks feature >>= rest) demand :=
  holds

/-- Going on once it is known whether the file binds `undefined`. -/
theorem Yields.bindsUndefined {rest : Bool → Lower α} {demand : Progress → α → Prop}
    (holds : Yields setting progress (rest (setting.scopes.declares "undefined")) demand) :
    Yields setting progress (bindsUndefined >>= rest) demand :=
  holds

/-- Names of members that are not private stay. -/
theorem privateBinding?_eq {name : String} (isPublic : isPrivateName name = false) :
    privateBinding? name = pure none := by
  simp [privateBinding?, isPublic]

/-- A name that was handed out between two moments, and not as another name for something. -/
def IsNew (scopes : ScopeTree) (before after : Progress) (name : String) : Prop :=
  ¬Knows scopes before name ∧ Knows scopes after name ∧ ∀ what, ¬HasAlias after what name

/-- An open frame hands out a name that was not known, and nothing else happens. -/
theorem allocIn_eq {frame : Nat} {base : Option String} {init : Option Expr} {declare : Bool}
    (isOpen : frame ≤ progress.temps.current)
    (starts : ∀ text, base = some text → text.toList.head? = some '_') :
    ∃ name temps, allocIn frame base init declare setting progress
        = .ok (name, { progress with temps }) ∧
      ¬Knows setting.scopes progress name ∧ temps.current = progress.temps.current ∧
      ∀ other, Knows setting.scopes { progress with temps } other ↔
        other = name ∨ Knows setting.scopes progress other := by
  obtain ⟨name, temps, given, unrecorded, unheld, held, current, underscore⟩ :=
    Temps.allocIn?_spec isOpen setting.scopes base init declare
  -- The name is new in each of the three ways a name is known: in the file, as recorded, and as
  -- held by a frame.
  refine ⟨name, temps, allocIn_of_some given, ?_, current, fun other => ?_⟩
  · rintro (other | recorded | old)
    · exact other (underscore starts)
    · exact unrecorded recorded
    · exact unheld old
  · simp only [Knows, held other]
    grind

/-- The next short name is new. -/
theorem alloc_yields (ready : Ready setting.scopes progress) :
    Yields setting progress alloc (IsNew setting.scopes progress) := by
  obtain ⟨name, temps, given, unknown, current, knows⟩ :=
    @allocIn_eq setting progress _ none none true (Nat.le_refl _) (by simp)
  have extended : Extends setting.scopes progress { progress with temps } :=
    ⟨fun other known => (knows other).2 (.inr known), fun _ _ => id, fun _ _ => .inl⟩
  refine ⟨name, _, given, ⟨?_, ?_⟩, extended, unknown, (knows name).2 (.inl rfl), ?_⟩
  · -- Allocating opens and closes no frame.
    intro owner member
    rw [show ({ progress with temps } : Progress).temps.current = _ from current]
    exact ready.frames owner member
  · exact fun what other held => extended.knows other (ready.aliases what other held)
  · exact fun what held => unknown (ready.aliases what name held)

/-- What looking through owners does: it may hand out one more name for something, and marks owners
without changing their names and frames. -/
structure Marked (scopes : ScopeTree) (before : Progress) (owners : List Owner) (after : Progress)
    (marked : List Owner) : Prop where
  current : after.temps.current = before.temps.current
  knows : ∀ name, Knows scopes before name → Knows scopes after name
  frames : ∀ owner ∈ marked, ∃ old ∈ owners, owner.frame = old.frame
  keeps : ∀ what name, NamedIn owners what name → NamedIn marked what name
  fresh : ∀ what name, NamedIn marked what name →
    NamedIn owners what name ∨ ¬Knows scopes before name ∧ Knows scopes after name

namespace Marked

variable {scopes : ScopeTree} {before after : Progress} {owner marked : Owner}
  {around around' : List Owner}

/-- Only the innermost owner is marked. -/
theorem first (frame : marked.frame = owner.frame)
    (names : ∀ what : Aliased, what.name? marked = what.name? owner) :
    Marked scopes before (owner :: around) before (marked :: around) where
  current := rfl
  knows _ := id
  frames := by
    simp only [List.mem_cons, forall_eq_or_imp, exists_eq_or_imp]
    exact ⟨.inl frame, fun other member => .inr ⟨other, member, rfl⟩⟩
  keeps what name := by simp [NamedIn, names]
  fresh what name := by
    simp only [NamedIn, List.mem_cons, exists_eq_or_imp, names]
    exact .inl

/-- The innermost owner is marked, and those around it as well. -/
theorem cons (frame : marked.frame = owner.frame)
    (names : ∀ what : Aliased, what.name? marked = what.name? owner)
    (outside : Marked scopes before around after around') :
    Marked scopes before (owner :: around) after (marked :: around') where
  -- The frame that is put in front has the same number and the same names.
  current := outside.current
  knows := outside.knows
  frames := by
    simp only [List.mem_cons, forall_eq_or_imp, exists_eq_or_imp]
    exact ⟨.inl frame, fun other member => .inr (outside.frames other member)⟩
  keeps what name := by
    simp only [NamedIn, List.mem_cons, exists_eq_or_imp, names]
    exact Or.imp id (outside.keeps what name)
  fresh what name := by
    simp only [NamedIn, List.mem_cons, exists_eq_or_imp, names]
    rintro (own | other)
    · exact .inl (.inl own)
    · exact (outside.fresh what name other).imp .inr id

/-- The innermost owner gets a new name for something that it had none for. -/
theorem aliased {temps : Temps} {what : Aliased} {name : String}
    (frame : marked.frame = owner.frame) (gets : what.name? marked = some name)
    (unnamed : what.name? owner = none)
    (others : ∀ other, other ≠ what → other.name? marked = other.name? owner)
    (current : temps.current = before.temps.current) (unknown : ¬Knows scopes before name)
    (knows : ∀ other, Knows scopes { before with temps } other ↔
      other = name ∨ Knows scopes before other) :
    Marked scopes before (owner :: around) { before with temps } (marked :: around) where
  -- Only the innermost owner gets a name, and only one that it lacked.
  current := current
  knows other known := (knows other).2 (.inr known)
  frames := by
    simp only [List.mem_cons, forall_eq_or_imp, exists_eq_or_imp]
    exact ⟨.inl frame, fun other member => .inr ⟨other, member, rfl⟩⟩
  keeps other found := by
    simp only [NamedIn, List.mem_cons, exists_eq_or_imp]
    rintro (own | outside)
    · -- The name found was there before, unless it is the one just given, which was unknown.
      by_cases same : other = what
      · rw [same, unnamed] at own
        cases own
      · exact .inl (by rw [others other same, own])
    · exact .inr outside
  fresh other found := by
    simp only [NamedIn, List.mem_cons, exists_eq_or_imp]
    rintro (own | outside)
    · by_cases same : other = what
      · rw [same, gets, Option.some.injEq] at own
        subst own
        exact .inr ⟨unknown, (knows name).2 (.inl rfl)⟩
      · exact .inl (.inl (by rw [← others other same, own]))
    · exact .inl (.inr outside)

/-- Once the marked owners take the place of the others, lowering can go on. -/
theorem becomes {marked : List Owner} (ready : Ready scopes before)
    (looked : Marked scopes before before.owners after marked) :
    Ready scopes { after with owners := marked } ∧
      Extends scopes before { after with owners := marked } := by
  refine ⟨⟨fun owner member => ?_, fun what name named => ?_⟩, ?_⟩
  · -- The owners only gained names: their frames are the old ones, and each name was known before
    -- or is known now.
    obtain ⟨old, inside, same⟩ := looked.frames owner member
    rw [same]
    exact Nat.le_trans (ready.frames old inside) (Nat.le_of_eq looked.current.symm)
  · rcases looked.fresh what name named with old | ⟨_, known⟩
    · exact looked.knows name (ready.aliases what name old)
    · exact known
  · exact ⟨looked.knows, looked.keeps, fun what name named =>
      (looked.fresh what name named).imp id And.left⟩

end Marked

/-- What looking through owners for a name of something gives. -/
def Looks (setting : Setting) (progress : Progress) (what : Aliased) (owners : List Owner)
    (search : Lower (Option String × List Owner)) : Prop :=
  ∃ name? marked after, search setting progress = .ok ((name?, marked), after) ∧
    Marked setting.scopes progress owners after marked ∧
    ∀ name, name? = some name → NamedIn marked what name

/-- A search that ends at once, with the name that the innermost owner has or with none. -/
theorem looks_here {what : Aliased} {owner marked : Owner} {around : List Owner}
    {name? : Option String} (frame : marked.frame = owner.frame)
    (names : ∀ what : Aliased, what.name? marked = what.name? owner)
    (found : ∀ name, name? = some name → what.name? marked = some name) :
    Looks setting progress what (owner :: around) (return (name?, marked :: around)) :=
  ⟨name?, _, progress, rfl, .first frame names, fun name same =>
    ⟨marked, List.mem_cons_self .., found name same⟩⟩

/-- A search that goes on around the innermost owner. -/
theorem looks_around {what : Aliased} {owner marked : Owner} {around : List Owner}
    {search : Lower (Option String × List Owner)} (frame : marked.frame = owner.frame)
    (names : ∀ what : Aliased, what.name? marked = what.name? owner)
    (outside : Looks setting progress what around search) :
    Looks setting progress what (owner :: around) (do
      let (name, around) ← search
      return (name, marked :: around)) := by
  obtain ⟨name?, around', after, ends, looked, found⟩ := outside
  -- The search went past this owner, so its mark is the old one and what was found is outside.
  refine ⟨name?, marked :: around', after, ?_, .cons frame names looked, fun name same => ?_⟩
  · have both : (do
        let (name, around) ← search
        return (name, marked :: around) : Lower (Option String × List Owner)) setting progress
        = (search setting progress >>= fun found =>
          .ok ((found.1.1, marked :: found.1.2), found.2)) := rfl
    rw [both, ends]
    rfl
  · obtain ⟨other, member, named⟩ := found name same
    exact ⟨other, List.mem_cons_of_mem _ member, named⟩

/-- A search that ends with a new name for the innermost owner. -/
theorem looks_alias {what : Aliased} {owner : Owner} {marked : String → Owner}
    {around : List Owner} {base : String} {init : Option Expr}
    (isOpen : owner.frame ≤ progress.temps.current) (starts : base.toList.head? = some '_')
    (frame : ∀ name, (marked name).frame = owner.frame)
    (gets : ∀ name, what.name? (marked name) = some name) (unnamed : what.name? owner = none)
    (others : ∀ name other, other ≠ what → other.name? (marked name) = other.name? owner) :
    Looks setting progress what (owner :: around) (do
      let name ← allocIn owner.frame (some base) init true
      return (some name, marked name :: around)) := by
  -- The name is allocated in the owner's frame, which is still open.
  obtain ⟨name, temps, given, unknown, current, knows⟩ :=
    @allocIn_eq setting _ _ (some base) init true isOpen (by simpa using starts)
  refine ⟨some name, _, { progress with temps }, ?_,
    .aliased (frame name) (gets name) unnamed (others name) current unknown knows, ?_⟩
  · have both : (do
        let name ← allocIn owner.frame (some base) init true
        return (some name, marked name :: around) : Lower (Option String × List Owner))
          setting progress
        = (allocIn owner.frame (some base) init true setting progress >>= fun found =>
          .ok ((some found.1, marked found.1 :: around), found.2)) := rfl
    rw [both, given]
    rfl
  · intro found same
    cases same
    exact ⟨marked name, List.mem_cons_self .., gets name⟩

/-- Looking for what `this` means always ends well. -/
theorem findThis_looks (crossed : Bool) (owners : List Owner)
    (areOpen : ∀ owner ∈ owners, owner.frame ≤ progress.temps.current) :
    Looks setting progress .this owners (findThis crossed owners) := by
  induction owners generalizing crossed with
  | nil =>
    exact ⟨none, [], progress, rfl,
      ⟨rfl, fun _ => id, by simp, fun _ _ => id, fun _ _ => .inl⟩, by simp⟩
  | cons owner around ih =>
    simp only [List.mem_cons, forall_eq_or_imp] at areOpen
    rcases owner with ⟨kind, frame, losesArrow, isLifted, awaitForm, isNativeAsync, thisAlias,
      argumentsAlias, usesThis, usesArguments⟩
    unfold findThis
    -- Marking an owner changes neither its frame nor its names.
    cases kind with
    | arrow => exact looks_around rfl (by rintro ⟨⟩ <;> rfl) (ih _ areOpen.2)
    | function =>
      cases crossed with
      | false => exact looks_here rfl (by rintro ⟨⟩ <;> rfl) (by simp)
      | true =>
        cases thisAlias with
        | some name => exact looks_here rfl (by rintro ⟨⟩ <;> rfl) (by simp [Aliased.name?])
        | none =>
          refine @looks_alias _ _ .this _ _ _ "_this" _ areOpen.1 (by decide)
            (fun _ => rfl) (fun _ => rfl) rfl ?_
          intro name other differs
          cases other with
          | this => exact absurd rfl differs
          | arguments => rfl
    | staticInit => exact looks_here rfl (by rintro ⟨⟩ <;> rfl) (by simp [Aliased.name?])
    | module => exact looks_here rfl (by rintro ⟨⟩ <;> rfl) (by simp)
    | fieldInit => exact looks_here rfl (by rintro ⟨⟩ <;> rfl) (by simp)

/-- Looking for what `arguments` means always ends well. -/
theorem findArguments_looks (crossed : Bool) (owners : List Owner)
    (areOpen : ∀ owner ∈ owners, owner.frame ≤ progress.temps.current) :
    Looks setting progress .arguments owners (findArguments crossed owners) := by
  induction owners generalizing crossed with
  | nil =>
    exact ⟨none, [], progress, rfl,
      ⟨rfl, fun _ => id, by simp, fun _ _ => id, fun _ _ => .inl⟩, by simp⟩
  | cons owner around ih =>
    simp only [List.mem_cons, forall_eq_or_imp] at areOpen
    rcases owner with ⟨kind, frame, losesArrow, isLifted, awaitForm, isNativeAsync, thisAlias,
      argumentsAlias, usesThis, usesArguments⟩
    unfold findArguments
    -- An arrow passes the question on; a function answers it, with the name it holds or with a new
    -- one; every other owner answers without a name.
    cases kind with
    | arrow => exact looks_around rfl (by rintro ⟨⟩ <;> rfl) (ih _ areOpen.2)
    | function =>
      cases crossed with
      | false => exact looks_here rfl (by rintro ⟨⟩ <;> rfl) (by simp)
      | true =>
        cases argumentsAlias with
        | some name => exact looks_here rfl (by rintro ⟨⟩ <;> rfl) (by simp [Aliased.name?])
        | none =>
          refine @looks_alias _ _ .arguments _ _ _ "_arguments" _ areOpen.1 (by decide)
            (fun _ => rfl) (fun _ => rfl) rfl ?_
          intro name other differs
          cases other with
          | this => rfl
          | arguments => exact absurd rfl differs
    | staticInit => exact looks_here rfl (by rintro ⟨⟩ <;> rfl) (by simp)
    | module => exact looks_here rfl (by rintro ⟨⟩ <;> rfl) (by simp)
    | fieldInit => exact looks_here rfl (by rintro ⟨⟩ <;> rfl) (by simp)

/-- A search through all owners around ends with a name that stands for what was sought. -/
theorem resolves {what : Aliased} {search : List Owner → Lower (Option String × List Owner)}
    (ready : Ready setting.scopes progress)
    (looks : Looks setting progress what progress.owners (search progress.owners)) :
    Yields setting progress (do
        let (name, owners) ← search (← get).owners
        modify fun progress => { progress with owners }
        return name)
      fun after name? => ∀ name, name? = some name → HasAlias after what name := by
  obtain ⟨name?, marked, after, ends, looked, found⟩ := looks
  refine ⟨name?, { after with owners := marked }, ?_, (looked.becomes ready).1,
    (looked.becomes ready).2, found⟩
  have both : (do
      let (name, owners) ← search (← get).owners
      modify fun progress => { progress with owners }
      return name : Lower (Option String)) setting progress
      = (search progress.owners setting progress >>= fun found =>
        .ok (found.1.1, { found.2 with owners := found.1.2 })) := rfl
  rw [both, ends]
  rfl

/-- The name to write instead of `this` is one that stands for it. -/
theorem resolveThis_yields (ready : Ready setting.scopes progress) :
    Yields setting progress resolveThis fun after name? =>
      ∀ name, name? = some name → HasAlias after .this name :=
  resolves ready (findThis_looks false _ ready.frames)

/-- The name to write instead of `arguments` is one that stands for it. -/
theorem resolveArguments_yields (ready : Ready setting.scopes progress) :
    Yields setting progress resolveArguments fun after name? =>
      ∀ name, name? = some name → HasAlias after .arguments name :=
  resolves ready (findArguments_looks false _ ready.frames)

end Meaning

end Downlevel
