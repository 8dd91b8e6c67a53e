import Downlevel.Lowering.Chain
import Downlevel.Proofs.StateSteps

/-! Lowering for a target that has every feature: the steps that all of it shares give back what they
were given, and leave nothing behind but marks on the owners. -/

namespace Downlevel

open Lowering

/-- An owner without the marks that looking for `this` and `arguments` leaves on it. -/
def Lowering.Owner.unmarked (owner : Owner) : Owner :=
  { owner with usesThis := false, usesArguments := false }

/-- An owner in which `this`, `arguments` and waiting are written as in the source. -/
structure Lowering.Owner.IsNative (owner : Owner) : Prop where
  kind : owner.kind ≠ .staticInit
  losesArrow : owner.losesArrow = false
  isLifted : owner.isLifted = false
  awaitForm : owner.awaitForm = .await

namespace Native

/-- Nothing that is lowered here has to change: the target has every feature, no private name has
been replaced, and every owner is as in the source. -/
structure Calm (scopes : ScopeTree) (setting : Setting) (progress : Progress) : Prop where
  scopes : setting.scopes = scopes
  supports : ∀ feature, setting.options.target.supports feature = true
  kept : ∀ privates ∈ setting.classes, ∀ entry ∈ privates, entry.2 = none
  owners : ∀ owner ∈ progress.owners, owner.IsNative
  owned : progress.owners ≠ []

/-- What may differ between two moments: marks on the owners, and nothing else. -/
structure Idle (before after : Progress) : Prop where
  temps : after.temps = before.temps
  reports : after.reports = before.reports
  owners : after.owners.map (·.unmarked) = before.owners.map (·.unmarked)

variable {α β : Type} {scopes : ScopeTree} {setting : Setting}
  {before middle after : Progress}

/-- The mark for `this` makes no difference without marks. -/
@[simp] theorem unmarked_usesThis (owner : Owner) :
    { owner with usesThis := true }.unmarked = owner.unmarked :=
  rfl

/-- The mark for `arguments` makes no difference without marks. -/
@[simp] theorem unmarked_usesArguments (owner : Owner) :
    { owner with usesArguments := true }.unmarked = owner.unmarked :=
  rfl

/-- Doing nothing is idle. -/
theorem Idle.refl (progress : Progress) : Idle progress progress :=
  ⟨rfl, rfl, rfl⟩

/-- Being idle twice is being idle. -/
theorem Idle.trans (first : Idle before middle) (second : Idle middle after) :
    Idle before after :=
  ⟨second.temps.trans first.temps, second.reports.trans first.reports,
    second.owners.trans first.owners⟩

/-- Marks do not change what an owner is to the code in it. -/
theorem isNative_congr {owner other : Owner} (same : other.unmarked = owner.unmarked)
    (native : owner.IsNative) : other.IsNative := by
  have kind : other.kind = owner.kind := congrArg (·.kind) same
  have losesArrow : other.losesArrow = owner.losesArrow := congrArg (·.losesArrow) same
  have isLifted : other.isLifted = owner.isLifted := congrArg (·.isLifted) same
  have awaitForm : other.awaitForm = owner.awaitForm := congrArg (·.awaitForm) same
  exact ⟨kind ▸ native.kind, losesArrow ▸ native.losesArrow, isLifted ▸ native.isLifted,
    awaitForm ▸ native.awaitForm⟩

/-- Owners that only got marks are still native. -/
theorem areNative_congr {owners others : List Owner}
    (same : others.map (·.unmarked) = owners.map (·.unmarked))
    (native : ∀ owner ∈ owners, owner.IsNative) : ∀ other ∈ others, other.IsNative := by
  intro other mem
  have marked : other.unmarked ∈ owners.map (·.unmarked) := same ▸ List.mem_map_of_mem mem
  obtain ⟨owner, inOwners, isSame⟩ := List.mem_map.mp marked
  exact isNative_congr isSame.symm (native owner inOwners)

/-- Calm stays calm. -/
theorem Calm.later (calm : Calm scopes setting before) (idle : Idle before after) :
    Calm scopes setting after :=
  { calm with
    owners := areNative_congr idle.owners calm.owners
    owned := fun none => calm.owned (by simpa [none] using idle.owners.symm) }

/-- A run of two steps goes on where the first one ended. -/
theorem run_bind {step : Lower α} {rest : α → Lower β} {result : α}
    (ran : step setting before = .ok (result, middle)) :
    (step >>= rest) setting before = rest result setting middle := by
  have both : (step >>= rest) setting before
      = (step setting before >>= fun pair => rest pair.1 setting pair.2) := rfl
  rw [both, ran]
  rfl

/-- Where all is calm, the step ends with a result as demanded and leaves no more than marks. -/
def Gives (scopes : ScopeTree) (step : Lower α) (demand : α → Prop) : Prop :=
  ∀ setting before, Calm scopes setting before →
    ∃ result after, step setting before = .ok (result, after) ∧ Idle before after ∧ demand result

/-- Where all is calm, the step ends with the given result and leaves no more than marks. -/
abbrev Keeps (scopes : ScopeTree) (step : Lower α) (value : α) : Prop :=
  Gives scopes step (· = value)

/-- The target has every feature. -/
theorem keeps_supports (feature : Feature) : Keeps scopes (Lowering.supports feature) true :=
  fun _ before calm => ⟨_, before, rfl, .refl _, calm.supports feature⟩

/-- The target lacks no feature. -/
theorem keeps_lacks (feature : Feature) : Keeps scopes (Lowering.lacks feature) false := by
  intro setting before calm
  refine ⟨_, before, rfl, .refl _, ?_⟩
  simp [calm.supports feature]

namespace Gives

variable {step : Lower α} {rest : α → Lower β} {demand : α → Prop} {final : β → Prop}

/-- A result that is there already. -/
theorem pure {result : α} (holds : demand result) : Gives scopes (Pure.pure result) demand :=
  fun _ before _ => ⟨result, before, rfl, .refl _, holds⟩

/-- One step after another. -/
theorem bind (first : Gives scopes step demand)
    (second : ∀ result, demand result → Gives scopes (rest result) final) :
    Gives scopes (step >>= rest) final := by
  intro setting before calm
  obtain ⟨result, middle, ran, idle, holds⟩ := first setting before calm
  obtain ⟨last, after, ran', idle', holds'⟩ := second result holds setting middle (calm.later idle)
  exact ⟨last, after, (run_bind ran).trans ran', idle.trans idle', holds'⟩

/-- One step after another, where the first one gives a known result. -/
theorem next {value : α} (first : Keeps scopes step value)
    (second : Gives scopes (rest value) final) : Gives scopes (step >>= rest) final :=
  first.bind fun _ same => same ▸ second

/-- The same step with a weaker demand. -/
theorem weaken {weaker : α → Prop} (holds : Gives scopes step demand)
    (implies : ∀ result, demand result → weaker result) : Gives scopes step weaker := by
  intro setting before calm
  obtain ⟨result, after, ran, idle, shown⟩ := holds setting before calm
  exact ⟨result, after, ran, idle, implies result shown⟩

/-- A step whose result is packed into another one. -/
theorem map {pack : α → β} (holds : Gives scopes step fun result => final (pack result)) :
    Gives scopes (pack <$> step) final := by
  rw [← bind_pure_comp]
  exact holds.bind fun _ shown => .pure shown

/-- Going on where the target lacks nothing. -/
theorem lacks {feature : Feature} {rest : Bool → Lower β}
    (goesOn : Gives scopes (rest false) final) :
    Gives scopes (Lowering.lacks feature >>= rest) final :=
  (keeps_lacks feature).next goesOn

/-- Going on where the target has everything. -/
theorem supports {feature : Feature} {rest : Bool → Lower β}
    (goesOn : Gives scopes (rest true) final) :
    Gives scopes (Lowering.supports feature >>= rest) final :=
  (keeps_supports feature).next goesOn

/-- Nothing is required of a target that has everything. -/
theorem require {feature : Feature} {span : Span} {construct : Construct} {rest : Unit → Lower β}
    (goesOn : Gives scopes (rest ()) final) :
    Gives scopes (Lowering.require feature span construct >>= rest) final := by
  have nothing : Keeps scopes (Lowering.require feature span construct) () :=
    .lacks (.pure rfl)
  exact nothing.next goesOn

/-- Going on with a part of the setting, of which nothing need be known. -/
theorem reading {rest : Setting → Lower β} (goesOn : ∀ setting, Gives scopes (rest setting) final) :
    Gives scopes (read >>= rest) final :=
  fun setting before calm => goesOn setting setting before calm

/-- Going on with what was done so far, of which nothing need be known. -/
theorem getting {rest : Progress → Lower β}
    (goesOn : ∀ progress, Gives scopes (rest progress) final) :
    Gives scopes (get >>= rest) final :=
  fun setting before calm => goesOn before setting before calm

/-- The setting of a step may change as long as all stays calm. -/
theorem inSetting (change : Setting → Setting)
    (stays : ∀ setting progress, Calm scopes setting progress → Calm scopes (change setting) progress)
    (holds : Gives scopes step demand) : Gives scopes (withReader change step) demand :=
  fun setting before calm => holds (change setting) before (stays setting before calm)

/-- A step on the parameters of a function. -/
theorem inParams (holds : Gives scopes step demand) :
    Gives scopes (Lowering.inParams step) demand :=
  holds.inSetting _ fun _ _ calm => { calm with }

/-- A step on a branch. -/
theorem inBranch {isDead : Bool} (holds : Gives scopes step demand) :
    Gives scopes (Lowering.inBranch isDead step) demand :=
  holds.inSetting _ fun _ _ calm => { calm with }

/-- Going on in the second of two ways. -/
theorem otherwise {condition : Prop} [Decidable condition] {other : Lower α}
    (fails : ¬condition) (holds : Gives scopes other demand) :
    Gives scopes (if condition then step else other) demand := by
  rwa [if_neg fails]

/-- A step for each of the items. -/
theorem mapM {items : List α} {step : α → Lower β} {result : α → β}
    (holds : ∀ item ∈ items, Keeps scopes (step item) (result item)) :
    Keeps scopes (items.mapM step) (items.map result) := by
  induction items with
  | nil => exact .pure rfl
  | cons item items ih =>
    rw [List.mapM_cons]
    refine (holds item (by simp)).next ?_
    exact (ih fun item mem => holds item (by simp [mem])).next (.pure rfl)

/-- Asking about items of which each says no. -/
theorem anyM {items : List α} {ask : α → Lower Bool}
    (no : ∀ item ∈ items, Keeps scopes (ask item) false) :
    Keeps scopes (items.anyM ask) false := by
  induction items with
  | nil => exact .pure rfl
  | cons item items ih =>
    rw [List.anyM]
    exact (no item (by simp)).next (ih fun item mem => no item (by simp [mem]))

/-- A step inside of a native owner. -/
theorem inOwner {owner : Owner} {value : α} (native : owner.IsNative)
    (holds : Keeps scopes step value) :
    Gives scopes (Lowering.inOwner owner step) (·.1 = value) := by
  intro setting before calm
  -- Inside, the owner is one more in front, and parameters are over.
  let entered : Progress := { before with owners := owner :: before.owners }
  have inside : Calm scopes { setting with inParams := false } entered :=
    { calm with
      owners := List.forall_mem_cons.mpr ⟨native, calm.owners⟩
      owned := List.cons_ne_nil owner before.owners }
  obtain ⟨result, middle, ran, idle, same⟩ := holds _ entered inside
  obtain ⟨marked, around, left, -, outside⟩ : ∃ marked around, middle.owners = marked :: around
      ∧ marked.unmarked = owner.unmarked
      ∧ around.map (·.unmarked) = before.owners.map (·.unmarked) :=
    List.map_eq_cons_iff.mp idle.owners
  exact ⟨(result, marked), { middle with owners := around }, inOwner_of_cons ran left,
    ⟨idle.temps, idle.reports, outside⟩, same⟩

/-- A frame in which no name is made up declares nothing, and leaves no trace when it is closed. -/
theorem pop_push (temps : Temps) (kind : FrameKind) (owner : ScopeId) :
    (temps.push kind owner).pop? = some ([], temps) := by
  obtain ⟨module, inner, handedOut⟩ := temps
  cases inner with
  | nil => rfl
  | cons parent rest => rfl

/-- A step in a frame of its own. -/
theorem inFrame {kind : FrameKind} {owner : ScopeId} (holds : Gives scopes step demand) :
    Gives scopes (Lowering.inFrame kind owner step) fun found =>
      demand found.1 ∧ found.2 = [] := by
  intro setting before calm
  -- The step runs in a frame of its own; since it leaves the frames alone, the frame closes empty.
  let opened : Progress := { before with temps := before.temps.push kind owner }
  have inside : Calm scopes setting opened := { calm with }
  obtain ⟨result, middle, ran, idle, shown⟩ := holds setting opened inside
  have closed : middle.temps.pop? = some ([], before.temps) := by
    rw [idle.temps]
    exact pop_push before.temps kind owner
  exact ⟨(result, []), { middle with temps := before.temps }, inFrame_of_some ran closed,
    ⟨rfl, idle.reports, idle.owners⟩, shown, rfl⟩

end Gives

/-- The owner that the lowering is directly inside of is native. -/
theorem gives_here : Gives scopes here (·.IsNative) := by
  intro setting before calm
  cases found : before.owners with
  | nil => exact absurd found calm.owned
  | cons owner around =>
    have inside : owner ∈ before.owners := found ▸ List.mem_cons_self ..
    exact ⟨owner, before, here_of_cons found, .refl _, calm.owners owner inside⟩

/-- No private name has been replaced. -/
theorem keeps_privateBinding? (name : String) : Keeps scopes (privateBinding? name) none := by
  unfold privateBinding?
  by_cases isPublic : (!isPrivateName name) = true
  · rw [if_pos isPublic]
    exact .pure rfl
  · rw [if_neg isPublic]
    intro setting before calm
    refine ⟨_, before, rfl, .refl _, ?_⟩
    -- Whichever class declares the name first, it has no binding there.
    cases found : setting.classes.findSome? (·.lookup name) with
    | none => rfl
    | some binding =>
      obtain ⟨privates, mem, isFound⟩ := List.exists_of_findSome?_eq_some found
      obtain ⟨before, after, split, -⟩ := List.lookup_eq_some_iff.mp isFound
      have entry : (name, binding) ∈ privates := by simp [split]
      have isKept : binding = none := calm.kept privates mem _ entry
      rw [isKept]
      rfl

/-- Looking for what `this` means finds no other name for it. -/
theorem findThis_native {owners : List Owner} (native : ∀ owner ∈ owners, owner.IsNative) :
    ∃ marked, marked.map (·.unmarked) = owners.map (·.unmarked)
      ∧ findThis false owners = pure (none, marked) := by
  induction owners with
  | nil => exact ⟨[], rfl, rfl⟩
  | cons owner around ih =>
    obtain ⟨⟨notStatic, losesArrow, _, _⟩, outside⟩ := List.forall_mem_cons.mp native
    obtain ⟨marked, same, found⟩ := ih outside
    -- An arrow passes the question on to the owner around it; any other owner answers it, and none
    -- of them needs a name.
    cases kind : owner.kind with
    | arrow =>
      refine ⟨{ owner with usesThis := true } :: marked, ?_, ?_⟩
      · simp [same]
      · simp only [findThis, kind, losesArrow, Bool.or_self, found, pure_bind]
    | staticInit => exact absurd kind notStatic
    | module | function | fieldInit =>
      refine ⟨{ owner with usesThis := true } :: around, ?_, ?_⟩
      · simp
      · simp [findThis, kind]

/-- Looking for what `arguments` means finds no other name for it. -/
theorem findArguments_native {owners : List Owner} (native : ∀ owner ∈ owners, owner.IsNative) :
    ∃ marked, marked.map (·.unmarked) = owners.map (·.unmarked)
      ∧ findArguments false owners = pure (none, marked) := by
  induction owners with
  | nil => exact ⟨[], rfl, rfl⟩
  | cons owner around ih =>
    obtain ⟨⟨_, losesArrow, isLifted, _⟩, outside⟩ := List.forall_mem_cons.mp native
    obtain ⟨marked, same, found⟩ := ih outside
    -- An arrow passes the question on; a function answers it, and no lifted owner stands between.
    cases kind : owner.kind with
    | arrow =>
      refine ⟨owner :: marked, ?_, ?_⟩
      · simp [same]
      · simp only [findArguments, kind, losesArrow, isLifted, Bool.or_self, found, pure_bind]
    | function =>
      refine ⟨{ owner with usesArguments := true } :: around, ?_, ?_⟩
      · simp
      · simp [findArguments, kind]
    | module | fieldInit | staticInit =>
      exact ⟨owner :: around, rfl, by simp [findArguments, kind]⟩

/-- A search through the owners whose marks are kept. -/
theorem keeps_search {find : List Owner → Lower (Option String × List Owner)}
    (finds : ∀ owners, (∀ owner ∈ owners, owner.IsNative) →
      ∃ marked, marked.map (·.unmarked) = owners.map (·.unmarked)
        ∧ find owners = pure (none, marked)) :
    Keeps scopes (do
      let (name, owners) ← find (← get).owners
      modify fun progress => { progress with owners }
      return name) none := by
  intro setting before calm
  -- The search only marks owners, so what the owners are stays as it was.
  obtain ⟨marked, same, found⟩ := finds before.owners calm.owners
  refine ⟨none, { before with owners := marked }, ?_, ⟨rfl, rfl, same⟩, rfl⟩
  show (find before.owners >>= fun (name, owners) => do
    modify fun progress => { progress with owners }
    return name : Lower (Option String)) setting before = _
  rw [found]
  rfl

/-- `this` has no other name. -/
theorem keeps_resolveThis : Keeps scopes resolveThis none :=
  keeps_search fun _ => findThis_native

/-- `arguments` has no other name. -/
theorem keeps_resolveArguments : Keeps scopes resolveArguments none :=
  keeps_search fun _ => findArguments_native

end Native

end Downlevel
