import Downlevel.Lowering.Chain
import Downlevel.Proofs.Scoping.Trees
import Downlevel.Proofs.StateSteps

/-! What can be said about every step of the lowering: it never fails on a program without clashes,
it only adds to what the open frames declare, and what it makes needs nothing around it but names
that the source has, names that lowered code expects, and names that the open frames declare. -/

namespace Downlevel

open Lowering

/-- The names of functions and classes that lowered code expects to be there. -/
def runtimeNames : List String :=
  ["__async", "__asyncGenerator", "__await", "__yieldStar", "__forAwait", "__pow", "__privateAdd",
    "__privateGet", "__privateSet", "__privateIn", "__privateMethod", "__privateWrapper",
    "__publicField", "__objRest", "__restKey", "__spreadProps", "__spreadValues", "__template",
    "WeakMap", "WeakSet", "BigInt", "arguments"]

/-- What the frame with the index has to declare. -/
def Temps.declaredAt (temps : Temps) (index : Nat) : List Temp :=
  (temps.frame? index).elim [] (·.declared)

namespace Temp

/-- The name, if it is made up to stand for `this` or `arguments`. -/
def alias? (temp : Temp) : Option String :=
  (Declarator.ofName ⟨0, 0⟩ temp.name temp.init).alias?

/-- It is the own name that stands for something. -/
theorem name_of_alias? {temp : Temp} {name : String} (isAlias : temp.alias? = some name) :
    temp.name = name := by
  -- Only a temporary that starts as `this` or as `arguments` is an alias, and then under its own
  -- name.
  obtain ⟨owner, own, seq, init⟩ := temp
  have named {front : Bool} (found : (if front then some own else none) = some name) :
      own = name := by
    cases front <;> simp_all
  rcases init with - | ⟨origin, shape⟩
  · cases isAlias
  · cases shape with
    | this => exact named isAlias
    | id other => exact named isAlias
    | _ => cases isAlias

/-- A made-up name that stands for `this` or `arguments`. -/
def IsAlias (temp : Temp) : Prop :=
  temp.alias? = some temp.name

/-- A made-up name can be written, and starts out with nothing else than `this` or `arguments`. -/
structure IsSound (stem : String) (temp : Temp) : Prop where
  writable : Writable stem temp.name
  starts : ∀ init ∈ temp.init, init.shape = .this ∨ init.shape = .id "arguments"

end Temp

namespace Lowering

/-- What stays the same about an owner. The other name of a function's `this` may still be made. -/
def Owner.identity (owner : Owner) : OwnerKind × Nat × Option String :=
  (owner.kind, owner.frame, if owner.kind = .staticInit then owner.thisAlias else none)

/-- Whoever stays the same keeps the placeholder for its class. -/
theorem Owner.placeholder_of_identity {owner other : Owner}
    (same : other.identity = owner.identity) (isStatic : owner.kind = .staticInit) :
    other.kind = .staticInit ∧ other.thisAlias = owner.thisAlias := by
  simp only [Owner.identity, Prod.mk.injEq] at same
  obtain ⟨kind, -, thisAlias⟩ := same
  rw [isStatic] at kind
  simp only [kind, isStatic, if_true] at thisAlias
  exact ⟨kind, thisAlias⟩

/-- The names that stand in for a private name. -/
def PrivateBinding.names (binding : PrivateBinding) : List String :=
  binding.storage :: match binding.role with
    | .field => []
    | .method function => [function]
    | .accessor getter setter => getter.toList ++ setter.toList

/-- The other names of `this` and `arguments` that a function has are declared in its frame. -/
def Owner.AliasesIn (temps : Temps) (owner : Owner) : Prop :=
  owner.kind = .function →
    owner.frame ≤ temps.current
      ∧ ∀ name, owner.thisAlias = some name ∨ owner.argumentsAlias = some name →
        ∃ temp ∈ temps.declaredAt owner.frame, temp.name = name

/-- The names of open frames and owners are in order. -/
structure Progress.IsSound (stem : String) (progress : Progress) : Prop where
  temps : ∀ index, ∀ temp ∈ progress.temps.declaredAt index, temp.IsSound stem
  owners : progress.owners ≠ []
  aliases : ∀ owner ∈ progress.owners, owner.AliasesIn progress.temps

/-- The names that code may mention at a moment of the lowering, besides the given ones. -/
inductive Progress.Sees (given : World) (progress : Progress) (name : String) : Prop
  | given (holds : given name)
  | runtime (mem : name ∈ runtimeNames)
  | declared (index : Nat) (temp : Temp) (mem : temp ∈ progress.temps.declaredAt index)
    (isName : temp.name = name)
  | placeholder (owner : Owner) (mem : owner ∈ progress.owners) (isStatic : owner.kind = .staticInit)
    (isAlias : owner.thisAlias = some name)

/-- A name may be declared between two moments if it stands for `this` or `arguments`, or if it
belongs to the module or to the innermost frame outside of parameters. -/
def Progress.MayDeclare (inParams : Bool) (progress : Progress) (index : Nat) (temp : Temp) : Prop :=
  temp.IsAlias ∨ index = 0 ∨ index = progress.temps.current ∧ inParams = false

/-- What holds between two moments of the lowering of one part. -/
structure Progress.Goes (stem : String) (inParams : Bool) (before after : Progress) : Prop where
  current : after.temps.current = before.temps.current
  declared : ∀ index, ∃ more,
    after.temps.declaredAt index = before.temps.declaredAt index ++ more
      ∧ ∀ temp ∈ more, before.MayDeclare inParams index temp
  owners : after.owners.map (·.identity) = before.owners.map (·.identity)
  sound : before.IsSound stem → after.IsSound stem

namespace Progress.Goes

variable {stem : String} {given : World} {inParams : Bool} {before middle after : Progress}

/-- Doing nothing is a way to go on. -/
theorem refl (progress : Progress) : progress.Goes stem inParams progress :=
  ⟨rfl, fun _ => ⟨[], by simp, nofun⟩, rfl, id⟩

/-- Going on twice is going on. -/
theorem trans (first : before.Goes stem inParams middle)
    (second : middle.Goes stem inParams after) : before.Goes stem inParams after := by
  refine ⟨second.current.trans first.current, fun index => ?_, second.owners.trans first.owners,
    second.sound ∘ first.sound⟩
  obtain ⟨more, grown, may⟩ := first.declared index
  obtain ⟨others, grown', may'⟩ := second.declared index
  refine ⟨more ++ others, by rw [grown', grown, List.append_assoc], fun temp mem => ?_⟩
  rcases List.mem_append.mp mem with early | late
  · exact may temp early
  · have later := may' temp late
    rwa [Progress.MayDeclare, first.current] at later

/-- What is declared stays declared. -/
theorem keeps (goes : before.Goes stem inParams after) {index : Nat} {temp : Temp}
    (mem : temp ∈ before.temps.declaredAt index) : temp ∈ after.temps.declaredAt index := by
  obtain ⟨more, grown, -⟩ := goes.declared index
  rw [grown]
  exact List.mem_append_left _ mem

/-- The other names that a function has are still declared. -/
theorem aliasesIn (goes : before.Goes stem inParams after) {owner : Owner}
    (aliases : owner.AliasesIn before.temps) : owner.AliasesIn after.temps := by
  intro isFunction
  obtain ⟨isOpen, declared⟩ := aliases isFunction
  refine ⟨goes.current ▸ isOpen, fun name isAlias => ?_⟩
  obtain ⟨temp, mem, isName⟩ := declared name isAlias
  exact ⟨temp, goes.keeps mem, isName⟩

/-- Code may still mention what it could mention before. -/
theorem sees (goes : before.Goes stem inParams after) {name : String}
    (sees : before.Sees given name) : after.Sees given name := by
  -- What was given, declared or held before is so afterwards: frames only grow, and owners keep
  -- their identity.
  cases sees with
  | given holds => exact .given holds
  | runtime mem => exact .runtime mem
  | declared index temp mem isName => exact .declared index temp (goes.keeps mem) isName
  | placeholder owner mem isStatic isAlias =>
    have mapped : owner.identity ∈ after.owners.map (·.identity) := by
      rw [goes.owners]
      exact List.mem_map_of_mem mem
    obtain ⟨same, mem', identity⟩ := List.mem_map.mp mapped
    obtain ⟨isStatic', isAlias'⟩ := Owner.placeholder_of_identity identity isStatic
    exact .placeholder same mem' isStatic' (isAlias'.trans isAlias)

end Progress.Goes

end Lowering

/-- A run of the lowering: what the file is called, which names are bound wherever its code ends up,
which of the made-up names are known to be declared, and whether the source is free of clashes. -/
structure Realm where
  stem : String
  given : World
  known : World := fun _ => False
  isClean : Prop

namespace Realm

variable {α β : Type} {realm : Realm} {mayBeParams : Bool} {setting : Setting}
  {before middle after : Progress}

/-- The same run, once more names are known to be declared. -/
abbrev knowing (realm : Realm) (world : World) : Realm :=
  { realm with known := fun name => realm.known name ∨ world name }

/-- A world in which all names are bound that code may mention at a moment. -/
def Covers (realm : Realm) (progress : Progress) (world : World) : Prop :=
  ∀ name, progress.Sees realm.given name → world name

/-- A world in which all names are bound that code may always mention. -/
structure Grounds (realm : Realm) (world : World) : Prop where
  given : ∀ name, realm.given name → world name
  runtime : ∀ name ∈ runtimeNames, world name
  known : ∀ name, realm.known name → world name

/-- The lowering is somewhere in the run, possibly in parameters. -/
structure Fits (realm : Realm) (mayBeParams : Bool) (setting : Setting) (progress : Progress) :
    Prop where
  stem : setting.options.fileStem = realm.stem
  known : ∀ name, realm.known name → progress.Sees realm.given name
  classes : ∀ privates ∈ setting.classes, ∀ entry ∈ privates, ∀ binding ∈ entry.2,
    ∀ name ∈ binding.names, progress.Sees realm.given name
  params : setting.inParams = true → mayBeParams = true ∧ 0 < progress.temps.current
    ∧ ∀ temp ∈ progress.temps.declaredAt progress.temps.current, temp.IsAlias
  sound : progress.IsSound realm.stem

/-- The lowering is still in the run later on. -/
theorem Fits.later (fits : realm.Fits mayBeParams setting before)
    (goes : before.Goes realm.stem setting.inParams after) :
    realm.Fits mayBeParams setting after where
  stem := fits.stem
  known name holds := goes.sees (fits.known name holds)
  classes privates inClasses entry inPrivates binding isBinding name isName :=
    goes.sees (fits.classes privates inClasses entry inPrivates binding isBinding name isName)
  params inParams := by
    obtain ⟨may, inside, aliases⟩ := fits.params inParams
    rw [goes.current]
    refine ⟨may, inside, fun temp mem => ?_⟩
    obtain ⟨more, grown, declares⟩ := goes.declared before.temps.current
    rw [grown] at mem
    rcases List.mem_append.mp mem with early | late
    · exact aliases temp early
    · -- In parameters nothing else may be declared by the innermost frame.
      rcases declares temp late with isAlias | isModule | ⟨-, outside⟩
      · exact isAlias
      · omega
      · rw [inParams] at outside
        cases outside
  sound := goes.sound fits.sound

/-- Where no parameters may be, none are. -/
theorem Fits.outside (fits : realm.Fits false setting before) : setting.inParams = false :=
  Bool.eq_false_iff.mpr fun inParams => Bool.false_ne_true (fits.params inParams).1

/-- Whoever knows more names knows the others as well. -/
theorem Fits.forget {world : World} (fits : (realm.knowing world).Fits mayBeParams setting before) :
    realm.Fits mayBeParams setting before where
  stem := fits.stem
  known name holds := fits.known name (.inl holds)
  classes := fits.classes
  params := fits.params
  sound := fits.sound

/-- A step fails on no program without clashes. If it ends, the lowering has gone on as it may, and
its result is as described in every world that binds what code may mention by then. -/
def Works (realm : Realm) (mayBeParams : Bool) (step : Lower α) (described : World → α → Prop) :
    Prop :=
  ∀ setting before, realm.Fits mayBeParams setting before →
    (∀ fault, step setting before = .error fault → ¬realm.isClean)
      ∧ ∀ result after, step setting before = .ok (result, after) →
        before.Goes realm.stem setting.inParams after
          ∧ ∀ world, realm.Covers after world → described world result

/-- What code may mention by then includes what it may always mention. -/
theorem Fits.grounds {world : World} (fits : realm.Fits mayBeParams setting before)
    (goes : before.Goes realm.stem setting.inParams after) (covers : realm.Covers after world) :
    realm.Grounds world where
  given name holds := covers name (.given holds)
  runtime name mem := covers name (.runtime mem)
  known name holds := covers name (goes.sees (fits.known name holds))

namespace Works

variable {step : Lower α} {rest : α → Lower β} {described : World → α → Prop}
  {final : World → β → Prop}

/-- The same step, whatever more is known or said about it. -/
theorem weaken {weaker : World → α → Prop} (holds : realm.Works mayBeParams step described)
    (implies : ∀ world, realm.Grounds world → ∀ result, described world result →
      weaker world result) : realm.Works mayBeParams step weaker := by
  intro setting before fits
  obtain ⟨fails, ends⟩ := holds setting before fits
  refine ⟨fails, fun result after run => ?_⟩
  obtain ⟨goes, shown⟩ := ends result after run
  exact ⟨goes, fun world covers =>
    implies world (fits.grounds goes covers) result (shown world covers)⟩

/-- What is described in all worlds that bind enough is so in all that bind even more. -/
theorem wider (holds : realm.Works mayBeParams step described) :
    realm.Works mayBeParams step fun world result =>
      ∀ wide : World, (∀ name, world name → wide name) → described wide result := by
  intro setting before fits
  obtain ⟨fails, ends⟩ := holds setting before fits
  refine ⟨fails, fun result after run => ?_⟩
  obtain ⟨goes, shown⟩ := ends result after run
  exact ⟨goes, fun world covers wide grows => shown wide fun name sees => grows name (covers name sees)⟩

/-- A result that is there already. -/
theorem pure {result : α} (holds : ∀ world, realm.Grounds world → described world result) :
    realm.Works mayBeParams (Pure.pure result) described := by
  intro setting before fits
  refine ⟨nofun, ?_⟩
  rintro _ _ ⟨⟩
  exact ⟨.refl _, fun world covers => holds world (fits.grounds (.refl _) covers)⟩

/-- A step that is only reached in a program with clashes. -/
theorem fault {problem : Fault} (clashes : ¬realm.isClean) :
    realm.Works mayBeParams (throw problem : Lower α) described := by
  intro setting before _
  exact ⟨fun _ _ => clashes, nofun⟩

/-- A step outside of parameters, whose setting may be any. -/
theorem ofParams (holds : realm.Works true step described) :
    realm.Works mayBeParams step described := by
  intro setting before fits
  refine holds setting before { fits with params := fun inParams => ?_ }
  exact ⟨rfl, (fits.params inParams).2⟩

/-- A step for which nothing need be known still is one when something is. -/
theorem knowing {world : World} (holds : realm.Works mayBeParams step described) :
    (realm.knowing world).Works mayBeParams step described :=
  fun setting before fits => holds setting before fits.forget

/-- One step after another. The second one may rely on what is known once the first has ended, and
that the names are declared which the result of the first mentions. -/
theorem bindKnowing (first : realm.Works mayBeParams step described)
    (second : ∀ result seen, described seen result →
      (realm.knowing seen).Works mayBeParams (rest result) fun world last =>
        described world result → final world last) :
    realm.Works mayBeParams (step >>= rest) final := by
  intro setting before fits
  have both : (step >>= rest) setting before
      = (step setting before >>= fun pair => rest pair.1 setting pair.2) := rfl
  rw [both]
  obtain ⟨fails, ends⟩ := first setting before fits
  -- The rest runs in a realm that also knows what the first step left behind, and what is known
  -- stays visible.
  cases begun : step setting before with
  | error fault => exact ⟨fun _ _ => fails fault begun, nofun⟩
  | ok pair =>
    obtain ⟨result, middle⟩ := pair
    obtain ⟨goes, shown⟩ := ends result middle begun
    let seen : World := middle.Sees realm.given
    have fits' : (realm.knowing seen).Fits mayBeParams setting middle :=
      { fits.later goes with known := fun name holds => holds.elim ((fits.later goes).known name) id }
    obtain ⟨fails', ends'⟩ := second result seen (shown seen fun _ => id) setting middle fits'
    refine ⟨fails', fun last after run => ?_⟩
    obtain ⟨goes', shown'⟩ := ends' last after run
    exact ⟨goes.trans goes', fun world covers => shown' world covers
      (shown world fun name sees => covers name (goes'.sees sees))⟩

/-- One step after another. -/
theorem bind (first : realm.Works mayBeParams step described)
    (second : ∀ result, realm.Works mayBeParams (rest result) fun world last =>
      described world result → final world last) :
    realm.Works mayBeParams (step >>= rest) final :=
  first.bindKnowing fun result _ _ => (second result).knowing

/-- One step after another, where something is known of the first one that depends on no world. -/
theorem bindFact {fact : α → Prop}
    (first : realm.Works mayBeParams step fun world result => fact result ∧ described world result)
    (second : ∀ result, fact result → realm.Works mayBeParams (rest result) fun world last =>
      described world result → final world last) :
    realm.Works mayBeParams (step >>= rest) final := by
  refine first.bindKnowing fun result _ shown => .knowing ?_
  apply (second result shown.1).weaken
  intro world _ last holds known
  exact holds known.2

/-- One step after another of which nothing need be known. -/
theorem andThen (first : realm.Works mayBeParams step described)
    (second : ∀ result, realm.Works mayBeParams (rest result) final) :
    realm.Works mayBeParams (step >>= rest) final :=
  first.bind fun result => (second result).weaken fun _ _ _ holds _ => holds

/-- A step whose result is packed into another one. -/
theorem map {pack : α → β}
    (holds : realm.Works mayBeParams step fun world result => final world (pack result)) :
    realm.Works mayBeParams (pack <$> step) final := by
  rw [← bind_pure_comp]
  exact holds.bind fun _ => .pure fun _ _ => id

/-- Going on in one of two ways. -/
theorem ite {condition : Prop} [Decidable condition] {step other : Lower α}
    (holds : condition → realm.Works mayBeParams step described)
    (fails : ¬condition → realm.Works mayBeParams other described) :
    realm.Works mayBeParams (if condition then step else other) described := by
  split
  · exact holds ‹_›
  · exact fails ‹_›

/-- A step that is only taken on a condition, and what comes after it. -/
theorem when {condition : Prop} [Decidable condition] {step : Lower Unit} {rest : Unit → Lower β}
    (first : realm.Works mayBeParams step fun _ _ => True)
    (second : realm.Works mayBeParams (rest ()) final) :
    realm.Works mayBeParams (if condition then step >>= rest else rest ()) final :=
  .ite (fun _ => first.andThen fun _ => second) fun _ => second

/-- A step for each of the items: every item has a result, and every result belongs to an item. -/
theorem mapM {items : List α} {step : α → Lower β} {each : α → World → β → Prop}
    (holds : ∀ item ∈ items, realm.Works mayBeParams (step item) (each item)) :
    realm.Works mayBeParams (items.mapM step) fun world results =>
      (∀ result ∈ results, ∃ item ∈ items, each item world result)
        ∧ ∀ item ∈ items, ∃ result ∈ results, each item world result := by
  -- Along the items: each of them has a result, and each result is that of an item.
  induction items with
  | nil => exact .pure fun _ _ => by simp
  | cons item items ih =>
    rw [List.mapM_cons]
    apply (holds item (by simp)).bind
    intro result
    apply (ih fun item mem => holds item (by simp [mem])).bind
    intro results
    apply Works.pure
    rintro world _ ⟨others, answered⟩ own
    simp only [List.mem_cons, forall_eq_or_imp, exists_eq_or_imp]
    exact ⟨⟨.inl own, fun result mem => .inr (others result mem)⟩, .inl own,
      fun item mem => .inr (answered item mem)⟩

/-- A check of each of the items. -/
theorem forM {items : List α} {check : α → Lower Unit}
    (holds : ∀ item ∈ items, realm.Works mayBeParams (check item) fun _ _ => True) :
    realm.Works mayBeParams (items.forM check) fun _ _ => True := by
  induction items with
  | nil => exact .pure fun _ _ => trivial
  | cons item items ih =>
    exact (holds item (by simp)).andThen fun _ => ih fun item mem => holds item (by simp [mem])

/-- Asking about the items, one after the other. -/
theorem anyM {items : List α} {ask : α → Lower Bool}
    (holds : ∀ item ∈ items, realm.Works mayBeParams (ask item) fun _ _ => True) :
    realm.Works mayBeParams (items.anyM ask) fun _ _ => True := by
  -- The search stops at the first item that answers; asking changes no name either way.
  induction items with
  | nil => exact .pure fun _ _ => trivial
  | cons item items ih =>
    rw [List.anyM]
    apply (holds item (by simp)).andThen
    intro found
    cases found with
    | true => exact .pure fun _ _ => trivial
    | false => exact ih fun item mem => holds item (by simp [mem])

/-- Picking items by asking about each. -/
theorem filterM {items : List α} {ask : α → Lower Bool}
    (holds : ∀ item ∈ items, realm.Works mayBeParams (ask item) fun _ _ => True) :
    realm.Works mayBeParams (items.filterM ask) fun _ _ => True := by
  have collects (items found : List α)
      (holds : ∀ item ∈ items, realm.Works mayBeParams (ask item) fun _ _ => True) :
      realm.Works mayBeParams (List.filterAuxM ask items found) fun _ _ => True := by
    induction items generalizing found with
    | nil => exact .pure fun _ _ => trivial
    | cons item items ih =>
      exact (holds item (by simp)).andThen fun _ => ih _ fun item mem => holds item (by simp [mem])
  exact (collects items [] holds).andThen fun _ => .pure fun _ _ => trivial

/-- A step that only asks about the setting and the progress. -/
theorem asks {ask : Setting → Progress → α}
    (holds : ∀ setting progress world, realm.Fits mayBeParams setting progress →
      realm.Covers progress world → described world (ask setting progress)) :
    realm.Works mayBeParams (fun setting progress => .ok (ask setting progress, progress))
      described := by
  intro setting before fits
  refine ⟨nofun, ?_⟩
  rintro _ _ ⟨⟩
  exact ⟨.refl _, fun world covers => holds setting before world fits covers⟩

/-- A step in a setting that differs in nothing that matters here. -/
theorem withReader {change : Setting → Setting} (holds : realm.Works mayBeParams step described)
    (same : ∀ setting, (change setting).options = setting.options
      ∧ (change setting).classes = setting.classes
      ∧ (change setting).inParams = setting.inParams) :
    realm.Works mayBeParams (MonadWithReader.withReader change step) described := by
  intro setting before fits
  obtain ⟨options, classes, inParams⟩ := same setting
  -- The three parts of the setting that count are the same, so the step fits as before.
  have fits' : realm.Fits mayBeParams (change setting) before :=
    ⟨options ▸ fits.stem, fits.known, classes ▸ fits.classes, inParams ▸ fits.params, fits.sound⟩
  obtain ⟨fails, ends⟩ := holds (change setting) before fits'
  rw [inParams] at ends
  exact ⟨fails, ends⟩

end Works

/-- Reading the setting works. -/
theorem works_read : realm.Works mayBeParams read fun _ _ => True :=
  .asks fun _ _ _ _ _ => trivial

/-- The name of the file is known. -/
theorem works_readStem : realm.Works mayBeParams read fun _ setting =>
    setting.options.fileStem = realm.stem ∧ True :=
  .asks fun _ _ _ fits _ => ⟨fits.stem, trivial⟩

/-- Reading the state works. -/
theorem works_get : realm.Works mayBeParams get fun _ _ => True :=
  .asks fun _ _ _ _ _ => trivial

/-- Asking whether a feature is missing works. -/
theorem works_lacks (feature : Feature) : realm.Works mayBeParams (lacks feature) fun _ _ => True :=
  .asks fun _ _ _ _ _ => trivial

/-- Asking whether a feature is there works. -/
theorem works_supports (feature : Feature) :
    realm.Works mayBeParams (supports feature) fun _ _ => True :=
  .asks fun _ _ _ _ _ => trivial

/-- Asking whether `undefined` is bound works. -/
theorem works_bindsUndefined : realm.Works mayBeParams bindsUndefined fun _ _ => True :=
  .asks fun _ _ _ _ _ => trivial

/-- There always is an owner. -/
theorem works_here : realm.Works mayBeParams here fun _ _ => True := by
  intro setting before fits
  cases found : before.owners with
  | nil => exact absurd found fits.sound.owners
  | cons owner around =>
    rw [here_of_cons found]
    constructor
    · rintro _ ⟨⟩
    · rintro _ _ ⟨⟩
      exact ⟨.refl _, fun _ _ => trivial⟩

/-- Reporting works. -/
theorem works_report (span : Span) (problem : Problem) :
    realm.Works mayBeParams (report span problem) fun _ _ => True := by
  intro setting before fits
  refine ⟨nofun, ?_⟩
  rintro _ _ ⟨⟩
  exact ⟨⟨rfl, fun _ => ⟨[], by simp, nofun⟩, rfl, fun sound => ⟨sound.temps, sound.owners, sound.aliases⟩⟩,
    fun _ _ => trivial⟩

/-- Reporting what is not supported works. -/
theorem works_unsupported (span : Span) (construct : Construct) :
    realm.Works mayBeParams (unsupported span construct) fun _ _ => True :=
  works_report span _

/-- Reporting what the target lacks works. -/
theorem works_require (feature : Feature) (span : Span) (construct : Construct) :
    realm.Works mayBeParams (require feature span construct) fun _ _ => True := by
  apply (works_lacks feature).andThen
  intro isLacking
  exact .ite (fun _ => works_unsupported span construct) fun _ => .pure fun _ _ => trivial

end Realm

end Downlevel
