import Downlevel.Lowering.Class.Keys
import Downlevel.Proofs.Scoping.Privates

/-! The members of a class need nothing around them but what is bound there, and the code that moves
behind the class also what stands for its name. Computed keys that are chained into each other need
what they did before, and the names that some of them are kept in are declared. -/

namespace Downlevel

open Lowering

/-- One more name is bound, whether it can be written or not. -/
def World.withName (world : World) (name : String) : World :=
  fun other => world other ∨ other = name

/-- The members that have to have a body with braces have one. -/
def MemberValue.hasBraces : MemberValue → Bool
  | .method func => func.body.isBlock
  | _ => true

namespace Realm

variable {realm : Realm} {mayBeParams : Bool} {world : World} {span : Span}

section Inside

variable {α β : Type} {privates : PrivateNames} {step : Lower α} {described : World → α → Prop}

/-- A step inside of a class with the private names. -/
abbrev inClass (privates : PrivateNames) (step : Lower α) : Lower α :=
  withReader (fun (setting : Setting) => { setting with classes := privates :: setting.classes }) step

/-- The names that stand in for private ones are known to be declared. -/
def KnowsNames (realm : Realm) (privates : PrivateNames) : Prop :=
  ∀ pair ∈ privates, ∀ binding ∈ pair.2, Binds realm.known binding

/-- A step works inside of a class if the names for its private ones are declared. -/
theorem Works.inClass (known : realm.KnowsNames privates)
    (holds : realm.Works mayBeParams step described) :
    realm.Works mayBeParams (inClass privates step) described := by
  intro setting before fits
  refine holds { setting with classes := privates :: setting.classes } before
    ⟨fits.stem, fits.known, ?_, fits.params, fits.sound⟩
  refine List.forall_mem_cons.mpr ⟨fun entry mem binding isBinding name isName => ?_, fits.classes⟩
  exact fits.known name (known entry mem binding isBinding name isName)

/-- One step after another inside of a class. -/
theorem Works.bindInClass {rest : α → Lower β} {final : World → β → Prop}
    (first : realm.Works mayBeParams (Realm.inClass privates step) described)
    (second : ∀ result, realm.Works mayBeParams (Realm.inClass privates (rest result))
      fun world last => described world result → final world last) :
    realm.Works mayBeParams (Realm.inClass privates (step >>= rest)) final :=
  first.bind second

/-- The same where something is known of the first step that depends on no world. -/
theorem Works.bindFactInClass {rest : α → Lower β} {final : World → β → Prop} {fact : α → Prop}
    (first : realm.Works mayBeParams (Realm.inClass privates step) fun world result =>
      fact result ∧ described world result)
    (second : ∀ result, fact result →
      realm.Works mayBeParams (Realm.inClass privates (rest result)) fun world last =>
        described world result → final world last) :
    realm.Works mayBeParams (Realm.inClass privates (step >>= rest)) final :=
  first.bindFact second

/-- Inside of a class that declares a private name, the name is its own. -/
theorem works_ownBinding {name : String} {own : Option PrivateBinding}
    (known : realm.KnowsNames privates) (isOwn : privates.lookup name = some own) :
    realm.Works mayBeParams (inClass privates (privateBinding? name)) fun world found =>
      (∀ binding ∈ found, own = some binding) ∧ ∀ binding ∈ found, Binds world binding := by
  have asked : inClass privates (privateBinding? name) = if !isPrivateName name then pure none
      else fun setting progress =>
        .ok (((privates :: setting.classes).findSome? (·.lookup name)).join, progress) := by
    unfold privateBinding?
    split <;> rfl
  -- Inside the class its own names come first, so the binding found is the one it gave to the name.
  rw [asked]
  apply Works.ite
  · exact fun _ => .pure fun _ _ => ⟨nofun, nofun⟩
  · intro _
    apply Works.asks
    intro setting progress world fits covers
    rw [List.findSome?_cons_of_isSome (by simp [isOwn]), isOwn]
    refine ⟨fun binding isBinding => isBinding, fun binding isBinding other isName => ?_⟩
    obtain ⟨front, back, split, -⟩ := List.lookup_eq_some_iff.mp isOwn
    exact covers other (fits.known other
      (known (name, own) (by simp [split]) binding isBinding other isName))

end Inside

section Slots

variable {placeholder : String} {privates : PrivateNames}

/-- What is bound around an initializer that moves: that of a class member may mention what stands
for the name of the class. -/
def initWorld (world : World) (placeholder : String) (isStatic : Bool) : World :=
  if isStatic then world.withName placeholder else world

/-- The parts of a member need no more where it goes to than what is bound there. -/
def MeetsSlot (realm : Realm) (placeholder : String) (world : World) : Slot → Prop
  | .kept member =>
    Meets realm.stem world (classMemberUses member) ∧ member.value.hasBraces = true
  | .defined _ isStatic key init =>
    Meets realm.stem world (keyUses key)
      ∧ Meets realm.stem (initWorld world placeholder isStatic) (optionUses init)
  | .assigned _ isStatic key init =>
    Meets realm.stem world (keyUses key)
      ∧ Meets realm.stem (initWorld world placeholder isStatic) (exprUses init)
  | .dropped key => Meets realm.stem world (keyUses key)
  | .privateField _ isStatic _ binding init =>
    Binds world binding ∧ Meets realm.stem (initWorld world placeholder isStatic) (optionUses init)
  | .privateFunction _ _ binding function func =>
    Binds world binding ∧ world function ∧ Meets realm.stem world (funcUses func)
  | .staticCode code => ∀ value ∈ code, Meets realm.stem (world.withName placeholder) (exprUses value)

/-- The private name of a member that moves is one that the class replaces. -/
def IsOwn (privates : PrivateNames) (slot : Slot) : Prop :=
  ∀ name ∈ slot.privateName?, (privates.lookup name).join.isSome = true

/-- A member is where it has a place, and its parts need no more there than what is bound. -/
abbrev SuitsSlot (realm : Realm) (privates : PrivateNames) (placeholder : String) (world : World)
    (slot : Slot) : Prop :=
  IsOwn privates slot ∧ realm.MeetsSlot placeholder world slot

/-- More may be bound for an initializer where more is bound for its class. -/
theorem initWorld_mono {wide : World} {isStatic : Bool} (grows : ∀ name, world name → wide name) :
    ∀ name, initWorld world placeholder isStatic name → initWorld wide placeholder isStatic name := by
  cases isStatic with
  | false => exact grows
  | true => exact fun name => Or.imp_left (grows name)

/-- A member suits its place where more is bound. -/
theorem SuitsSlot.mono {slot : Slot} {wide : World}
    (suits : realm.SuitsSlot privates placeholder world slot)
    (grows : ∀ name, world name → wide name) :
    realm.SuitsSlot privates placeholder wide slot := by
  obtain ⟨isOwn, meets⟩ := suits
  refine ⟨isOwn, ?_⟩
  -- Each slot holds expressions that meet the world, and a wider world is met as well.
  cases slot with
  | kept member => exact ⟨meets.1.mono grows, meets.2⟩
  | defined span isStatic key init => exact ⟨meets.1.mono grows, meets.2.mono (initWorld_mono grows)⟩
  | assigned span isStatic key init => exact ⟨meets.1.mono grows, meets.2.mono (initWorld_mono grows)⟩
  | dropped key => exact Meets.mono meets grows
  | privateField span isStatic name binding init =>
    exact ⟨fun other isName => grows other (meets.1 other isName), meets.2.mono (initWorld_mono grows)⟩
  | privateFunction span name binding function func =>
    exact ⟨fun other isName => grows other (meets.1 other isName), grows _ meets.2.1,
      meets.2.2.mono grows⟩
  | staticCode code => exact fun value mem => (meets value mem).mono fun name => Or.imp_left (grows name)

/-- The function that a member of a private name is has a name of its own. -/
theorem binds_function {binding : PrivateBinding} {role : FunctionRole} {function : String}
    (binds : Binds world binding) (isFunction : binding.function? role = some function) :
    world function := by
  obtain ⟨-, functions⟩ := binds_iff.mp binds
  unfold PrivateBinding.function? at isFunction
  split at isFunction
  · simp_all
  · simp_all
  · simp_all
  · cases isFunction

/-- An initializer works, also one that moves behind the class. -/
theorem works_fieldInit {init : Option (Lower Expr)} (inInit : ∀ step ∈ init, realm.WorksExpr step)
    (className : Option String) :
    realm.Works false (fieldInit init className) fun world (init, _) =>
      ∀ wide : World, (∀ name, world name → wide name) → (∀ name ∈ className, wide name) →
        Meets realm.stem wide (optionUses init) := by
  cases init with
  | none => exact .pure fun _ _ _ _ _ => by simp [optionUses]
  | some step =>
    apply works_get.andThen
    intro progress
    extract_lets owner
    -- The value is inside a member, whose owner is never a function.
    have notFunction : owner.kind ≠ .function := by
      simp only [owner]
      split <;> decide
    apply ((inInit step rfl).inOwner notFunction).bind
    rintro ⟨value, owner⟩
    apply Works.pure
    intro world _ shown wide grows isNamed
    exact shown wide grows fun _ => isNamed

/-- The statements of a static block work, and what they have to declare is in order. -/
theorem works_staticBlock (span : Span) {body : Lower (List Stmt)} (inBody : realm.WorksStmts body)
    (className : Option String) :
    realm.Works false (staticBlock span body className) fun world (stmts, temps, _) =>
      (∀ temp ∈ temps, temp.IsSound realm.stem)
        ∧ ∀ wide : World, (∀ name, world name → wide name) → (∀ name ∈ className, wide name) →
          Meets realm.stem (wide.plus realm.stem (temps.map (·.name) ++ stmtsNames false stmts))
            (stmtsUses stmts) := by
  unfold staticBlock
  apply works_read.andThen
  intro setting
  apply works_get.andThen
  intro progress
  extract_lets scope inside
  have inInside : realm.Works false inside fun world (stmts, _) =>
      ∀ wide : World, (∀ name, world name → wide name) → (∀ name ∈ className, wide name) →
        Meets realm.stem (wide.plus realm.stem (stmtsNames false stmts)) (stmtsUses stmts) := by
    apply works_get.andThen
    intro progress
    extract_lets owner
    -- The block is inside a class, so its owner is never a function.
    have notFunction : owner.kind ≠ .function := by
      simp only [owner]
      split <;> decide
    apply (inBody.inOwner notFunction).weaken
    rintro world _ ⟨stmts, owner⟩ shown wide grows isNamed
    exact shown wide grows fun _ => isNamed
  apply inInside.fresh.inFrame.bind
  rintro ⟨⟨stmts, owner⟩, temps⟩
  apply Works.pure
  rintro world _ ⟨sound, shown⟩
  refine ⟨sound, fun wide grows isNamed => ?_⟩
  rw [← World.plus_append]
  apply shown
  · exact World.plus_mono grows fun _ => id
  · exact fun name isName => .inl (isNamed name isName)

/-- Statements that are all expressions bind nothing, and need what the expressions do. -/
theorem exprStmts?_spec {stmts : List Stmt} {values : List Expr}
    (areValues : exprStmts? stmts = some values) :
    stmtsNames false stmts = [] ∧ stmtsUses stmts = values.flatMap exprUses := by
  -- The statements are all expressions, so they bind nothing and use what the values use.
  induction stmts generalizing values with
  | nil =>
    obtain rfl := Option.some.inj areValues
    exact ⟨rfl, rfl⟩
  | cons stmt stmts ih =>
    obtain ⟨stmtSpan, shape⟩ := stmt
    cases shape with
    | expr value =>
      obtain ⟨rest, areRest, rfl⟩ := Option.map_eq_some_iff.mp areValues
      obtain ⟨noNames, uses⟩ := ih areRest
      simp [noNames, uses, stmtShapeNames, stmtShapeUses]
    | _ => simp [exprStmts?] at areValues

/-- A static block as expressions needs what its statements do. -/
theorem meets_staticCode {stmts : List Stmt} {temps : List Temp} (arguments : world "arguments")
    (sound : ∀ temp ∈ temps, temp.IsSound realm.stem)
    (meets : Meets realm.stem
      (world.plus realm.stem (temps.map (·.name) ++ stmtsNames false stmts)) (stmtsUses stmts)) :
    ∀ value ∈ staticCode span stmts temps, Meets realm.stem world (exprUses value) := by
  unfold staticCode
  split
  · -- Where all statements are expressions and nothing is declared, the values are the code;
    -- otherwise a function around the block is.
    rename_i values areValues
    split at areValues
    · rename_i isEmpty
      obtain ⟨noNames, uses⟩ := exprStmts?_spec areValues
      rw [List.isEmpty_iff.mp isEmpty, noNames, uses, meets_flatMap] at meets
      simpa using meets
    · cases areValues
  · refine List.forall_mem_singleton.mpr ?_
    have declared : Meets realm.stem
        (world.plus realm.stem (stmtsNames false (Temp.declareIn span temps stmts)))
        (stmtsUses (Temp.declareIn span temps stmts)) := by
      apply meets_declareIn (.inl arguments) sound
      refine meets.mono (World.plus_mono (fun _ => id) fun name mem => ?_)
      exact mem_names_declareIn.mpr (List.mem_append.mp mem)
    simpa [shapeUses, funcUses, paramsUses, bodyUses, bodyNames, argsUses] using declared

/-- A method or accessor goes where the class has a place for it. -/
theorem works_functionSlot {key : Key} {isStatic : Bool} {role : FunctionRole} {func : Lower Func}
    (known : realm.KnowsNames privates) (inFunc : realm.WorksMethod func)
    (own : ∀ name ∈ key.privateName?, ∃ binding, privates.lookup name = some binding)
    (functions : realm.isClean → ∀ name ∈ key.privateName?, ∀ binding,
      privates.lookup name = some (some binding) → (binding.function? role).isSome = true) :
    realm.Works false (inClass privates (functionSlot span key isStatic role func))
      fun world slot => Meets realm.stem world (keyUses key) →
        realm.SuitsSlot privates placeholder world slot := by
  unfold functionSlot
  apply (inFunc.inClass known).bindInClass
  intro func
  -- A member that stays is one with statements, whatever its role is.
  have stays : realm.Works false
      (Pure.pure (.kept ⟨span, key, isStatic, role.value func⟩) : Lower Slot) fun world slot =>
        Meets realm.stem world (funcUses func) ∧ func.body.isBlock = true →
        Meets realm.stem world (keyUses key) →
          realm.SuitsSlot privates placeholder world slot := by
    apply Works.pure
    rintro world _ ⟨inFunc, braces⟩ inKey
    refine ⟨nofun, ?_, ?_⟩
    · rw [classMemberUses, meets_append]
      cases role <;> exact ⟨inKey, inFunc⟩
    · cases role with
      | method => exact braces
      | getter => rfl
      | setter => rfl
  cases isName : key.privateName? with
  | none => exact stays
  | some name =>
    obtain ⟨binding, isOwn⟩ := own name isName
    refine (works_ownBinding known isOwn).bindFactInClass fun found same => ?_
    cases found with
    | none => exact stays.weaken fun _ _ _ shown _ => shown
    | some binding =>
      obtain rfl := same binding rfl
      cases isFunction : binding.function? role with
      | none =>
        simp only [isFunction]
        apply Works.inClass known
        apply Works.fault
        intro isClean
        have isThere := functions isClean name isName binding isOwn
        rw [isFunction] at isThere
        cases isThere
      | some function =>
        simp only [isFunction]
        apply Works.inClass known
        apply Works.pure
        intro world _ binds inFunc _
        have binds := binds binding rfl
        refine ⟨?_, binds, binds_function binds isFunction, inFunc.1⟩
        rintro _ ⟨⟩
        simp [isOwn]

/-- A field goes where the class has a place for it. -/
theorem works_fieldSlot {policy : ClassPolicy} {key : Key} {isStatic : Bool}
    {init : Option (Lower Expr)} (known : realm.KnowsNames privates)
    (inInit : ∀ step ∈ init, realm.WorksExpr step)
    (own : ∀ name ∈ key.privateName?, ∃ binding, privates.lookup name = some binding) :
    realm.Works false (inClass privates (fieldSlot policy placeholder span key isStatic init))
      fun world (slot, _) => Meets realm.stem world (keyUses key) →
        realm.SuitsSlot privates placeholder world slot := by
  unfold fieldSlot
  extract_lets name leaves finish
  have named : name = key.privateName? := rfl
  clear_value name
  -- Whatever is known about the name, the rest is the same.
  have finishes (binding : Option PrivateBinding)
      (isOwn : ∀ own ∈ name, ∀ other ∈ binding, (privates.lookup own).join.isSome = true) :
      realm.Works false (inClass privates (finish binding)) fun world placed =>
        (∀ own ∈ binding, Binds world own) → Meets realm.stem world (keyUses key) →
          realm.SuitsSlot privates placeholder world placed.1 := by
    apply Works.inClass known
    simp only [finish]
    apply (works_fieldInit inInit _).bind
    rintro ⟨init, usesThis⟩
    apply Works.pure
    intro world _ inInit binds inKey
    generalize decided : (binding.isSome || (name.isNone && leaves)) = moves at inInit ⊢
    dsimp only at inInit ⊢
    -- An initializer that moves may name the class.
    have inMoved (isMoved : moves = true) :
        Meets realm.stem (initWorld world placeholder isStatic) (optionUses init) := by
      subst isMoved
      cases isStatic with
      | false => exact inInit world (fun _ => id) (by simp)
      | true => exact inInit _ (fun _ => .inl) fun own isOwn => .inr (Option.some.inj isOwn).symm
    split
    · rename_i _ own binding
      have isMoved : moves = true := by simpa using decided.symm
      exact ⟨fun other isOther => Option.some.inj isOther ▸ isOwn own rfl binding rfl,
        binds binding rfl, inMoved isMoved⟩
    · refine ⟨by rintro _ ⟨⟩, ?_, rfl⟩
      rw [classMemberUses, meets_append]
      exact ⟨inKey, inInit world (fun _ => id) (by simp)⟩
    · split
      · exact ⟨by rintro _ ⟨⟩, inKey, inMoved rfl⟩
      · split
        · exact ⟨by rintro _ ⟨⟩, inKey, by simpa [optionUses] using inMoved rfl⟩
        · exact ⟨by rintro _ ⟨⟩, inKey⟩
  cases name with
  | none => exact (finishes none (by simp)).weaken fun _ _ _ shown => shown (by simp)
  | some name =>
    obtain ⟨binding, isOwn⟩ := own name named.symm
    refine (works_ownBinding known isOwn).bindFactInClass fun found same => finishes found ?_
    rintro _ ⟨⟩ other isOther
    simp [isOwn, same other isOther]

/-- A static block goes behind the class or stays in it. -/
theorem works_blockSlot {policy : ClassPolicy} {member : ClassMember} {body : Lower (List Stmt)}
    (inBody : realm.WorksStmts body) :
    realm.Works false (blockSlot policy placeholder member span body) fun world (slot, _) =>
      Meets realm.stem world (keyUses member.key) →
        realm.SuitsSlot privates placeholder world slot := by
  -- The block becomes expressions behind the class, where the class has its name, or it stays in
  -- the class as a block.
  apply Works.ite
  · intro _
    apply (works_staticBlock span inBody _).bind
    rintro ⟨stmts, temps, usesThis⟩
    apply Works.pure
    rintro world grounds ⟨sound, inStmts⟩ _
    refine ⟨nofun, meets_staticCode (.inl (grounds.runtime "arguments" (by decide))) sound ?_⟩
    exact inStmts _ (fun _ => .inl) fun own isOwn => .inr (Option.some.inj isOwn).symm
  · intro _
    apply (works_staticBlock span inBody none).bind
    rintro ⟨stmts, temps, usesThis⟩
    apply Works.pure
    rintro world grounds ⟨sound, inStmts⟩ inKey
    refine ⟨nofun, ?_, rfl⟩
    obtain ⟨memberSpan, key, isStatic, value⟩ := member
    rw [classMemberUses, meets_append, memberValueUses, blockUses, meets_enclosed]
    refine ⟨inKey, meets_declareIn (.inl (grounds.runtime "arguments" (by decide))) sound ?_⟩
    refine (inStmts world (fun _ => id) nofun).mono (World.plus_mono (fun _ => id) fun name mem => ?_)
    exact mem_names_declareIn.mpr (List.mem_append.mp mem)

/-- A member of a class goes where it has a place. -/
theorem works_memberSlot {policy : ClassPolicy} {member : ClassMemberForms}
    (known : realm.KnowsNames privates) (knows : privates.Knows realm.isClean member)
    (inMember : realm.WorksMember member) :
    realm.Works false (inClass privates (memberSlot policy placeholder member)) fun world (slot, _) =>
      realm.SuitsSlot privates placeholder world slot := by
  obtain ⟨memberSpan, keyForms, isStatic, value⟩ := member
  obtain ⟨inKey, -, inValue⟩ := inMember
  obtain ⟨own, functions⟩ := knows
  dsimp only at own functions inKey inValue
  unfold memberSlot
  dsimp only
  apply ((works_lowerKey inKey).inClass known).bindFactInClass
  intro key sameName
  rw [← sameName] at own functions
  -- A method or accessor is in the class for one of the functions of its name.
  have function (role : FunctionRole) {func : Lower Func} (inFunc : realm.WorksMethod func)
      (isKind : value.privateKind?.isSome = true) (isRole : value.functionRole? = some role) :
      realm.Works false
        (inClass privates do return (← functionSlot memberSpan key isStatic role func, false))
        fun world (slot, _) => Meets realm.stem world (keyUses key) →
          realm.SuitsSlot privates placeholder world slot := by
    apply (works_functionSlot known inFunc (fun name isName => own name isName isKind)
      fun isClean name isName binding isOwn =>
        functions isClean name isName role isRole binding isOwn).bindInClass
    intro slot
    exact .inClass known (.pure fun _ _ => id)
  cases value with
  | method func => exact function .method inValue rfl rfl
  | getter func => exact function .getter inValue rfl rfl
  | setter func => exact function .setter inValue rfl rfl
  | field init => exact works_fieldSlot known inValue fun name isName => own name isName rfl
  | staticBlock blockSpan body => exact (works_blockSlot inValue).inClass known
  | accessor init =>
    apply Works.inClass known
    apply (works_fieldInit inValue none).bind
    rintro ⟨init, usesThis⟩
    apply Works.pure
    intro world _ inInit inKey
    refine ⟨nofun, ?_, rfl⟩
    rw [classMemberUses, meets_append]
    exact ⟨inKey, inInit world (fun _ => id) nofun⟩

end Slots

variable {placeholder : String}
  {privates : PrivateNames}

/-- A member suits its place, and what is evaluated for its key needs no more than what is bound. -/
structure SuitsKeyed (realm : Realm) (privates : PrivateNames) (placeholder : String)
    (world : World) (keyed : KeyedSlot) : Prop where
  slot : realm.SuitsSlot privates placeholder world keyed.slot
  capture : ∀ key ∈ keyed.capture, Meets realm.stem world (exprUses key)
  keptAs : ∀ name ∈ keyed.keptAs, world name

/-- A key is taken out of a member that moves. -/
theorem works_captureKey (slot : Slot) :
    realm.Works false (captureKey slot) fun world keyed =>
      realm.SuitsSlot privates placeholder world slot →
        realm.SuitsKeyed privates placeholder world keyed := by
  -- A key is either a literal or gets a name.
  have intoName (key : Expr) (rebuild : Key → Slot) (same : slot = rebuild (.computed key))
      (keeps : ∀ world : World, ∀ key, realm.SuitsSlot privates placeholder world (rebuild key) →
        Meets realm.stem world (keyUses key) ∧ ∀ other, Meets realm.stem world (keyUses other) →
          realm.SuitsSlot privates placeholder world (rebuild other)) :
      realm.Works false
        (if isLiteralKey key then return { slot }
        else do
          let name ← alloc
          return {
            slot := rebuild (.computed (.id key.span name))
            capture := some (.assign key.span (.id key.span name) key) }) fun world keyed =>
        realm.SuitsSlot privates placeholder world slot →
          realm.SuitsKeyed privates placeholder world keyed := by
    apply Works.ite
    · exact fun _ => .pure fun _ _ suits => ⟨suits, by simp, by simp⟩
    · intro _
      apply works_alloc.bind
      intro name
      apply Works.pure
      rintro world _ ⟨-, isDeclared⟩ suits
      obtain ⟨inKey, rebuilds⟩ := keeps world _ (same ▸ suits)
      rw [keyUses] at inKey
      refine ⟨rebuilds _ (by simpa [keyUses] using isDeclared), ?_, by simp⟩
      rintro _ ⟨⟩
      simpa [isDeclared] using inKey
  -- A key that is written down is not evaluated at all.
  have stays : realm.Works false (Pure.pure { slot } : Lower KeyedSlot) fun world keyed =>
      realm.SuitsSlot privates placeholder world slot →
        realm.SuitsKeyed privates placeholder world keyed :=
    .pure fun _ _ suits => ⟨suits, by simp, by simp⟩
  cases slot with
  | defined span isStatic key init =>
    cases key with
    | direct name => exact stays
    | computed key =>
      refine intoName key (.defined span isStatic · init) rfl fun world key suits => ?_
      exact ⟨suits.2.1, fun _ inOther => ⟨by rintro _ ⟨⟩, inOther, suits.2.2⟩⟩
  | assigned span isStatic key init =>
    cases key with
    | direct name => exact stays
    | computed key =>
      refine intoName key (.assigned span isStatic · init) rfl fun world key suits => ?_
      exact ⟨suits.2.1, fun _ inOther => ⟨by rintro _ ⟨⟩, inOther, suits.2.2⟩⟩
  | dropped key =>
    cases key with
    | direct name => exact stays
    | computed key =>
      apply Works.pure
      intro world _ suits
      refine ⟨suits, fun other isKey => ?_, by simp⟩
      dsimp only at isKey
      split at isKey
      · cases isKey
      · obtain rfl := Option.mem_some.mp isKey
        exact suits.2
  | _ => exact stays

/-- All keys that have to be evaluated are taken out. -/
theorem works_captureKeys (slots : List Slot) :
    realm.Works false (captureKeys slots) fun world keyed =>
      (∀ slot ∈ slots, realm.SuitsSlot privates placeholder world slot) →
        ∀ own ∈ keyed, realm.SuitsKeyed privates placeholder world own := by
  -- From the last key to the first, as the capturing runs: each captured key has a name of its own.
  induction slots with
  | nil => exact .pure fun _ _ _ => List.forall_mem_nil _
  | cons slot slots ih =>
    unfold captureKeys
    apply ih.bind
    intro rest
    extract_lets isLastKept
    apply Works.ite
    · intro _
      apply works_alloc.bind
      intro name
      apply Works.pure
      rintro world _ ⟨-, isDeclared⟩ inRest suits
      obtain ⟨own, others⟩ := List.forall_mem_cons.mp suits
      refine List.forall_mem_cons.mpr ⟨⟨own, nofun, ?_⟩, inRest others⟩
      rintro _ ⟨⟩
      exact isDeclared
    · intro _
      apply (works_captureKey slot).bind
      intro keyed
      apply Works.pure
      intro world _ inKeyed inRest suits
      obtain ⟨own, others⟩ := List.forall_mem_cons.mp suits
      exact List.forall_mem_cons.mpr ⟨inKeyed own, inRest others⟩

/-- Expressions one after the other need what all of them do. -/
theorem meets_inSequence {exprs : List Expr} {last : Expr}
    (inExprs : ∀ e ∈ exprs, Meets realm.stem world (exprUses e))
    (inLast : Meets realm.stem world (exprUses last)) :
    Meets realm.stem world (exprUses (inSequence exprs last)) := by
  cases exprs with
  | nil => exact inLast
  | cons first rest =>
    obtain ⟨inFirst, inRest⟩ := List.forall_mem_cons.mp inExprs
    simpa [inSequence] using ⟨inFirst, inRest, inLast⟩

/-- A member with another key suits its place if the key needs no more than what is bound. -/
theorem suits_withKey {slot : Slot} {key other : Expr} (isKept : slot.keptKey? = some key)
    (suits : realm.SuitsSlot privates placeholder world slot) :
    Meets realm.stem world (exprUses key)
      ∧ (Meets realm.stem world (exprUses other) →
        realm.SuitsSlot privates placeholder world (slot.withKey other)) := by
  -- Only a kept member has a key of its own that can be replaced.
  cases slot with
  | kept member =>
    obtain ⟨span, memberKey, isStatic, value⟩ := member
    cases memberKey with
    | direct name => cases isKept
    | computed own =>
      obtain rfl : own = key := Option.some.inj isKept
      obtain ⟨-, inMember, braces⟩ := suits
      rw [classMemberUses, meets_append, keyUses] at inMember
      refine ⟨inMember.1, fun inOther => ⟨by rintro _ ⟨⟩, ?_, braces⟩⟩
      rw [classMemberUses, meets_append, keyUses]
      exact ⟨inOther, inMember.2⟩
  | _ => cases isKept

/-- Members whose keys are chained suit their places, and what is left to evaluate needs no more than
what is bound. -/
theorem suits_chainKeys {pending : List Expr} {keyed : List KeyedSlot}
    (inPending : ∀ e ∈ pending, Meets realm.stem world (exprUses e))
    (suits : ∀ own ∈ keyed, realm.SuitsKeyed privates placeholder world own) :
    (∀ slot ∈ (chainKeys pending keyed).1, realm.SuitsSlot privates placeholder world slot)
      ∧ ∀ e ∈ (chainKeys pending keyed).2, Meets realm.stem world (exprUses e) := by
  -- Along the members: a captured key waits for the next key that stays, and that key takes all the
  -- waiting ones in front of it.
  induction keyed generalizing pending with
  | nil => exact ⟨List.forall_mem_nil _, inPending⟩
  | cons own rest ih =>
    obtain ⟨⟨inSlot, inCapture, isDeclared⟩, inRest⟩ := List.forall_mem_cons.mp suits
    obtain ⟨slot, capture, keptAs⟩ := own
    cases capture with
    | some key =>
      have inMore : ∀ e ∈ pending ++ [key], Meets realm.stem world (exprUses e) :=
        List.forall_mem_append.mpr ⟨inPending, List.forall_mem_singleton.mpr (inCapture key rfl)⟩
      obtain ⟨inSlots, inLeft⟩ := ih inMore inRest
      exact ⟨List.forall_mem_cons.mpr ⟨inSlot, inSlots⟩, inLeft⟩
    | none =>
      cases isKept : slot.keptKey? with
      | none =>
        obtain ⟨inSlots, inLeft⟩ := ih inPending inRest
        simp only [chainKeys, isKept]
        exact ⟨List.forall_mem_cons.mpr ⟨inSlot, inSlots⟩, inLeft⟩
      | some key =>
        obtain ⟨inSlots, inLeft⟩ := ih (List.forall_mem_nil _) inRest
        simp only [chainKeys, isKept]
        cases keptAs with
        | none =>
          obtain ⟨inKey, rebuilds⟩ := suits_withKey isKept inSlot
          have suits' := rebuilds (meets_inSequence inPending inKey)
          exact ⟨List.forall_mem_cons.mpr ⟨suits', inSlots⟩, inLeft⟩
        | some name =>
          have named : world name := isDeclared name rfl
          obtain ⟨inKey, rebuilds⟩ := suits_withKey isKept inSlot
          have inBefore : ∀ e ∈ pending ++ .assign key.span (.id key.span name) key
              :: (chainKeys [] rest).2, Meets realm.stem world (exprUses e) := by
            refine List.forall_mem_append.mpr ⟨inPending, List.forall_mem_cons.mpr ⟨?_, inLeft⟩⟩
            simpa [named] using inKey
          have inName : Meets realm.stem world (exprUses (.id ⟨0, 0⟩ name)) := by simpa using named
          have suits' := rebuilds (meets_inSequence inBefore inName)
          exact ⟨List.forall_mem_cons.mpr ⟨suits', inSlots⟩, List.forall_mem_nil _⟩

/-- Members whose keys are chained suit their places, and so does what is evaluated in front. -/
theorem works_chainComputedKeys (slots : List Slot) :
    realm.Works false (chainComputedKeys slots) fun world (chained, before) =>
      (∀ slot ∈ slots, realm.SuitsSlot privates placeholder world slot) →
        (∀ slot ∈ chained, realm.SuitsSlot privates placeholder world slot)
          ∧ ∀ e ∈ before, Meets realm.stem world (exprUses e) := by
  apply (works_captureKeys slots).bind
  intro keyed
  exact .pure fun _ _ suits inSlots => suits_chainKeys (List.forall_mem_nil _) (suits inSlots)

end Realm

end Downlevel
