import Downlevel.Lowering.Class
import Downlevel.Proofs.Scoping.Members
import Downlevel.Proofs.Scoping.Renaming

/-! A class that is put together again needs nothing around it but what is bound there. The code that
has moved out of it gets a real name for the class in place of the placeholder. -/

namespace Downlevel

open Lowering

namespace Realm

variable {realm : Realm} {mayBeParams : Bool} {world : World} {span : Span} {placeholder : String}
  {privates : PrivateNames}

section Initializers

/-- The key of a field as a value needs what the key does. -/
theorem meets_fieldKey {key : Key} (inKey : Meets realm.stem world (keyUses key)) :
    Meets realm.stem world (exprUses (fieldKey key)) := by
  cases key with
  | computed value => simpa [keyUses, fieldKey] using inKey
  | direct name =>
    rw [fieldKey]
    split <;> simp

/-- A field as a place needs what its key and what it belongs to do. -/
theorem meets_fieldPlace {receiver : Expr} {key : Key}
    (inReceiver : Meets realm.stem world (exprUses receiver))
    (inKey : Meets realm.stem world (keyUses key)) :
    Meets realm.stem world (exprUses (fieldPlace span receiver key)) := by
  unfold fieldPlace
  split
  · simpa using inReceiver
  · simpa using ⟨inReceiver, meets_fieldKey inKey⟩

/-- An initializer needs what the uses of it do, if there is one. -/
theorem meets_option {init : Option Expr} (inInit : Meets realm.stem world (optionUses init)) :
    ∀ value, init = some value → Meets realm.stem world (exprUses value) := by
  rintro value rfl
  exact inInit

/-- What is bound around a class is bound around the initializers of its fields. -/
theorem initWorld_of_world {isStatic : Bool} {name : String} (isBound : world name) :
    initWorld world placeholder isStatic name := by
  cases isStatic with
  | false => exact isBound
  | true => exact .inl isBound

/-- What a member does to an object needs no more than what is bound where initializers of such
members run. -/
theorem meets_inits (grounds : realm.Grounds world) {isStatic : Bool} {receiver : Span → Expr}
    {slot : Slot}
    (inReceiver : ∀ span,
      Meets realm.stem (initWorld world placeholder isStatic) (exprUses (receiver span)))
    (inSlot : realm.MeetsSlot placeholder world slot) :
    ∀ value ∈ slot.inits isStatic receiver,
      Meets realm.stem (initWorld world placeholder isStatic) (exprUses value) := by
  -- The values run where the class has its name, which is a wider world than the one around it.
  have wide {uses : List Use} (meets : Meets realm.stem world uses) :
      Meets realm.stem (initWorld world placeholder isStatic) uses :=
    meets.mono fun _ => initWorld_of_world
  have runs (name : String) (isRuntime : name ∈ runtimeNames) :
      initWorld world placeholder isStatic name :=
    initWorld_of_world (grounds.runtime name isRuntime)
  intro value mem
  -- Each slot that has an initial value writes it in its own way; the kept ones write none.
  cases slot with
  | defined span ofClass key init =>
    obtain ⟨inKey, inInit⟩ := inSlot
    rw [Slot.inits] at mem
    split at mem
    · rename_i same
      subst same
      obtain rfl := List.mem_singleton.mp mem
      simpa [runs "__publicField" (by decide)] using
        ⟨inReceiver span, meets_fieldKey (wide inKey), meets_option inInit⟩
    · cases mem
  | assigned span ofClass key init =>
    obtain ⟨inKey, inInit⟩ := inSlot
    rw [Slot.inits] at mem
    split at mem
    · rename_i same
      subst same
      obtain rfl := List.mem_singleton.mp mem
      simpa using ⟨meets_fieldPlace (inReceiver span) (wide inKey), inInit⟩
    · cases mem
  | privateField span ofClass name binding init =>
    obtain ⟨binds, inInit⟩ := inSlot
    rw [Slot.inits] at mem
    split at mem
    · rename_i same
      subst same
      obtain rfl := List.mem_singleton.mp mem
      have isDeclared : initWorld world placeholder ofClass binding.storage :=
        initWorld_of_world (binds_iff.mp binds).1
      simpa [runs "__privateAdd" (by decide), isDeclared] using
        ⟨inReceiver span, meets_option inInit⟩
    · cases mem
  | staticCode code =>
    rw [Slot.inits] at mem
    split at mem
    · rename_i isStatic
      subst isStatic
      exact inSlot value mem
    · cases mem
  | kept member => cases mem
  | dropped key => cases mem
  | privateFunction span name binding function func => cases mem

/-- Marks on objects need what the objects do, and the sets of the objects. -/
theorem meets_addBrands (grounds : realm.Grounds world) {isStatic : Bool} {receiver : Expr}
    (inReceiver : Meets realm.stem (initWorld world placeholder isStatic) (exprUses receiver))
    (binds : ∀ pair ∈ privates, ∀ binding ∈ pair.2, Binds world binding) :
    ∀ value ∈ addBrands span isStatic receiver privates,
      Meets realm.stem (initWorld world placeholder isStatic) (exprUses value) := by
  have runs : initWorld world placeholder isStatic "__privateAdd" :=
    initWorld_of_world (grounds.runtime _ (by decide))
  intro value mem
  -- A brand is only added for a private function whose side matches, and its storage is declared.
  obtain ⟨⟨name, binding⟩, isPair, isBrand⟩ := List.mem_filterMap.mp mem
  dsimp only at isBrand
  split at isBrand
  · cases isBrand
  · rename_i binding
    split at isBrand
    · obtain rfl := Option.some.inj isBrand
      have isDeclared : initWorld world placeholder isStatic binding.storage :=
        initWorld_of_world (binds_iff.mp (binds _ isPair binding rfl)).1
      simpa [runs, isDeclared] using inReceiver
    · cases isBrand

/-- Everything that is done to an object when it is made needs no more than what is bound there. -/
theorem meets_allInits (isStatic : Bool) (grounds : realm.Grounds world)
    {receiver : Span → Expr} {slots : List Slot}
    (inReceiver : ∀ span,
      Meets realm.stem (initWorld world placeholder isStatic) (exprUses (receiver span)))
    (binds : ∀ pair ∈ privates, ∀ binding ∈ pair.2, Binds world binding)
    (inSlots : ∀ slot ∈ slots, realm.MeetsSlot placeholder world slot) :
    ∀ value ∈ addBrands span isStatic (receiver span) privates
        ++ slots.flatMap (Slot.inits isStatic receiver),
      Meets realm.stem (initWorld world placeholder isStatic) (exprUses value) := by
  refine List.forall_mem_append.mpr ⟨meets_addBrands grounds (inReceiver span) binds, ?_⟩
  intro value mem
  obtain ⟨slot, isSlot, isInit⟩ := List.mem_flatMap.mp mem
  exact meets_inits grounds inReceiver (inSlots slot isSlot) value isInit

/-- The storage of private names is declared, and so are the functions that stand in for methods and
accessors. -/
theorem meets_makeStorage (grounds : realm.Grounds world) {slots : List Slot} (made : List String)
    (inSlots : ∀ slot ∈ slots, realm.MeetsSlot placeholder world slot) :
    ∀ value ∈ makeStorage made slots, Meets realm.stem world (exprUses value) := by
  induction slots generalizing made with
  | nil => exact List.forall_mem_nil _
  | cons slot rest ih =>
    obtain ⟨inSlot, inRest⟩ := List.forall_mem_cons.mp inSlots
    -- A name has its storage made once.
    have inStorage (span : Span) (name : String) {binding : PrivateBinding} (kind : String)
        (isRuntime : kind ∈ runtimeNames) (binds : Binds world binding) :
        ∀ value ∈ (if made.contains name then []
          else [Expr.assign span (.id span binding.storage) (.new span kind [])]),
          Meets realm.stem world (exprUses value) := by
      split
      · exact List.forall_mem_nil _
      · refine List.forall_mem_singleton.mpr ?_
        simpa using ⟨(binds_iff.mp binds).1, grounds.runtime kind isRuntime⟩
    cases slot with
    | privateField span isStatic name binding init =>
      obtain ⟨binds, -⟩ := inSlot
      exact List.forall_mem_append.mpr
        ⟨inStorage span name "WeakMap" (by decide) binds, ih _ inRest⟩
    | privateFunction span name binding function func =>
      obtain ⟨binds, isNamed, inFunc⟩ := inSlot
      refine List.forall_mem_append.mpr ⟨inStorage span name "WeakSet" (by decide) binds, ?_⟩
      refine List.forall_mem_cons.mpr ⟨?_, ih _ inRest⟩
      simpa [isNamed, shapeUses] using inFunc
    | _ => exact ih made inRest

end Initializers

section Constructor

/-- What is put behind the call of the base constructor joins the statements of the body. -/
theorem mem_insertBehindSuper? {inits body found : List Stmt} {stmt : Stmt}
    (isFound : insertBehindSuper? inits body = some found) :
    stmt ∈ found ↔ stmt ∈ inits ∨ stmt ∈ body := by
  -- Along the body: the values stand behind the first call of `super`, wherever that is.
  induction body generalizing found with
  | nil => cases isFound
  | cons first rest ih =>
    rw [insertBehindSuper?] at isFound
    split at isFound
    · obtain rfl := Option.some.inj isFound
      simp only [List.cons_append, List.mem_cons, List.mem_append]
      grind
    · obtain ⟨inner, isInner, rfl⟩ := Option.map_eq_some_iff.mp isFound
      simp only [List.mem_cons, ih isInner]
      grind

/-- What is put behind the directives joins the statements of the body. -/
theorem mem_insertBehindPrologue {inits body : List Stmt} {stmt : Stmt} :
    stmt ∈ insertBehindPrologue inits body ↔ stmt ∈ inits ∨ stmt ∈ body := by
  have whole : stmt ∈ body ↔ stmt ∈ body.takeWhile Temp.isPrologue
      ∨ stmt ∈ body.dropWhile Temp.isPrologue := by
    rw [← List.mem_append, List.takeWhile_append_dropWhile]
  simp only [insertBehindPrologue, List.mem_append, whole]
  grind

/-- A body with initializers in it has the statements of both. -/
theorem works_initializedBody (span : Span) (isDerived : Bool) (inits body : List Stmt) :
    realm.Works mayBeParams (initializedBody span isDerived inits body) fun _ stmts =>
      ∀ stmt, stmt ∈ stmts ↔ stmt ∈ inits ∨ stmt ∈ body := by
  apply Works.ite
  · exact fun _ => .pure fun _ _ _ => mem_insertBehindPrologue
  · intro _
    cases found : insertBehindSuper? inits body with
    | some stmts => exact .pure fun _ _ _ => mem_insertBehindSuper? found
    | none =>
      apply (works_unsupported span _).andThen
      exact fun _ => .pure fun _ _ _ => mem_insertBehindPrologue

/-- A method with initializers in its body needs what it did and what they do. -/
theorem meets_initialized {isArrow isAsync isGenerator : Bool} {params : List Param}
    {inits : List Expr} {stmts initialized : List Stmt}
    (joins : ∀ stmt, stmt ∈ initialized ↔ stmt ∈ inits.map Stmt.expr ∨ stmt ∈ stmts)
    (inInits : ∀ value ∈ inits, Meets realm.stem world (exprUses value))
    (inFunc : Meets realm.stem world
      (funcUses ⟨span, isArrow, isAsync, isGenerator, params, .block stmts⟩)) :
    Meets realm.stem world
      (funcUses ⟨span, isArrow, isAsync, isGenerator, params, .block initialized⟩) := by
  rw [funcUses, meets_append, meets_enclosed, meets_enclosed] at inFunc ⊢
  obtain ⟨inParams, inBody⟩ := inFunc
  constructor
  · -- The parameters are read in a world that gains the aliases of the body; the body gains the
    -- names it binds.
    refine inParams.mono (World.plus_mono (fun _ => id) fun name isAlias => ?_)
    obtain ⟨found, inNodes, isOwn⟩ := mem_aliases.mp isAlias
    rw [bodyNodes, stmtsNodes_eq] at inNodes
    obtain ⟨stmt, isStmt, inStmt⟩ := List.mem_flatMap.mp inNodes
    exact mem_aliases_of_stmt ((joins stmt).mpr (.inr isStmt)) (mem_aliases.mpr ⟨found, inStmt, isOwn⟩)
  · rw [bodyUses, stmtsUses_eq, meets_flatMap] at inBody ⊢
    intro stmt mem
    rcases (joins stmt).mp mem with isInit | isStmt
    · obtain ⟨value, isValue, rfl⟩ := List.mem_map.mp isInit
      rw [stmtUses_expr]
      exact (inInits value isValue).plus
    · refine (inBody stmt isStmt).mono (World.plus_mono (fun _ => id) fun name isBound => ?_)
      rw [bodyNames, stmtsNames_eq, List.mem_append] at isBound ⊢
      refine isBound.imp_right fun inBody => ?_
      obtain ⟨binder, isBinder, isName⟩ := List.mem_flatMap.mp inBody
      exact List.mem_flatMap.mpr ⟨binder, (joins binder).mpr (.inr isBinder), isName⟩

/-- A constructor that only calls the one of the base class needs nothing but its arguments. -/
theorem meets_plainConstructor (grounds : realm.Grounds world) (isDerived : Bool) :
    Meets realm.stem world (classMemberUses (plainConstructor span isDerived)) := by
  have arguments := grounds.runtime "arguments" (by decide)
  rw [plainConstructor, classMemberUses, memberValueUses, funcUses, bodyUses]
  cases isDerived with
  | false => simp [keyUses, paramsUses]
  | true =>
    simpa [keyUses, paramsUses, shapeUses, argsUses, argUses] using World.plus_of_world arguments

/-- Members need what they did, and what initializers in the constructor do. -/
theorem works_addToConstructor (span : Span) (isDerived : Bool) {inits : List Expr}
    {members : List ClassMember} (braces : ∀ member ∈ members, member.value.hasBraces = true) :
    realm.Works mayBeParams (addToConstructor span isDerived inits members) fun world initialized =>
      (∀ value ∈ inits, Meets realm.stem world (exprUses value)) →
      (∀ member ∈ members, Meets realm.stem world (classMemberUses member)) →
        Meets realm.stem world (classMembersUses initialized) := by
  apply Works.ite
  · intro _
    apply Works.pure
    intro world _ _ inMembers
    rw [classMembersUses_eq, meets_flatMap]
    exact inMembers
  · intro _
    -- The constructor is one of the members, or the plain one that is made up; in either case it is
    -- a method with braces.
    have isFound {world : World} (grounds : realm.Grounds world)
        (inMembers : ∀ member ∈ members, Meets realm.stem world (classMemberUses member)) :
        Meets realm.stem world (classMemberUses
          ((members.find? isConstructor).getD (plainConstructor span isDerived))) := by
      cases isThere : members.find? isConstructor with
      | none => exact meets_plainConstructor grounds isDerived
      | some member => exact inMembers member (List.mem_of_find?_eq_some isThere)
    have isMethod : ∃ func : Func, ((members.find? isConstructor).getD
          (plainConstructor span isDerived)).value = .method func
        ∧ func.body.isBlock = true := by
      cases isThere : members.find? isConstructor with
      | none => exact ⟨_, rfl, rfl⟩
      | some member =>
        have hasBraces := braces member (List.mem_of_find?_eq_some isThere)
        have isConstructor := List.find?_some isThere
        obtain ⟨memberSpan, key, isStatic, value⟩ := member
        cases value with
        | method func => exact ⟨func, rfl, hasBraces⟩
        | _ => cases key <;> cases isStatic <;> cases isConstructor
    generalize (members.find? isConstructor).getD (plainConstructor span isDerived) = found at *
    obtain ⟨memberSpan, key, isStatic, value⟩ := found
    obtain ⟨⟨funcSpan, isArrow, isAsync, isGenerator, params, body⟩, rfl, hasBraces⟩ := isMethod
    cases body with
    | value e => cases hasBraces
    | block stmts =>
      apply (works_initializedBody memberSpan isDerived (inits.map Stmt.expr) stmts).bind
      intro initialized
      apply Works.pure
      intro world grounds joins inInits inMembers
      have inFound := isFound grounds inMembers
      rw [classMemberUses, meets_append, memberValueUses] at inFound
      rw [classMembersUses_eq, meets_flatMap]
      refine List.forall_mem_cons.mpr ⟨?_, fun member mem => ?_⟩
      · rw [classMemberUses, meets_append, memberValueUses]
        exact ⟨inFound.1, meets_initialized joins inInits inFound.2⟩
      · exact inMembers member (List.mem_of_mem_eraseP mem)

end Constructor

section Parts

/-- The parts of a class need no more than what is bound around it, and the code behind it what
stands for its name besides, which nothing can bind. -/
structure MeetsClass (realm : Realm) (world : World) (lowered : LoweredClass) : Prop where
  heritage : Meets realm.stem world (optionUses lowered.heritage)
  members : Meets realm.stem world (classMembersUses lowered.members)
  before : ∀ value ∈ lowered.before, Meets realm.stem world (exprUses value)
  behind : ∀ value ∈ lowered.behind,
    Meets realm.stem (world.withName lowered.placeholder) (exprUses value)
  unwritable : ¬Writable realm.stem lowered.placeholder

/-- The private names of members that move are the class's own. -/
theorem works_requireOwn {slot : Slot} (isOwn : IsOwn privates slot) :
    realm.Works mayBeParams (requireOwn privates slot) fun _ _ => True := by
  unfold requireOwn
  split
  · rename_i name isName
    have isSome := isOwn name isName
    rw [if_neg (by simpa [Option.isSome_iff_ne_none] using isSome)]
    exact .pure fun _ _ => trivial
  · exact .pure fun _ _ => trivial

/-- The heritage of a class works if it has one. -/
theorem works_heritage {heritage : Option (Lower Expr)}
    (inHeritage : ∀ step ∈ heritage, realm.WorksExpr step) :
    realm.Works false (heritage.mapM id) fun world heritage =>
      Meets realm.stem world (optionUses heritage) := by
  cases heritage with
  | none => exact .pure fun _ _ => by simp [optionUses]
  | some step => exact .map (inHeritage step rfl)

/-- Members that stay need no more than what is bound, and methods have their braces. -/
theorem meets_keptMembers {slots : List Slot}
    (inSlots : ∀ slot ∈ slots, realm.MeetsSlot placeholder world slot) :
    ∀ member ∈ keptMembers slots,
      Meets realm.stem world (classMemberUses member) ∧ member.value.hasBraces = true := by
  intro member mem
  obtain ⟨slot, isSlot, isKept⟩ := List.mem_filterMap.mp mem
  cases slot <;> simp only [Option.some.injEq, reduceCtorEq] at isKept
  subst isKept
  exact inSlots _ isSlot

/-- The members of a class are lowered inside of it. -/
theorem works_slots {policy : ClassPolicy} {forms : List ClassMemberForms}
    (known : realm.KnowsNames privates)
    (knows : ∀ member ∈ forms, privates.Knows realm.isClean member)
    (inForms : ∀ member ∈ forms, realm.WorksMember member) :
    realm.Works false (inClass privates (forms.mapM (memberSlot policy placeholder)))
      fun world visited => ∀ slot ∈ visited.map (·.1),
        realm.SuitsSlot privates placeholder world slot := by
  -- Being inside the class is a matter of the setting, so it may be asked for member by member.
  have each : inClass privates (forms.mapM (memberSlot policy placeholder))
      = forms.mapM fun member => inClass privates (memberSlot policy placeholder member) := by
    induction forms with
    | nil => rfl
    | cons member rest ih =>
      rw [List.mapM_cons, List.mapM_cons, ← ih]
      · rfl
      · exact fun other mem => knows other (List.mem_cons_of_mem _ mem)
      · exact fun other mem => inForms other (List.mem_cons_of_mem _ mem)
  rw [each]
  apply (Works.mapM fun member mem =>
    works_memberSlot known (knows member mem) (inForms member mem)).weaken
  rintro world _ visited ⟨shown, -⟩ slot mem
  obtain ⟨own, isOwn, rfl⟩ := List.mem_map.mp mem
  obtain ⟨member, -, suits⟩ := shown own isOwn
  exact suits

/-- A class works in parts. -/
theorem works_lowerClass (span : Span) {heritage : Option (Lower Expr)}
    (source : List ClassMember) {forms : List ClassMemberForms}
    (inHeritage : ∀ step ∈ heritage, realm.WorksExpr step)
    (inForms : ∀ member ∈ forms, realm.WorksMember member) (agree : realm.isClean → Agree forms) :
    realm.Works false (lowerClass span heritage source forms) realm.MeetsClass := by
  unfold lowerClass
  apply (works_require _ _ _).andThen
  intro _
  apply (works_heritage inHeritage).bind
  intro heritage
  -- What is made up for the keys of accessors is declared when the members are lowered.
  apply (works_withoutAccessors inForms).bindKnowing
  rintro forms seen ⟨inForms, agrees⟩
  apply Works.bindKnowing (works_declarePrivates inForms)
  rintro privates later ⟨answers, binds⟩
  have inForms : ∀ member ∈ forms, ((realm.knowing seen).knowing later).WorksMember member :=
    fun member mem => (inForms member mem).knowing
  have knows : ∀ member ∈ forms, privates.Knows realm.isClean member :=
    knows_of_answers answers fun isClean => agrees (agree isClean)
  have known : ((realm.knowing seen).knowing later).KnowsNames privates :=
    fun pair mem binding isBinding name isName => .inr (binds pair mem binding isBinding name isName)
  apply (works_classPolicy _ _).andThen
  intro policy
  apply works_read.andThen
  intro setting
  extract_lets placeholder inside className
  apply (works_slots known knows inForms).bindKnowing
  rintro visited last suits
  have chains : (((realm.knowing seen).knowing later).knowing last).Works false
      (chainComputedKeys (visited.map (·.1))) fun world chained =>
        (∀ slot ∈ chained.1, IsOwn privates slot)
          ∧ (∀ slot ∈ chained.1, realm.MeetsSlot placeholder world slot)
          ∧ ∀ e ∈ chained.2, Meets realm.stem world (exprUses e) := by
    apply (works_chainComputedKeys _).weaken
    rintro world grounds ⟨slots, before⟩ chained
    obtain ⟨inSlots, inBefore⟩ := chained fun slot mem =>
      (suits slot mem).mono fun name isKnown => grounds.known name (.inr isKnown)
    exact ⟨fun slot mem => (inSlots slot mem).1, fun slot mem => (inSlots slot mem).2, inBefore⟩
  apply chains.bindKnowing
  rintro ⟨slots, before⟩ end' ⟨areOwn, inSlots, -⟩
  apply Works.andThen (Works.forM fun slot mem => works_requireOwn (areOwn slot mem))
  intro _
  extract_lets inits statics
  have braces : ∀ member ∈ keptMembers slots, member.value.hasBraces = true :=
    fun member mem => (meets_keptMembers inSlots member mem).2
  apply (works_addToConstructor span heritage.isSome braces).bind
  intro members
  apply Works.pure
  rintro world grounds inMembers ⟨-, inSlots, inBefore⟩ - ⟨-, binds⟩ - inHeritage
  refine ⟨inHeritage, ?_, inBefore, ?_, not_writable_placeholder _⟩
  · refine inMembers ?_ fun member mem => (meets_keptMembers inSlots member mem).1
    exact meets_allInits false grounds (fun _ => by simp) binds inSlots
  · refine List.forall_mem_append.mpr ⟨fun value mem => ?_, ?_⟩
    · exact (meets_makeStorage grounds [] inSlots value mem).mono fun _ => .inl
    · have isNamed : initWorld world placeholder true placeholder := .inr rfl
      have inReceiver (span : Span) : Meets realm.stem (initWorld world placeholder true)
          (exprUses (className span)) := by
        simpa [className] using isNamed
      exact meets_allInits true grounds inReceiver binds inSlots

end Parts

section Named

/-- Code behind a class needs the real name of the class in place of the placeholder. -/
theorem meets_behind {wide : World} {name : String} {values : List Expr}
    (unwritable : ¬Writable realm.stem placeholder) (grows : ∀ name, world name → wide name)
    (isBound : wide name)
    (meets : ∀ value ∈ values, Meets realm.stem (world.withName placeholder) (exprUses value)) :
    ∀ value ∈ renameInExprs placeholder name values, Meets realm.stem wide (exprUses value) := by
  refine List.forall_mem_map.mpr fun value mem => ?_
  refine exprUses_rename _ value (world.withName placeholder) wide
    ⟨fun other around isOther => ?_, fun _ => .inr unwritable, isBound⟩ (meets value mem)
  exact around.elim (grows other) fun same => absurd same isOther

/-- A name that is bound around a tree may take the place of another one. -/
theorem replaces_bound {wide : World} {old new : String} (grows : ∀ name, world name → wide name)
    (isBound : wide new) : Replaces realm.stem ⟨old, new⟩ world wide :=
  ⟨fun other around _ => grows other around, fun around => .inl (grows _ around), isBound⟩

/-- What is evaluated in front of a class binds nothing, and needs what it did. -/
theorem sequenceStmt_spec {values : List Expr}
    (inValues : ∀ value ∈ values, Meets realm.stem world (exprUses value)) :
    stmtsNames false (sequenceStmt values) = []
      ∧ Meets realm.stem world (stmtsUses (sequenceStmt values)) := by
  cases values with
  | nil => exact ⟨rfl, by simp [sequenceStmt]⟩
  | cons first rest =>
    obtain ⟨inFirst, inRest⟩ := List.forall_mem_cons.mp inValues
    simpa [sequenceStmt] using ⟨inFirst, inRest⟩

/-- A class as a declaration needs what its parts do. -/
theorem meets_classDecl {exported : Exported} {name : Option String} {lowered : LoweredClass}
    (writable : ∀ own ∈ name, Writable realm.stem own) (parts : realm.MeetsClass world lowered) :
    Meets realm.stem world
      (stmtUses ⟨span, .classDecl exported name lowered.heritage lowered.members⟩) := by
  rw [stmtUses_mk, stmtShapeUses, meets_append, meets_nameUses, meets_enclosed, meets_append]
  exact ⟨writable, parts.heritage.plus, parts.members.plus⟩

section Declared

variable {isExported : Bool} {keyword : DeclKeyword} {name : String} {value : Expr}

/-- A declared name is bound. -/
@[simp] theorem stmtNames_declareName :
    stmtNames false (declareName span isExported keyword name value) = [name] := by
  simp [declareName, stmtShapeNames]

/-- A declared name stays as it is, and its value uses its names. -/
@[simp] theorem stmtUses_declareName :
    stmtUses (declareName span isExported keyword name value) = .fixed name :: exprUses value := by
  simp [declareName, stmtShapeUses, declaratorsUses, optionUses]

/-- A default export binds nothing. -/
@[simp] theorem stmtNames_exportAsDefault : stmtNames false (exportAsDefault span name) = [] := by
  simp [exportAsDefault, stmtShapeNames]

/-- A default export of a name has to be able to write it. -/
@[simp] theorem stmtUses_exportAsDefault : stmtUses (exportAsDefault span name) = [.fixed name] := by
  simp [exportAsDefault, stmtShapeUses, exportUses, ModuleName.uses]

end Declared

/-- The statements that a class becomes whose static code mentions it need no more than what is bound
around them and by themselves. -/
theorem meets_aliasedClass {lowered : LoweredClass} {name inner : String} {isExported : Bool}
    {exports : List Stmt} (parts : realm.MeetsClass world lowered)
    (writable : Writable realm.stem name) (isWritable : Writable realm.stem inner)
    (areExports : ∀ stmt ∈ exports, stmt = exportAsDefault span name) :
    let members := renameInMembers name inner lowered.members
    let behind := renameInExprs lowered.placeholder inner (renameInExprs name inner lowered.behind)
    let value := Expr.of span (.classExpr (some inner) lowered.heritage members)
    let stmts := declareName span false .constDecl inner value :: behind.map Stmt.expr
      ++ declareName span isExported .letDecl name (.id span inner) :: exports
    Meets realm.stem (world.plus realm.stem (stmtsNames false stmts)) (stmtsUses stmts) := by
  intro members behind value stmts
  have noNames : stmtsNames false exports = [] := by
    rw [stmtsNames_eq, List.flatMap_eq_nil_iff]
    intro stmt mem
    rw [areExports stmt mem, stmtNames_exportAsDefault]
  -- The exports bind nothing, so the statements bind the class under its two names.
  have names : stmtsNames false stmts = [inner, name] := by
    simp [stmts, noNames]
  -- With both names bound, every part of the class keeps to the wider world.
  rw [names]
  have isBound : world.plus realm.stem [inner, name] inner := .inr ⟨by simp, isWritable⟩
  have inMembers : Meets realm.stem (world.plus realm.stem [inner, name]) (classMembersUses members) :=
    classMembersUses_rename _ _ _ _ (replaces_bound (fun _ => .inl) isBound) parts.members
  have inBehind : ∀ value ∈ behind,
      Meets realm.stem (world.plus realm.stem [inner, name]) (exprUses value) := by
    refine meets_behind parts.unwritable (fun _ => id) isBound (List.forall_mem_map.mpr fun value mem => ?_)
    exact exprUses_rename _ _ _ _
      (replaces_bound (fun other => Or.imp_left .inl) (.inl isBound)) (parts.behind value mem)
  have inExports : ∀ stmt ∈ exports, Meets realm.stem (world.plus realm.stem [inner, name])
      (stmtUses stmt) := by
    intro stmt mem
    simpa [areExports stmt mem] using writable
  have inValue : Meets realm.stem (world.plus realm.stem [inner, name]) (exprUses value) := by
    rw [exprUses_of, shapeUses, meets_append, meets_nameUses, meets_enclosed, meets_append]
    exact ⟨by simpa using isWritable, parts.heritage.plus.plus, inMembers.plus⟩
  simpa [stmts, isWritable, writable, isBound, stmtsUses_eq] using ⟨inValue, inBehind, inExports⟩

/-- A class declaration, or the statements that take its place, need no more than what is bound
around them and by themselves. -/
theorem works_classDeclaration (span : Span) (exported : Exported) {name : Option String}
    {heritage : Option (Lower Expr)} (source : List ClassMember) {forms : List ClassMemberForms}
    (writable : ∀ own ∈ name, Writable realm.stem own)
    (inHeritage : ∀ step ∈ heritage, realm.WorksExpr step)
    (inForms : ∀ member ∈ forms, realm.WorksMember member) (agree : realm.isClean → Agree forms) :
    realm.WorksStmts (classDeclaration span exported name heritage source forms) := by
  unfold classDeclaration
  apply (works_lowerClass span source inHeritage inForms agree).bind
  intro lowered
  extract_lets before goOn
  -- What is evaluated in front of the class stays there.
  have afterBefore {world : World} {stmts : List Stmt} (parts : realm.MeetsClass world lowered)
      (meets : Meets realm.stem (world.plus realm.stem (stmtsNames false stmts)) (stmtsUses stmts)) :
      Meets realm.stem (world.plus realm.stem (stmtsNames false (before ++ stmts)))
        (stmtsUses (before ++ stmts)) := by
    obtain ⟨noNames, inBefore⟩ := sequenceStmt_spec parts.before
    rw [stmtsNames_append, noNames, List.nil_append, stmtsUses_append, meets_append]
    exact ⟨inBefore.plus, meets⟩
  apply Works.ite
  · intro _
    apply Works.pure
    intro world _ parts
    apply afterBefore parts
    have inClass : Meets realm.stem world
        (stmtUses ⟨span, .classDecl exported name lowered.heritage lowered.members⟩) :=
      meets_classDecl writable parts
    simpa using inClass.plus
  · intro _
    -- Whatever the class is called, the rest is the same.
    have inRest {name : String} (writable : Writable realm.stem name) :
        realm.Works false (goOn name) fun world stmts => realm.MeetsClass world lowered →
          Meets realm.stem (world.plus realm.stem (stmtsNames false stmts)) (stmtsUses stmts) := by
      apply Works.ite
      · intro _
        extract_lets behind
        apply Works.pure
        intro world _ parts
        apply afterBefore parts
        have inClass : Meets realm.stem world (stmtUses
            ⟨span, .classDecl exported (some name) lowered.heritage lowered.members⟩) :=
          meets_classDecl (by simpa using writable) parts
        have inBehind : ∀ value ∈ behind, Meets realm.stem (world.plus realm.stem [name])
            (exprUses value) :=
          meets_behind parts.unwritable (fun _ => .inl) (.inr ⟨by simp, writable⟩) parts.behind
        have wider : Meets realm.stem (world.plus realm.stem [name]) (stmtUses
            ⟨span, .classDecl exported (some name) lowered.heritage lowered.members⟩) :=
          inClass.plus
        simpa [stmtShapeNames, and_assoc] using And.intro wider inBehind
      · intro _
        apply (works_allocNamedBound ((writable_of_head (c := '_') rfl (by decide)).append name)).bind
        intro inner
        extract_lets members behind value
        apply Works.pure
        intro world _ isWritable parts
        rw [List.append_assoc]
        apply afterBefore parts
        apply meets_aliasedClass parts writable isWritable
        intro stmt mem
        split at mem
        · exact List.mem_singleton.mp mem
        · cases mem
    cases name with
    | some name => exact inRest (writable name rfl)
    | none =>
      apply works_readStem.bindFact
      intro setting isStem
      rw [isStem]
      have named : realm.Works false (allocNamedBound (realm.stem ++ "_default"))
          fun _ name => Writable realm.stem name ∧ True :=
        (works_allocNamedBound (writable_default realm.stem)).weaken fun _ _ _ shown =>
          ⟨shown, trivial⟩
      apply named.bindFact
      intro name writable
      exact (inRest writable).weaken fun _ _ _ shown _ _ => shown

/-- A class expression, or the sequence that takes its place, needs no more than what is bound. -/
theorem works_classExpression (span : Span) {name : Option String}
    {heritage : Option (Lower Expr)} (source : List ClassMember) {forms : List ClassMemberForms}
    (writable : ∀ own ∈ name, Writable realm.stem own)
    (inHeritage : ∀ step ∈ heritage, realm.WorksExpr step)
    (inForms : ∀ member ∈ forms, realm.WorksMember member) (agree : realm.isClean → Agree forms) :
    realm.WorksExpr (classExpression span name heritage source forms) := by
  unfold classExpression
  apply (works_lowerClass span source inHeritage inForms agree).bind
  intro lowered
  apply Works.ite
  · intro _
    apply Works.pure
    intro world _ parts
    apply meets_inSequence parts.before
    rw [exprUses_of, shapeUses, meets_append, meets_nameUses, meets_enclosed, meets_append]
    exact ⟨writable, parts.heritage.plus, parts.members.plus⟩
  · intro _
    apply works_alloc.bind
    intro temp
    -- The members and the code behind the class, with the new name wherever they mention it.
    have inParts {world : World} {members : List ClassMember} {behind : List Expr}
        (isDeclared : world temp) (parts : realm.MeetsClass world lowered)
        (inMembers : Meets realm.stem world (classMembersUses members))
        (inBehind : ∀ value ∈ behind,
          Meets realm.stem (world.withName lowered.placeholder) (exprUses value)) :
        Meets realm.stem world (exprUses (inSequence
          (lowered.before ++ .assign span (.id span temp)
              (.of span (.classExpr none lowered.heritage members))
            :: renameInExprs lowered.placeholder temp behind) (.id span temp))) := by
      apply meets_inSequence
      · refine List.forall_mem_append.mpr ⟨parts.before, List.forall_mem_cons.mpr ⟨?_, ?_⟩⟩
        · simpa [isDeclared, shapeUses] using ⟨parts.heritage, inMembers⟩
        · exact meets_behind parts.unwritable (fun _ => id) isDeclared inBehind
      · simpa using isDeclared
    cases name with
    | none =>
      apply Works.pure
      rintro world _ ⟨-, isDeclared⟩ parts
      exact inParts isDeclared parts parts.members parts.behind
    | some name =>
      apply Works.pure
      rintro world _ ⟨-, isDeclared⟩ parts
      apply inParts isDeclared parts
      · exact classMembersUses_rename _ _ _ _ (replaces_bound (fun _ => id) isDeclared) parts.members
      · refine List.forall_mem_map.mpr fun value mem => ?_
        exact exprUses_rename _ _ _ _
          (replaces_bound (fun _ => id) (.inl isDeclared)) (parts.behind value mem)

end Named

end Realm

end Downlevel
