import Downlevel.Lowering.Class.Slot
import Downlevel.Proofs.Scoping.Literals

/-! The private names of a class: every member that moves finds what it needs under its own name,
unless the class declares the name in two roles. -/

namespace Downlevel

namespace Lowering

/-- What a member declares if its key is a private name; generated accessors are accessors. -/
def MemberForms.declaredKind? : MemberForms → Option PrivateKind
  | .accessor _ => some .accessor
  | value => value.privateKind?

/-- A member that declares a private name itself is of that kind. -/
theorem MemberForms.declaredKind_of_privateKind {value : MemberForms} {kind : PrivateKind}
    (isKind : value.privateKind? = some kind) : value.declaredKind? = some kind := by
  cases value with
  | accessor => cases isKind
  | _ => exact isKind

/-- No private name is declared by members of two kinds. -/
def Agree (members : List ClassMemberForms) : Prop :=
  ∀ first ∈ members, ∀ second ∈ members, ∀ name ∈ first.key.privateName?,
    second.key.privateName? = some name → ∀ kind ∈ first.value.declaredKind?,
      ∀ other ∈ second.value.declaredKind?, kind = other

/-- A member declares its private name like one of the members does, or it is a field of a name that
is not taken. -/
def Descends (members : List ClassMemberForms) (taken : List String) (member : ClassMemberForms) :
    Prop :=
  ∀ name ∈ member.key.privateName?, ∀ kind ∈ member.value.declaredKind?,
    (∃ own ∈ members, own.key.privateName? = some name ∧ own.value.declaredKind? = some kind)
      ∨ kind = .field ∧ name ∉ taken

/-- Members whose names are new, or declared as before, declare no name in two kinds. -/
theorem agree_of_descends {members expanded : List ClassMemberForms} {taken : List String}
    (areTaken : ∀ member ∈ members, ∀ name ∈ member.key.privateName?, name ∈ taken)
    (descends : ∀ member ∈ expanded, Descends members taken member) (agree : Agree members) :
    Agree expanded := by
  intro first isFirst second isSecond name isName isOther kind isKind other isOtherKind
  -- Two members with one name: both were written so, or both are fields an accessor left behind; a
  -- name made up was not taken, so the mixed cases are out.
  rcases descends first isFirst name isName kind isKind with ⟨own, isOwn, named, kinded⟩ | ⟨isField, isNew⟩
  · rcases descends second isSecond name isOther other isOtherKind with
      ⟨twin, isTwin, named', kinded'⟩ | ⟨-, isNew⟩
    · exact agree own isOwn twin isTwin name named named' kind kinded other kinded'
    · exact absurd (areTaken own isOwn name named) isNew
  · rcases descends second isSecond name isOther other isOtherKind with
      ⟨twin, isTwin, named', -⟩ | ⟨isField', -⟩
    · exact absurd (areTaken twin isTwin name named') isNew
    · rw [isField, isField']

/-- Which function of a private name a member is, if it is one. -/
def MemberForms.functionRole? : MemberForms → Option FunctionRole
  | .method _ => some .method
  | .getter _ => some .getter
  | .setter _ => some .setter
  | _ => none

/-- What is declared under a name has all the functions that the members of the name are. -/
structure Collected (members : List ClassMemberForms) (found : List DeclaredPrivate) : Prop where
  origin : ∀ entry ∈ found, ∃ member ∈ members,
    member.key.privateName? = some entry.name ∧ member.value.privateKind? = some entry.kind
  declares : ∀ member ∈ members, ∀ name ∈ member.key.privateName?,
    member.value.privateKind?.isSome = true → ∃ entry ∈ found, entry.name = name
  functions : ∀ member ∈ members, ∀ entry ∈ found, member.key.privateName? = some entry.name →
    (member.value.isGetter = true → entry.hasGetter = true)
      ∧ (member.value.isSetter = true → entry.hasSetter = true)

/-- Getters and setters are accessors. -/
theorem MemberForms.kind_of_isGetter {value : MemberForms} (isGetter : value.isGetter = true) :
    value.privateKind? = some .accessor := by
  cases value with
  | getter => rfl
  | _ => cases isGetter

/-- A setter is an accessor. -/
theorem MemberForms.kind_of_isSetter {value : MemberForms} (isSetter : value.isSetter = true) :
    value.privateKind? = some .accessor := by
  cases value with
  | setter => rfl
  | _ => cases isSetter

/-- A member that declares no private name changes nothing. -/
theorem Collected.skip {members : List ClassMemberForms} {found : List DeclaredPrivate}
    {member : ClassMemberForms} (collected : Collected members found)
    (other : ∀ name ∈ member.key.privateName?, member.value.privateKind? = none) :
    Collected (members ++ [member]) found where
  -- The member declares no private name, so nothing is added for it.
  origin entry mem := by
    obtain ⟨own, isMember, names⟩ := collected.origin entry mem
    exact ⟨own, List.mem_append_left _ isMember, names⟩
  declares := by
    apply List.forall_mem_append.mpr ⟨collected.declares, List.forall_mem_singleton.mpr _⟩
    intro name isName isKind
    rw [other name isName] at isKind
    cases isKind
  functions := by
    apply List.forall_mem_append.mpr ⟨collected.functions, List.forall_mem_singleton.mpr _⟩
    intro entry _ isName
    have noKind := other _ isName
    constructor
    · intro isGetter
      rw [MemberForms.kind_of_isGetter isGetter] at noKind
      cases noKind
    · intro isSetter
      rw [MemberForms.kind_of_isSetter isSetter] at noKind
      cases noKind

/-- A member of a name that is declared already adds what it is to the name. -/
theorem Collected.merge {members : List ClassMemberForms} {found : List DeclaredPrivate}
    {member : ClassMemberForms} {name : String} (collected : Collected members found)
    (isName : member.key.privateName? = some name) (isThere : ∃ entry ∈ found, entry.name = name) :
    Collected (members ++ [member]) (found.map fun entry =>
      if entry.name = name then
        { entry with
          hasGetter := entry.hasGetter || member.value.isGetter
          hasSetter := entry.hasSetter || member.value.isSetter }
      else entry) := by
  let merged (entry : DeclaredPrivate) : DeclaredPrivate :=
    if entry.name = name then
      { entry with
        hasGetter := entry.hasGetter || member.value.isGetter
        hasSetter := entry.hasSetter || member.value.isSetter }
    else entry
  -- Merging changes neither the name nor the kind of an entry, and only ever adds to its functions.
  have sameName (entry : DeclaredPrivate) : (merged entry).name = entry.name := by
    simp only [merged]
    split <;> rfl
  have sameKind (entry : DeclaredPrivate) : (merged entry).kind = entry.kind := by
    simp only [merged]
    split <;> rfl
  have keepsGetter (entry : DeclaredPrivate) (has : entry.hasGetter = true) :
      (merged entry).hasGetter = true := by
    simp only [merged]
    split <;> simp [has]
  have keepsSetter (entry : DeclaredPrivate) (has : entry.hasSetter = true) :
      (merged entry).hasSetter = true := by
    simp only [merged]
    split <;> simp [has]
  change Collected (members ++ [member]) (found.map merged)
  constructor
  · refine List.forall_mem_map.mpr fun entry mem => ?_
    obtain ⟨own, isMember, names, kind⟩ := collected.origin entry mem
    exact ⟨own, List.mem_append_left _ isMember, by rw [sameName, names], by rw [sameKind, kind]⟩
  · refine List.forall_mem_append.mpr ⟨fun own isMember other isOther isKind => ?_, ?_⟩
    · obtain ⟨entry, mem, same⟩ := collected.declares own isMember other isOther isKind
      exact ⟨merged entry, List.mem_map_of_mem mem, by rw [sameName, same]⟩
    · refine List.forall_mem_singleton.mpr fun other isOther _ => ?_
      obtain rfl : name = other := Option.some.inj (isName.symm.trans isOther)
      obtain ⟨entry, mem, same⟩ := isThere
      exact ⟨merged entry, List.mem_map_of_mem mem, by rw [sameName, same]⟩
  · refine List.forall_mem_append.mpr ⟨fun own isMember => List.forall_mem_map.mpr ?_, ?_⟩
    · intro entry mem isOwn
      rw [sameName] at isOwn
      obtain ⟨getter, setter⟩ := collected.functions own isMember entry mem isOwn
      exact ⟨fun asked => keepsGetter entry (getter asked), fun asked => keepsSetter entry (setter asked)⟩
    · refine List.forall_mem_singleton.mpr (List.forall_mem_map.mpr fun entry mem isOwn => ?_)
      rw [sameName] at isOwn
      have same : entry.name = name := Option.some.inj (isOwn.symm.trans isName)
      simp only [merged, if_pos same]
      exact ⟨fun asked => by rw [asked, Bool.or_true], fun asked => by rw [asked, Bool.or_true]⟩

/-- A member of a new name declares it. -/
theorem Collected.declare {members : List ClassMemberForms} {found : List DeclaredPrivate}
    {member : ClassMemberForms} {name : String} {kind : PrivateKind}
    (collected : Collected members found) (isName : member.key.privateName? = some name)
    (isKind : member.value.privateKind? = some kind) (isNew : ∀ entry ∈ found, entry.name ≠ name) :
    Collected (members ++ [member])
      (found ++ [⟨name, kind, member.isStatic, member.value.isGetter, member.value.isSetter⟩]) := by
  constructor
  · refine List.forall_mem_append.mpr ⟨fun entry mem => ?_, ?_⟩
    · obtain ⟨own, isMember, names⟩ := collected.origin entry mem
      exact ⟨own, List.mem_append_left _ isMember, names⟩
    · exact List.forall_mem_singleton.mpr ⟨member, by simp, isName, isKind⟩
  · refine List.forall_mem_append.mpr ⟨fun own isMember other isOther isKind => ?_, ?_⟩
    · obtain ⟨entry, mem, same⟩ := collected.declares own isMember other isOther isKind
      exact ⟨entry, List.mem_append_left _ mem, same⟩
    · refine List.forall_mem_singleton.mpr fun other isOther _ => ?_
      obtain rfl : name = other := Option.some.inj (isName.symm.trans isOther)
      exact ⟨_, List.mem_append_right _ (List.mem_singleton.mpr rfl), rfl⟩
  · refine List.forall_mem_append.mpr ⟨fun own isMember => ?_, ?_⟩
    · refine List.forall_mem_append.mpr ⟨collected.functions own isMember, ?_⟩
      refine List.forall_mem_singleton.mpr fun isOwn => ?_
      -- An earlier member of the name would have declared it, unless it has no part in private names.
      have noKind : own.value.privateKind? = none := by
        cases hasKind : own.value.privateKind? with
        | none => rfl
        | some other =>
          obtain ⟨entry, mem, same⟩ := collected.declares own isMember name isOwn (by simp [hasKind])
          exact absurd same (isNew entry mem)
      constructor
      · intro isGetter
        rw [MemberForms.kind_of_isGetter isGetter] at noKind
        cases noKind
      · intro isSetter
        rw [MemberForms.kind_of_isSetter isSetter] at noKind
        cases noKind
    · refine List.forall_mem_singleton.mpr (List.forall_mem_append.mpr ⟨fun entry mem isOwn => ?_, ?_⟩)
      · exact absurd (Option.some.inj (isOwn.symm.trans isName)) (isNew entry mem)
      · exact List.forall_mem_singleton.mpr fun _ => ⟨id, id⟩

/-- One more member is taken into account. -/
theorem Collected.add {members : List ClassMemberForms} {found : List DeclaredPrivate}
    (collected : Collected members found) (member : ClassMemberForms) :
    Collected (members ++ [member]) (addPrivate found member) := by
  unfold addPrivate
  split
  · -- A private member is merged into the entry of its name or gets an entry of its own; any other
    -- is skipped.
    rename_i name kind isName isKind
    split
    · rename_i isThere
      exact collected.merge isName (by simpa using isThere)
    · rename_i isNew
      exact collected.declare isName isKind (by simpa using isNew)
  · rename_i other
    apply collected.skip
    intro name isName
    cases kind : member.value.privateKind? with
    | none => rfl
    | some kind' => exact absurd kind (other name kind' isName)

/-- The private names that a class declares are those of its members. -/
theorem collected_declaredPrivates (members : List ClassMemberForms) :
    Collected members (declaredPrivates members) := by
  have folds (rest seen : List ClassMemberForms) (found : List DeclaredPrivate)
      (collected : Collected seen found) :
      Collected (seen ++ rest) (rest.foldl addPrivate found) := by
    induction rest generalizing seen found with
    | nil => simpa using collected
    | cons member rest ih => simpa using ih _ _ (collected.add member)
  exact folds members [] [] ⟨List.forall_mem_nil _, List.forall_mem_nil _, List.forall_mem_nil _⟩

/-- A binding has every function that members of its name are, if those are of one kind. -/
structure PrivateBinding.Fulfils (binding : PrivateBinding) (entry : DeclaredPrivate) : Prop where
  method : entry.kind = .method → (binding.function? .method).isSome = true
  getter : entry.kind = .accessor → entry.hasGetter = true → (binding.function? .getter).isSome = true
  setter : entry.kind = .accessor → entry.hasSetter = true → (binding.function? .setter).isSome = true

/-- The names that a class declares are those that are found, and the ones that are replaced have
all their functions. -/
structure PrivateNames.Answers (privates : PrivateNames) (found : List DeclaredPrivate) : Prop where
  origin : ∀ pair ∈ privates, ∃ entry ∈ found, entry.name = pair.1
    ∧ ∀ binding ∈ pair.2, binding.Fulfils entry
  declares : ∀ entry ∈ found, ∃ pair ∈ privates, pair.1 = entry.name

/-- A member finds its name among those of its class, with the function that it is. -/
structure PrivateNames.Knows (privates : PrivateNames) (isClean : Prop)
    (member : ClassMemberForms) : Prop where
  own : ∀ name ∈ member.key.privateName?, member.value.privateKind?.isSome = true →
    ∃ binding, privates.lookup name = some binding
  functions : isClean → ∀ name ∈ member.key.privateName?, ∀ role ∈ member.value.functionRole?,
    ∀ binding, privates.lookup name = some (some binding) →
      (binding.function? role).isSome = true

/-- Every member finds what it needs under its name. -/
theorem knows_of_answers {members : List ClassMemberForms} {privates : PrivateNames}
    {isClean : Prop} (answers : privates.Answers (declaredPrivates members))
    (agree : isClean → Agree members) :
    ∀ member ∈ members, privates.Knows isClean member := by
  have collected := collected_declaredPrivates members
  intro member isMember
  constructor
  · intro name isName isKind
    obtain ⟨entry, isEntry, same⟩ := collected.declares member isMember name isName isKind
    obtain ⟨pair, isPair, isOwn⟩ := answers.declares entry isEntry
    have there : (privates.lookup name).isSome = true :=
      List.lookup_isSome_iff.mpr ⟨pair, isPair, by simp [isOwn, same]⟩
    exact Option.isSome_iff_exists.mp there
  · intro isClean name isName role isRole binding isOwn
    obtain ⟨front, back, split, -⟩ := List.lookup_eq_some_iff.mp isOwn
    obtain ⟨entry, isEntry, same, fulfils⟩ := answers.origin (name, some binding) (by simp [split])
    obtain ⟨method, getter, setter⟩ := fulfils binding rfl
    obtain ⟨other, isOther, otherName, otherKind⟩ := collected.origin entry isEntry
    have named : member.key.privateName? = some entry.name := by rw [same]; exact isName
    obtain ⟨hasGetter, hasSetter⟩ := collected.functions member isMember entry isEntry named
    -- The member that gave the name its kind is of the same kind as this one.
    have sameKind (kind : PrivateKind) (isKind : member.value.declaredKind? = some kind) :
        entry.kind = kind := by
      refine agree isClean other isOther member isMember entry.name otherName named entry.kind ?_ kind
        isKind
      exact MemberForms.declaredKind_of_privateKind otherKind
    cases value : member.value with
    | method func =>
      rw [value] at isRole sameKind
      obtain rfl := Option.some.inj isRole
      exact method (sameKind .method rfl)
    | getter func =>
      rw [value] at isRole sameKind hasGetter
      obtain rfl := Option.some.inj isRole
      exact getter (sameKind .accessor rfl) (hasGetter rfl)
    | setter func =>
      rw [value] at isRole sameKind hasSetter
      obtain rfl := Option.some.inj isRole
      exact setter (sameKind .accessor rfl) (hasSetter rfl)
    | field init => rw [value] at isRole; cases isRole
    | accessor init => rw [value] at isRole; cases isRole
    | staticBlock span body => rw [value] at isRole; cases isRole

end Lowering

open Lowering

namespace Realm

variable {realm : Realm} {mayBeParams : Bool} {world : World} {span : Span}

section Members

/-- A step whose result is a method, getter or setter that needs no more than what is bound around
it. -/
abbrev WorksMethod (realm : Realm) (step : Lower Func) : Prop :=
  realm.Works false step fun world func =>
    Meets realm.stem world (funcUses func) ∧ func.body.isBlock = true

/-- What a member of a class holds works. -/
def WorksValue (realm : Realm) : MemberForms → Prop
  | .getter func | .setter func | .method func => realm.WorksMethod func
  | .field init | .accessor init => ∀ step ∈ init, realm.WorksExpr step
  | .staticBlock _ body => realm.WorksStmts body

/-- A member of a class works. -/
structure WorksMember (realm : Realm) (member : ClassMemberForms) : Prop where
  key : realm.WorksKey member.key
  plain : ∀ name ∈ member.key.privateName?, PlainPrivate name
  value : realm.WorksValue member.value

/-- A key works where more is known. -/
theorem WorksKey.knowing {key : KeyForms} (inKey : realm.WorksKey key) :
    (realm.knowing world).WorksKey key := by
  cases key with
  | direct name => trivial
  | computed value => exact Works.knowing inKey

/-- A member works where more is known. -/
theorem WorksMember.knowing {member : ClassMemberForms} (inMember : realm.WorksMember member) :
    (realm.knowing world).WorksMember member := by
  obtain ⟨span, key, isStatic, value⟩ := member
  obtain ⟨inKey, plain, inValue⟩ := inMember
  refine ⟨inKey.knowing, plain, ?_⟩
  -- Knowing more names asks no more of a member.
  cases value with
  | getter func => exact Works.knowing inValue
  | setter func => exact Works.knowing inValue
  | method func => exact Works.knowing inValue
  | field init => exact fun step isStep => (inValue step isStep).knowing
  | accessor init => exact fun step isStep => (inValue step isStep).knowing
  | staticBlock blockSpan body => exact Works.knowing inValue

end Members

section Accessors

/-- A function of one statement needs what the statement does. -/
theorem meets_oneStmt {params : List Param} {stmt : Stmt}
    (inParams : Meets realm.stem world (paramsUses params))
    (inStmt : Meets realm.stem (world.plus realm.stem (paramsNames params)) (stmtUses stmt)) :
    Meets realm.stem world (funcUses ⟨span, false, false, false, params, .block [stmt]⟩) := by
  rw [funcUses, meets_append, meets_enclosed, meets_enclosed]
  refine ⟨inParams.plus, ?_⟩
  rw [← World.plus_append]
  simpa [bodyUses] using inStmt.plus

/-- A generated getter works. -/
theorem works_backingGetter (span : Span) (backing : String) :
    realm.WorksMethod (backingGetter span backing) := by
  apply (works_memberOrPrivate span (.this span) backing).bind
  intro value
  apply Works.pure
  intro world _ meets
  refine ⟨meets_oneStmt (by simp [paramsUses]) ?_, rfl⟩
  simpa using meets (by simp)

/-- A generated setter works. -/
theorem works_backingSetter (span : Span) (backing : String) :
    realm.WorksMethod (backingSetter span backing) := by
  apply (works_assignMemberOrPrivate span (.this span) backing (.id span "_")).wider.bind
  intro write
  have writable : Writable realm.stem "_" := writable_of_head (c := '_') rfl (by decide)
  apply Works.pure
  intro world _ meets
  refine ⟨meets_oneStmt (by simpa [paramsUses] using writable) ?_, rfl⟩
  rw [stmtUses_expr]
  apply meets _ (fun _ => .inl) (by simp)
  simpa using World.plus_of_mem (by simp) writable

/-- The keys of a getter and a setter work, are as private as that of the field was, and the private
field behind it does not look like a placeholder. -/
structure WorksKeys (realm : Realm) (key : KeyForms) (keys : String × KeyForms × KeyForms) : Prop
    where
  plain : ∀ taken, PlainPrivate (freshName taken ("#" ++ keys.1))
  getter : realm.WorksKey keys.2.1
  setter : realm.WorksKey keys.2.2
  getterName : keys.2.1.privateName? = key.privateName?
  setterName : keys.2.2.privateName? = key.privateName?

/-- The keys of a generated pair of accessors work. -/
theorem works_accessorKeys {key : KeyForms} (inKey : realm.WorksKey key) :
    realm.Works false (accessorKeys key) fun world keys =>
      (realm.knowing world).WorksKeys key keys := by
  -- A name is spelled further; a computed key is kept under a name that the getter and the setter
  -- read.
  cases key with
  | direct name =>
    exact .pure fun _ _ => ⟨plainPrivate_backing name, trivial, trivial, rfl, rfl⟩
  | computed value =>
    apply works_alloc.bind
    intro name
    apply Works.pure
    rintro world _ ⟨⟨-, noNull⟩, isDeclared⟩
    refine ⟨fun taken => ?_, ?_, ?_, rfl, rfl⟩
    · apply plainPrivate_of_noNull
      apply noNull_freshName
      rw [String.toList_append, List.mem_append, not_or]
      exact ⟨by decide, noNull_dropLeading noNull⟩
    · apply (Works.knowing inKey).bind
      intro e
      apply Works.pure
      intro wide grounds meets
      simpa using ⟨grounds.known name (.inr isDeclared), meets⟩
    · apply Works.pure
      intro wide grounds
      simpa using grounds.known name (.inr isDeclared)

/-- The members that take the place of fields with generated accessors work. -/
theorem works_expandAccessors {taken : List String} {members : List ClassMemberForms}
    (inMembers : ∀ member ∈ members, realm.WorksMember member) :
    realm.Works false (expandAccessors taken members) fun world expanded =>
      (∀ member ∈ expanded, (realm.knowing world).WorksMember member)
        ∧ ∀ member ∈ expanded, Descends members taken member := by
  induction members generalizing taken with
  | nil => exact .pure fun _ _ => ⟨List.forall_mem_nil _, List.forall_mem_nil _⟩
  | cons member members ih =>
    obtain ⟨own, inOthers⟩ := List.forall_mem_cons.mp inMembers
    -- What descends from the other members, where even more is taken, does so from all of them.
    have later {wider : List String} (included : ∀ name ∈ taken, name ∈ wider)
        {expanded : ClassMemberForms} (descends : Descends members wider expanded) :
        Descends (member :: members) taken expanded := by
      intro name isName kind isKind
      rcases descends name isName kind isKind with ⟨other, isOther, named⟩ | ⟨isField, isNew⟩
      · exact .inl ⟨other, List.mem_cons_of_mem _ isOther, named⟩
      · exact .inr ⟨isField, fun isTaken => isNew (included name isTaken)⟩
    unfold expandAccessors
    split
    · rename_i init isAccessor
      obtain ⟨inKey, plain, inValue⟩ := own
      rw [isAccessor] at inValue
      apply (works_accessorKeys inKey).bind
      rintro ⟨base, getterKey, setterKey⟩
      dsimp only
      apply (ih inOthers).bind
      intro rest
      apply Works.pure
      rintro world _ ⟨inRest, descends⟩ keys
      obtain ⟨plainBacking, inGetter, inSetter, getterName, setterName⟩ := keys
      -- The getter and the setter are as private as the field was, which is an accessor, too.
      have isDescendant {key : KeyForms} {value : MemberForms}
          (sameName : key.privateName? = member.key.privateName?)
          (isAccessor' : value.declaredKind? = some .accessor) :
          Descends (member :: members) taken { member with key, value } := by
        intro name isName kind isKind
        refine .inl ⟨member, List.mem_cons_self, sameName ▸ isName, ?_⟩
        rw [isAccessor]
        exact isAccessor'.symm.trans isKind
      constructor
      · simp only [List.mem_cons, forall_eq_or_imp]
        refine ⟨⟨trivial, ?_, fun step isStep => (inValue step isStep).knowing⟩,
          ⟨inGetter, fun name isName => plain name (getterName ▸ isName), works_backingGetter _ _⟩,
          ⟨inSetter, fun name isName => plain name (setterName ▸ isName), works_backingSetter _ _⟩,
          inRest⟩
        rintro name isName
        obtain rfl := Option.some.inj isName
        exact plainBacking taken
      · simp only [List.mem_cons, forall_eq_or_imp]
        refine ⟨?_, isDescendant getterName rfl, isDescendant setterName rfl, fun other mem => ?_⟩
        · intro name isName kind isKind
          obtain rfl := Option.some.inj isName
          obtain rfl := Option.some.inj isKind
          exact .inr ⟨rfl, freshName_not_mem _ _⟩
        · exact later (fun _ => List.mem_cons_of_mem _) (descends other mem)
    · apply (ih inOthers).bind
      intro rest
      apply Works.pure
      rintro world _ ⟨inRest, descends⟩
      constructor
      · exact List.forall_mem_cons.mpr ⟨own.knowing, inRest⟩
      · refine List.forall_mem_cons.mpr ⟨fun name isName kind isKind => ?_, fun other mem => ?_⟩
        · exact .inl ⟨member, List.mem_cons_self, isName, isKind⟩
        · exact later (fun _ => id) (descends other mem)

/-- The members of a class work without generated accessors, and agree as much as before. -/
theorem works_withoutAccessors {members : List ClassMemberForms}
    (inMembers : ∀ member ∈ members, realm.WorksMember member) :
    realm.Works false (withoutAccessors members) fun world expanded =>
      (∀ member ∈ expanded, (realm.knowing world).WorksMember member)
        ∧ (Agree members → Agree expanded) := by
  unfold withoutAccessors
  apply (works_supports .decorator).andThen
  intro isSupported
  apply Works.ite
  · -- The target has accessors, or they are expanded, and then each member comes from one that was
    -- written.
    intro _
    exact .pure fun _ _ => ⟨fun member mem => (inMembers member mem).knowing, id⟩
  · intro _
    apply (works_expandAccessors inMembers).weaken
    rintro world _ expanded ⟨inExpanded, descends⟩
    refine ⟨inExpanded, agree_of_descends (fun member mem name isName => ?_) descends⟩
    exact List.mem_filterMap.mpr ⟨member, mem, isName⟩

end Accessors

section Declared

/-- Asking whether a private name can stay works. -/
theorem works_isSupported (entry : DeclaredPrivate) :
    realm.Works mayBeParams entry.isSupported fun _ _ => True := by
  apply (works_lacks _).andThen
  intro isLacking
  apply Works.ite
  · exact fun _ => .pure fun _ _ => trivial
  · intro _
    exact .ite (fun _ => works_supports _) fun _ => .pure fun _ _ => trivial

/-- The names that stand in for a private name are declared, and there is one for each function. -/
theorem works_bindPrivate {entry : DeclaredPrivate} (plain : PlainPrivate entry.name) :
    realm.Works false (bindPrivate entry) fun world binding =>
      binding.Fulfils entry ∧ Binds world binding := by
  obtain ⟨name, kind, isStatic, hasGetter, hasSetter⟩ := entry
  -- A function is named like the private name, with an ending of its own.
  have named (ending : String) (behind : ending.toList.head? = some '_') :
      realm.Works false (allocNamed (dropLeading '#' name ++ ending)) fun world name => world name :=
    (works_allocNamed (writable_append_of_head plain (by decide) behind)).weaken fun _ _ _ => And.right
  have inStorage : realm.Works false (allocNamed ("_" ++ dropLeading '#' name)) fun world name =>
      world name :=
    (works_allocNamed ((writable_of_head (c := '_') rfl (by decide)).append _)).weaken
      fun _ _ _ => And.right
  unfold bindPrivate
  apply inStorage.bind
  intro storage
  cases kind with
  | field =>
    apply Works.pure
    intro world _ isDeclared
    exact ⟨⟨nofun, nofun, nofun⟩, binds_iff.mpr ⟨isDeclared, trivial⟩⟩
  | method =>
    have inRole : realm.Works false (.method <$> allocNamed (dropLeading '#' name ++ "_fn"))
        fun world role => ∃ function, role = PrivateRole.method function ∧ world function :=
      .map ((named "_fn" rfl).weaken fun _ _ function isDeclared => ⟨function, rfl, isDeclared⟩)
    apply inRole.bind
    intro role
    apply Works.pure
    rintro world _ ⟨function, rfl, isNamed⟩ isDeclared
    exact ⟨⟨fun _ => rfl, nofun, nofun⟩, binds_iff.mpr ⟨isDeclared, isNamed⟩⟩
  | accessor =>
    -- A function is named only if the class has it, and then the next step follows.
    have whether (asked : Bool) (ending : String) (behind : ending.toList.head? = some '_')
        {rest : Option String → Lower PrivateBinding} {final : World → PrivateBinding → Prop}
        (inRest : ∀ found : Option String, (asked = true → found.isSome = true) →
          realm.Works false (rest found) fun world binding =>
            (∀ own ∈ found, world own) → final world binding) :
        realm.Works false
          (if asked then some <$> allocNamed (dropLeading '#' name ++ ending) >>= rest
            else pure none >>= rest) final := by
      apply Works.ite
      · intro _
        have isNamed : realm.Works false (some <$> allocNamed (dropLeading '#' name ++ ending))
            fun world found => found.isSome = true ∧ ∀ own ∈ found, world own :=
          .map ((named ending behind).weaken fun _ _ _ isDeclared => ⟨rfl, by simpa using isDeclared⟩)
        exact isNamed.bindFact fun found isSome => inRest found fun _ => isSome
      · intro notAsked
        exact (inRest none fun asked' => absurd asked' notAsked).weaken fun _ _ _ shown => shown nofun
    refine whether hasGetter "_get" rfl fun getter hasOwn => ?_
    refine whether hasSetter "_set" rfl fun setter hasOther => ?_
    apply Works.pure
    intro world _ isSetter isGetter isDeclared
    exact ⟨⟨nofun, fun _ => hasOwn, fun _ => hasOther⟩, binds_iff.mpr ⟨isDeclared, isGetter, isSetter⟩⟩

/-- The private names of a class, of which those that are replaced have all their functions. -/
theorem works_declarePrivates {source : List ClassMember} {members : List ClassMemberForms}
    (inMembers : ∀ member ∈ members, realm.WorksMember member) :
    realm.Works false (declarePrivates source members) fun world privates =>
      privates.Answers (declaredPrivates members)
        ∧ ∀ pair ∈ privates, ∀ binding ∈ pair.2, Binds world binding := by
  -- Each entry comes from a member, so its name is one the parser read.
  have plain : ∀ entry ∈ declaredPrivates members, PlainPrivate entry.name := by
    intro entry mem
    obtain ⟨member, isMember, isName, -⟩ := (collected_declaredPrivates members).origin entry mem
    exact (inMembers member isMember).plain entry.name isName
  unfold declarePrivates
  apply Works.ite
  · intro isEmpty
    apply Works.pure
    intro world _
    refine ⟨⟨List.forall_mem_nil _, ?_⟩, List.forall_mem_nil _⟩
    rw [List.isEmpty_iff.mp isEmpty]
    exact List.forall_mem_nil _
  · -- Of the entries some are bound and some are left to the target; in both cases the entry keeps
    -- its name.
    intro _
    apply (works_lacks .classPrivateBrandCheck).andThen
    intro lacksCheck
    apply Works.andThen (Works.filterM fun entry _ =>
      (works_isSupported entry).andThen fun _ => .pure fun _ _ => trivial)
    intro unsupported
    have each : ∀ entry ∈ declaredPrivates members, ∀ isLowered : Bool, realm.Works false
        (if isLowered then do return (entry.name, some (← bindPrivate entry))
          else return (entry.name, none) : Lower (String × Option PrivateBinding))
        fun world pair => pair.1 = entry.name
          ∧ ∀ binding ∈ pair.2, binding.Fulfils entry ∧ Binds world binding := by
      intro entry mem isLowered
      apply Works.ite
      · intro _
        apply (works_bindPrivate (plain entry mem)).bind
        intro binding
        exact .pure fun _ _ shown => ⟨rfl, by simpa using shown⟩
      · exact fun _ => .pure fun _ _ => ⟨rfl, nofun⟩
    apply (Works.mapM fun entry mem => each entry mem _).weaken
    rintro world _ privates ⟨origin, answered⟩
    refine ⟨⟨fun pair isPair => ?_, fun entry isEntry => ?_⟩, fun pair isPair => ?_⟩
    · obtain ⟨entry, isEntry, same, fulfils⟩ := origin pair isPair
      exact ⟨entry, isEntry, same.symm, fun binding isBinding => (fulfils binding isBinding).1⟩
    · obtain ⟨pair, isPair, same, -⟩ := answered entry isEntry
      exact ⟨pair, isPair, same⟩
    · obtain ⟨entry, isEntry, -, fulfils⟩ := origin pair isPair
      exact fun binding isBinding => (fulfils binding isBinding).2

/-- Deciding what stays in a class works. -/
theorem works_classPolicy (members : List ClassMemberForms) (privates : PrivateNames) :
    realm.Works mayBeParams (classPolicy members privates) fun _ _ => True := by
  unfold classPolicy
  apply (works_lacks _).andThen
  intro lacksStatic
  apply (works_supports _).andThen
  intro blocksStay
  apply (works_lacks _).andThen
  intro lacksFields
  apply works_read.andThen
  exact fun _ => .pure fun _ _ => trivial

end Declared

end Realm

end Downlevel
