import Downlevel.Lowering.Forms
import Downlevel.Proofs.Formed
import Downlevel.Proofs.Forms
import Downlevel.Proofs.Scoping.Frames

/-! The forms of the parts of a program, when all of them work and need nothing around them but what
is bound there. Private members, callees and lowered chains need what their parts do and what is
declared for them. -/

namespace Downlevel

open Lowering

namespace Realm

variable (realm : Realm)

/-- A step whose result needs no more than what is bound around it. -/
abbrev WorksExpr (step : Lower Expr) : Prop :=
  realm.Works false step fun world e => Meets realm.stem world (exprUses e)

/-- A step whose result are statements that need no more than what is bound around them and by
themselves. -/
abbrev WorksStmts (step : Lower (List Stmt)) : Prop :=
  realm.Works false step fun world stmts =>
    Meets realm.stem (world.plus realm.stem (stmtsNames false stmts)) (stmtsUses stmts)

/-- A callee, and the receiver to pass, need no more than what is bound around them. -/
structure MeetsCallee (world : World) (callee : Expr × Option Expr) : Prop where
  function : Meets realm.stem world (exprUses callee.1)
  receiver : ∀ receiver ∈ callee.2, Meets realm.stem world (exprUses receiver)

/-- The parts of a place work. -/
def WorksPlace : PlaceForms → Prop
  | .identifier name => realm.given name
  | .member _ value _ => realm.WorksExpr value
  | .computed _ value key => realm.WorksExpr value ∧ realm.WorksExpr key
  | .other => True

/-- The base of a chain works. -/
structure WorksBase (base : BaseForms) : Prop where
  value : realm.WorksExpr base.value
  callee : realm.Works false base.callee realm.MeetsCallee

/-- A link of a chain works. -/
def WorksLink : LinkForms → Prop
  | .member .. => True
  | .computed _ key => realm.WorksExpr key
  | .call _ _ args => realm.Works false args fun world args => Meets realm.stem world (argsUses args)

/-- The parts of a chain work. A link of a chain goes on with one, unless the source is broken. -/
structure WorksChain (forms : ExprForms) : Prop where
  natively : realm.WorksExpr forms.natively
  base : ∀ base ∈ forms.chain.base, realm.WorksBase base
  links : ∀ link ∈ forms.chain.links, realm.WorksLink link
  whole : realm.isClean → forms.source.isChained = true → forms.chain.base.isSome = true

/-- All forms of an expression work. -/
structure WorksForms (forms : ExprForms) : Prop extends WorksChain realm forms where
  value : realm.WorksExpr forms.value
  target : realm.WorksExpr forms.target
  place : realm.WorksPlace forms.place

/-- All forms of a pattern work, and as a binding without members also in parameters. -/
structure WorksPattern (forms : PatternForms) : Prop where
  bound : ∀ mayBeParams, (mayBeParams = true → hasTarget forms.source = false) →
    realm.Works mayBeParams forms.bound fun world pattern =>
      Meets realm.stem world (patternUses false pattern)
  assigned : realm.WorksForms forms.assigned

/-- The forms of a key work. -/
def WorksKey : KeyForms → Prop
  | .direct _ => True
  | .computed value => realm.WorksExpr value.value

end Realm

namespace Realm

variable {realm : Realm} {mayBeParams : Bool} {world : World} {span : Span} {object value e : Expr}

section Private

/-- The names that stand in for a private name are bound. -/
def Binds (world : World) (binding : PrivateBinding) : Prop :=
  ∀ name ∈ binding.names, world name

variable {binding : PrivateBinding}

/-- The place of a private name, and the functions behind it. -/
theorem binds_iff : Binds world binding ↔ world binding.storage ∧ match binding.role with
    | .field => True
    | .method function => world function
    | .accessor getter setter => (∀ name ∈ getter, world name) ∧ ∀ name ∈ setter, world name := by
  obtain ⟨role, storage, isStatic⟩ := binding
  simp only [Binds, PrivateBinding.names, List.forall_mem_cons]
  apply and_congr_right
  intro _
  -- Only an accessor has names of its own besides the storage, and it may lack either.
  cases role with
  | field => simp
  | method => simp
  | accessor getter setter => cases getter <;> cases setter <;> simp

/-- Reading a private field makes sense if its object does. -/
theorem meets_read (grounds : realm.Grounds world) (binds : Binds world binding)
    (inObject : Meets realm.stem world (exprUses object)) :
    Meets realm.stem world (exprUses (binding.read span object)) := by
  have get := grounds.runtime "__privateGet" (by decide)
  have method := grounds.runtime "__privateMethod" (by decide)
  obtain ⟨storage, functions⟩ := binds_iff.mp binds
  unfold PrivateBinding.read
  split <;> simp_all

/-- Writing a private field makes sense if its object and its value do. -/
theorem meets_write (grounds : realm.Grounds world) (binds : Binds world binding)
    (inObject : Meets realm.stem world (exprUses object))
    (inValue : Meets realm.stem world (exprUses value)) :
    Meets realm.stem world (exprUses (binding.write span object value)) := by
  have set := grounds.runtime "__privateSet" (by decide)
  obtain ⟨storage, functions⟩ := binds_iff.mp binds
  unfold PrivateBinding.write
  split <;> simp_all

/-- Asking for a private field makes sense if its object does. -/
theorem meets_check (grounds : realm.Grounds world) (binds : Binds world binding)
    (inObject : Meets realm.stem world (exprUses object)) :
    Meets realm.stem world (exprUses (binding.check span object)) := by
  have isIn := grounds.runtime "__privateIn" (by decide)
  simp [PrivateBinding.check, inObject, isIn, (binds_iff.mp binds).1]

/-- A place that stands for a private field makes sense if its object does. -/
theorem meets_wrapper (grounds : realm.Grounds world) (binds : Binds world binding)
    (inObject : Meets realm.stem world (exprUses object)) :
    Meets realm.stem world (exprUses (binding.wrapper span object)) := by
  have wrap := grounds.runtime "__privateWrapper" (by decide)
  obtain ⟨storage, functions⟩ := binds_iff.mp binds
  have inArg (function : Option String) (isBound : ∀ name ∈ function, world name) :
      Meets realm.stem world (exprUses (PrivateBinding.accessorArg span function)) := by
    cases function <;> simp_all [PrivateBinding.accessorArg]
  unfold PrivateBinding.wrapper
  split <;> simp_all

/-- What stands in for a private name of the classes around is bound. -/
theorem works_privateBinding? (name : String) :
    realm.Works mayBeParams (privateBinding? name) fun world found =>
      ∀ binding ∈ found, Binds world binding := by
  apply Works.ite
  · intro _
    exact .pure fun _ _ => nofun
  · intro _
    refine .asks fun setting progress world fits covers binding isFound => ?_
    rw [Option.mem_def, Option.join_eq_some_iff] at isFound
    -- The name is bound in one of the classes around, and the setting holds what these classes
    -- bind.
    obtain ⟨privates, inClasses, isOwn⟩ := List.exists_of_findSome?_eq_some isFound
    obtain ⟨front, back, rfl, -⟩ := List.lookup_eq_some_iff.mp isOwn
    intro other isName
    exact covers other
      (fits.classes _ inClasses (name, some binding) (by simp) binding rfl other isName)

/-- Lowering a member access works, private or not. -/
theorem works_memberOrPrivate (span : Span) (object : Expr) (name : String) :
    realm.Works mayBeParams (memberOrPrivate span object name) fun world e =>
      Meets realm.stem world (exprUses object) → Meets realm.stem world (exprUses e) := by
  apply (works_privateBinding? name).bind
  intro binding
  cases binding with
  | none => exact .pure fun _ _ _ inObject => by simpa using inObject
  | some binding =>
    exact .pure fun _ grounds binds inObject => meets_read grounds (binds binding rfl) inObject

/-- Lowering an assignment to a member works, private or not. -/
theorem works_assignMemberOrPrivate (span : Span) (object : Expr) (name : String) (value : Expr) :
    realm.Works mayBeParams (assignMemberOrPrivate span object name value) fun world e =>
      Meets realm.stem world (exprUses object) → Meets realm.stem world (exprUses value) →
        Meets realm.stem world (exprUses e) := by
  apply (works_privateBinding? name).bind
  intro binding
  cases binding with
  | none => exact .pure fun _ _ _ inObject inValue => by simp [inObject, inValue]
  | some binding =>
    exact .pure fun _ grounds binds inObject inValue =>
      meets_write grounds (binds binding rfl) inObject inValue

end Private

section Callees

/-- `this` needs nothing around it, and what is written instead is bound. -/
theorem works_thisValue (span : Span) : realm.WorksExpr (thisValue span) := by
  apply works_resolveThis.bind
  intro found
  cases found with
  | none => exact .pure fun _ _ _ => by simp
  | some name => exact .pure fun _ _ bound => by simpa using bound

/-- What is captured needs no more where it is evaluated, and where it is used again. -/
theorem works_capture (e : Expr) :
    realm.Works false (capture e) fun world (first, again) =>
      Meets realm.stem world (exprUses e) →
        Meets realm.stem world (exprUses first) ∧ Meets realm.stem world (exprUses again) := by
  apply Works.ite
  · intro _
    exact .pure fun _ _ meets => ⟨meets, meets⟩
  · intro _
    apply works_alloc.bind
    intro name
    exact .pure fun _ _ known meets => by simp [known.2, meets]

/-- Going on once it is known whether an expression is a private member that cannot stay. -/
theorem Works.privateMember {β : Type} {forms : ExprForms}
    {rest : Option (PrivateBinding × Lower Expr) → Lower β} {final : World → β → Prop}
    (inPlace : realm.WorksPlace forms.place) (other : realm.Works false (rest none) final)
    (found : ∀ binding object, realm.WorksExpr object →
      realm.Works false (rest (some (binding, object))) fun world last =>
        Binds world binding → final world last) :
    realm.Works false (privateMember? forms >>= rest) final := by
  unfold privateMember?
  -- Only a member access may be private, and only when its name is bound.
  cases place : forms.place with
  | member source value name =>
    rw [place] at inPlace
    simp only [bind_assoc, pure_bind]
    apply (works_privateBinding? name).bind
    intro binding
    cases binding with
    | none => exact other.weaken fun _ _ _ shown _ => shown
    | some binding =>
      exact (found binding value inPlace).weaken fun _ _ _ shown binds => shown (binds binding rfl)
  | identifier name => simpa using other
  | computed source value key => simpa using other
  | other => simpa using other

/-- Asking for a private member works. -/
theorem works_privateMember? (forms : ExprForms) :
    realm.Works mayBeParams (privateMember? forms) fun _ _ => True := by
  unfold privateMember?
  split
  · apply (works_privateBinding? _).andThen
    exact fun _ => .pure fun _ _ => trivial
  · exact .pure fun _ _ => trivial

/-- A private callee and its receiver need what the object does. -/
theorem works_privateCallee (span : Span) (binding : PrivateBinding) {object : Lower Expr}
    (inObject : realm.WorksExpr object) :
    realm.Works false (privateCallee span binding object) fun world (function, receiver) =>
      Binds world binding → realm.MeetsCallee world (function, some receiver) := by
  apply inObject.bind
  intro object
  apply (works_capture object).bind
  rintro ⟨first, again⟩
  apply Works.pure
  intro world grounds captured meets binds
  -- The capture gives two spellings of the object: the helper's first one, and the receiver.
  obtain ⟨once, later⟩ := captured meets
  exact ⟨meets_read grounds binds once, by simpa using later⟩

end Callees

section Links

/-- The parts of a link that is lowered need no more than what is bound. -/
def MeetsLink (realm : Realm) (world : World) : Link → Prop
  | .member .. => True
  | .computed _ key => Meets realm.stem world (exprUses key)
  | .call _ _ args => Meets realm.stem world (argsUses args)

/-- Lowering a link of a chain works if its parts do. -/
theorem works_link {link : LinkForms} (inLink : realm.WorksLink link) :
    realm.Works false link.lower realm.MeetsLink := by
  cases link with
  | member span name => exact .pure fun _ _ => trivial
  | computed span key => exact inLink.bind fun _ => .pure fun _ _ => id
  | call span isPure args => exact inLink.bind fun _ => .pure fun _ _ => id

/-- Links that are followed one after the other need what their parts do. -/
theorem works_followLinks (mode : ChainMode) (links : List Link) (current : Expr)
    (receiver : Option Expr) :
    realm.Works false (followLinks mode links current receiver) fun world callee =>
      (∀ link ∈ links, realm.MeetsLink world link) → Meets realm.stem world (exprUses current) →
      (∀ value ∈ receiver, Meets realm.stem world (exprUses value)) →
      realm.MeetsCallee world callee := by
  -- Along the links, over what is built so far; the receiver that is pending must meet the world
  -- too, since a call may use it.
  induction links generalizing current receiver with
  | nil => exact .pure fun _ _ _ inCurrent _ => ⟨inCurrent, nofun⟩
  | cons link rest ih =>
    cases link with
    | member span name =>
      unfold followLinks
      apply (works_privateBinding? name).andThen
      intro binding
      refine .ite (fun _ => ?_) fun _ => .ite (fun _ => ?_) fun _ => ?_
      · apply (works_capture current).bind
        rintro ⟨object, again⟩
        apply (works_memberOrPrivate span object name).bind
        intro accessed
        apply (ih accessed (some again)).weaken
        intro world _ callee shown inMember captured inLinks inCurrent _
        obtain ⟨once, used⟩ := captured inCurrent
        exact shown (List.forall_mem_cons.mp inLinks).2 (inMember once) (by simpa using used)
      · apply (works_capture current).bind
        rintro ⟨object, again⟩
        apply (works_memberOrPrivate span object name).bind
        intro accessed
        apply Works.pure
        intro world _ inMember captured inLinks inCurrent _
        obtain ⟨once, used⟩ := captured inCurrent
        exact ⟨inMember once, by simpa using used⟩
      · apply (works_memberOrPrivate span current name).bind
        intro accessed
        apply (ih accessed receiver).weaken
        intro world _ callee shown inMember inLinks inCurrent inReceiver
        exact shown (List.forall_mem_cons.mp inLinks).2 (inMember inCurrent) inReceiver
    | computed span key =>
      unfold followLinks
      apply Works.ite
      · intro _
        apply (works_capture current).bind
        rintro ⟨object, again⟩
        apply Works.pure
        intro world _ captured inLinks inCurrent _
        obtain ⟨inKey, -⟩ := List.forall_mem_cons.mp inLinks
        obtain ⟨once, used⟩ := captured inCurrent
        exact ⟨by simpa using ⟨once, inKey⟩, by simpa using used⟩
      · intro _
        apply (ih _ _).weaken
        intro world _ callee shown inLinks inCurrent inReceiver
        obtain ⟨inKey, others⟩ := List.forall_mem_cons.mp inLinks
        exact shown others (by simpa using ⟨inCurrent, inKey⟩) inReceiver
    | call span isPure args =>
      unfold followLinks
      apply (ih _ _).weaken
      intro world _ callee shown inLinks inCurrent inReceiver
      obtain ⟨inArgs, others⟩ := List.forall_mem_cons.mp inLinks
      refine shown others ?_ nofun
      have inArgs : Meets realm.stem world (argsUses args) := inArgs
      cases receiver with
      | none => simp [shapeUses, inCurrent, inArgs]
      | some receiver => simp [inCurrent, inReceiver _ rfl, inArgs]

variable {stem : String}

/-- What a nullish expression does besides needs no more than the expression. -/
theorem meets_nullishEffects (meets : Meets stem world (exprUses e)) :
    ∀ part ∈ nullishEffects e, Meets stem world (exprUses part) := by
  refine forall_mem_nullishEffects meets ?_ ?_ ?_
  · intro origin shape meets
    rwa [exprUses_of, ← @exprUses_shape ⟨origin, shape⟩]
  · intro origin left right meets
    simpa [exprUses, shapeUses] using meets
  · intro origin operand meets
    simpa [exprUses, shapeUses] using meets

/-- The value of a chain that is cut short uses no name. -/
@[simp] theorem exprUses_cutShort {mode : ChainMode} : exprUses (cutShort span mode) = [] := by
  unfold cutShort
  split <;> simp

/-- What remains of a chain whose base is always nullish needs no more than the base. -/
theorem meets_collapse {mode : ChainMode} {base : Expr} (meets : Meets stem world (exprUses base)) :
    Meets stem world (exprUses (collapse span mode base)) := by
  have effects := meets_nullishEffects meets
  rw [exprUses_shape, collapse]
  dsimp only
  rw [← exprUses_shape]
  -- Nothing is evaluated before the short outcome, or the effects of the base come first.
  split
  · simp
  · rename_i first rest found
    rw [found] at effects
    obtain ⟨inFirst, inRest⟩ := List.forall_mem_cons.mp effects
    simpa using ⟨inFirst, inRest⟩

end Links

section Chains

/-- A lowered chain needs what its parts do, and so does the receiver that a call of it has to
pass. -/
theorem works_lowerChain (span : Span) (mode : ChainMode) {chain : ChainForms}
    (inBase : ∀ base ∈ chain.base, realm.WorksBase base)
    (inLinks : ∀ link ∈ chain.links, realm.WorksLink link)
    (whole : realm.isClean → chain.base.isSome = true) :
    realm.Works false (lowerChain span mode chain) realm.MeetsCallee := by
  unfold lowerChain
  cases isBase : chain.base with
  | none =>
    refine .fault fun isClean => ?_
    have found := whole isClean
    rw [isBase] at found
    cases found
  | some base =>
    obtain ⟨inValue, inCallee⟩ := inBase base (by simp [isBase])
    have lowered := Works.mapM fun link mem => works_link (inLinks link mem)
    apply works_bindsUndefined.andThen
    intro bound
    apply Works.ite
    · intro _
      apply inValue.bind
      intro value
      apply lowered.andThen
      exact fun _ => .pure fun _ _ meets => ⟨meets_collapse meets, nofun⟩
    · intro _
      extract_lets isCalled goOn
      -- The rest of the way is the same for a base and for a callee.
      have rest (callee : Expr × Option Expr) : realm.Works false (goOn callee) fun world last =>
          realm.MeetsCallee world callee → realm.MeetsCallee world last := by
        obtain ⟨head, receiver⟩ := callee
        apply lowered.bind
        intro links
        apply (works_capture head).bind
        rintro ⟨first, again⟩
        apply (works_followLinks mode links _ receiver).bind
        rintro ⟨result, last⟩
        apply Works.pure
        intro world _ followed captured inLinks inHead
        obtain ⟨once, used⟩ := captured inHead.function
        have inAgain (isEval : Bool) : Meets realm.stem world
            (exprUses (if isEval then (Expr.num span "0").andThen again else again)) := by
          split <;> simp [used]
        have meetsLinks : ∀ link ∈ links, realm.MeetsLink world link := fun link mem =>
          let ⟨_, _, meets⟩ := inLinks.1 link mem
          meets
        obtain ⟨inResult, inReceiver⟩ := followed meetsLinks (inAgain _) inHead.receiver
        refine ⟨?_, inReceiver⟩
        have inResult : Meets realm.stem world (exprUses result) := inResult
        dsimp only
        split <;> simp [once, inResult]
      apply Works.ite
      · exact fun _ => inCallee.bind rest
      · intro _
        have unreceived : realm.Works false ((·, none) <$> base.value) realm.MeetsCallee :=
          .map (inValue.weaken fun _ _ _ meets => ⟨meets, nofun⟩)
        exact unreceived.bind rest

/-- Asking whether a chain can stay works. -/
theorem works_needsLowering (chain : ChainForms) :
    realm.Works mayBeParams (needsLowering chain) fun _ _ => True := by
  have isPrivate : realm.Works mayBeParams (chain.links.anyM LinkForms.isLoweredPrivate)
      fun _ _ => True :=
    .anyM fun link _ => by
      cases link with
      | member span name =>
        apply (works_privateBinding? name).andThen
        exact fun _ => .pure fun _ _ => trivial
      | computed span key => exact .pure fun _ _ => trivial
      | call span isPure args => exact .pure fun _ _ => trivial
  -- The answer does not matter here: asking for it gives no name to any expression.
  apply isPrivate.andThen
  intro isLowered
  refine .ite (fun _ => .pure fun _ _ => trivial) fun _ => ?_
  apply (works_lacks .optionalChain).andThen
  intro isLacking
  refine .ite (fun _ => .pure fun _ _ => trivial) fun _ => ?_
  apply works_bindsUndefined.andThen
  exact fun _ => .pure fun _ _ => trivial

/-- A chain needs what its parts do, whether it is lowered or not. -/
theorem works_optionalChain {forms : ExprForms} (inForms : realm.WorksChain forms)
    (isChained : forms.source.isChained = true) (mode : ChainMode) :
    realm.Works false (optionalChain forms mode) realm.MeetsCallee := by
  apply (works_needsLowering forms.chain).andThen
  intro isLowered
  apply Works.ite
  · exact fun _ => works_lowerChain _ mode inForms.base inForms.links
      fun isClean => inForms.whole isClean isChained
  · intro _
    exact inForms.natively.bind fun _ => .pure fun _ _ meets => ⟨meets, nofun⟩

/-- A callee and its receiver need what their parts do. -/
theorem works_calledExpr {forms : ExprForms} (inForms : realm.WorksForms forms) :
    realm.Works false (calledExpr forms) realm.MeetsCallee := by
  apply Works.ite
  · exact fun isChained => works_optionalChain inForms.toWorksChain isChained .callee
  · intro _
    refine .privateMember inForms.place ?_ fun binding object inObject => ?_
    · exact inForms.value.bind fun _ => .pure fun _ _ meets => ⟨meets, nofun⟩
    · apply (works_privateCallee _ binding inObject).bind
      rintro ⟨function, receiver⟩
      exact .pure fun _ _ => id

/-- `super` needs nothing around it. -/
theorem exprUses_super (isSuper : isSuper object = true) : exprUses object = [] := by
  obtain ⟨origin, shape⟩ := object
  cases shape <;> simp [Lowering.isSuper] at isSuper
  rw [exprUses, shapeUses]

/-- A callee split from its receiver needs what its parts do. -/
theorem works_splitCallee {forms : ExprForms} (inForms : realm.WorksForms forms) :
    realm.Works false (splitCallee forms) realm.MeetsCallee := by
  apply (works_privateMember? forms).andThen
  intro found
  apply Works.ite
  · exact fun _ => works_calledExpr inForms
  intro _
  have inPlace := inForms.place
  dsimp only
  -- A member and a computed access keep their object for the receiver; on `super` the receiver is
  -- `this` itself.
  split
  · rename_i object value name place
    rw [place] at inPlace
    apply Works.ite
    · intro isSuper
      apply (works_thisValue _).bind
      intro receiver
      apply Works.pure
      intro world _ meets
      exact ⟨by simp [exprUses_super isSuper], by simpa using meets⟩
    · intro _
      apply inPlace.bind
      intro e
      apply (works_capture e).bind
      rintro ⟨first, again⟩
      apply Works.pure
      intro world _ captured meets
      obtain ⟨once, used⟩ := captured meets
      exact ⟨by simpa using once, by simpa using used⟩
  · rename_i object value key place
    rw [place] at inPlace
    apply Works.ite
    · intro isSuper
      apply inPlace.2.bind
      intro key
      apply (works_thisValue _).bind
      intro receiver
      apply Works.pure
      intro world _ meets inKey
      exact ⟨by simpa [exprUses_super isSuper] using inKey, by simpa using meets⟩
    · intro _
      apply inPlace.1.bind
      intro e
      apply (works_capture e).bind
      rintro ⟨first, again⟩
      apply inPlace.2.bind
      intro key
      apply Works.pure
      intro world _ inKey captured meets
      obtain ⟨once, used⟩ := captured meets
      exact ⟨by simpa using ⟨once, inKey⟩, by simpa using used⟩
  · exact inForms.value.bind fun _ => .pure fun _ _ meets => ⟨meets, nofun⟩
  · exact inForms.value.bind fun _ => .pure fun _ _ meets => ⟨meets, nofun⟩

end Chains

end Realm

end Downlevel
