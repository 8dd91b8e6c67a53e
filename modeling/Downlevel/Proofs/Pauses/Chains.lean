import Downlevel.Lowering.ObjectRest
import Downlevel.Proofs.Pauses.Carries

/-! Chains keep their pauses when they become conditionals, but for those in links that never run. A
pattern that is split for the rest of an object has the pauses that it had, some of them maybe in
another part. -/

namespace Downlevel

open Lowering

namespace Ending

variable {ending : Ending} {site : Site} {span : Span} {extent : Extent} {e object value : Expr}

/-- What can be evaluated again does not pause. -/
theorem pauses_reusable (reusable : isReusable e = true) : exprPauses extent e = [] := by
  obtain ⟨origin, shape⟩ := e
  cases shape <;> first | rfl | cases reusable

/-- What is captured pauses where it is evaluated, and not when it is used again. -/
theorem carries_capture (e : Expr) :
    ending.Leaves site (capture e) fun (first, again) =>
      exprPauses .all first = exprPauses .all e ∧ exprPauses .all again = [] := by
  refine .ite (fun reusable => .pure ⟨rfl, pauses_reusable reusable⟩) fun _ => ?_
  exact leaves_alloc.bind fun name => .pure fun _ => by simp

/-- The value of `this` does not pause, whatever it is read from. -/
theorem carries_thisValue (span : Span) :
    ending.Leaves site (thisValue span) fun e => exprPauses .all e = [] := by
  refine leaves_resolveThis.bind fun found => ?_
  cases found with
  | none => exact .pure fun _ => rfl
  | some name => exact .pure fun _ => rfl

section Private

variable {binding : PrivateBinding}

/-- Reading a private field pauses where its object does. -/
@[simp] theorem pauses_read :
    exprPauses extent (binding.read span object) = exprPauses extent object := by
  unfold PrivateBinding.read
  split <;> simp

/-- Writing a private field pauses where its object and its value do. -/
@[simp] theorem pauses_write :
    exprPauses extent (binding.write span object value)
      = exprPauses extent object ++ exprPauses extent value := by
  unfold PrivateBinding.write
  split <;> simp

/-- Asking for a private field pauses where its object does. -/
@[simp] theorem pauses_check :
    exprPauses extent (binding.check span object) = exprPauses extent object := by
  simp [PrivateBinding.check]

/-- A place that stands for a private field pauses where its object does. -/
@[simp] theorem pauses_wrapper :
    exprPauses extent (binding.wrapper span object) = exprPauses extent object := by
  have noArg (function : Option String) :
      exprPauses extent (PrivateBinding.accessorArg span function) = [] := by
    cases function <;> rfl
  unfold PrivateBinding.wrapper
  split <;> simp [noArg]

end Private

/-- A member access pauses where its object does, private or not. -/
theorem carries_memberOrPrivate (span : Span) (object : Expr) (name : String) :
    ending.Leaves site (memberOrPrivate span object name) fun e =>
      exprPauses .all e = exprPauses .all object := by
  refine (leaves_privateBinding? name).bind fun binding => ?_
  cases binding with
  | none => exact .pure fun _ => pauses_member _
  | some binding => exact .pure fun _ => pauses_read

/-- The same for an assignment to a member. -/
theorem carries_assignMemberOrPrivate (span : Span) (object : Expr) (name : String)
    (value : Expr) :
    ending.Leaves site (assignMemberOrPrivate span object name value) fun e =>
      exprPauses .all e = exprPauses .all object ++ exprPauses .all value := by
  refine (leaves_privateBinding? name).bind fun binding => ?_
  cases binding with
  | none => exact .pure fun _ => by simp
  | some binding => exact .pure fun _ => pauses_write

/-- Going on once it is known whether an expression is a private member that cannot stay. -/
theorem Leaves.ofPrivate {β : Type} {forms : ExprForms}
    {rest : Option (PrivateBinding × Lower Expr) → Lower β} {final : β → Prop}
    (other : ending.Leaves site (rest none) final)
    (found : ∀ binding source value name, forms.place = .member source value name →
      ending.Leaves site (rest (some (binding, value))) final) :
    ending.Leaves site (privateMember? forms >>= rest) final := by
  unfold privateMember?
  -- Only a member access may be private, and only when its name is bound.
  cases place : forms.place with
  | member source value name =>
    simp only [bind_assoc, pure_bind]
    refine (leaves_privateBinding? name).andThen fun binding => ?_
    cases binding with
    | none => exact other
    | some binding => exact found binding source value name place
  | identifier name => simpa using other
  | computed source value key => simpa using other
  | other => simpa using other

end Ending

namespace Ending

variable (ending : Ending) (site : Site) (source : Extent → List Pause)

/-- A step whose result carries the pauses of the source. -/
abbrev CarriesExpr (step : Lower Expr) : Prop :=
  ending.Leaves site step fun e => ending.Carries site source (exprPauses .all e)

/-- A callee carries the pauses of the source, and passing the receiver adds none. -/
structure CarriesCallee (callee : Expr × Option Expr) : Prop where
  function : ending.Carries site source (exprPauses .all callee.1)
  receiver : ∀ receiver ∈ callee.2, exprPauses .all receiver = []

/-- The parts of a place carry the pauses of the expression that it is; some of the key may be left
out of those that are sure. -/
def CarriesPlace (whole : Expr) : PlaceForms → Prop
  | .identifier _ => ∀ extent, exprPauses extent whole = []
  | .member object value _ =>
    (∀ extent, exprPauses extent whole = exprPauses extent object)
      ∧ ending.CarriesExpr site (exprPauses · object) value
  | .computed object value key => ∃ keySource,
    (exprPauses ending.extent whole ⊆ exprPauses ending.extent object ++ keySource ending.extent)
      ∧ exprPauses .all object ++ keySource .all ⊆ exprPauses .all whole
      ∧ ending.CarriesExpr site (exprPauses · object) value
      ∧ ending.CarriesExpr site keySource key
  | .other => True

/-- What the expression does besides, if its value is nullish, has all its pauses. -/
def Covers (e : Expr) : Prop :=
  ∀ pause ∈ exprPauses .all e, pause ∈ (nullishEffects e).flatMap (exprPauses .all)

/-- The base of a chain carries its pauses. -/
structure CarriesBase (base : BaseForms) : Prop where
  value : ending.CarriesExpr site (exprPauses · base.source) base.value
  callee : ending.Leaves site base.callee (ending.CarriesCallee site (exprPauses · base.source))
  covers : ∀ bound, isNullish bound base.source = true → Ensures base.value Covers

/-- A link of a chain carries the pauses of the source. -/
def CarriesLink : LinkForms → Prop
  | .member .. => ∀ extent, source extent = []
  | .computed _ key => ending.CarriesExpr site source key
  | .call _ _ args =>
    ending.Leaves site args fun args => ending.Carries site source (argsPauses .all args)

/-- The base and the links of a chain carry the pauses of the source, which may be without those of
the links. -/
structure CarriesChain (base : BaseForms) (links : List LinkForms) : Prop where
  inBase : ending.CarriesBase site base
  inLinks : ∃ sources, List.Forall₂ (ending.CarriesLink site) sources links
    ∧ ∀ extent, source extent = exprPauses extent base.source
      ++ if extent.skips base.source then [] else sources.flatMap (· extent)

/-- The chain of an expression carries its pauses, whether it is lowered or stays. -/
structure CarriesLinks (forms : ExprForms) : Prop where
  natively : ending.CarriesExpr site (exprPauses · forms.source) forms.natively
  chain : forms.source.isChained = true → ∀ base ∈ forms.chain.base,
    base.source = forms.source.chainBase
      ∧ ending.CarriesChain site (exprPauses · forms.source) base forms.chain.links

/-- All forms of an expression carry its pauses. -/
structure CarriesForms (forms : ExprForms) : Prop extends CarriesLinks ending site forms where
  value : ending.CarriesExpr site (exprPauses · forms.source) forms.value
  target : ending.CarriesExpr site (exprPauses · forms.source) forms.target
  place : ending.CarriesPlace site forms.source forms.place

end Ending

/-- The pauses of a link whose parts are lowered. -/
def Lowering.Link.pauses : Link → List Pause
  | .member .. => []
  | .computed _ key => exprPauses .all key
  | .call _ _ args => argsPauses .all args

namespace Ending

variable {ending : Ending} {site : Site} {span : Span} {extent : Extent} {e object value : Expr}
  {source : Extent → List Pause}

/-- A link keeps the pauses of its key or of its arguments. -/
theorem carries_link {link : LinkForms} (inLink : ending.CarriesLink site source link) :
    ending.Leaves site link.lower fun lowered => ending.Carries site source lowered.pauses := by
  cases link with
  | member span name => exact .pure (carries_nil (inLink _))
  | computed span key => exact inLink.bind fun _ => .pure id
  | call span isPure args => exact inLink.bind fun _ => .pure id

/-- Links that are followed one after the other add their pauses. -/
theorem carries_followLinks (mode : ChainMode) (links : List Link) (current : Expr)
    (receiver : Option Expr) :
    ending.Leaves site (followLinks mode links current receiver) fun callee =>
      (∀ value ∈ receiver, exprPauses .all value = []) →
        exprPauses .all callee.1 = exprPauses .all current ++ links.flatMap Link.pauses
          ∧ ∀ value ∈ callee.2, exprPauses .all value = [] := by
  -- Along the links, over what is built so far; a receiver that is captured is evaluated in front.
  induction links generalizing current receiver with
  | nil => exact .pure fun _ => ⟨by simp, by simp⟩
  | cons link rest ih =>
    cases link with
    | member span name =>
      unfold followLinks
      refine (leaves_privateBinding? name).andThen fun binding => ?_
      refine .ite (fun _ => ?_) fun _ => .ite (fun _ => ?_) fun _ => ?_
      · refine (carries_capture current).bind ?_
        rintro ⟨object, again⟩
        refine (carries_memberOrPrivate span object name).bind fun accessed => ?_
        refine (ih accessed (some again)).weaken fun callee shown inMember captured _ => ?_
        obtain ⟨once, used⟩ := captured
        obtain ⟨function, receivers⟩ := shown (by simpa using used)
        exact ⟨by simp [function, inMember, once, Link.pauses], receivers⟩
      · refine (carries_capture current).bind ?_
        rintro ⟨object, again⟩
        refine (carries_memberOrPrivate span object name).bind fun accessed => .pure ?_
        intro inMember captured _
        obtain ⟨once, used⟩ := captured
        have isLast : rest = [] := by simp_all
        exact ⟨by simp [inMember, once, isLast, Link.pauses], by simpa using used⟩
      · refine (carries_memberOrPrivate span current name).bind fun accessed => ?_
        refine (ih accessed receiver).weaken fun callee shown inMember inReceiver => ?_
        obtain ⟨function, receivers⟩ := shown inReceiver
        exact ⟨by simp [function, inMember, Link.pauses], receivers⟩
    | computed span key =>
      unfold followLinks
      refine .ite (fun _ => ?_) fun _ => ?_
      · refine (carries_capture current).bind ?_
        rintro ⟨object, again⟩
        refine .pure fun captured _ => ?_
        obtain ⟨once, used⟩ := captured
        have isLast : rest = [] := by simp_all
        exact ⟨by simp [once, isLast, Link.pauses], by simpa using used⟩
      · refine (ih _ _).weaken fun callee shown inReceiver => ?_
        obtain ⟨function, receivers⟩ := shown inReceiver
        exact ⟨by simp [function, Link.pauses], receivers⟩
    | call span isPure args =>
      unfold followLinks
      refine (ih _ _).weaken fun callee shown inReceiver => ?_
      obtain ⟨function, receivers⟩ := shown (by simp)
      refine ⟨?_, receivers⟩
      cases receiver with
      | none => simp [function, Link.pauses]
      | some receiver => simp [function, Link.pauses, inReceiver receiver rfl]

/-- The expressions of a sequence have its pauses. -/
theorem pauses_commaParts (e : Expr) :
    (commaParts e).flatMap (exprPauses .all) = exprPauses .all e := by
  fun_induction commaParts e with
  | case1 origin left right ihLeft ihRight => simp [ihLeft, ihRight]
  | case2 origin shape other => simp [Expr.of]

/-- The value of a chain that is cut short does not pause. -/
theorem pauses_cutShort {mode : ChainMode} : exprPauses extent (cutShort span mode) = [] := by
  unfold cutShort
  split <;> rfl

/-- What is left of a collapsed chain has the pauses of what its base does besides. -/
theorem pauses_collapse (mode : ChainMode) (base : Expr) :
    exprPauses .all (collapse span mode base)
      = (nullishEffects base).flatMap (exprPauses .all) := by
  -- The mark for a collapsed chain is part of the origin, which holds no pause.
  have remains {e : Expr} : exprPauses .all
      (⟨{ span := e.origin.span, collapsed := true }, e.shape⟩ : Expr) = exprPauses .all e := by
    cases e
    rfl
  unfold collapse
  extract_lets result
  rw [remains]
  unfold result
  cases nullishEffects base with
  | nil => exact pauses_cutShort
  | cons first rest => simp [pauses_cutShort]

/-- What an expression does besides its value has no pauses but its own. -/
theorem pauses_nullishEffects (e : Expr) :
    (nullishEffects e).flatMap (exprPauses .all) ⊆ exprPauses .all e := by
  fun_induction nullishEffects e with
  | case1 origin left right ih =>
    intro pause mem
    rw [List.flatMap_append, pauses_commaParts] at mem
    rcases List.mem_append.mp mem with inLeft | inRight
    · exact List.mem_append_left _ inLeft
    · exact List.mem_append_right _ (ih inRight)
  | case2 => exact List.nil_subset _
  | case3 origin operand used => simp
  | case4 => exact List.nil_subset _

/-- Whether `undefined` is bound is known of the source. -/
theorem Leaves.knowingUndefined {β : Type} {rest : Bool → Lower β} {final : β → Prop}
    (second : ending.Leaves site (rest (ending.scopes.declares "undefined")) final) :
    ending.Leaves site (bindsUndefined >>= rest) final := by
  intro setting before last after fits run
  have reads : (bindsUndefined >>= rest) setting before
      = rest (setting.scopes.declares "undefined") setting before := rfl
  rw [reads, fits.scopes] at run
  exact second setting before last after fits run

/-- What is known of every result of a step is known of what it leaves. -/
theorem Leaves.ensuring {α : Type} {step : Lower α} {described also : α → Prop}
    (holds : ending.Leaves site step described) (ensures : Ensures step also) :
    ending.Leaves site step fun result => described result ∧ also result := by
  intro setting before result after fits run
  obtain ⟨goes, shown⟩ := holds setting before result after fits run
  exact ⟨goes, fun hears => ⟨shown hears, ensures setting before result after run⟩⟩

/-- A lowered chain carries its pauses, and passing its receiver adds none. -/
theorem carries_lowerChain (span : Span) (mode : ChainMode) {chain : ChainForms}
    (inChain : ∀ base ∈ chain.base, ending.CarriesChain site source base chain.links) :
    ending.Leaves site (lowerChain span mode chain) (ending.CarriesCallee site source) := by
  unfold lowerChain
  cases isBase : chain.base with
  | none => exact .fault
  | some base =>
    obtain ⟨⟨inValue, inCallee, covers⟩, sources, inLinks, whole⟩ := inChain base isBase
    have lowered : ending.Leaves site (chain.links.mapM LinkForms.lower) fun links =>
        ending.Carries site (fun extent => sources.flatMap (· extent))
          (links.flatMap Link.pauses) :=
      carries_mapM (inLinks.imp fun _ _ inLink => carries_link inLink)
    refine .knowingUndefined (.ite (fun nullish => ?_) fun notNullish => ?_)
    · -- The links are gone, and the base is reduced to what it does besides.
      have skips : ending.extent.skips base.source = true := nullish
      refine (inValue.ensuring (covers _ nullish)).bind fun value => ?_
      refine lowered.bind fun _ => .pure fun _ ⟨carries, covered⟩ => ⟨?_, nofun⟩
      rw [pauses_collapse]
      refine (carries.congr fun pause =>
        ⟨fun mem => pauses_nullishEffects value mem, covered pause⟩).weaken ?_ ?_
      · simp [whole, skips]
      · simp [whole]
    · have skips : ending.extent.skips base.source = false := (Bool.not_eq_true _).mp notNullish
      extract_lets isCalled goOn
      -- The rest of the way is the same for a base and for a callee.
      have rest (callee : Expr × Option Expr) : ending.Leaves site (goOn callee) fun last =>
          ending.CarriesCallee site (exprPauses · base.source) callee →
            ending.CarriesCallee site source last := by
        obtain ⟨head, receiver⟩ := callee
        refine lowered.bind fun links => (carries_capture head).bind fun (first, again) => ?_
        refine (carries_followLinks mode links _ receiver).bind fun (result, last) => .pure ?_
        intro followed captured inLinks inHead
        obtain ⟨once, used⟩ := captured
        obtain ⟨function, receivers⟩ := followed inHead.receiver
        refine ⟨?_, receivers⟩
        have again (isEval : Bool) : exprPauses .all
            (if isEval then (Expr.num span "0").andThen again else again) = [] := by
          split <;> simp [used]
        have together : ending.Carries site source
            (exprPauses .all head ++ links.flatMap Link.pauses) :=
          (inHead.function.append inLinks).weaken (by simp [whole, skips]) (by simp [whole, Extent.skips])
        refine together.congr fun pause => ?_
        rw [again] at function
        split <;> simp_all [pauses_cutShort]
      refine .ite (fun _ => inCallee.bind rest) fun _ => ?_
      exact (Leaves.map (inValue.weaken fun _ carries => ⟨carries, nofun⟩)).bind rest

/-- Asking whether a chain can stay only looks at the state. -/
theorem carries_needsLowering (chain : ChainForms) :
    ending.Leaves site (needsLowering chain) fun _ => True :=
  (leaves_needsLowering chain).weaken fun _ _ => trivial

/-- A chain carries its pauses, whether it is lowered or not. -/
theorem carries_optionalChain {forms : ExprForms} (inForms : ending.CarriesLinks site forms)
    (isChained : forms.source.isChained = true) (mode : ChainMode) :
    ending.Leaves site (optionalChain forms mode)
      (ending.CarriesCallee site (exprPauses · forms.source)) := by
  refine (carries_needsLowering forms.chain).andThen fun isLowered => ?_
  refine .ite (fun _ => ?_) fun _ => ?_
  · exact carries_lowerChain _ mode fun base isBase => (inForms.chain isChained base isBase).2
  · exact inForms.natively.bind fun e => .pure fun carries => ⟨carries, nofun⟩

/-- A private method that is called keeps the pauses of its object. -/
theorem carries_privateCallee (span : Span) (binding : PrivateBinding) {object : Lower Expr}
    (inObject : ending.CarriesExpr site source object) :
    ending.Leaves site (privateCallee span binding object) fun (function, receiver) =>
      ending.CarriesCallee site source (function, some receiver) := by
  refine inObject.bind fun object => (carries_capture object).bind fun (first, again) => .pure ?_
  intro captured carries
  obtain ⟨once, used⟩ := captured
  exact ⟨by simpa [once] using carries, by simpa using used⟩

/-- A callee carries its pauses, and passing its receiver adds none. -/
theorem carries_calledExpr {forms : ExprForms} (inForms : ending.CarriesForms site forms) :
    ending.Leaves site (calledExpr forms)
      (ending.CarriesCallee site (exprPauses · forms.source)) := by
  refine .ite (fun isChained => carries_optionalChain inForms.toCarriesLinks isChained .callee) fun _ => ?_
  refine .ofPrivate ?_ fun binding object value name place => ?_
  · exact inForms.value.bind fun e => .pure fun carries => ⟨carries, nofun⟩
  · have inPlace := inForms.place
    rw [place] at inPlace
    refine (carries_privateCallee _ binding inPlace.2).bind fun (function, receiver) => .pure ?_
    exact fun parts => ⟨parts.function.weaken (by simp [inPlace.1]) (by simp [inPlace.1]),
      parts.receiver⟩

/-- A callee split from its receiver carries its pauses, and passing the receiver adds none. -/
theorem carries_splitCallee {forms : ExprForms} (inForms : ending.CarriesForms site forms) :
    ending.Leaves site (splitCallee forms)
      (ending.CarriesCallee site (exprPauses · forms.source)) := by
  refine (leaves_privateMember? forms).andThen fun found => ?_
  refine .ite (fun _ => carries_calledExpr inForms) fun isPlain => ?_
  have inPlace := inForms.place
  have isSuper_pauses {object : Expr} (isSuper : isSuper object = true) (extent : Extent) :
      exprPauses extent object = [] := by
    obtain ⟨origin, shape⟩ := object
    cases shape <;> first | rfl | cases isSuper
  dsimp only
  -- A member and a computed access keep their object for the receiver; on `super` the receiver is
  -- `this` itself.
  split
  · rename_i object value name place
    rw [place] at inPlace
    refine .ite (fun isSuper => ?_) fun _ => ?_
    · refine (carries_thisValue _).bind fun receiver => .pure fun noPause => ⟨?_, ?_⟩
      · simpa [isSuper_pauses isSuper] using
          carries_nil (by simp [inPlace.1, isSuper_pauses isSuper])
      · simpa using noPause
    · refine inPlace.2.bind fun e => (carries_capture e).bind fun (first, again) => .pure ?_
      intro captured carries
      obtain ⟨once, used⟩ := captured
      refine ⟨?_, by simpa using used⟩
      exact (carries.congr (by simp [once])).weaken (by simp [inPlace.1]) (by simp [inPlace.1])
  · rename_i object value key place
    rw [place] at inPlace
    obtain ⟨keySource, fewer, more, inObject, inKey⟩ := inPlace
    refine .ite (fun isSuper => ?_) fun _ => ?_
    · refine inKey.bind fun key => (carries_thisValue _).bind fun receiver => .pure ?_
      intro noPause carries
      refine ⟨?_, by simpa using noPause⟩
      simp only [isSuper_pauses isSuper, List.nil_append] at fewer more
      exact (carries.congr (by simp [isSuper_pauses isSuper])).weaken fewer more
    · refine inObject.bind fun e => (carries_capture e).bind fun (first, again) => ?_
      refine inKey.bind fun key => .pure fun carriesKey captured carries => ?_
      obtain ⟨once, used⟩ := captured
      refine ⟨?_, by simpa using used⟩
      exact ((carries.append carriesKey).congr (by simp [once])).weaken fewer more
  · exact inForms.value.bind fun e => .pure fun carries => ⟨carries, nofun⟩
  · exact inForms.value.bind fun e => .pure fun carries => ⟨carries, nofun⟩

end Ending

/-- The pauses of two trees are the same, in whatever order. -/
def SamePauses (pauses others : List Pause) : Prop :=
  ∀ pause, pause ∈ pauses ↔ pause ∈ others

/-- The same pauses are the same inside of something. -/
theorem SamePauses.map {pauses others : List Pause} (same : SamePauses pauses others) (home : Home) :
    SamePauses (pauses.map (.into home)) (others.map (.into home)) := by
  intro pause
  rw [List.mem_map, List.mem_map]
  exact exists_congr fun own => and_congr_left fun _ => same own

/-- The pauses of patterns that take one value each. -/
def partsPauses (parts : List (Pattern × Expr)) : List Pause :=
  parts.flatMap fun (target, value) => patternPauses .all target ++ exprPauses .all value

/-- No parts have no pauses. -/
@[simp] theorem partsPauses_nil : partsPauses [] = [] :=
  rfl

/-- A target and its value are evaluated in front of the parts behind them. -/
@[simp] theorem partsPauses_cons {target : Pattern} {value : Expr}
    {parts : List (Pattern × Expr)} :
    partsPauses ((target, value) :: parts)
      = patternPauses .all target ++ exprPauses .all value ++ partsPauses parts :=
  rfl

namespace Ending

variable {ending : Ending} {site : Site} {span : Span}

/-- The pauses of a tree that is left as it is. -/
theorem samePauses_refl (pauses : List Pause) : SamePauses pauses pauses :=
  fun _ => .rfl

/-- A key that is left out does not pause again. -/
theorem carries_restKeys (properties : List PatternProperty) :
    ending.Leaves site (restKeys properties) fun (picked, keys) =>
      propertiesPauses .all picked = propertiesPauses .all properties
        ∧ keys.flatMap (exprPauses .all) = [] := by
  -- Along the properties: a key that may be evaluated twice has no pauses, and any other one is
  -- captured.
  induction properties with
  | nil => exact .pure ⟨rfl, rfl⟩
  | cons property more ih =>
    -- Whatever becomes of the first property, the others follow in the same way.
    have others (first : PatternProperty) (key : Expr) : ending.Leaves site
        (do
          let (properties, keys) ← restKeys more
          return (first :: properties, key :: keys)) fun (picked, keys) =>
        propertiesPauses .all picked = propertyPauses .all first ++ propertiesPauses .all more
          ∧ keys.flatMap (exprPauses .all) = exprPauses .all key := by
      refine ih.bind ?_
      rintro ⟨picked, keys⟩
      refine .pure ?_
      rintro ⟨same, noKeys⟩
      exact ⟨by simp [same], by simp [noKeys]⟩
    obtain ⟨span, key, target, isShorthand, default⟩ := property
    rw [restKeys]
    cases key with
    | direct name => exact (others _ _).weaken fun _ shown => shown
    | computed value =>
      dsimp only
      split
      · rename_i text isStr
        have noPause : exprPauses .all value = [] := pauses_reusable (by simp [isReusable, isStr])
        exact (others _ _).weaken fun _ shown => ⟨shown.1, shown.2.trans noPause⟩
      · rename_i text isNum
        have noPause : exprPauses .all value = [] := pauses_reusable (by simp [isReusable, isNum])
        exact (others _ _).weaken fun _ shown => ⟨shown.1, shown.2.trans noPause⟩
      · refine (carries_capture value).bind ?_
        rintro ⟨first, again⟩
        refine (others ⟨span, .computed first, target, isShorthand, default⟩
          (.helper span "__restKey" [again])).weaken ?_
        rintro ⟨picked, keys⟩ ⟨same, sameKeys⟩ ⟨once, used⟩
        exact ⟨by simp [same, once], by simp [sameKeys, used]⟩

/-- The parts that a pattern with a rest is split into have its pauses and those of the source. -/
theorem carries_splitRest (span : Span) (properties : List PatternProperty) (rest : Pattern)
    (source : Expr) :
    ending.Leaves site (splitRest span properties rest source) fun parts =>
      SamePauses (partsPauses parts)
        (propertiesPauses .all properties ++ patternPauses .all rest ++ exprPauses .all source) := by
  refine (carries_restKeys properties).bind fun (picked, keys) => ?_
  -- A pattern with nothing picked needs no pattern in front of the rest.
  refine .ite (fun isEmpty => .pure ?_) fun _ => .pure ?_
  · intro ⟨same, noKeys⟩ pause
    have noProperties : propertiesPauses .all properties = [] := by
      rw [← same, List.isEmpty_iff.mp isEmpty, propertiesPauses]
    simp [noProperties, noKeys]
  · intro ⟨same, noKeys⟩ pause
    simp only [partsPauses_cons, partsPauses_nil, patternPauses, patternOptionPauses, same, noKeys,
      pauses_helper, pauses_array, List.flatMap_cons, List.flatMap_nil, List.append_nil,
      List.mem_append]
    grind

/-- What is assigned in the place of a pattern with a rest has the pauses of the assignment. -/
theorem carries_splitAssignedRest? (span : Span) (properties : List PatternProperty)
    (rest : Option Pattern) (value : Expr) :
    ending.Leaves site (splitAssignedRest? span properties rest value) fun split =>
      ∀ e ∈ split, SamePauses (exprPauses .all e)
        (propertiesPauses .all properties ++ patternOptionPauses .all rest
          ++ exprPauses .all value) := by
  -- Only a rest of the pattern itself is split; a deeper one is reported and left.
  cases rest with
  | none =>
    refine .ite (fun _ => ?_) fun _ => .pure nofun
    exact (leaves_unsupported span _).andThen fun _ => .pure nofun
  | some rest =>
    refine .ite (fun _ => (leaves_unsupported span _).andThen fun _ => .pure nofun) fun _ => ?_
    refine leaves_alloc.andThen fun name => ?_
    refine (carries_splitRest span properties rest _).bind fun parts => .pure fun shown => ?_
    rintro e ⟨⟩ pause
    have assigned : (parts.map fun (target, value) =>
        Expr.assign span target.toExpr value).flatMap (exprPauses .all) = partsPauses parts := by
      simp [List.flatMap_map, partsPauses]
    have own := shown pause
    simp only [pauses_id, List.append_nil] at own
    simp only [pauses_sequence, List.flatMap_append, assigned, List.mem_append, own, pauses_assign,
      pauses_id, List.flatMap_cons, List.flatMap_nil, List.nil_append, List.append_nil,
      patternOptionPauses]
    grind

/-- Parts that take one value each, as declarators. -/
theorem pauses_partDeclarators (parts : List (Pattern × Expr)) :
    (parts.map fun (target, value) => (⟨target, some value⟩ : Declarator)).flatMap
      (declaratorPauses .all) = partsPauses parts := by
  simp [List.flatMap_map, partsPauses]

/-- The declarators that a declarator is split into have its pauses. -/
theorem carries_splitDeclarator (declarator : Declarator) :
    ending.Leaves site (splitDeclarator declarator) fun split =>
      SamePauses (split.flatMap (declaratorPauses .all)) (declaratorPauses .all declarator) := by
  -- Whatever is reported stays as it was written.
  have stays : SamePauses ([declarator].flatMap (declaratorPauses .all))
      (declaratorPauses .all declarator) := by
    simpa using samePauses_refl _
  unfold splitDeclarator
  split
  · rename_i span properties rest init
    dsimp only
    refine .ite (fun _ => (leaves_unsupported _ _).andThen fun _ => .pure stays) fun _ => ?_
    refine .ite (fun _ => ?_) fun _ => ?_
    · refine (carries_splitRest _ _ _ _).bind fun parts => .pure fun shown => ?_
      simpa [pauses_partDeclarators] using shown
    · refine leaves_allocBound.andThen fun name => ?_
      refine (carries_splitRest _ _ _ _).bind fun parts => .pure fun shown pause => ?_
      have own := shown pause
      simp only [pauses_id, List.append_nil] at own
      simp only [List.flatMap_cons, pauses_partDeclarators, pauses_declaratorOfName, optionPauses,
        List.mem_append, own, declaratorPauses, patternPauses, patternOptionPauses]
      grind
  · refine .ite (fun _ => ?_) fun _ => .pure stays
    exact (leaves_unsupported _ _).andThen fun _ => .pure stays

/-- All declarators have the pauses that they had before they were split. -/
theorem carries_splitDeclarators (declarators : List Declarator) :
    ending.Leaves site (splitDeclarators declarators) fun split =>
      SamePauses (declaratorsPauses .all split) (declaratorsPauses .all declarators) := by
  refine (Leaves.mapM fun declarator _ => carries_splitDeclarator declarator).bind fun parts =>
    .pure fun ⟨each, covers⟩ pause => ?_
  -- Both directions go through the part that a declarator was split into.
  simp only [declaratorsPauses_eq, List.mem_flatMap, List.mem_flatten]
  constructor
  · rintro ⟨part, ⟨own, inParts, inOwn⟩, isPause⟩
    obtain ⟨declarator, isDeclared, same⟩ := each own inParts
    exact ⟨declarator, isDeclared, (same pause).mp (List.mem_flatMap.mpr ⟨part, inOwn, isPause⟩)⟩
  · rintro ⟨declarator, isDeclared, isPause⟩
    obtain ⟨own, inParts, same⟩ := covers declarator isDeclared
    obtain ⟨part, inOwn, isPause⟩ := List.mem_flatMap.mp ((same pause).mpr isPause)
    exact ⟨part, ⟨own, inParts, inOwn⟩, isPause⟩

/-- The pauses of a declarator that may be absent. -/
def declaratorOptionPauses : Option Declarator → List Pause
  | none => []
  | some declarator => declaratorPauses .all declarator

/-- A parameter and what is declared in its place have its pauses. -/
theorem carries_splitParam (param : Param) :
    ending.Leaves site (splitParam param) fun (kept, declarator) =>
      SamePauses (paramPauses .all kept ++ declaratorOptionPauses declarator)
          (paramPauses .all param)
        ∧ (declarator = none → kept = param) := by
  obtain ⟨span, isRest, pattern, default⟩ := param
  -- A parameter is split only for a rest of its own pattern.
  have stays : SamePauses
      (paramPauses .all ⟨span, isRest, pattern, default⟩ ++ declaratorOptionPauses none)
      (paramPauses .all ⟨span, isRest, pattern, default⟩) := by
    simpa [declaratorOptionPauses] using samePauses_refl _
  unfold splitParam
  dsimp only
  split
  · refine .ite (fun _ => ?_) fun _ => ?_
    · exact (leaves_unsupported _ _).andThen fun _ => .pure ⟨stays, fun _ => rfl⟩
    · refine leaves_allocBound.andThen fun name => .pure ⟨fun pause => ?_, nofun⟩
      simp only [declaratorOptionPauses, declaratorPauses, paramPauses, patternPauses,
        optionPauses, pauses_id, List.mem_append, List.append_nil, List.nil_append]
      grind
  · refine .ite (fun _ => ?_) fun _ => .pure ⟨stays, fun _ => rfl⟩
    exact (leaves_unsupported _ _).andThen fun _ => .pure ⟨stays, fun _ => rfl⟩

/-- The pauses of a statement that may be absent. -/
def stmtOptionPauses : Option Stmt → List Pause
  | none => []
  | some stmt => stmtPauses .all stmt

/-- Parameters and the statement that declares their rests have the pauses that they had. -/
theorem carries_splitParams (params : List Param) :
    ending.Leaves site (splitParams params) fun (kept, declaration) =>
      SamePauses (paramsPauses .all kept ++ stmtOptionPauses declaration)
        (paramsPauses .all params) := by
  refine (Leaves.mapM fun param _ => carries_splitParam param).bind fun split => ?_
  cases found : split.filterMap (·.2) with
  | nil => exact .pure fun _ => by simpa [stmtOptionPauses] using samePauses_refl _
  | cons first more =>
    refine (carries_splitDeclarators (first :: more)).bind fun declarators => .pure ?_
    intro shown ⟨each, covers⟩ pause
    rw [← found] at shown
    have own := shown pause
    simp only [stmtOptionPauses, stmtPauses, stmtShapePauses, List.mem_append, own]
    simp only [paramsPauses_eq, declaratorsPauses_eq, List.mem_flatMap, List.mem_map,
      List.mem_filterMap]
    -- A pause is in a parameter that was kept or in the declarator that took its pattern.
    constructor
    · rintro (⟨kept, ⟨pair, inSplit, rfl⟩, isPause⟩ | ⟨declarator, ⟨pair, inSplit, isOwn⟩, isPause⟩)
      · obtain ⟨param, isParam, same, -⟩ := each pair inSplit
        exact ⟨param, isParam, (same pause).mp (List.mem_append_left _ isPause)⟩
      · obtain ⟨param, isParam, same, -⟩ := each pair inSplit
        refine ⟨param, isParam, (same pause).mp (List.mem_append_right _ ?_)⟩
        simpa [isOwn, declaratorOptionPauses] using isPause
    · rintro ⟨param, isParam, isPause⟩
      obtain ⟨⟨kept, declarator⟩, inSplit, same, -⟩ := covers param isParam
      rcases List.mem_append.mp ((same pause).mpr isPause) with inKept | inDeclarator
      · exact .inl ⟨kept, ⟨_, inSplit, rfl⟩, inKept⟩
      · cases declarator with
        | none => cases inDeclarator
        | some declarator => exact .inr ⟨declarator, ⟨_, inSplit, rfl⟩, inDeclarator⟩

end Ending

end Downlevel
