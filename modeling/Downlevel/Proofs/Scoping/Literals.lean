import Downlevel.Lowering.Class.Accessor
import Downlevel.Lowering.Literal
import Downlevel.Proofs.Scoping.Functions
import Downlevel.Proofs.Templates

/-! Literals and keys: what takes their place needs what their parts do, and the names of functions
that lowered code expects. -/

namespace Downlevel

open Lowering

namespace Realm

variable {realm : Realm} {mayBeParams : Bool} {world : World} {span : Span} {origin : Origin}

/-- A key works, also if it belongs to a parameter, and stays as private as it was. -/
theorem works_lowerKey {forms : KeyForms} (inForms : realm.WorksKey forms) :
    realm.Works mayBeParams (lowerKey forms) fun world key =>
      key.privateName? = forms.privateName? ∧ Meets realm.stem world (keyUses key) := by
  -- A computed key is an expression of its own; a direct one only changes its spelling.
  cases forms with
  | computed value =>
    apply (works_rooted inForms).bind
    intro e
    exact .pure fun _ _ meets => ⟨rfl, by simpa [keyUses] using meets⟩
  | direct name =>
    have stays : realm.Works mayBeParams (Pure.pure (Key.direct name) : Lower Key) fun world key =>
        key.privateName? = (KeyForms.direct name).privateName?
          ∧ Meets realm.stem world (keyUses key) :=
      .pure fun _ _ => ⟨rfl, by simp [keyUses]⟩
    unfold lowerKey
    apply (works_lacks .bigint).andThen
    intro isLacking
    apply Works.ite
    · rintro ⟨isBigint, -⟩
      cases bigintValue? name.text with
      | none => exact stays
      | some value =>
        exact .pure fun _ _ => ⟨by simp [Key.privateName?, KeyForms.privateName?, isBigint],
          by simp [keyUses]⟩
    · exact fun _ => stays

/-- A large integer that is made by a call needs the function that is called. -/
theorem meets_bigintCall (grounds : realm.Grounds world) (digits : String) :
    Meets realm.stem world (exprUses (bigintCall span digits)) := by
  simpa [bigintCall, shapeUses, argsUses, argUses]
    using grounds.runtime "BigInt" (by decide)

/-- A substitution uses the names that its value does. -/
@[simp] theorem spanUses_value {part : TemplateSpan} : spanUses part = exprUses part.value := by
  obtain ⟨value, text⟩ := part
  rw [spanUses]

/-- A part of a template uses nothing. -/
@[simp] theorem exprUses_partValue {text : String} :
    exprUses (Templates.partValue span text) = [] :=
  exprUses_str

/-- The sum that a template becomes needs what its substitutions do. -/
theorem meets_templateSum {head : String} {spans : List TemplateSpan}
    (meets : Meets realm.stem world (spansUses spans)) :
    Meets realm.stem world (exprUses (Templates.sum span head spans)) := by
  -- The sum uses what its parts use, in their order.
  have sums (sofar : Expr) (more : List Expr) :
      exprUses (more.foldl (.binary span .addition) sofar)
        = exprUses sofar ++ more.flatMap exprUses := by
    induction more generalizing sofar with
    | nil => simp
    | cons e more ih => simp [ih]
  rw [Templates.sum, sums, exprUses_partValue, List.nil_append, Templates.operands,
    List.flatMap_assoc, meets_flatMap]
  rw [spansUses_eq, meets_flatMap] at meets
  intro part mem
  have own := meets part mem
  split <;> simpa using own

/-- The strings of a template need nothing. -/
theorem uses_templateStrings {texts : List String} :
    (Templates.strings span texts).flatMap exprUses = [] := by
  have cooked (raw : String) : exprUses (Templates.cookedValue span raw) = [] := by
    unfold Templates.cookedValue
    cases Text.cook? raw <;> simp
  unfold Templates.strings
  dsimp only
  split <;> simp [List.flatMap_map, cooked]

/-- The call that a tagged template becomes needs what its parts do, and a name of the module. -/
theorem works_taggedToCall {tag : Expr} {receiver : Option Expr} {head : String}
    {spans : List TemplateSpan} :
    realm.Works mayBeParams (taggedToCall span tag receiver head spans) fun world e =>
      realm.MeetsCallee world (tag, receiver) → Meets realm.stem world (spansUses spans) →
        Meets realm.stem world (exprUses e) := by
  unfold taggedToCall
  rw [templateStrings_eq, pure_bind]
  apply works_allocOfModule.bind
  intro name
  -- The call takes the kept strings of the template, and then the values between them.
  have args {world : World} (grounds : realm.Grounds world) (isDeclared : world name)
      (inSpans : Meets realm.stem world (spansUses spans)) :
      ∀ arg ∈ (Expr.binary span .logicalOr (.id span name) (.assign span (.id span name)
          (.helper span "__template" (Templates.strings span (head :: spans.map (·.text))))))
          :: spans.map (·.value),
        Meets realm.stem world (exprUses arg) := by
    rintro arg (_ | ⟨_, mem⟩)
    · simpa [uses_templateStrings, isDeclared] using grounds.runtime "__template" (by decide)
    · obtain ⟨part, isPart, rfl⟩ := List.mem_map.mp mem
      rw [spansUses_eq, meets_flatMap] at inSpans
      simpa using inSpans part isPart
  cases receiver with
  | none =>
    apply Works.pure
    intro world grounds isDeclared callee inSpans
    rw [exprUses_call, meets_append, meets_flatMap]
    exact ⟨callee.function, args grounds isDeclared inSpans⟩
  | some receiver =>
    apply Works.pure
    intro world grounds isDeclared callee inSpans
    rw [exprUses_callWithThis, argsUses_plain, meets_append, meets_append, meets_flatMap]
    exact ⟨callee.function, callee.receiver receiver rfl, args grounds isDeclared inSpans⟩

/-- A tagged template works if its parts do. -/
theorem works_taggedTemplate {tag : ExprForms} {head : String} {spans : Lower (List TemplateSpan)}
    (inTag : realm.WorksForms tag)
    (inSpans : realm.Works false spans fun world spans =>
      Meets realm.stem world (spansUses spans)) :
    realm.WorksExpr (taggedTemplate origin tag head spans) := by
  unfold taggedTemplate
  apply (works_calledExpr inTag).bind
  rintro ⟨function, receiver⟩
  apply inSpans.bind
  intro spans
  apply (works_supports .templateLiteral).andThen
  intro isSupported
  -- A template that stays is the tag with its spans; otherwise the tag becomes a call.
  apply Works.ite
  · intro _
    apply Works.pure
    intro world _ inSpans callee
    rw [exprUses_shape, shapeUses, meets_append]
    exact ⟨callee.function, inSpans⟩
  · intro _
    apply works_taggedToCall.weaken
    exact fun _ _ _ needs inSpans callee => needs callee inSpans

section Objects

/-- What adds members to those made so far needs what both do. -/
theorem meets_addMembers (grounds : realm.Grounds world) {sofar : Option Expr}
    {members : List ObjectMember} (inSofar : ∀ e ∈ sofar, Meets realm.stem world (exprUses e))
    (inMembers : ∀ member ∈ members, Meets realm.stem world (objectMemberUses member)) :
    Meets realm.stem world (exprUses (addMembers span sofar members)) := by
  -- The members added at once are a literal of their own.
  have literal : Meets realm.stem world (exprUses (.of span (.object members))) := by
    rw [exprUses_of, shapeUses, objectMembersUses_eq, meets_flatMap]
    exact inMembers
  cases sofar with
  | none => exact literal
  | some e =>
    have runs := grounds.runtime "__spreadProps" (by decide)
    simpa [addMembers, runs, inSofar e rfl] using literal

/-- The calls that make an object out of members and spreads need what those do. -/
theorem meets_spreadMembers (grounds : realm.Grounds world) {sofar : Option Expr}
    {collected members : List ObjectMember}
    (inSofar : ∀ e ∈ sofar, Meets realm.stem world (exprUses e))
    (inCollected : ∀ member ∈ collected, Meets realm.stem world (objectMemberUses member))
    (inMembers : ∀ member ∈ members, Meets realm.stem world (objectMemberUses member)) :
    Meets realm.stem world (exprUses (spreadMembers span sofar collected members)) := by
  induction members generalizing sofar collected with
  | nil =>
    unfold spreadMembers
    split
    · contradiction
    · contradiction
    · exact inSofar _ rfl
    · exact meets_addMembers grounds inSofar inCollected
  | cons member members ih =>
    obtain ⟨own, inOthers⟩ := List.forall_mem_cons.mp inMembers
    -- A member that is no spread is collected.
    have collects :
        Meets realm.stem world
          (exprUses (spreadMembers span sofar (collected ++ [member]) members)) := by
      apply ih inSofar _ inOthers
      exact List.forall_mem_append.mpr ⟨inCollected, by simpa using own⟩
    cases member with
    | valued memberSpan key value => exact collects
    | shorthand memberSpan name => exact collects
    | spread memberSpan value =>
      refine ih (fun base isBase => ?_) (List.forall_mem_nil _) inOthers
      obtain rfl := Option.mem_some.mp isBase
      have runs := grounds.runtime "__spreadValues" (by decide)
      rw [objectMemberUses] at own
      simp only [exprUses_helper, List.flatMap_cons, List.flatMap_nil, List.append_nil, meets_cons,
        meets_append, makesSense_free]
      refine ⟨runs, ?_, own⟩
      split
      · split
        · exact inSofar _ rfl
        · exact meets_addMembers grounds inSofar inCollected
      · exact meets_addMembers grounds (by simp) inCollected

/-- An object literal needs what its members do. -/
theorem works_objectLiteral (members : List ObjectMember) :
    realm.Works mayBeParams (objectLiteral origin members) fun world e =>
      Meets realm.stem world (objectMembersUses members) → Meets realm.stem world (exprUses e) := by
  apply (works_lacks .objectRestSpread).andThen
  intro isLacking
  -- The literal is split at its spreads where the target lacks them.
  apply Works.ite
  · intro _
    apply Works.pure
    intro world grounds meets
    rw [objectMembersUses_eq, meets_flatMap] at meets
    exact meets_spreadMembers grounds nofun nofun meets
  · intro _
    apply Works.pure
    intro world _ meets
    rwa [exprUses_shape, shapeUses]

/-- A member that stands for itself mentions the name that it stands for. -/
theorem works_shorthandMember {name : String} (isGiven : realm.given name) :
    realm.Works mayBeParams (shorthandMember span name) fun world member =>
      Meets realm.stem world (objectMemberUses member) := by
  have stays : realm.Works mayBeParams (Pure.pure (.shorthand span name) : Lower ObjectMember)
      fun world member => Meets realm.stem world (objectMemberUses member) :=
    .pure fun world grounds => by simpa [objectMemberUses] using grounds.given name isGiven
  unfold shorthandMember
  -- A shorthand stays unless it is `arguments` and a lifted function holds that under another name.
  apply Works.ite
  · intro _
    apply works_resolveArguments.bind
    intro found
    cases found with
    | none => exact stays.weaken fun _ _ _ meets _ => meets
    | some other =>
      apply Works.pure
      intro world _ isBound
      simpa [objectMemberUses, MemberValue.isStaticBlock, keyUses, memberValueUses, optionUses]
        using isBound
  · exact fun _ => stays

end Objects

end Realm

end Downlevel
