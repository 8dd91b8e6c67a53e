import Downlevel.Proofs.Pauses.Trees
import Downlevel.Proofs.Remaining.Walk

/-! What lowering makes of the pauses of a tree: each stays with its function, and in a function that
moves into a generator it hands out a value. -/

namespace Downlevel

open Lowering

/-- A function of the kind moves into a generator. -/
def Target.lifts (target : Target) (isAsync isGenerator : Bool) : Bool :=
  isAsync && target.supports .generator
    && !target.supports (if isGenerator then .asyncGenerator else .asyncAwait)

namespace Home

variable (target : Target)

/-- What belongs to the home moves into a generator. -/
def isLifted : Home → Bool
  | .body _ isAsync isGenerator => target.lifts isAsync isGenerator
  | .barred => false

/-- What the home becomes: the generator that a function moves into has the span of the function. -/
def lowered (home : Home) : Home :=
  match home with
  | .body span isAsync isGenerator =>
    if target.lifts isAsync isGenerator then .body span false true
    else .body span isAsync isGenerator
  | .barred => .barred

end Home

/-- What a pause becomes. One that belongs to nothing in its tree hands out a value if what is around
is lifted. -/
def Pause.lowered (target : Target) (isLifted : Bool) (pause : Pause) : Pause :=
  match pause.home with
  | none => { pause with yields := pause.yields || isLifted }
  | some home =>
    { pause with
      home := some (home.lowered target)
      yields := pause.yields || home.isLifted target }

namespace Site

/-- Whether the site is in a generator that is going to stand in for an asynchronous function. -/
def isLifted : Site → Bool
  | .inside .standIn => true
  | _ => false

/-- Whether nothing can pause at the site. -/
def isBarred : Site → Bool
  | .static | .inside .barred => true
  | _ => false

end Site

namespace Pause

variable {target : Target} {isLifted : Bool} {pause : Pause} {home : Home}

/-- What belongs to something in the tree has a home of its own, however it is lowered. -/
@[simp] theorem lowered_home_none :
    (pause.lowered target isLifted).home = none ↔ pause.home = none := by
  unfold lowered
  split <;> simp_all

/-- What nothing can pause in stays such. -/
@[simp] theorem lowered_home_barred :
    (pause.lowered target isLifted).home = some .barred ↔ pause.home = some .barred := by
  unfold lowered
  split
  · simp_all
  · rename_i own isOwn
    rw [isOwn]
    cases own with
    | barred => simp [Home.lowered]
    | body span isAsync isGenerator =>
      simp only [Home.lowered]
      split <;> simp

/-- How a pause with a home is lowered does not depend on what is around. -/
theorem lowered_inside (isInside : pause.home ≠ none) (other : Bool) :
    pause.lowered target isLifted = pause.lowered target other := by
  unfold lowered
  split
  · exact absurd ‹_› isInside
  · rfl

/-- A pause with a home keeps it. -/
theorem into_inside (isInside : pause.home ≠ none) (home : Home) : pause.into home = pause := by
  obtain ⟨own, yields, span⟩ := pause
  cases own with
  | none => exact absurd rfl isInside
  | some own => rfl

/-- Inside of something a pause belongs to a part of the tree. -/
theorem into_home_ne_none : (pause.into home).home ≠ none := by
  simp [into]

/-- The pauses of a body are lowered along with the function. -/
theorem lowered_into (other : Bool) :
    (pause.into home).lowered target other
      = (pause.lowered target (home.isLifted target)).into (home.lowered target) := by
  obtain ⟨own, yields, span⟩ := pause
  cases own <;> rfl

end Pause

namespace Ending

variable (ending : Ending) (site : Site)

/-- Where pauses are looked at that are sure to remain. -/
def extent : Extent :=
  .sure (ending.scopes.declares "undefined")

/-- What the pause becomes at the site. -/
def moved (pause : Pause) : Pause :=
  pause.lowered ending.target site.isLifted

/-- All pauses of the source that are sure to remain are among those of the result, except that the
module itself may lose some of its own, and the result has no others but those of the source. -/
structure Carries (source : Extent → List Pause) (result : List Pause) : Prop where
  kept : ∀ pause ∈ source ending.extent,
    (pause.home = none → ∀ isDead, site ≠ .own isDead) → ending.moved site pause ∈ result
  found : ∀ pause ∈ result, ∃ own ∈ source .all, ending.moved site own = pause

/-- No pause is where nothing can pause, given that the tree is at the site. -/
def Calm (pauses : List Pause) : Prop :=
  ∀ pause ∈ pauses, pause.home ≠ some .barred ∧ (site.isBarred = true → pause.home ≠ none)

variable {ending site} {source other : Extent → List Pause} {result more : List Pause}

/-- What has no pauses has none to lose, and none are added. -/
theorem carries_nil (none : source ending.extent = []) : ending.Carries site source [] :=
  ⟨by simp [none], nofun⟩

/-- Two parts carry what the one and the other does. -/
theorem Carries.append (first : ending.Carries site source result)
    (second : ending.Carries site other more) :
    ending.Carries site (fun extent => source extent ++ other extent) (result ++ more) := by
  refine ⟨fun pause mem outside => ?_, fun pause mem => ?_⟩
  · rcases List.mem_append.mp mem with inFirst | inSecond
    · exact List.mem_append_left _ (first.kept pause inFirst outside)
    · exact List.mem_append_right _ (second.kept pause inSecond outside)
  · rcases List.mem_append.mp mem with inFirst | inSecond
    · obtain ⟨own, isOwn, same⟩ := first.found pause inFirst
      exact ⟨own, List.mem_append_left _ isOwn, same⟩
    · obtain ⟨own, isOwn, same⟩ := second.found pause inSecond
      exact ⟨own, List.mem_append_right _ isOwn, same⟩

/-- Only which pauses there are matters, not their order. -/
theorem Carries.congr (carries : ending.Carries site source result)
    (same : ∀ pause, pause ∈ more ↔ pause ∈ result) : ending.Carries site source more :=
  ⟨fun pause mem outside => (same _).mpr (carries.kept pause mem outside),
    fun pause mem => carries.found pause ((same pause).mp mem)⟩

/-- The same for the pauses of the source. -/
theorem Carries.congrSource (carries : ending.Carries site source result)
    (same : ∀ extent pause, pause ∈ other extent ↔ pause ∈ source extent) :
    ending.Carries site other result :=
  ⟨fun pause mem outside => carries.kept pause ((same _ _).mp mem) outside, fun pause mem =>
    let ⟨own, isOwn, moved⟩ := carries.found pause mem
    ⟨own, (same _ _).mpr isOwn, moved⟩⟩

/-- Of another source fewer pauses may be sure to remain, and it may have more of them. -/
theorem Carries.weaken (carries : ending.Carries site source result)
    (fewer : other ending.extent ⊆ source ending.extent) (more : source .all ⊆ other .all) :
    ending.Carries site other result :=
  ⟨fun pause mem outside => carries.kept pause (fewer mem) outside, fun pause mem =>
    let ⟨own, isOwn, moved⟩ := carries.found pause mem
    ⟨own, more isOwn, moved⟩⟩

/-- No pauses are calm. -/
theorem calm_nil : Calm site [] :=
  nofun

/-- Pauses one behind the other are calm if both are. -/
theorem calm_append : Calm site (result ++ more) ↔ Calm site result ∧ Calm site more :=
  List.forall_mem_append

/-- What is carried from a calm source is calm. -/
theorem Carries.calm (carries : ending.Carries site source result) (calm : Calm site (source .all)) :
    Calm site result := by
  intro pause mem
  obtain ⟨own, isOwn, rfl⟩ := carries.found pause mem
  obtain ⟨notBarred, inside⟩ := calm own isOwn
  simpa [moved] using And.intro notBarred inside

/-- Where nothing can pause, all that does is inside of something. -/
theorem Calm.inside (calm : Calm site result) (barred : site.isBarred = true) :
    ∀ pause ∈ result, pause.home ≠ none :=
  fun pause mem => (calm pause mem).2 barred

/-- Pauses inside of something are the same wherever that is. -/
theorem map_into {home : Home} (inside : ∀ pause ∈ result, pause.home ≠ none) :
    result.map (.into home) = result := by
  conv_rhs => rw [← List.map_id result]
  exact List.map_congr_left fun pause mem => Pause.into_inside (inside pause mem) home

/-- The pauses of a calm tree without pauses of its own are the same in any surroundings. -/
theorem Carries.anywhere {home : Home} {around : Site}
    (carries : ending.Carries site source result) (calm : Calm site (source .all))
    (barred : site.isBarred = true) :
    ending.Carries around (fun extent => (source extent).map (.into home)) result := by
  have notOwn (isDead : Bool) : site ≠ .own isDead := by
    rintro rfl
    cases barred
  have inside := (carries.calm calm).inside barred
  refine ⟨fun pause mem _ => ?_, fun pause mem => ?_⟩
  · obtain ⟨own, isOwn, rfl⟩ := List.mem_map.mp mem
    have isMoved := carries.kept own isOwn fun _ => notOwn
    -- The result has it, so it was no pause of the tree itself.
    have isInside : own.home ≠ none := fun isNone =>
      inside _ isMoved (Pause.lowered_home_none.mpr isNone)
    rw [Pause.into_inside isInside, moved, Pause.lowered_inside isInside site.isLifted]
    exact isMoved
  · obtain ⟨own, isOwn, rfl⟩ := carries.found pause mem
    have isInside := calm.inside barred own isOwn
    refine ⟨own, List.mem_map.mpr ⟨own, isOwn, Pause.into_inside isInside home⟩, ?_⟩
    exact Pause.lowered_inside isInside site.isLifted

/-- The pauses of a body become those of the body that the function is lowered to. -/
theorem Carries.body {home : Home} {ground : Ground} {around : Site}
    (carries : ending.Carries (.inside ground) source result)
    (lifted : (Site.inside ground).isLifted = home.isLifted ending.target) :
    ending.Carries around (fun extent => (source extent).map (.into home))
      (result.map (.into (home.lowered ending.target))) := by
  have same (pause : Pause) : ending.moved around (pause.into home)
      = (ending.moved (.inside ground) pause).into (home.lowered ending.target) := by
    rw [moved, moved, lifted, Pause.lowered_into]
  refine ⟨fun pause mem _ => ?_, fun pause mem => ?_⟩
  · obtain ⟨own, isOwn, rfl⟩ := List.mem_map.mp mem
    rw [same]
    exact List.mem_map_of_mem (carries.kept own isOwn fun _ _ => by simp)
  · obtain ⟨between, isBetween, rfl⟩ := List.mem_map.mp mem
    obtain ⟨own, isOwn, rfl⟩ := carries.found between isBetween
    exact ⟨own.into home, List.mem_map_of_mem isOwn, same own⟩

/-- Steps one after the other carry what all of them do. -/
theorem carries_mapM {α β : Type} {items : List α} {sources : List (Extent → List Pause)}
    {step : α → Lower β} {pausesOf : β → List Pause}
    (each : List.Forall₂ (fun source item => ending.Leaves site (step item) fun result =>
      ending.Carries site source (pausesOf result)) sources items) :
    ending.Leaves site (items.mapM step) fun results =>
      ending.Carries site (fun extent => sources.flatMap (· extent))
        (results.flatMap pausesOf) := by
  induction each with
  | nil => exact .pure (carries_nil rfl)
  | cons first _ ih =>
    rw [List.mapM_cons]
    refine first.bind fun result => ih.bind fun results => .pure fun others own => ?_
    simpa using own.append others

section Calm

/-! Nothing of a source that is well placed pauses where nothing can. -/

variable (placed : ¬ending.misplaced)

-- Only where something pauses in its own right is this used, but every part may hold such a place.
set_option linter.unusedSectionVars false

include placed

/-- Something pauses here in its own right. -/
theorem calm_own {yields : Bool} {span : Span}
    (takes : ending.TakesAwait site ∨ ending.TakesYield site) :
    Calm site [⟨none, yields, span⟩] := by
  have notBarred : site.isBarred = false := by
    have allowed : site = .inside .standIn ∨ site.canAwait = true ∨ site.canYield = true := by
      rcases takes with (standIn | await | misplaced) | (yield | misplaced)
      · exact .inl standIn
      · exact .inr (.inl await)
      · exact absurd misplaced placed
      · exact .inr (.inr yield)
      · exact absurd misplaced placed
    rcases allowed with rfl | await | yield
    · rfl
    · unfold Site.canAwait at await
      split at await <;> first | rfl | cases await
    · unfold Site.canYield at yield
      split at yield <;> first | rfl | cases yield
  intro pause mem
  obtain rfl := List.mem_singleton.mp mem
  simp [notBarred]

omit placed in
/-- What is inside of a home is calm around it. -/
theorem calm_into {home : Home} {around : Site} (calm : Calm site result)
    (barred : home = .barred → site.isBarred = true) : Calm around (result.map (.into home)) := by
  intro pause mem
  obtain ⟨own, isOwn, rfl⟩ := List.mem_map.mp mem
  refine ⟨fun isBarred => ?_, fun _ => Pause.into_home_ne_none⟩
  -- A pause that is directly in the home would be barred if the home were.
  obtain ⟨notBarred, inside⟩ := calm own isOwn
  simp only [Pause.into, Option.some.injEq] at isBarred
  cases isHome : own.home with
  | none =>
    rw [isHome] at isBarred
    exact inside (barred isBarred) isHome
  | some inner =>
    rw [isHome] at isBarred notBarred
    exact notBarred (congrArg some isBarred)

omit placed in
/-- Whether nothing can pause does not depend on whether a branch ever runs. -/
theorem calm_branch {isDead : Bool} : Calm (site.branch isDead) result ↔ Calm site result := by
  have same : (site.branch isDead).isBarred = site.isBarred := by cases site <;> rfl
  rw [Calm, Calm, same]

mutual

/-- Where nothing can pause, nothing does right in an expression. -/
theorem calm_expr (e : Expr) {site : Site} (given : ending.Given site (exprNodes e)) :
    Calm site (exprPauses .all e) := by
  obtain ⟨origin, shape⟩ := e
  obtain ⟨takes, inside⟩ := given_expr given
  exact calm_shape origin.span shape takes inside

/-- Where nothing can pause, nothing does right in a shape. -/
theorem calm_shape (span : Span) (shape : Shape) {site : Site}
    (takes : ending.Takes site (.shape shape)) (given : ending.Given site (shapeNodes shape)) :
    Calm site (shapePauses .all span shape) := by
  -- One case per constructor: only `await` and `yield` pause themselves, and a site must take them.
  cases shape with
  | arrow func | function _ func => exact calm_func func given
  | binary op left right =>
    obtain ⟨inLeft, inRight⟩ := throughout_append.mp given
    exact calm_append.mpr ⟨calm_expr left inLeft, calm_expr right inRight⟩
  | call link isPure callee args | new callee args =>
    obtain ⟨inCallee, inArgs⟩ := throughout_append.mp given
    exact calm_append.mpr ⟨calm_expr callee inCallee, calm_args args inArgs⟩
  | classExpr name heritage members =>
    obtain ⟨inHeritage, inMembers⟩ := throughout_append.mp given
    exact calm_append.mpr ⟨calm_option heritage inHeritage, calm_classMembers members inMembers⟩
  | computed link object key =>
    obtain ⟨inObject, inKey⟩ := throughout_append.mp given
    exact calm_append.mpr ⟨calm_expr object inObject, calm_expr key inKey⟩
  | cond test consequent alternate =>
    obtain ⟨inOthers, inAlternate⟩ := throughout_append.mp given
    obtain ⟨inTest, inConsequent⟩ := throughout_append.mp inOthers
    exact calm_append.mpr ⟨calm_append.mpr ⟨calm_expr test inTest,
      calm_expr consequent inConsequent⟩, calm_expr alternate inAlternate⟩
  | importCall module => exact calm_expr module given
  | member link object name => exact calm_expr object given
  | tagged tag head spans =>
    obtain ⟨inTag, inSpans⟩ := throughout_append.mp given
    exact calm_append.mpr ⟨calm_expr tag inTag, calm_spans spans inSpans⟩
  | unary op operand =>
    refine calm_append.mpr ⟨calm_expr operand given, ?_⟩
    split
    · rename_i isAwait
      subst isAwait
      exact calm_own placed (.inl (takes.await trivial))
    · exact calm_nil
  | update op operand => exact calm_expr operand given
  | yield isDelegated operand =>
    exact calm_append.mpr ⟨calm_option operand given, calm_own placed (.inr (takes.yield trivial))⟩
  | array items => exact calm_items items given
  | object members => exact calm_objectMembers members given
  | template head spans => exact calm_spans spans given
  | arrayPattern slots rest =>
    obtain ⟨inSlots, inRest⟩ := throughout_append.mp given
    exact calm_append.mpr ⟨calm_slots slots inSlots, calm_patternOption rest inRest⟩
  | objectPattern properties rest =>
    obtain ⟨inProperties, inRest⟩ := throughout_append.mp given
    exact calm_append.mpr ⟨calm_properties properties inProperties, calm_patternOption rest inRest⟩
  | id | importMeta | newTarget | super | this | bigint | bool | null | num | regex | str =>
    exact calm_nil

/-- Where nothing can pause, nothing does right in an expression that may be absent. -/
theorem calm_option (e : Option Expr) {site : Site} (given : ending.Given site (optionNodes e)) :
    Calm site (optionPauses .all e) := by
  cases e with
  | none => exact calm_nil
  | some e => exact calm_expr e given

/-- Where nothing can pause, nothing does right in an argument. -/
theorem calm_arg (arg : Arg) {site : Site} (given : ending.Given site (argNodes arg)) :
    Calm site (argPauses .all arg) := by
  obtain ⟨isSpread, value⟩ := arg
  exact calm_expr value given

/-- Where nothing can pause, nothing does right in arguments. -/
theorem calm_args (args : List Arg) {site : Site} (given : ending.Given site (argsNodes args)) :
    Calm site (argsPauses .all args) := by
  cases args with
  | nil => exact calm_nil
  | cons arg rest =>
    obtain ⟨inArg, inRest⟩ := throughout_append.mp given
    exact calm_append.mpr ⟨calm_arg arg inArg, calm_args rest inRest⟩

/-- Where nothing can pause, nothing does right in a substitution. -/
theorem calm_span (span : TemplateSpan) {site : Site}
    (given : ending.Given site (spanNodes span)) : Calm site (spanPauses .all span) := by
  obtain ⟨value, text⟩ := span
  exact calm_expr value given

/-- Where nothing can pause, nothing does right in substitutions. -/
theorem calm_spans (spans : List TemplateSpan) {site : Site}
    (given : ending.Given site (spansNodes spans)) : Calm site (spansPauses .all spans) := by
  cases spans with
  | nil => exact calm_nil
  | cons span rest =>
    obtain ⟨inSpan, inRest⟩ := throughout_append.mp given
    exact calm_append.mpr ⟨calm_span span inSpan, calm_spans rest inRest⟩

/-- Where nothing can pause, nothing does right in an element of an array literal. -/
theorem calm_item (item : ArrayItem) {site : Site} (given : ending.Given site (itemNodes item)) :
    Calm site (itemPauses .all item) := by
  cases item with
  | single value | spread value => exact calm_expr value given
  | hole => exact calm_nil

/-- Where nothing can pause, nothing does right in the elements of an array literal. -/
theorem calm_items (items : List ArrayItem) {site : Site}
    (given : ending.Given site (itemsNodes items)) : Calm site (itemsPauses .all items) := by
  cases items with
  | nil => exact calm_nil
  | cons item rest =>
    obtain ⟨inItem, inRest⟩ := throughout_append.mp given
    exact calm_append.mpr ⟨calm_item item inItem, calm_items rest inRest⟩

/-- Where nothing can pause, nothing does right in a key. -/
theorem calm_key (key : Key) {site : Site} (given : ending.Given site (keyNodes key)) :
    Calm site (keyPauses .all key) := by
  cases key with
  | direct name => exact calm_nil
  | computed value => exact calm_expr value given

/-- Where nothing can pause, nothing does right in what a member holds. -/
theorem calm_memberValue (value : MemberValue) {site : Site}
    (given : ending.Given site (memberValueNodes value)) :
    Calm site (memberValuePauses .all value) := by
  cases value with
  | getter func | setter func | method func => exact calm_func func given
  | field init | accessor init => exact calm_option init given
  | staticBlock block => exact calm_block block given

/-- Where nothing can pause, nothing does right in a member of an object literal. -/
theorem calm_objectMember (member : ObjectMember) {site : Site}
    (given : ending.Given site (objectMemberNodes member)) :
    Calm site (objectMemberPauses .all member) := by
  cases member with
  | valued span key value =>
    obtain ⟨inKey, inValue⟩ := throughout_append.mp (throughout_cons.mp given).2
    exact calm_append.mpr ⟨calm_key key inKey, calm_memberValue value inValue⟩
  | shorthand span name => exact calm_nil
  | spread span value => exact calm_expr value (throughout_cons.mp given).2

/-- Where nothing can pause, nothing does right in the members of an object literal. -/
theorem calm_objectMembers (members : List ObjectMember) {site : Site}
    (given : ending.Given site (objectMembersNodes members)) :
    Calm site (objectMembersPauses .all members) := by
  cases members with
  | nil => exact calm_nil
  | cons member rest =>
    obtain ⟨inMember, inRest⟩ := throughout_append.mp given
    exact calm_append.mpr ⟨calm_objectMember member inMember, calm_objectMembers rest inRest⟩

/-- Where nothing can pause, nothing does right in a member of a class. -/
theorem calm_classMember (member : ClassMember) {site : Site}
    (given : ending.Given site (classMemberNodes member)) :
    Calm site (classMemberPauses .all member) := by
  obtain ⟨span, key, isStatic, value⟩ := member
  obtain ⟨inKey, inValue⟩ := given_classMember.mp given
  rw [classMemberPauses, Extent.skipsKey_all]
  refine calm_append.mpr
    ⟨calm_key key inKey, calm_into (calm_memberValue value inValue) fun _ => ?_⟩
  cases value <;> cases isStatic <;> rfl

/-- Where nothing can pause, nothing does right in the members of a class. -/
theorem calm_classMembers (members : List ClassMember) {site : Site}
    (given : ending.Given site (classMembersNodes members)) :
    Calm site (classMembersPauses .all members) := by
  cases members with
  | nil => exact calm_nil
  | cons member rest =>
    obtain ⟨inMember, inRest⟩ := throughout_append.mp given
    exact calm_append.mpr ⟨calm_classMember member inMember, calm_classMembers rest inRest⟩

/-- Where nothing can pause, nothing does right in a function. -/
theorem calm_func (func : Func) {site : Site} (given : ending.Given site (funcNodes func)) :
    Calm site (funcPauses .all func) := by
  obtain ⟨inParams, inBody⟩ := given_func.mp given
  obtain ⟨span, isArrow, isAsync, isGenerator, params, body⟩ := func
  exact calm_append.mpr ⟨calm_into (calm_params params inParams) fun _ => rfl,
    calm_into (calm_body body inBody) nofun⟩

/-- Where nothing can pause, nothing does right in the body of a function. -/
theorem calm_body (body : Body) {site : Site} (given : ending.Given site (bodyNodes body)) :
    Calm site (bodyPauses .all body) := by
  cases body with
  | block stmts => exact calm_stmts stmts given
  | value result => exact calm_expr result given

/-- Where nothing can pause, nothing does right in a parameter. -/
theorem calm_param (param : Param) {site : Site} (given : ending.Given site (paramNodes param)) :
    Calm site (paramPauses .all param) := by
  obtain ⟨span, isRest, pattern, default⟩ := param
  obtain ⟨inPattern, inDefault⟩ := throughout_append.mp (throughout_cons.mp given).2
  exact calm_append.mpr ⟨calm_pattern pattern inPattern, calm_option default inDefault⟩

/-- Where nothing can pause, nothing does right in parameters. -/
theorem calm_params (params : List Param) {site : Site}
    (given : ending.Given site (paramsNodes params)) : Calm site (paramsPauses .all params) := by
  cases params with
  | nil => exact calm_nil
  | cons param rest =>
    obtain ⟨inParam, inRest⟩ := throughout_append.mp given
    exact calm_append.mpr ⟨calm_param param inParam, calm_params rest inRest⟩

/-- Where nothing can pause, nothing does right in a pattern. -/
theorem calm_pattern (pattern : Pattern) {site : Site}
    (given : ending.Given site (patternNodes pattern)) : Calm site (patternPauses .all pattern) := by
  cases pattern with
  | id span name => exact calm_nil
  | array span slots rest =>
    obtain ⟨inSlots, inRest⟩ := given_arrayPattern given
    exact calm_append.mpr ⟨calm_slots slots inSlots, calm_patternOption rest inRest⟩
  | object span properties rest =>
    obtain ⟨inProperties, inRest⟩ := given_objectPattern given
    exact calm_append.mpr ⟨calm_properties properties inProperties, calm_patternOption rest inRest⟩
  | target span place => exact calm_expr place (given_targetPattern given).2

/-- Where nothing can pause, nothing does right in a pattern that may be absent. -/
theorem calm_patternOption (pattern : Option Pattern) {site : Site}
    (given : ending.Given site (patternOptionNodes pattern)) :
    Calm site (patternOptionPauses .all pattern) := by
  cases pattern with
  | none => exact calm_nil
  | some pattern => exact calm_pattern pattern given

/-- Where nothing can pause, nothing does right in an element of an array pattern. -/
theorem calm_slot (slot : PatternSlot) {site : Site} (given : ending.Given site (slotNodes slot)) :
    Calm site (slotPauses .all slot) := by
  cases slot with
  | hole => exact calm_nil
  | slot target default =>
    obtain ⟨inTarget, inDefault⟩ := throughout_append.mp given
    exact calm_append.mpr ⟨calm_pattern target inTarget, calm_option default inDefault⟩

/-- Where nothing can pause, nothing does right in the elements of an array pattern. -/
theorem calm_slots (slots : List PatternSlot) {site : Site}
    (given : ending.Given site (slotsNodes slots)) : Calm site (slotsPauses .all slots) := by
  cases slots with
  | nil => exact calm_nil
  | cons slot rest =>
    obtain ⟨inSlot, inRest⟩ := throughout_append.mp given
    exact calm_append.mpr ⟨calm_slot slot inSlot, calm_slots rest inRest⟩

/-- Where nothing can pause, nothing does right in a property of an object pattern. -/
theorem calm_property (property : PatternProperty) {site : Site}
    (given : ending.Given site (propertyNodes property)) :
    Calm site (propertyPauses .all property) := by
  obtain ⟨span, key, target, isShorthand, default⟩ := property
  obtain ⟨inOthers, inDefault⟩ := throughout_append.mp given
  obtain ⟨inKey, inTarget⟩ := throughout_append.mp inOthers
  exact calm_append.mpr ⟨calm_append.mpr ⟨calm_key key inKey, calm_pattern target inTarget⟩,
    calm_option default inDefault⟩

/-- Where nothing can pause, nothing does right in the properties of an object pattern. -/
theorem calm_properties (properties : List PatternProperty) {site : Site}
    (given : ending.Given site (propertiesNodes properties)) :
    Calm site (propertiesPauses .all properties) := by
  cases properties with
  | nil => exact calm_nil
  | cons property rest =>
    obtain ⟨inProperty, inRest⟩ := throughout_append.mp given
    exact calm_append.mpr ⟨calm_property property inProperty, calm_properties rest inRest⟩

/-- Where nothing can pause, nothing does right in declarators. -/
theorem calm_declarators (declarators : List Declarator) {site : Site}
    (given : ending.Given site (declaratorsNodes declarators)) :
    Calm site (declaratorsPauses .all declarators) := by
  cases declarators with
  | nil => exact calm_nil
  | cons declarator rest =>
    obtain ⟨inDeclarator, inRest⟩ := throughout_append.mp given
    obtain ⟨pattern, init⟩ := declarator
    obtain ⟨inPattern, inInit⟩ := throughout_append.mp (throughout_cons.mp inDeclarator).2
    exact calm_append.mpr ⟨calm_append.mpr ⟨calm_pattern pattern inPattern, calm_option init inInit⟩,
      calm_declarators rest inRest⟩

/-- Where nothing can pause, nothing does right in statements in braces. -/
theorem calm_block (block : Block) {site : Site} (given : ending.Given site (blockNodes block)) :
    Calm site (blockPauses .all block) := by
  obtain ⟨span, body⟩ := block
  exact calm_stmts body given

/-- Where nothing can pause, nothing does right in statements. -/
theorem calm_stmts (stmts : List Stmt) {site : Site}
    (given : ending.Given site (stmtsNodes stmts)) : Calm site (stmtsPauses .all stmts) := by
  cases stmts with
  | nil => exact calm_nil
  | cons stmt rest =>
    obtain ⟨inStmt, inRest⟩ := throughout_append.mp given
    exact calm_append.mpr ⟨calm_stmt stmt inStmt, calm_stmts rest inRest⟩

/-- Where nothing can pause, nothing does right in the branches of a switch. -/
theorem calm_branches (branches : List SwitchBranch) {site : Site}
    (given : ending.Given site (branchesNodes branches)) :
    Calm site (branchesPauses .all branches) := by
  cases branches with
  | nil => exact calm_nil
  | cons branch rest =>
    obtain ⟨inBranch, inRest⟩ := throughout_append.mp given
    obtain ⟨span, test, body⟩ := branch
    obtain ⟨inTest, inBody⟩ := throughout_append.mp inBranch
    exact calm_append.mpr ⟨calm_append.mpr ⟨calm_option test inTest, calm_stmts body inBody⟩,
      calm_branches rest inRest⟩

/-- Where nothing can pause, nothing does right in a statement. -/
theorem calm_stmt (stmt : Stmt) {site : Site} (given : ending.Given site (stmtNodes stmt)) :
    Calm site (stmtPauses .all stmt) := by
  obtain ⟨span, shape⟩ := stmt
  obtain ⟨takes, inside⟩ := given_stmt.mp given
  exact calm_stmtShape span shape takes inside

/-- Where nothing can pause, nothing does right in the shape of a statement. -/
theorem calm_stmtShape (span : Span) (shape : StmtShape) {site : Site}
    (takes : ending.Takes site (.stmt shape)) (given : ending.Given site (stmtShapeNodes shape)) :
    Calm site (stmtShapePauses .all span shape) := by
  -- One case per constructor: of the statements only `for await` pauses itself.
  cases shape with
  | block body => exact calm_stmts body given
  | doWhile condition body | «while» condition body | «with» condition body =>
    obtain ⟨inCondition, inBody⟩ := throughout_append.mp given
    exact calm_append.mpr ⟨calm_expr condition inCondition, calm_stmt body inBody⟩
  | exportDefault value | expr value | throw value => exact calm_expr value given
  | forIn keyword binding subject body =>
    obtain ⟨inHead, inBody⟩ := throughout_append.mp given
    obtain ⟨inBinding, inSubject⟩ := throughout_append.mp inHead
    exact calm_append.mpr ⟨calm_append.mpr ⟨calm_pattern binding inBinding,
      calm_expr subject inSubject⟩, calm_stmt body inBody⟩
  | forOf isAwait keyword binding subject body =>
    obtain ⟨inHead, inBody⟩ := throughout_append.mp given
    obtain ⟨inBinding, inSubject⟩ := throughout_append.mp inHead
    refine calm_append.mpr ⟨calm_append.mpr ⟨calm_append.mpr ⟨calm_pattern binding inBinding,
      calm_expr subject inSubject⟩, calm_stmt body inBody⟩, ?_⟩
    cases isAwait with
    | true => exact calm_own placed (.inl (takes.await trivial))
    | false => exact calm_nil
  | forLoop init condition post body =>
    obtain ⟨inHead, inBody⟩ := throughout_append.mp given
    obtain ⟨inStart, inPost⟩ := throughout_append.mp inHead
    obtain ⟨inInit, inCondition⟩ := throughout_append.mp inStart
    exact calm_append.mpr ⟨calm_append.mpr ⟨calm_append.mpr ⟨calm_option init inInit,
      calm_option condition inCondition⟩, calm_option post inPost⟩, calm_stmt body inBody⟩
  | forDecl declSpan keyword declarators condition post body =>
    obtain ⟨inHead, inBody⟩ := throughout_append.mp given
    obtain ⟨inStart, inPost⟩ := throughout_append.mp inHead
    obtain ⟨inDeclarators, inCondition⟩ := throughout_append.mp inStart
    exact calm_append.mpr ⟨calm_append.mpr ⟨calm_append.mpr ⟨calm_declarators declarators
      inDeclarators, calm_option condition inCondition⟩, calm_option post inPost⟩,
      calm_stmt body inBody⟩
  | ifThen test consequent =>
    obtain ⟨inTest, inConsequent⟩ := throughout_append.mp given
    rw [throughout_into] at inConsequent
    exact calm_append.mpr ⟨calm_expr test inTest,
      calm_branch.mp (calm_stmt consequent inConsequent)⟩
  | ifElse test consequent alternate =>
    obtain ⟨inHead, inAlternate⟩ := throughout_append.mp given
    obtain ⟨inTest, inConsequent⟩ := throughout_append.mp inHead
    rw [throughout_into] at inConsequent inAlternate
    exact calm_append.mpr ⟨calm_append.mpr ⟨calm_expr test inTest,
      calm_branch.mp (calm_stmt consequent inConsequent)⟩,
      calm_branch.mp (calm_stmt alternate inAlternate)⟩
  | label name body => exact calm_stmt body given
  | «return» value => exact calm_option value given
  | switch test branches =>
    obtain ⟨inTest, inBranches⟩ := throughout_append.mp given
    exact calm_append.mpr ⟨calm_expr test inTest, calm_branches branches inBranches⟩
  | tryCatch body param handler =>
    obtain ⟨inHead, inHandler⟩ := throughout_append.mp given
    obtain ⟨inBody, inParam⟩ := throughout_append.mp inHead
    exact calm_append.mpr ⟨calm_append.mpr ⟨calm_block body inBody,
      calm_patternOption param inParam⟩, calm_block handler inHandler⟩
  | tryFinally body finalizer =>
    obtain ⟨inBody, inFinalizer⟩ := throughout_append.mp given
    exact calm_append.mpr ⟨calm_block body inBody, calm_block finalizer inFinalizer⟩
  | tryCatchFinally body param handler finalizer =>
    obtain ⟨inOthers, inFinalizer⟩ := throughout_append.mp given
    obtain ⟨inHead, inHandler⟩ := throughout_append.mp inOthers
    obtain ⟨inBody, inParam⟩ := throughout_append.mp inHead
    exact calm_append.mpr ⟨calm_append.mpr ⟨calm_append.mpr ⟨calm_block body inBody,
      calm_patternOption param inParam⟩, calm_block handler inHandler⟩,
      calm_block finalizer inFinalizer⟩
  | classDecl exported name heritage members =>
    obtain ⟨inHeritage, inMembers⟩ := throughout_append.mp given
    exact calm_append.mpr ⟨calm_option heritage inHeritage, calm_classMembers members inMembers⟩
  | functionDecl exported name func => exact calm_func func given
  | varDecl isExported keyword declarators => exact calm_declarators declarators given
  | breakTo | comment | continueTo | debugger | empty | exportNames | importNames => exact calm_nil

end

end Calm

end Ending

end Downlevel
