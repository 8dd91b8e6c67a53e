import Downlevel.Proofs.Features
import Downlevel.Proofs.Forms
import Downlevel.Proofs.Pauses.Classes
import Downlevel.Proofs.Pauses.Statements
import Downlevel.Proofs.Pauses.Values

/-! Every part of a program that was read keeps its pauses, by induction on the tree. So a lowered
program pauses where its source does: what a function waits for and hands out stays with the function,
or with the generator that it moves into. -/

namespace Downlevel

open Lowering

namespace Ending

variable {ending : Ending} {site : Site}

section Parts

/-- The forms of a key have its pauses. -/
theorem pauses_keyForms (key : Key) (extent : Extent) :
    (keyForms key).pauses extent = keyPauses extent key := by
  cases key with
  | direct name => rfl
  | computed value => rw [keyForms, KeyForms.pauses, exprForms_source, keyPauses]

/-- The value of an expression carries the pauses that the expression had. -/
theorem CarriesForms.valueOf {e : Expr} (inForms : ending.CarriesForms site (exprForms e)) :
    ending.CarriesExpr site (exprPauses · e) (exprForms e).value := by
  have inValue := inForms.value
  rwa [exprForms_source] at inValue

/-- A default value or a key that is lowered by itself keeps its pauses. -/
theorem CarriesForms.rootedOf {e : Expr} (inForms : ending.CarriesForms site (exprForms e))
    (calm : Calm site (exprPauses .all e)) :
    ending.CarriesExpr site (exprPauses · e) (rooted (exprForms e)) := by
  have inRooted := carries_rooted (by rwa [exprForms_source]) inForms.value
  rwa [exprForms_source] at inRooted

/-- A key carries the pauses that it had. -/
theorem carries_keyOf {key : Key} (inKey : ending.CarriesKey site (keyForms key)) :
    ending.Leaves site (lowerKey (keyForms key)) fun lowered =>
      ending.Carries site (keyPauses · key) (keyPauses .all lowered) := by
  refine (carries_lowerKey inKey).weaken fun lowered ⟨carries, _⟩ => ?_
  rwa [funext (pauses_keyForms key)] at carries

/-- Which pauses of a key are looked at depends on what the member holds. -/
theorem pauses_classMemberKey {span : Span} {key : Key} {isStatic : Bool} {value : MemberValue}
    (extent : Extent) :
    (classMemberForms ⟨span, key, isStatic, value⟩).keyPauses extent
      = if extent.skipsKey key value then [] else keyPauses extent key := by
  unfold ClassMemberForms.keyPauses Extent.skipsKey
  -- Only a field without a value may lose its key, and only in the narrow extent.
  cases extent with
  | all => exact pauses_keyForms key _
  | sure bound =>
    cases value with
    | field init =>
      cases init with
      | some init => exact pauses_keyForms key _
      | none =>
        cases key with
        | direct name => rfl
        | computed value => simp [classMemberForms, memberValueForms, heritageStep, keyForms,
            exprForms_source]
    | staticBlock block =>
      obtain ⟨blockSpan, body⟩ := block
      rfl
    | _ => exact pauses_keyForms key _

/-- A pattern that binds carries the pauses that it had. -/
theorem CarriesPattern.boundOf {pattern : Pattern}
    (inForms : ending.CarriesPattern site (patternForms pattern)) :
    ending.Leaves site (patternForms pattern).bound fun lowered =>
      ending.Carries site (patternPauses · pattern) (patternPauses .all lowered) := by
  have inBound := inForms.bound
  rwa [patternForms_source] at inBound

/-- What a link follows is as it has to be. -/
theorem links_of_follows {link : ChainLink} {object : Expr} (follows : link.Follows object) :
    Links link (exprForms object) where
  goesOn continues := by
    rw [exprForms_source]
    refine (follows continues).imp_right fun isTagged => ?_
    obtain ⟨origin, shape⟩ := object
    cases shape <;> first | rfl | cases isTagged
  covers bound nullish := by
    rw [exprForms_source] at nullish
    exact covers_value bound object nullish

/-- An expression that was read keeps its pauses as a statement. -/
theorem carries_exprStmt {origin : Origin} {shape : Shape} (span : Span)
    (whole : origin.collapsed = false)
    (inValue : ending.CarriesExpr site (exprPauses · ⟨origin, shape⟩)
      (exprForms ⟨origin, shape⟩).value) :
    ending.Leaves site (do return exprStmt span (← (exprForms ⟨origin, shape⟩).value)) fun stmts =>
      ending.Carries site (exprPauses · ⟨origin, shape⟩) (stmtsPauses .all stmts) := by
  refine (inValue.ensuring (neat_shape whole shape)).bind fun e => .pure fun ⟨carries, isNeat⟩ => ?_
  rwa [isNeat span]

/-- An expression that was read has its pauses in an origin of its own. -/
theorem given_origin {e : Expr} (isRead : ending.isRead)
    (given : ending.Given site (exprNodes e)) : e.origin.collapsed = false := by
  obtain ⟨origin, shape⟩ := e
  exact (throughout_cons.mp given).1.formed isRead

/-- What waits does so where it can, given that the tree is well placed. -/
theorem TakesAwait.placed (takes : ending.TakesAwait site) (placed : ¬ending.misplaced) :
    site = .inside .standIn ∨ site.canAwait = true := by
  rcases takes with standIn | await | misplaced
  · exact .inl standIn
  · exact .inr await
  · exact absurd misplaced placed

end Parts

variable (isRead : ending.isRead) (placed : ¬ending.misplaced)

set_option linter.unusedSectionVars false

include isRead placed

mutual

/-- Every form of an expression keeps the pauses of the expression. -/
theorem carries_expr (e : Expr) {site : Site} (given : ending.Given site (exprNodes e)) :
    ending.CarriesForms site (exprForms e) := by
  obtain ⟨origin, shape⟩ := e
  obtain ⟨takes, inside⟩ := given_expr given
  exact carries_shape origin shape takes inside

/-- The same for a shape, given that it is allowed where it stands. -/
theorem carries_shape (origin : Origin) (shape : Shape) {site : Site}
    (takes : ending.Takes site (.shape shape)) (given : ending.Given site (shapeNodes shape)) :
    ending.CarriesForms site (shapeForms origin shape) := by
  -- One form at a time, in the order of the data type: the parts keep their pauses by the walk.
  cases shape with
  | arrow func =>
    refine carries_plainForms rfl ((carries_funcStep func given).bind fun func => ?_)
    refine (leaves_lacks .arrow).andThen fun isLacking =>
      .ite (fun _ => .pure fun carries => ?_) fun _ => .pure id
    rw [pauses_arrowToFunction]
    exact carries
  | binary op left right =>
    obtain ⟨inLeft, inRight⟩ := throughout_append.mp given
    refine carries_plainForms rfl ?_
    have inBinary := carries_binary origin op (carries_expr left inLeft) (carries_expr right inRight).value
    rwa [exprForms_source, exprForms_source] at inBinary
  | call link isPure callee args =>
    obtain ⟨inCallee, inArgs⟩ := throughout_append.mp given
    exact carries_callForms isPure (carries_expr callee inCallee)
      (links_of_follows (takes.formed isRead)) (carries_args args inArgs)
  | classExpr name heritage members =>
    obtain ⟨inHeritage, inMembers⟩ := throughout_append.mp given
    refine carries_plainForms rfl ((carries_classExpression origin.span name members
      (carries_heritageStep heritage inHeritage) (carries_classMembers members inMembers)).weaken ?_)
    intro e carries
    simpa [classMembersPauses_eq, List.flatMap_map] using carries
  | computed link object key =>
    obtain ⟨inObject, inKey⟩ := throughout_append.mp given
    exact carries_computedForms (carries_expr object inObject)
      (links_of_follows (takes.formed isRead)) (carries_expr key inKey).value
  | cond test consequent alternate =>
    obtain ⟨⟨inTest, inConsequent⟩, inAlternate⟩ := by
      simpa only [shapeNodes, throughout_append] using given
    refine carries_plainForms rfl ((carries_expr test inTest).valueOf.bind fun _ =>
      (carries_expr consequent inConsequent).valueOf.bind fun _ =>
      (carries_expr alternate inAlternate).valueOf.bind fun _ => .pure ?_)
    exact fun carriesAlternate carriesConsequent carriesTest =>
      (carriesTest.append carriesConsequent).append carriesAlternate
  | function name func =>
    exact carries_plainForms rfl ((carries_funcStep func given).bind fun _ => .pure id)
  | id name =>
    exact carries_nameForms name
  | importCall module =>
    exact carries_plainForms rfl ((carries_expr module given).valueOf.bind fun _ => .pure id)
  | member link object name =>
    exact carries_memberForms (carries_expr object given) (links_of_follows (takes.formed isRead)) name
  | new callee args =>
    obtain ⟨inCallee, inArgs⟩ := throughout_append.mp given
    refine carries_plainForms rfl ((carries_expr callee inCallee).valueOf.bind fun _ =>
      (carries_args args inArgs).bind fun _ => .pure fun carriesArgs carries => ?_)
    exact carries.append carriesArgs
  | tagged tag head spans =>
    obtain ⟨inTag, inSpans⟩ := throughout_append.mp given
    refine carries_plainForms rfl ?_
    have inTagged := carries_taggedTemplate origin head (carries_expr tag inTag)
      (carries_spans spans inSpans)
    rwa [exprForms_source] at inTagged
  | this =>
    refine carries_plainForms rfl (leaves_resolveThis.andThen fun found => ?_)
    cases found with
    | some name => exact .pure (carries_nil rfl)
    | none => exact .pure (carries_nil rfl)
  | unary op operand =>
    refine carries_plainForms rfl ?_
    have inUnary := carries_unary origin op (carries_expr operand given) fun isAwait =>
      (takes.await (by rw [isAwait]; trivial)).placed placed
    rwa [exprForms_source] at inUnary
  | update op operand =>
    have inTarget := (carries_expr operand given).target
    rw [exprForms_source] at inTarget
    exact carries_plainForms rfl (inTarget.bind fun e => .pure id)
  | yield isDelegated operand =>
    refine carries_plainForms rfl ((carries_option operand given).bind fun operand => ?_)
    cases operand with
    | none => exact .pure fun carries => carries.append (carries_handOut origin.span)
    | some operand =>
      dsimp only
      split
      · refine (carries_delegated _ operand).bind fun marked => .pure fun same carries => ?_
        rw [optionPauses, ← same] at carries
        exact carries.append (carries_handOut origin.span)
      · exact .pure fun carries => carries.append (carries_handOut origin.span)
  | array items =>
    exact carries_plainForms rfl ((carries_items items given).bind fun _ => .pure id)
  | bigint digits =>
    refine carries_plainForms rfl ((leaves_lacks .bigint).andThen fun isLacking => ?_)
    exact .ite (fun _ => .pure (carries_nil rfl)) fun _ => .pure (carries_nil rfl)
  | object members =>
    refine carries_plainForms rfl ((carries_objectMembers members given).bind fun members => ?_)
    refine (carries_objectLiteral origin members).weaken fun e same carries => ?_
    rw [same]
    exact carries
  | template head spans =>
    refine carries_plainForms rfl ((carries_spans spans given).bind fun spans => ?_)
    refine (leaves_lacks .templateLiteral).andThen fun isLacking => .ite (fun _ => ?_) fun _ => .pure id
    rw [templateToSum_eq]
    refine .pure fun carries => ?_
    rw [pauses_templateSum]
    exact carries
  | arrayPattern slots rest =>
    obtain ⟨inSlots, inRest⟩ := throughout_append.mp given
    exact carries_assignedPattern rfl ((carries_slots false slots inSlots).bind fun _ =>
      (carries_patternOption rest inRest).bind fun _ => .pure fun carriesRest carries =>
        carries.append carriesRest)
  | objectPattern properties rest =>
    obtain ⟨inProperties, inRest⟩ := throughout_append.mp given
    exact carries_assignedPattern rfl ((carries_properties false properties inProperties).bind fun _ =>
      (carries_patternOption rest inRest).bind fun _ => .pure fun carriesRest carries =>
        carries.append carriesRest)
  | importMeta | newTarget | super | bool | null | num | regex | str =>
    exact carries_plainForms rfl (.pure (carries_nil rfl))

/-- An expression that may be absent keeps its pauses. -/
theorem carries_option (e : Option Expr) {site : Site} (given : ending.Given site (optionNodes e)) :
    ending.Leaves site (optionStep e) fun lowered =>
      ending.Carries site (optionPauses · e) (optionPauses .all lowered) := by
  cases e with
  | none => exact .pure (carries_nil rfl)
  | some e => exact (carries_expr e given).valueOf.bind fun _ => .pure id

/-- The base class of a class keeps its pauses. -/
theorem carries_heritageStep (heritage : Option Expr) {site : Site}
    (given : ending.Given site (optionNodes heritage)) :
    ending.Leaves site ((heritageStep heritage).mapM id) fun lowered =>
      ending.Carries site (optionPauses · heritage) (optionPauses .all lowered) := by
  cases heritage with
  | none => exact .pure (carries_nil rfl)
  | some e => exact Leaves.map (carries_expr e given).valueOf

/-- The value of a field keeps its pauses, all of which are inside of functions. -/
theorem carries_init (init : Option Expr) (isStatic : Bool)
    (given : ending.Given (fieldSite isStatic) (optionNodes init)) :
    ending.CarriesInit (fun extent => (optionPauses extent init).map (.into .barred)) isStatic
      (heritageStep init) := by
  cases init with
  | none => exact fun _ => rfl
  | some e =>
    exact ⟨(exprPauses · e), calm_expr placed e given, (carries_expr e given).valueOf, fun _ => rfl⟩

/-- An argument keeps its pauses. -/
theorem carries_arg (arg : Arg) {site : Site} (given : ending.Given site (argNodes arg)) :
    ending.Leaves site (argStep arg) fun lowered =>
      ending.Carries site (argPauses · arg) (argPauses .all lowered) := by
  obtain ⟨isSpread, value⟩ := arg
  exact (carries_expr value given).valueOf.bind fun _ => .pure id

/-- Arguments keep their pauses. -/
theorem carries_args (args : List Arg) {site : Site} (given : ending.Given site (argsNodes args)) :
    ending.Leaves site (argsStep args) fun lowered =>
      ending.Carries site (argsPauses · args) (argsPauses .all lowered) := by
  cases args with
  | nil => exact .pure (carries_nil rfl)
  | cons arg rest =>
    obtain ⟨inArg, inRest⟩ := throughout_append.mp given
    exact (carries_arg arg inArg).bind fun _ => (carries_args rest inRest).bind fun _ =>
      .pure fun carriesRest carries => carries.append carriesRest

/-- A substitution keeps its pauses. -/
theorem carries_span (span : TemplateSpan) {site : Site}
    (given : ending.Given site (spanNodes span)) :
    ending.Leaves site (spanStep span) fun lowered =>
      ending.Carries site (spanPauses · span) (spanPauses .all lowered) := by
  obtain ⟨value, text⟩ := span
  exact (carries_expr value given).valueOf.bind fun _ => .pure id

/-- Substitutions keep their pauses. -/
theorem carries_spans (spans : List TemplateSpan) {site : Site}
    (given : ending.Given site (spansNodes spans)) :
    ending.Leaves site (spansStep spans) fun lowered =>
      ending.Carries site (spansPauses · spans) (spansPauses .all lowered) := by
  cases spans with
  | nil => exact .pure (carries_nil rfl)
  | cons span rest =>
    obtain ⟨inSpan, inRest⟩ := throughout_append.mp given
    exact (carries_span span inSpan).bind fun _ => (carries_spans rest inRest).bind fun _ =>
      .pure fun carriesRest carries => carries.append carriesRest

/-- An element of an array literal keeps its pauses. -/
theorem carries_item (item : ArrayItem) {site : Site}
    (given : ending.Given site (itemNodes item)) :
    ending.Leaves site (itemStep item) fun lowered =>
      ending.Carries site (itemPauses · item) (itemPauses .all lowered) := by
  cases item with
  | single value | spread value =>
    exact (carries_expr value given).valueOf.bind fun _ => .pure id
  | hole => exact .pure (carries_nil rfl)

/-- The elements of an array literal keep their pauses. -/
theorem carries_items (items : List ArrayItem) {site : Site}
    (given : ending.Given site (itemsNodes items)) :
    ending.Leaves site (itemsStep items) fun lowered =>
      ending.Carries site (itemsPauses · items) (itemsPauses .all lowered) := by
  cases items with
  | nil => exact .pure (carries_nil rfl)
  | cons item rest =>
    obtain ⟨inItem, inRest⟩ := throughout_append.mp given
    exact (carries_item item inItem).bind fun _ => (carries_items rest inRest).bind fun _ =>
      .pure fun carriesRest carries => carries.append carriesRest

/-- A computed key keeps its pauses, wherever it is evaluated. -/
theorem carries_keyForms (key : Key) {site : Site} (given : ending.Given site (keyNodes key)) :
    ending.CarriesKey site (keyForms key) := by
  cases key with
  | direct name => trivial
  | computed value =>
    have calm := calm_expr placed value given
    exact ⟨by rwa [exprForms_source], (carries_expr value given).value, (resembles_expr value).vanishes⟩

/-- What a member of an object literal holds keeps its pauses. -/
theorem carries_objectValue (value : MemberValue) {site : Site}
    (given : ending.Given site (memberValueNodes value)) (isOfObject : value.isOfObject = true) :
    ending.Leaves site (objectValueStep value) fun lowered =>
      ending.Carries site (memberValuePauses · value) (memberValuePauses .all lowered) := by
  cases value with
  | getter func | setter func | method func =>
    exact (carries_funcStep func given).bind fun _ => .pure id
  | field init => exact (carries_option init given).bind fun _ => .pure id
  | accessor init | staticBlock block => cases isOfObject

/-- A member of an object literal keeps its pauses. -/
theorem carries_objectMember (member : ObjectMember) {site : Site}
    (given : ending.Given site (objectMemberNodes member)) :
    ending.Leaves site (objectMemberStep member) fun lowered =>
      ending.Carries site (objectMemberPauses · member) (objectMemberPauses .all lowered) := by
  -- A shorthand is a name, which holds no pause however it is renamed.
  cases member with
  | valued span key value =>
    simp only [objectMemberNodes, throughout_cons, throughout_append, Site.into_own_false] at given
    obtain ⟨takes, inKey, inValue⟩ := given
    exact (carries_keyOf (carries_keyForms key inKey)).bind fun key =>
      (carries_objectValue value inValue (takes.formed isRead)).bind fun value =>
        .pure fun carriesValue carries => carries.append carriesValue
  | shorthand span name =>
    refine (carries_shorthandMember span name).weaken fun lowered none => ?_
    rw [none]
    exact carries_nil rfl
  | spread span value =>
    exact (carries_expr value (throughout_cons.mp given).2).valueOf.bind fun _ => .pure id

/-- The members of an object literal keep their pauses. -/
theorem carries_objectMembers (members : List ObjectMember) {site : Site}
    (given : ending.Given site (objectMembersNodes members)) :
    ending.Leaves site (objectMembersStep members) fun lowered =>
      ending.Carries site (objectMembersPauses · members) (objectMembersPauses .all lowered) := by
  cases members with
  | nil => exact .pure (carries_nil rfl)
  | cons member rest =>
    obtain ⟨inMember, inRest⟩ := throughout_append.mp given
    exact (carries_objectMember member inMember).bind fun _ =>
      (carries_objectMembers rest inRest).bind fun _ =>
        .pure fun carriesRest carries => carries.append carriesRest

/-- A member of a class keeps its pauses: its key where it stands, and its value in the class. -/
theorem carries_classMember (member : ClassMember) {site : Site}
    (given : ending.Given site (classMemberNodes member)) :
    ending.CarriesMember site (classMemberPauses · member) (classMemberForms member) := by
  obtain ⟨span, key, isStatic, value⟩ := member
  obtain ⟨inKey, inValue⟩ := given_classMember.mp given
  refine ⟨carries_keyForms key inKey, fun extent => (memberValuePauses extent value).map (.into .barred),
    ?_, fun extent => ?_⟩
  · -- A function is the same wherever it stands, and initializers run where their field says.
    cases value with
    | getter func | setter func | method func =>
      have inFunc : ending.Leaves site (funcStep func) fun lowered =>
          ending.Carries site (funcPauses · func) (funcPauses .all lowered) :=
        carries_funcStep func (given_func.mpr (given_func.mp inValue))
      simp only [memberValuePauses, into_funcPauses]
      exact inFunc
    | field init | accessor init =>
      exact carries_init init isStatic (into_fieldSite isStatic ▸ inValue)
    | staticBlock block =>
      obtain ⟨blockSpan, body⟩ := block
      exact ⟨(stmtsPauses · body), calm_stmts placed body inValue, carries_stmts body inValue,
        fun _ => rfl⟩
  · rw [classMemberPauses, pauses_classMemberKey]

/-- The same for the members of a class, one by one. -/
theorem carries_classMembers (members : List ClassMember) {site : Site}
    (given : ending.Given site (classMembersNodes members)) :
    List.Forall₂ (ending.CarriesMember site)
      (members.map fun member extent => classMemberPauses extent member)
      (classMembersForms members) := by
  cases members with
  | nil => exact .nil
  | cons member rest =>
    obtain ⟨inMember, inRest⟩ := throughout_append.mp given
    exact .cons (carries_classMember member inMember) (carries_classMembers rest inRest)

/-- A function keeps its pauses, also if it moves into a generator. -/
theorem carries_funcStep (func : Func) {site : Site} (given : ending.Given site (funcNodes func)) :
    ending.Leaves site (funcStep func) fun lowered =>
      ending.Carries site (funcPauses · func) (funcPauses .all lowered) := by
  obtain ⟨span, isArrow, isAsync, isGenerator, params, body⟩ := func
  obtain ⟨inParams, inBody⟩ := given_func.mp given
  exact carries_func (calm_params placed params inParams) (carries_params params inParams)
    fun mode onlyAsync => carries_body body (inBody.body onlyAsync)

/-- The body of a function keeps its pauses. -/
theorem carries_body (body : Body) {site : Site} (given : ending.Given site (bodyNodes body)) :
    ending.Leaves site (bodyStep body) fun lowered =>
      ending.Carries site (bodyPauses · body) (bodyPauses .all lowered) := by
  cases body with
  | block stmts => exact (carries_stmts stmts given).bind fun _ => .pure id
  | value result => exact (carries_expr result given).valueOf.bind fun _ => .pure id

/-- The default value of a parameter keeps its pauses. -/
theorem carries_defaultForms (default : Option Expr) {site : Site}
    (given : ending.Given site (optionNodes default)) :
    ending.Leaves site ((optionForms default).mapM rooted) fun lowered =>
      ending.Carries site (optionPauses · default) (optionPauses .all lowered) := by
  cases default with
  | none => exact .pure (carries_nil rfl)
  | some e => exact Leaves.map ((carries_expr e given).rootedOf (calm_expr placed e given))

/-- A parameter keeps its pauses. -/
theorem carries_paramStep (param : Param) {site : Site}
    (given : ending.Given site (paramNodes param)) :
    ending.Leaves site (paramStep param) fun lowered =>
      ending.Carries site (paramPauses · param) (paramPauses .all lowered) := by
  obtain ⟨span, isRest, pattern, default⟩ := param
  obtain ⟨inPattern, inDefault⟩ := throughout_append.mp (throughout_cons.mp given).2
  exact carries_param (carries_pattern pattern inPattern) (patternForms_source pattern)
    (carries_defaultForms default inDefault)

/-- Parameters keep their pauses. -/
theorem carries_params (params : List Param) {site : Site}
    (given : ending.Given site (paramsNodes params)) :
    ending.Leaves site (paramsStep params) fun lowered =>
      ending.Carries site (paramsPauses · params) (paramsPauses .all lowered) := by
  cases params with
  | nil => exact .pure (carries_nil rfl)
  | cons param rest =>
    obtain ⟨inParam, inRest⟩ := throughout_append.mp given
    exact (carries_paramStep param inParam).bind fun _ => (carries_params rest inRest).bind fun _ =>
      .pure fun carriesRest carries => carries.append carriesRest

/-- A pattern keeps its pauses, both where it binds and where it only assigns. -/
theorem carries_pattern (pattern : Pattern) {site : Site}
    (given : ending.Given site (patternNodes pattern)) :
    ending.CarriesPattern site (patternForms pattern) := by
  -- The same parts are lowered twice, once bound and once assigned to.
  cases pattern with
  | id span name => exact ⟨.pure (carries_nil rfl), carries_nameForms name, fun _ => rfl⟩
  | array span slots rest =>
    obtain ⟨inSlots, inRest⟩ := given_arrayPattern given
    refine ⟨?_, carries_assignedPattern rfl ?_, fun _ => rfl⟩
    · exact (carries_slots true slots inSlots).bind fun _ =>
        (carries_patternOption rest inRest).bind fun _ => .pure fun carriesRest carries =>
          carries.append carriesRest
    · exact (carries_slots false slots inSlots).bind fun _ =>
        (carries_patternOption rest inRest).bind fun _ => .pure fun carriesRest carries =>
          carries.append carriesRest
  | object span properties rest =>
    obtain ⟨inProperties, inRest⟩ := given_objectPattern given
    refine ⟨?_, carries_assignedPattern rfl ?_, fun _ => rfl⟩
    · exact (carries_properties true properties inProperties).bind fun _ =>
        (carries_patternOption rest inRest).bind fun _ => .pure fun carriesRest carries =>
          carries.append carriesRest
    · exact (carries_properties false properties inProperties).bind fun _ =>
        (carries_patternOption rest inRest).bind fun _ => .pure fun carriesRest carries =>
          carries.append carriesRest
  | target span place =>
    have inForms := carries_expr place (given_targetPattern given).2
    have source := exprForms_source place
    refine ⟨inForms.target.bind fun e => .pure fun carries => ?_, inForms, fun extent => ?_⟩
    · rw [source] at carries
      exact carries
    · exact congrArg (exprPauses extent) source

/-- The forms of a pattern that may be absent keep its pauses. -/
theorem carries_patternOptionForms (pattern : Option Pattern) {site : Site}
    (given : ending.Given site (patternOptionNodes pattern)) :
    (∀ forms ∈ patternOptionForms pattern, ending.CarriesPattern site forms)
      ∧ (patternOptionForms pattern).map (·.source) = pattern := by
  cases pattern with
  | none => exact ⟨nofun, rfl⟩
  | some pattern =>
    refine ⟨?_, congrArg some (patternForms_source pattern)⟩
    rintro forms ⟨⟩
    exact carries_pattern pattern given

/-- A pattern that may be absent keeps its pauses. -/
theorem carries_patternOption (pattern : Option Pattern) {site : Site}
    (given : ending.Given site (patternOptionNodes pattern)) :
    ending.Leaves site (patternOptionStep pattern) fun lowered =>
      ending.Carries site (patternOptionPauses · pattern) (patternOptionPauses .all lowered) := by
  cases pattern with
  | none => exact .pure (carries_nil rfl)
  | some pattern => exact (carries_pattern pattern given).boundOf.bind fun _ => .pure id

/-- A default value keeps its pauses, whether it belongs to a parameter or not. -/
theorem carries_defaultStep (isBound : Bool) (default : Option Expr) {site : Site}
    (given : ending.Given site (optionNodes default)) :
    ending.Leaves site (defaultStep isBound default) fun lowered =>
      ending.Carries site (optionPauses · default) (optionPauses .all lowered) := by
  cases default with
  | none => exact .pure (carries_nil rfl)
  | some e =>
    exact .ite (fun _ => ((carries_expr e given).rootedOf (calm_expr placed e given)).bind fun _ => .pure id)
      fun _ => (carries_expr e given).valueOf.bind fun _ => .pure id

/-- An element of an array pattern keeps its pauses. -/
theorem carries_slot (isBound : Bool) (slot : PatternSlot) {site : Site}
    (given : ending.Given site (slotNodes slot)) :
    ending.Leaves site (slotStep isBound slot) fun lowered =>
      ending.Carries site (slotPauses · slot) (slotPauses .all lowered) := by
  cases slot with
  | hole => exact .pure (carries_nil rfl)
  | slot target default =>
    obtain ⟨inTarget, inDefault⟩ := throughout_append.mp given
    exact (carries_pattern target inTarget).boundOf.bind fun _ =>
      (carries_defaultStep isBound default inDefault).bind fun _ =>
        .pure fun carriesDefault carries => carries.append carriesDefault

/-- The elements of an array pattern keep their pauses. -/
theorem carries_slots (isBound : Bool) (slots : List PatternSlot) {site : Site}
    (given : ending.Given site (slotsNodes slots)) :
    ending.Leaves site (slotsStep isBound slots) fun lowered =>
      ending.Carries site (slotsPauses · slots) (slotsPauses .all lowered) := by
  cases slots with
  | nil => exact .pure (carries_nil rfl)
  | cons slot rest =>
    obtain ⟨inSlot, inRest⟩ := throughout_append.mp given
    exact (carries_slot isBound slot inSlot).bind fun _ =>
      (carries_slots isBound rest inRest).bind fun _ =>
        .pure fun carriesRest carries => carries.append carriesRest

/-- A property of an object pattern keeps its pauses. -/
theorem carries_property (isBound : Bool) (property : PatternProperty) {site : Site}
    (given : ending.Given site (propertyNodes property)) :
    ending.Leaves site (propertyStep isBound property) fun lowered =>
      ending.Carries site (propertyPauses · property) (propertyPauses .all lowered) := by
  obtain ⟨span, key, target, isShorthand, default⟩ := property
  obtain ⟨inOthers, inDefault⟩ := throughout_append.mp given
  obtain ⟨inKey, inTarget⟩ := throughout_append.mp inOthers
  exact (carries_keyOf (carries_keyForms key inKey)).bind fun _ =>
    (carries_pattern target inTarget).boundOf.bind fun _ =>
    (carries_defaultStep isBound default inDefault).bind fun _ => .pure
      fun carriesDefault carriesTarget carries =>
        (carries.append carriesTarget).append carriesDefault

/-- The properties of an object pattern keep their pauses. -/
theorem carries_properties (isBound : Bool) (properties : List PatternProperty) {site : Site}
    (given : ending.Given site (propertiesNodes properties)) :
    ending.Leaves site (propertiesStep isBound properties) fun lowered =>
      ending.Carries site (propertiesPauses · properties) (propertiesPauses .all lowered) := by
  cases properties with
  | nil => exact .pure (carries_nil rfl)
  | cons property rest =>
    obtain ⟨inProperty, inRest⟩ := throughout_append.mp given
    exact (carries_property isBound property inProperty).bind fun _ =>
      (carries_properties isBound rest inRest).bind fun _ =>
        .pure fun carriesRest carries => carries.append carriesRest

/-- A declarator keeps its pauses. -/
theorem carries_declaratorStep (declarator : Declarator) {site : Site}
    (given : ending.Given site (declaratorNodes declarator)) :
    ending.Leaves site (declaratorStep declarator) fun lowered =>
      ending.Carries site (declaratorPauses · declarator) (declaratorPauses .all lowered) := by
  obtain ⟨pattern, init⟩ := declarator
  obtain ⟨inPattern, inInit⟩ := throughout_append.mp (throughout_cons.mp given).2
  have declared := carries_declaredPattern (carries_pattern pattern inPattern)
  rw [patternForms_source] at declared
  exact declared.bind fun _ => (carries_option init inInit).bind fun _ => .pure
    fun carriesInit carries => carries.append carriesInit

/-- Declarators keep their pauses. -/
theorem carries_declarators (declarators : List Declarator) {site : Site}
    (given : ending.Given site (declaratorsNodes declarators)) :
    ending.Leaves site (declaratorsStep declarators) fun lowered =>
      ending.Carries site (declaratorsPauses · declarators) (declaratorsPauses .all lowered) := by
  cases declarators with
  | nil => exact .pure (carries_nil rfl)
  | cons declarator rest =>
    obtain ⟨inDeclarator, inRest⟩ := throughout_append.mp given
    exact (carries_declaratorStep declarator inDeclarator).bind fun _ =>
      (carries_declarators rest inRest).bind fun _ => .pure
        fun carriesRest carries => carries.append carriesRest

/-- Statements in braces keep their pauses. -/
theorem carries_block (block : Block) {site : Site}
    (given : ending.Given site (blockNodes block)) :
    ending.Leaves site (blockStep block) fun lowered =>
      ending.Carries site (blockPauses · block) (blockPauses .all lowered) := by
  obtain ⟨span, body⟩ := block
  exact (carries_stmts body given).bind fun _ => .pure id

/-- Statements keep their pauses. -/
theorem carries_stmts (stmts : List Stmt) {site : Site}
    (given : ending.Given site (stmtsNodes stmts)) :
    ending.Leaves site (stmtsStep stmts) fun lowered =>
      ending.Carries site (stmtsPauses · stmts) (stmtsPauses .all lowered) := by
  cases stmts with
  | nil => exact .pure (carries_nil rfl)
  | cons stmt rest =>
    obtain ⟨inStmt, inRest⟩ := throughout_append.mp given
    refine (carries_stmt stmt inStmt).stmts.bind fun _ => (carries_stmts rest inRest).bind fun _ =>
      .pure fun carriesRest carries => ?_
    simpa using carries.append carriesRest

/-- A branch of a switch keeps its pauses. -/
theorem carries_branch (branch : SwitchBranch) {site : Site}
    (given : ending.Given site (branchNodes branch)) :
    ending.Leaves site (branchStep branch) fun lowered =>
      ending.Carries site (branchPauses · branch) (branchPauses .all lowered) := by
  obtain ⟨span, test, body⟩ := branch
  obtain ⟨inTest, inBody⟩ := throughout_append.mp given
  exact (carries_option test inTest).bind fun _ => (carries_stmts body inBody).bind fun _ =>
    .pure fun carriesBody carries => carries.append carriesBody

/-- The branches of a switch keep their pauses. -/
theorem carries_branches (branches : List SwitchBranch) {site : Site}
    (given : ending.Given site (branchesNodes branches)) :
    ending.Leaves site (branchesStep branches) fun lowered =>
      ending.Carries site (branchesPauses · branches) (branchesPauses .all lowered) := by
  cases branches with
  | nil => exact .pure (carries_nil rfl)
  | cons branch rest =>
    obtain ⟨inBranch, inRest⟩ := throughout_append.mp given
    exact (carries_branch branch inBranch).bind fun _ => (carries_branches rest inRest).bind fun _ =>
      .pure fun carriesRest carries => carries.append carriesRest

/-- A statement keeps its pauses, with or without its braces. -/
theorem carries_stmt (stmt : Stmt) {site : Site} (given : ending.Given site (stmtNodes stmt)) :
    ending.CarriesStmt site (stmtPauses · stmt) (stmtForms stmt) := by
  obtain ⟨span, shape⟩ := stmt
  obtain ⟨takes, inside⟩ := given_stmt.mp given
  have inShape := carries_stmtShape span shape takes inside
  cases shape with
  | block body => exact ⟨inShape, carries_stmts body inside⟩
  | _ => exact ⟨inShape, inShape⟩

/-- The same for the shape of a statement, given that it is allowed where it stands. -/
theorem carries_stmtShape (span : Span) (shape : StmtShape) {site : Site}
    (takes : ending.Takes site (.stmt shape)) (given : ending.Given site (stmtShapeNodes shape)) :
    ending.Leaves site (stmtShapeStep span shape) fun stmts =>
      ending.Carries site (stmtShapePauses · span shape) (stmtsPauses .all stmts) := by
  -- A single statement has the pauses of its shape.
  have single {source : Extent → List Pause} {last : StmtShape}
      (carries : ending.Carries site source (stmtShapePauses .all span last)) :
      ending.Carries site source (stmtsPauses .all [⟨span, last⟩]) := by
    simpa using carries
  cases shape with
  | block body => exact (carries_stmts body given).bind fun _ => .pure fun carries => single carries
  | doWhile condition body =>
    obtain ⟨inCondition, inBody⟩ := throughout_append.mp given
    exact (carries_stmt body inBody).single.bind fun _ =>
      (carries_expr condition inCondition).valueOf.bind fun _ => .pure
        fun carries carriesBody => single (carries.append carriesBody)
  | exportDefault value =>
    exact (carries_expr value given).valueOf.bind fun _ => .pure fun carries => single carries
  | exportNames names module =>
    refine (carries_exportStatement span names module).weaken fun stmts none => ?_
    rw [none]
    exact carries_nil rfl
  | expr value =>
    obtain ⟨origin, shape⟩ := value
    exact carries_exprStmt span (given_origin isRead given) (carries_expr _ given).valueOf
  | forIn keyword binding subject body =>
    obtain ⟨inHead, inBody⟩ := throughout_append.mp given
    obtain ⟨inBinding, inSubject⟩ := throughout_append.mp inHead
    have inPattern := carries_loopBinding keyword (carries_pattern binding inBinding)
    rw [patternForms_source] at inPattern
    exact inPattern.bind fun _ => (carries_expr subject inSubject).valueOf.bind fun _ =>
      (carries_stmt body inBody).single.bind fun _ => .pure fun carriesBody carriesSubject carries =>
        single ((carries.append carriesSubject).append carriesBody)
  | forOf isAwait keyword binding subject body =>
    obtain ⟨inHead, inBody⟩ := throughout_append.mp given
    obtain ⟨inBinding, inSubject⟩ := throughout_append.mp inHead
    have inPattern := carries_pattern binding inBinding
    have subjects := (carries_expr subject inSubject).valueOf
    have bodies := carries_stmt body inBody
    have source := patternForms_source binding
    cases isAwait with
    | true =>
      have inLoop := carries_forAwaitLoop span keyword inPattern subjects bodies
        ((takes.await trivial).placed placed)
      rw [source] at inLoop
      exact inLoop.bind fun stmt => .pure fun carries => by simpa using carries
    | false =>
      refine (leaves_require .forOf span .forOfLoop).andThen fun _ => ?_
      have inLoop := carries_nativeLoop span false keyword inPattern subjects bodies
      rw [source] at inLoop
      refine inLoop.bind fun stmt => .pure ?_
      rintro ⟨inside, carries, same⟩
      simpa [same] using carries
  | forLoop init condition post body =>
    obtain ⟨inHead, inBody⟩ := throughout_append.mp given
    obtain ⟨inStart, inPost⟩ := throughout_append.mp inHead
    obtain ⟨inInit, inCondition⟩ := throughout_append.mp inStart
    exact (carries_option init inInit).bind fun _ => (carries_option condition inCondition).bind
      fun _ => (carries_option post inPost).bind fun _ => (carries_stmt body inBody).single.bind
      fun _ => .pure fun carriesBody carriesPost carriesCondition carries =>
        single (((carries.append carriesCondition).append carriesPost).append carriesBody)
  | forDecl declSpan keyword declarators condition post body =>
    obtain ⟨inHead, inBody⟩ := throughout_append.mp given
    obtain ⟨inStart, inPost⟩ := throughout_append.mp inHead
    obtain ⟨inDeclarators, inCondition⟩ := throughout_append.mp inStart
    exact (carries_varDeclarators declSpan keyword
      (carries_declarators declarators inDeclarators)).bind fun _ =>
      (carries_option condition inCondition).bind fun _ => (carries_option post inPost).bind fun _ =>
      (carries_stmt body inBody).single.bind fun _ => .pure
        fun carriesBody carriesPost carriesCondition carries =>
          single (((carries.append carriesCondition).append carriesPost).append carriesBody)
  | ifThen test consequent =>
    obtain ⟨inTest, inConsequent⟩ := throughout_append.mp given
    rw [throughout_into] at inConsequent
    exact (carries_ifThen span (carries_expr test inTest).valueOf
      fun isDead => carries_stmt consequent (Given.branch inConsequent)).bind
      fun stmt => .pure fun carries => by simpa using carries
  | ifElse test consequent alternate =>
    obtain ⟨inHead, inAlternate⟩ := throughout_append.mp given
    obtain ⟨inTest, inConsequent⟩ := throughout_append.mp inHead
    rw [throughout_into] at inConsequent inAlternate
    exact (carries_ifElse span (carries_expr test inTest).valueOf
      (fun isDead => carries_stmt consequent (Given.branch inConsequent))
      fun isDead => carries_stmt alternate (Given.branch inAlternate)).bind
      fun stmt => .pure fun carries => by simpa using carries
  | label name body =>
    exact (carries_stmt body given).single.bind fun _ => .pure fun carries => single carries
  | «return» value => exact (carries_option value given).bind fun _ => .pure fun carries => single carries
  | switch test branches =>
    obtain ⟨inTest, inBranches⟩ := throughout_append.mp given
    exact (carries_expr test inTest).valueOf.bind fun _ =>
      (carries_branches branches inBranches).bind fun _ => .pure fun carriesBranches carries =>
        single (carries.append carriesBranches)
  | throw value => exact (carries_expr value given).valueOf.bind fun _ => .pure fun carries => single carries
  | tryCatch body param handler =>
    obtain ⟨handlerSpan, handler⟩ := handler
    obtain ⟨inHead, inHandler⟩ := throughout_append.mp given
    obtain ⟨inBody, inParam⟩ := throughout_append.mp inHead
    obtain ⟨carriesParam, same⟩ := carries_patternOptionForms param inParam
    exact (carries_block body inBody).bind fun _ =>
      (carries_handlerParam handlerSpan carriesParam same).bind fun _ =>
      (carries_stmts handler inHandler).bind fun _ => .pure
        fun carriesHandler carriesParam carries =>
          single ((carries.append carriesParam).append carriesHandler)
  | tryFinally body finalizer =>
    obtain ⟨inBody, inFinalizer⟩ := throughout_append.mp given
    exact (carries_block body inBody).bind fun _ => (carries_block finalizer inFinalizer).bind
      fun _ => .pure fun carriesFinalizer carries => single (carries.append carriesFinalizer)
  | tryCatchFinally body param handler finalizer =>
    obtain ⟨handlerSpan, handler⟩ := handler
    obtain ⟨inOthers, inFinalizer⟩ := throughout_append.mp given
    obtain ⟨inHead, inHandler⟩ := throughout_append.mp inOthers
    obtain ⟨inBody, inParam⟩ := throughout_append.mp inHead
    obtain ⟨carriesParam, same⟩ := carries_patternOptionForms param inParam
    exact (carries_block body inBody).bind fun _ =>
      (carries_handlerParam handlerSpan carriesParam same).bind fun _ =>
      (carries_stmts handler inHandler).bind fun _ =>
      (carries_block finalizer inFinalizer).bind fun _ => .pure
        fun carriesFinalizer carriesHandler carriesParam carries =>
          single (((carries.append carriesParam).append carriesHandler).append carriesFinalizer)
  | «while» condition body =>
    obtain ⟨inCondition, inBody⟩ := throughout_append.mp given
    exact (carries_expr condition inCondition).valueOf.bind fun _ =>
      (carries_stmt body inBody).single.bind fun _ => .pure fun carriesBody carries =>
        single (carries.append carriesBody)
  | «with» object body =>
    obtain ⟨inObject, inBody⟩ := throughout_append.mp given
    exact (carries_expr object inObject).valueOf.bind fun _ =>
      (carries_stmt body inBody).single.bind fun _ => .pure fun carriesBody carries =>
        single (carries.append carriesBody)
  | classDecl exported name heritage members =>
    obtain ⟨inHeritage, inMembers⟩ := throughout_append.mp given
    refine (carries_classDeclaration span exported name members
      (carries_heritageStep heritage inHeritage) (carries_classMembers members inMembers)).weaken ?_
    intro stmts carries
    simpa [classMembersPauses_eq, List.flatMap_map] using carries
  | functionDecl exported name func =>
    exact (carries_funcStep func given).bind fun _ => .pure fun carries => single carries
  | varDecl isExported keyword declarators =>
    exact (carries_varDeclarators span keyword (carries_declarators declarators given)).bind
      fun _ => .pure fun carries => single carries
  | importNames => exact .pure (single (carries_nil rfl))
  | breakTo | comment | continueTo | debugger | empty => exact .pure (single (carries_nil rfl))

end

end Ending

namespace Ending

variable {ending : Ending} {site : Site}

/-- The statements of a module keep their pauses, with the names that they need in front of them. -/
theorem carries_module (isRead : ending.isRead) (placed : ¬ending.misplaced) (stmts : List Stmt)
    (given : ending.Given site (stmtsNodes stmts)) :
    ending.Leaves site (moduleStep stmts) fun lowered =>
      ending.Carries site (stmtsPauses · stmts) (stmtsPauses .all lowered) := by
  induction stmts with
  | nil => exact .pure (carries_nil rfl)
  | cons stmt rest ih =>
    obtain ⟨inStmt, inRest⟩ := throughout_append.mp given
    rw [moduleStep_cons]
    refine (carries_stmt isRead placed stmt inStmt).stmts.bind fun stmts =>
      leaves_closeGroup.bind fun declared => ?_
    refine (ih inRest).bind fun others => .pure fun carriesRest plain carries => ?_
    -- Made-up names start out without a pause.
    have noPause : stmtsPauses .all
        (if declared.isEmpty then [] else [Temp.declaration stmt.span declared]) = [] := by
      split
      · rfl
      · simpa using pauses_declaration plain
    rw [pauses_append, pauses_append, noPause, List.nil_append]
    exact carries.append carriesRest

end Ending

variable {source : String} {parsed : Parsed} {options : Options} {scopes : ScopeTree}
  {lowered : Lowered}

/-- A lowered program carries the pauses of its source. -/
theorem carries_lowered (read : parse source = .ok parsed) (placed : parsed.program.WellPlaced)
    (run : parsed.program.lower options scopes = .ok lowered) :
    (lowered.ending parsed.program options scopes False).Carries (.own false)
      (parsed.program.pauses ·) (lowered.program.pauses .all) := by
  obtain ⟨progress, ran, reports, -⟩ := Program.lower_eq run
  obtain ⟨-, carries⟩ := Ending.carries_module trivial not_false parsed.program.body
    (Parsed.given read fun _ => placed) _ _ _ _ (Ending.fits_start rfl rfl) ran
  exact carries ⟨trivial, fun report mem => ⟨report, reports ▸ mem, rfl⟩⟩

/-- Waiting and handing out values stay inside of what allows them. All that a function pauses for stays
with it, and becomes something that the generator hands out if the function moves into one, except in
code that is left out: in the links of a chain whose base is always nullish, and in the key of a field
without a value if the key need not be evaluated. Nothing else pauses. -/
theorem pauses_lowered (read : parse source = .ok parsed) (placed : parsed.program.WellPlaced)
    (run : parsed.program.lower options scopes = .ok lowered) :
    lowered.program.WellPlaced
      ∧ (∀ pause ∈ parsed.program.pauses (.sure (scopes.declares "undefined")),
          pause.home ≠ none → pause.lowered options.target false ∈ lowered.program.pauses .all)
      ∧ ∀ pause ∈ lowered.program.pauses .all, ∃ own ∈ parsed.program.pauses .all,
          own.lowered options.target false = pause := by
  have carries := carries_lowered read placed run
  refine ⟨wellPlaced_lowered read placed run, fun pause mem isInside => ?_, carries.found⟩
  exact carries.kept pause mem fun isNone => absurd isNone isInside

/-- An asynchronous function and one in its parameters become generators, which hand out what they
waited for. -/
theorem pauses_lowered_example :
    let options : Options := { target := { edition := .es2015 } }
    ∃ parsed lowered, parse "async (a, b = async () => await a) => { await b(); }" = .ok parsed
      ∧ parsed.program.WellPlaced
      ∧ parsed.program.lower options parsed.program.scopes = .ok lowered
      ∧ lowered.program.WellPlaced
      ∧ (∀ pause ∈ parsed.program.pauses
            (.sure (parsed.program.scopes.declares "undefined")),
          pause.home ≠ none → pause.lowered options.target false ∈ lowered.program.pauses .all)
      ∧ ∀ pause ∈ lowered.program.pauses .all, ∃ own ∈ parsed.program.pauses .all,
          own.lowered options.target false = pause := by
  intro options
  let source := "async (a, b = async () => await a) => { await b(); }"
  -- One evaluation tells that the source reads, that it is well placed, and that it is lowered.
  obtain ⟨parsed, read, passes⟩ := exists_of_readsTo
    (show readsTo source (fun parsed => decide parsed.program.WellPlaced
        && (parsed.program.lower options parsed.program.scopes).isOk) = true by decide +kernel)
  obtain ⟨placed, isOk⟩ := Bool.and_eq_true_iff.mp passes
  obtain ⟨lowered, run⟩ := exists_of_isOk isOk
  have placed := of_decide_eq_true placed
  exact ⟨parsed, lowered, read, placed, run, pauses_lowered read placed run⟩

/-- What is left out of a function may have waited: behind `null?.` and in the key of a field that is
declared without a value. -/
theorem pauses_leftOut :
    let options : Options :=
      { target := { edition := .es2022, unsupported := [.asyncAwait, .classField] }
        definesFields := false }
    ∀ source ∈ ["async function f() { null?.[await x]; }",
        "async function f() { class A { [/* @__PURE__ */ a[await g]()]; } }"],
      ∃ parsed lowered, parse source = .ok parsed
        ∧ parsed.program.WellPlaced
        ∧ parsed.program.lower options parsed.program.scopes = .ok lowered
        ∧ ∃ pause ∈ parsed.program.pauses .all, pause.home ≠ none
          ∧ pause.lowered options.target false ∉ lowered.program.pauses .all := by
  intro options source mem
  let loses (parsed : Parsed) : Bool :=
    (parsed.program.lower options parsed.program.scopes).toOption.any fun lowered =>
      decide (∃ pause ∈ parsed.program.pauses .all, pause.home ≠ none
        ∧ pause.lowered options.target false ∉ lowered.program.pauses .all)
  -- Each source is read, lowered and searched by evaluation.
  have reads : readsTo source (fun parsed => decide parsed.program.WellPlaced && loses parsed)
      = true := by
    revert source
    decide +kernel
  obtain ⟨parsed, read, passes⟩ := exists_of_readsTo reads
  obtain ⟨placed, lost⟩ := Bool.and_eq_true_iff.mp passes
  dsimp only [loses] at lost
  cases run : parsed.program.lower options parsed.program.scopes with
  | error fault => simp [run, Except.toOption] at lost
  | ok lowered =>
    rw [run] at lost
    exact ⟨parsed, lowered, read, of_decide_eq_true placed, run, of_decide_eq_true lost⟩

end Downlevel
