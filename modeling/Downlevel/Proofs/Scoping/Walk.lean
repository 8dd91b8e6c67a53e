import Downlevel.Proofs.Forms
import Downlevel.Proofs.Scoping.Builders

/-! Every part of a program works, by induction on the tree. -/

namespace Downlevel

open Lowering

namespace Realm

variable {realm : Realm}

section Parts

/-- The nodes of an expression are its shape and what is inside. -/
theorem given_expr {origin : Origin} {shape : Shape} (given : realm.Given (exprNodes ⟨origin, shape⟩)) :
    realm.AdmitsNode (.shape shape) ∧ realm.Given (shapeNodes shape) := by
  simp only [exprNodes, given_cons] at given
  exact given.2

/-- Where a function runs makes no difference for its parts. -/
theorem given_func {span : Span} {isArrow isAsync isGenerator : Bool} {params : List Param}
    {body : Body}
    (given : realm.Given (funcNodes ⟨span, isArrow, isAsync, isGenerator, params, body⟩)) :
    realm.Given (paramsNodes params) ∧ realm.Given (bodyNodes body) := by
  rw [funcNodes] at given
  obtain ⟨-, inside⟩ := List.forall_mem_cons.mp given
  exact (given_append.mp inside).imp given_into.mp given_into.mp

/-- What is known of a member of a class is known of its key and of its value. -/
theorem given_classMember {span : Span} {key : Key} {isStatic : Bool} {value : MemberValue}
    (given : realm.Given (classMemberNodes ⟨span, key, isStatic, value⟩)) :
    realm.Given (keyNodes key) ∧ realm.Given (memberValueNodes value) := by
  rw [classMemberNodes] at given
  exact (given_append.mp given).imp_right given_into.mp

/-- A key stays as private as it was. -/
theorem keyForms_privateName? (key : Key) : (keyForms key).privateName? = key.privateName? := by
  cases key <;> rfl

/-- The forms of a member know its private name. -/
theorem classMemberForms_privateName? (member : ClassMember) :
    (classMemberForms member).key.privateName? = member.key.privateName? := by
  obtain ⟨span, key, isStatic, value⟩ := member
  exact keyForms_privateName? key

/-- A member declares what it did. -/
theorem classMemberForms_declaredKind? (member : ClassMember) :
    (classMemberForms member).value.declaredKind? = member.value.declaredKind? := by
  obtain ⟨span, key, isStatic, value⟩ := member
  cases value with
  | staticBlock block =>
    obtain ⟨blockSpan, body⟩ := block
    rfl
  | _ => rfl

/-- The forms of the members of a class are those of each. -/
theorem mem_classMembersForms {members : List ClassMember} {forms : ClassMemberForms}
    (mem : forms ∈ classMembersForms members) : ∃ member ∈ members, classMemberForms member = forms := by
  induction members with
  | nil => cases mem
  | cons member members ih =>
    rcases List.mem_cons.mp mem with rfl | later
    · exact ⟨member, List.mem_cons_self, rfl⟩
    · obtain ⟨other, isOther, same⟩ := ih later
      exact ⟨other, List.mem_cons_of_mem _ isOther, same⟩

/-- The forms of members agree on the kinds of private names as the members do. -/
theorem agree_classMembersForms {members : List ClassMember} (agree : OneKindEach members) :
    Agree (classMembersForms members) := by
  intro first isFirst second isSecond
  obtain ⟨own, isOwn, rfl⟩ := mem_classMembersForms isFirst
  obtain ⟨other, isOther, rfl⟩ := mem_classMembersForms isSecond
  simp only [classMemberForms_privateName?, classMemberForms_declaredKind?]
  exact agree own isOwn other isOther

end Parts

mutual

/-- Lowering an expression works, in all its forms. -/
theorem works_expr (e : Expr) (given : realm.Given (exprNodes e)) :
    realm.WorksForms (exprForms e) := by
  obtain ⟨origin, shape⟩ := e
  obtain ⟨admits, inside⟩ := given_expr given
  exact works_shape origin shape admits inside

/-- The same for a shape, given that it is allowed where it stands. -/
theorem works_shape (origin : Origin) (shape : Shape) (admits : realm.AdmitsNode (.shape shape))
    (given : realm.Given (shapeNodes shape)) : realm.WorksForms (shapeForms origin shape) := by
  -- A shape that stays needs what its parts do.
  have stays {world : World} {shape : Shape} (meets : Meets realm.stem world (shapeUses shape)) :
      Meets realm.stem world (exprUses ⟨origin, shape⟩) := by
    rwa [exprUses]
  cases shape with
  | arrow func =>
    apply worksForms_plain rfl
    apply (works_funcStep func given).bind
    intro func
    apply (works_lacks .arrow).andThen
    intro isLacking
    apply Works.ite
    · exact fun _ => .pure fun _ _ meets => meets_arrowToFunction meets.1
    · exact fun _ => .pure fun _ _ meets => stays meets.1
  | binary op left right =>
    obtain ⟨inLeft, inRight⟩ := given_append.mp given
    apply worksForms_plain rfl
    exact works_binary origin op (works_expr left inLeft) (works_expr right inRight).value
  | call link isPure callee args =>
    obtain ⟨inCallee, inArgs⟩ := given_append.mp given
    apply worksForms_call isPure args _ (works_expr callee inCallee) (works_args args inArgs)
    rw [exprForms_source]
    exact admits
  | classExpr name heritage members =>
    obtain ⟨inHeritage, inMembers⟩ := given_append.mp given
    apply worksForms_plain rfl
    exact works_classExpression origin.span members admits.writable
      (works_heritageStep heritage inHeritage) (works_classMembers members admits.fits inMembers)
      fun isClean => agree_classMembersForms (admits.agree isClean)
  | computed link object key =>
    obtain ⟨inObject, inKey⟩ := given_append.mp given
    apply worksForms_computed _ (works_expr object inObject) (works_expr key inKey).value
    rw [exprForms_source]
    exact admits
  | cond test consequent alternate =>
    obtain ⟨inBoth, inAlternate⟩ := given_append.mp given
    obtain ⟨inTest, inConsequent⟩ := given_append.mp inBoth
    apply worksForms_plain rfl
    apply (works_expr test inTest).value.bind
    intro test
    apply (works_expr consequent inConsequent).value.bind
    intro consequent
    apply (works_expr alternate inAlternate).value.bind
    intro alternate
    apply Works.pure
    intro world _ inAlternate inConsequent inTest
    exact stays (by simpa [shapeUses] using ⟨inTest, inConsequent, inAlternate⟩)
  | function name func =>
    apply worksForms_plain rfl
    apply (works_funcStep func given).bind
    intro func
    apply Works.pure
    intro world _ meets
    apply stays
    rw [shapeUses, meets_append, meets_nameUses, meets_enclosed]
    exact ⟨admits, meets.1.plus⟩
  | id name =>
    exact worksForms_name admits
  | importCall module =>
    apply worksForms_plain rfl
    exact (works_expr module given).value.bind fun _ => .pure fun _ _ meets => stays meets
  | member link object name =>
    apply worksForms_member _ (works_expr object given)
    rw [exprForms_source]
    exact admits
  | new callee args =>
    obtain ⟨inCallee, inArgs⟩ := given_append.mp given
    apply worksForms_plain rfl
    apply (works_expr callee inCallee).value.bind
    intro callee
    apply (works_args args inArgs).bind
    intro args
    apply Works.pure
    intro world _ inArgs inCallee
    exact stays (meets_append.mpr ⟨inCallee, inArgs⟩)
  | tagged tag head spans =>
    obtain ⟨inTag, inSpans⟩ := given_append.mp given
    apply worksForms_plain rfl
    exact works_taggedTemplate (works_expr tag inTag) (works_spans spans inSpans)
  | this =>
    apply worksForms_plain rfl
    apply works_resolveThis.bind
    intro found
    cases found with
    | some name => exact .pure fun _ _ isBound => by simpa using isBound
    | none => exact .pure fun _ _ _ => stays meets_nil
  | unary op operand =>
    apply worksForms_plain rfl
    exact works_unary origin op (works_expr operand given)
  | update op operand =>
    apply worksForms_plain rfl
    exact (works_expr operand given).target.bind fun _ => .pure fun _ _ meets => stays meets
  | yield isDelegated operand =>
    apply worksForms_plain rfl
    apply (works_option operand given).bind
    intro operand
    cases operand with
    | none => exact .pure fun _ _ _ => stays meets_nil
    | some operand =>
      dsimp only
      split
      · apply (works_delegated _ operand).bind
        intro marked
        exact .pure fun _ _ shown meets => stays (shown meets)
      · exact .pure fun _ _ meets => stays meets
  | array items =>
    apply worksForms_plain rfl
    exact (works_items items given).bind fun _ => .pure fun _ _ meets => stays meets
  | bigint digits =>
    apply worksForms_plain rfl
    apply (works_lacks .bigint).andThen
    intro isLacking
    apply Works.ite
    · exact fun _ => .pure fun _ grounds => meets_bigintCall grounds digits
    · exact fun _ => .pure fun _ _ => stays meets_nil
  | object members =>
    apply worksForms_plain rfl
    apply (works_objectMembers members given).bind
    intro members
    exact works_objectLiteral members
  | template head spans =>
    apply worksForms_plain rfl
    apply (works_spans spans given).bind
    intro spans
    apply (works_lacks .templateLiteral).andThen
    intro isLacking
    apply Works.ite
    · intro _
      rw [templateToSum_eq]
      exact .pure fun _ _ => meets_templateSum
    · exact fun _ => .pure fun _ _ meets => stays meets
  | arrayPattern slots rest =>
    obtain ⟨inSlots, inRest⟩ := given_append.mp given
    apply worksForms_assignedPattern rfl
    apply (works_patternSlots false slots inSlots false nofun).bind
    intro slots
    apply (works_patternOption rest inRest false nofun).bind
    intro rest
    apply Works.pure
    intro world _ inRest inSlots
    exact stays (meets_append.mpr ⟨inSlots, inRest⟩)
  | objectPattern properties rest =>
    obtain ⟨inProperties, inRest⟩ := given_append.mp given
    apply worksForms_assignedPattern rfl
    apply (works_patternProperties false properties inProperties false nofun).bind
    intro properties
    apply (works_patternOption rest inRest false nofun).bind
    intro rest
    apply Works.pure
    intro world _ inRest inProperties
    exact stays (meets_append.mpr ⟨inProperties, inRest⟩)
  | importMeta | newTarget | super | bool | null | num | regex | str =>
    exact worksForms_plain rfl (.pure fun _ _ => stays meets_nil)

/-- Lowering an expression that may be absent works. -/
theorem works_option (e : Option Expr) (given : realm.Given (optionNodes e)) :
    realm.Works false (optionStep e) fun world e => Meets realm.stem world (optionUses e) := by
  cases e with
  | none => exact .pure fun _ _ => meets_nil
  | some e => exact (works_expr e given).value.bind fun _ => .pure fun _ _ => id

/-- Lowering the base class of a class works. -/
theorem works_heritageStep (heritage : Option Expr) (given : realm.Given (optionNodes heritage)) :
    ∀ step ∈ heritageStep heritage, realm.WorksExpr step := by
  cases heritage with
  | none => intro step isStep; cases isStep
  | some e =>
    rintro step ⟨⟩
    exact (works_expr e given).value

/-- Lowering the forms of an expression that may be absent works. -/
theorem works_optionForms (e : Option Expr) (given : realm.Given (optionNodes e)) :
    ∀ forms ∈ optionForms e, realm.WorksExpr forms.value := by
  cases e with
  | none => intro forms isForm; cases isForm
  | some e =>
    rintro forms ⟨⟩
    exact (works_expr e given).value

/-- Lowering an argument works. -/
theorem works_arg (arg : Arg) (given : realm.Given (argNodes arg)) :
    realm.Works false (argStep arg) fun world arg => Meets realm.stem world (argUses arg) := by
  obtain ⟨isSpread, value⟩ := arg
  exact (works_expr value given).value.bind fun _ => .pure fun _ _ => id

/-- Lowering arguments works. -/
theorem works_args (args : List Arg) (given : realm.Given (argsNodes args)) :
    realm.Works false (argsStep args) fun world args => Meets realm.stem world (argsUses args) := by
  cases args with
  | nil => exact .pure fun _ _ => meets_nil
  | cons arg rest =>
    obtain ⟨inArg, inRest⟩ := given_append.mp given
    apply (works_arg arg inArg).bind
    intro arg
    apply (works_args rest inRest).bind
    intro rest
    exact .pure fun _ _ inRest inArg => meets_append.mpr ⟨inArg, inRest⟩

/-- Lowering a substitution works. -/
theorem works_span (span : TemplateSpan) (given : realm.Given (spanNodes span)) :
    realm.Works false (spanStep span) fun world span => Meets realm.stem world (spanUses span) := by
  obtain ⟨value, text⟩ := span
  exact (works_expr value given).value.bind fun _ => .pure fun _ _ => id

/-- Lowering substitutions works. -/
theorem works_spans (spans : List TemplateSpan) (given : realm.Given (spansNodes spans)) :
    realm.Works false (spansStep spans) fun world spans =>
      Meets realm.stem world (spansUses spans) := by
  -- Span by span, in the order they are evaluated.
  cases spans with
  | nil => exact .pure fun _ _ => meets_nil
  | cons span rest =>
    obtain ⟨inSpan, inRest⟩ := given_append.mp given
    apply (works_span span inSpan).bind
    intro span
    apply (works_spans rest inRest).bind
    intro rest
    exact .pure fun _ _ inRest inSpan => meets_append.mpr ⟨inSpan, inRest⟩

/-- Lowering an element of an array literal works. -/
theorem works_item (item : ArrayItem) (given : realm.Given (itemNodes item)) :
    realm.Works false (itemStep item) fun world item => Meets realm.stem world (itemUses item) := by
  cases item with
  | single value => exact (works_expr value given).value.bind fun _ => .pure fun _ _ => id
  | spread value => exact (works_expr value given).value.bind fun _ => .pure fun _ _ => id
  | hole => exact .pure fun _ _ => meets_nil

/-- Lowering the elements of an array literal works. -/
theorem works_items (items : List ArrayItem) (given : realm.Given (itemsNodes items)) :
    realm.Works false (itemsStep items) fun world items =>
      Meets realm.stem world (itemsUses items) := by
  -- Item by item, in the order they are evaluated.
  cases items with
  | nil => exact .pure fun _ _ => meets_nil
  | cons item rest =>
    obtain ⟨inItem, inRest⟩ := given_append.mp given
    apply (works_item item inItem).bind
    intro item
    apply (works_items rest inRest).bind
    intro rest
    exact .pure fun _ _ inRest inItem => meets_append.mpr ⟨inItem, inRest⟩

/-- Lowering the forms of a key works. -/
theorem works_keyForms (key : Key) (given : realm.Given (keyNodes key)) :
    realm.WorksKey (keyForms key) := by
  cases key with
  | direct name => trivial
  | computed value => exact (works_expr value given).value

/-- Lowering what a member of an object literal holds works. -/
theorem works_objectValue (value : MemberValue) (given : realm.Given (memberValueNodes value))
    (isOfObject : value.isOfObject = true) :
    realm.Works false (objectValueStep value) fun world value =>
      value.isStaticBlock = false ∧ Meets realm.stem world (memberValueUses value) := by
  -- An accessor or a block is no value of an object.
  cases value with
  | getter func =>
    exact (works_funcStep func given).bind fun _ => .pure fun _ _ meets => ⟨rfl, meets.1⟩
  | setter func =>
    exact (works_funcStep func given).bind fun _ => .pure fun _ _ meets => ⟨rfl, meets.1⟩
  | method func =>
    exact (works_funcStep func given).bind fun _ => .pure fun _ _ meets => ⟨rfl, meets.1⟩
  | field init => exact (works_option init given).bind fun _ => .pure fun _ _ meets => ⟨rfl, meets⟩
  | accessor | staticBlock => cases isOfObject

/-- Lowering a member of an object literal works. -/
theorem works_objectMember (member : ObjectMember) (given : realm.Given (objectMemberNodes member)) :
    realm.Works false (objectMemberStep member) fun world member =>
      Meets realm.stem world (objectMemberUses member) := by
  -- One case per constructor: a value carries its own block, a key never does.
  cases member with
  | valued span key value =>
    obtain ⟨isOfObject, inside⟩ := given_cons.mp given
    obtain ⟨inKey, inValue⟩ := given_append.mp inside
    apply (works_lowerKey (works_keyForms key inKey)).bind
    intro key
    apply (works_objectValue value inValue isOfObject).bind
    intro value
    apply Works.pure
    rintro world _ ⟨noBlock, inValue⟩ ⟨-, inKey⟩
    simpa [objectMemberUses, noBlock] using ⟨inKey, inValue⟩
  | shorthand span name => exact works_shorthandMember (given_cons.mp given).1
  | spread span value =>
    exact (works_expr value (given_cons.mp given).2).value.bind fun _ => .pure fun _ _ => id

/-- Lowering the members of an object literal works. -/
theorem works_objectMembers (members : List ObjectMember)
    (given : realm.Given (objectMembersNodes members)) :
    realm.Works false (objectMembersStep members) fun world members =>
      Meets realm.stem world (objectMembersUses members) := by
  -- Member by member, in the order they are evaluated.
  cases members with
  | nil => exact .pure fun _ _ => meets_nil
  | cons member rest =>
    obtain ⟨inMember, inRest⟩ := given_append.mp given
    apply (works_objectMember member inMember).bind
    intro member
    apply (works_objectMembers rest inRest).bind
    intro rest
    exact .pure fun _ _ inRest inMember => meets_append.mpr ⟨inMember, inRest⟩

/-- Lowering a member of a class works. -/
theorem works_classMember (member : ClassMember) (fits : member.Fits)
    (given : realm.Given (classMemberNodes member)) : realm.WorksMember (classMemberForms member) := by
  obtain ⟨span, key, isStatic, value⟩ := member
  obtain ⟨inKey, inValue⟩ := given_classMember given
  refine ⟨works_keyForms key inKey, ?_, ?_⟩
  · rw [classMemberForms, keyForms_privateName?]
    exact fits.plain
  -- The braces of a method are those that it was written with.
  have inFunc {func : Func} (isOwn : value.func? = some func)
      (holds : realm.Works false (funcStep func) fun world lowered =>
        Meets realm.stem world (funcUses lowered)
          ∧ (func.isArrow = false → func.body.isBlock = true → lowered.body.isBlock = true)) :
      realm.WorksMethod (funcStep func) := by
    obtain ⟨noArrow, braces⟩ := fits.isMethod func isOwn
    apply holds.weaken
    exact fun _ _ _ ⟨meets, keeps⟩ => ⟨meets, keeps noArrow braces⟩
  cases value with
  | getter func => exact inFunc rfl (works_funcStep func inValue)
  | setter func => exact inFunc rfl (works_funcStep func inValue)
  | method func => exact inFunc rfl (works_funcStep func inValue)
  | field init => exact works_heritageStep init inValue
  | accessor init => exact works_heritageStep init inValue
  | staticBlock block =>
    obtain ⟨blockSpan, body⟩ := block
    exact works_stmts body inValue

/-- Lowering the members of a class works. -/
theorem works_classMembers (members : List ClassMember) (fits : ∀ member ∈ members, member.Fits)
    (given : realm.Given (classMembersNodes members)) :
    ∀ forms ∈ classMembersForms members, realm.WorksMember forms := by
  cases members with
  | nil => exact List.forall_mem_nil _
  | cons member rest =>
    obtain ⟨inMember, inRest⟩ := given_append.mp given
    obtain ⟨own, others⟩ := List.forall_mem_cons.mp fits
    exact List.forall_mem_cons.mpr
      ⟨works_classMember member own inMember, works_classMembers rest others inRest⟩

/-- Lowering a function works. -/
theorem works_funcStep (func : Func) (given : realm.Given (funcNodes func)) :
    realm.Works false (funcStep func) fun world lowered =>
      Meets realm.stem world (funcUses lowered)
        ∧ (func.isArrow = false → func.body.isBlock = true → lowered.body.isBlock = true) := by
  obtain ⟨span, isArrow, isAsync, isGenerator, params, body⟩ := func
  obtain ⟨inParams, inBody⟩ := given_func given
  exact works_func (works_params params inParams) (works_body body inBody)

/-- Lowering the body of a function works. -/
theorem works_body (body : Body) (given : realm.Given (bodyNodes body)) :
    realm.Works false (bodyStep body) fun world lowered =>
      Meets realm.stem (world.plus realm.stem (bodyNames lowered)) (bodyUses lowered)
        ∧ (body.isBlock = true → lowered.isBlock = true) := by
  cases body with
  | block stmts =>
    exact (works_stmts stmts given).bind fun _ => .pure fun _ _ meets => ⟨meets, fun _ => rfl⟩
  | value result =>
    exact (works_expr result given).value.bind fun _ => .pure fun _ _ meets => ⟨meets.plus, nofun⟩

/-- Lowering a parameter works. -/
theorem works_paramStep (param : Param) (given : realm.Given (paramNodes param)) :
    realm.Works true (paramStep param) fun world param =>
      Meets realm.stem world (paramUses param) := by
  obtain ⟨span, isRest, pattern, default⟩ := param
  obtain ⟨noTarget, inside⟩ := given_cons.mp given
  obtain ⟨inPattern, inDefault⟩ := given_append.mp inside
  apply works_param (works_pattern pattern inPattern) _ (works_optionForms default inDefault)
  rw [patternForms_source]
  exact noTarget

/-- Lowering parameters works. -/
theorem works_params (params : List Param) (given : realm.Given (paramsNodes params)) :
    realm.Works true (paramsStep params) fun world params =>
      Meets realm.stem world (paramsUses params) := by
  cases params with
  | nil => exact .pure fun _ _ => meets_nil
  | cons param rest =>
    obtain ⟨inParam, inRest⟩ := given_append.mp given
    apply (works_paramStep param inParam).bind
    intro param
    apply (works_params rest inRest).bind
    intro rest
    exact .pure fun _ _ inRest inParam => meets_append.mpr ⟨inParam, inRest⟩

/-- Lowering a pattern works. -/
theorem works_pattern (pattern : Pattern) (given : realm.Given (patternNodes pattern)) :
    realm.WorksPattern (patternForms pattern) := by
  cases pattern with
  | id span name =>
    obtain ⟨⟨isGiven, writable⟩, -⟩ := given_cons.mp given
    refine ⟨fun mayBeParams _ => .pure fun world grounds => ?_, worksForms_name isGiven⟩
    simpa [patternUses] using ⟨grounds.given name isGiven, writable⟩
  | array span slots rest =>
    obtain ⟨inSlots, inRest⟩ := given_append.mp (given_cons.mp given).2
    refine ⟨fun mayBeParams noTarget => ?_, worksForms_assignedPattern rfl ?_⟩
    · have parts (inParams : mayBeParams = true) :
          slotsHaveTarget slots = false ∧ optionHasTarget rest = false :=
        Bool.or_eq_false_iff.mp (noTarget inParams)
      apply (works_patternSlots true slots inSlots mayBeParams fun inParams => ⟨rfl, (parts inParams).1⟩).bind
      intro slots
      apply (works_patternOption rest inRest mayBeParams fun inParams => (parts inParams).2).bind
      intro rest
      exact .pure fun _ _ inRest inSlots => meets_append.mpr ⟨inSlots, inRest⟩
    · apply (works_patternSlots false slots inSlots false nofun).bind
      intro slots
      apply (works_patternOption rest inRest false nofun).bind
      intro rest
      exact .pure fun _ _ inRest inSlots => meets_append.mpr ⟨inSlots, inRest⟩
  | object span properties rest =>
    obtain ⟨inProperties, inRest⟩ := given_append.mp (given_cons.mp given).2
    refine ⟨fun mayBeParams noTarget => ?_, worksForms_assignedPattern rfl ?_⟩
    · have parts (inParams : mayBeParams = true) :
          propertiesHaveTarget properties = false ∧ optionHasTarget rest = false :=
        Bool.or_eq_false_iff.mp (noTarget inParams)
      apply (works_patternProperties true properties inProperties mayBeParams fun inParams =>
        ⟨rfl, (parts inParams).1⟩).bind
      intro properties
      apply (works_patternOption rest inRest mayBeParams fun inParams => (parts inParams).2).bind
      intro rest
      exact .pure fun _ _ inRest inProperties => meets_append.mpr ⟨inProperties, inRest⟩
    · apply (works_patternProperties false properties inProperties false nofun).bind
      intro properties
      apply (works_patternOption rest inRest false nofun).bind
      intro rest
      exact .pure fun _ _ inRest inProperties => meets_append.mpr ⟨inProperties, inRest⟩
  | target span place =>
    have inForms := works_expr place (given_cons.mp given).2
    refine ⟨fun mayBeParams noTarget => ?_, inForms⟩
    -- A member is written in no parameter.
    cases mayBeParams with
    | true => cases noTarget rfl
    | false => exact inForms.target.bind fun _ => .pure fun _ _ => id

/-- Lowering a pattern that may be absent works. -/
theorem works_patternOptionForms (pattern : Option Pattern)
    (given : realm.Given (patternOptionNodes pattern)) :
    ∀ forms ∈ patternOptionForms pattern, realm.WorksPattern forms := by
  cases pattern with
  | none => intro forms isForm; cases isForm
  | some pattern =>
    rintro forms ⟨⟩
    exact works_pattern pattern given

/-- Lowering a pattern that may be absent works. -/
theorem works_patternOption (pattern : Option Pattern)
    (given : realm.Given (patternOptionNodes pattern)) (mayBeParams : Bool)
    (noTarget : mayBeParams = true → optionHasTarget pattern = false) :
    realm.Works mayBeParams (patternOptionStep pattern) fun world pattern =>
      Meets realm.stem world (patternOptionUses false pattern) := by
  cases pattern with
  | none => exact .pure fun _ _ => meets_nil
  | some pattern =>
    apply ((works_pattern pattern given).bound mayBeParams _).bind
    · exact fun _ => .pure fun _ _ => id
    · rw [patternForms_source]
      exact noTarget

/-- Lowering a default value works. -/
theorem works_defaultStep (isBound : Bool) (default : Option Expr)
    (given : realm.Given (optionNodes default)) (mayBeParams : Bool)
    (onlyBound : mayBeParams = true → isBound = true) :
    realm.Works mayBeParams (defaultStep isBound default) fun world default =>
      Meets realm.stem world (optionUses default) := by
  cases default with
  | none => exact .pure fun _ _ => meets_nil
  | some e =>
    have inValue := (works_expr e given).value
    -- A default is lowered in the frame of the function only where the pattern declares names.
    apply Works.ite
    · exact fun _ => (works_rooted inValue).bind fun _ => .pure fun _ _ => id
    · intro notBound
      cases mayBeParams with
      | true => exact absurd (onlyBound rfl) notBound
      | false => exact inValue.bind fun _ => .pure fun _ _ => id

/-- Lowering an element of an array pattern works. -/
theorem works_patternSlot (isBound : Bool) (slot : PatternSlot) (given : realm.Given (slotNodes slot))
    (mayBeParams : Bool)
    (onlyBound : mayBeParams = true → isBound = true ∧ slotHasTarget slot = false) :
    realm.Works mayBeParams (slotStep isBound slot) fun world slot =>
      Meets realm.stem world (slotUses false slot) := by
  cases slot with
  | hole => exact .pure fun _ _ => meets_nil
  | slot target default =>
    -- The parameters hold no target of an assignment, which is what `onlyBound` is about.
    obtain ⟨inTarget, inDefault⟩ := given_append.mp given
    apply ((works_pattern target inTarget).bound mayBeParams _).bind
    · intro target
      apply (works_defaultStep isBound default inDefault mayBeParams fun inParams =>
        (onlyBound inParams).1).bind
      intro default
      exact .pure fun _ _ inDefault inTarget => meets_append.mpr ⟨inTarget, inDefault⟩
    · rw [patternForms_source]
      exact fun inParams => (onlyBound inParams).2

/-- Lowering the elements of an array pattern works. -/
theorem works_patternSlots (isBound : Bool) (slots : List PatternSlot)
    (given : realm.Given (slotsNodes slots)) (mayBeParams : Bool)
    (onlyBound : mayBeParams = true → isBound = true ∧ slotsHaveTarget slots = false) :
    realm.Works mayBeParams (slotsStep isBound slots) fun world slots =>
      Meets realm.stem world (slotsUses false slots) := by
  cases slots with
  | nil => exact .pure fun _ _ => meets_nil
  | cons slot rest =>
    obtain ⟨inSlot, inRest⟩ := given_append.mp given
    have parts (inParams : mayBeParams = true) :=
      (onlyBound inParams).imp_right Bool.or_eq_false_iff.mp
    apply (works_patternSlot isBound slot inSlot mayBeParams fun inParams =>
      (parts inParams).imp_right And.left).bind
    intro slot
    apply (works_patternSlots isBound rest inRest mayBeParams fun inParams =>
      (parts inParams).imp_right And.right).bind
    intro rest
    exact .pure fun _ _ inRest inSlot => meets_append.mpr ⟨inSlot, inRest⟩

/-- Lowering a property of an object pattern works. -/
theorem works_patternProperty (isBound : Bool) (property : PatternProperty)
    (given : realm.Given (propertyNodes property)) (mayBeParams : Bool)
    (onlyBound : mayBeParams = true → isBound = true ∧ propertyHasTarget property = false) :
    realm.Works mayBeParams (propertyStep isBound property) fun world property =>
      Meets realm.stem world (propertyUses false property) := by
  -- Key, target and default in the order in which the pattern evaluates them.
  obtain ⟨span, key, target, isShorthand, default⟩ := property
  obtain ⟨inOthers, inDefault⟩ := given_append.mp given
  obtain ⟨inKey, inTarget⟩ := given_append.mp inOthers
  apply (works_lowerKey (works_keyForms key inKey)).bind
  intro key
  apply ((works_pattern target inTarget).bound mayBeParams _).bind
  · intro target
    apply (works_defaultStep isBound default inDefault mayBeParams fun inParams =>
      (onlyBound inParams).1).bind
    intro default
    apply Works.pure
    rintro world _ inDefault inTarget ⟨-, inKey⟩
    exact meets_append.mpr ⟨inKey, meets_append.mpr ⟨inTarget, inDefault⟩⟩
  · rw [patternForms_source]
    exact fun inParams => (onlyBound inParams).2

/-- Lowering the properties of an object pattern works. -/
theorem works_patternProperties (isBound : Bool) (properties : List PatternProperty)
    (given : realm.Given (propertiesNodes properties)) (mayBeParams : Bool)
    (onlyBound : mayBeParams = true → isBound = true ∧ propertiesHaveTarget properties = false) :
    realm.Works mayBeParams (propertiesStep isBound properties) fun world properties =>
      Meets realm.stem world (propertiesUses false properties) := by
  cases properties with
  | nil => exact .pure fun _ _ => meets_nil
  | cons property rest =>
    obtain ⟨inProperty, inRest⟩ := given_append.mp given
    have parts (inParams : mayBeParams = true) :=
      (onlyBound inParams).imp_right Bool.or_eq_false_iff.mp
    apply (works_patternProperty isBound property inProperty mayBeParams fun inParams =>
      (parts inParams).imp_right And.left).bind
    intro property
    apply (works_patternProperties isBound rest inRest mayBeParams fun inParams =>
      (parts inParams).imp_right And.right).bind
    intro rest
    exact .pure fun _ _ inRest inProperty => meets_append.mpr ⟨inProperty, inRest⟩

/-- Lowering a declarator works. -/
theorem works_declaratorStep (declarator : Declarator)
    (given : realm.Given (declaratorNodes declarator)) :
    realm.Works false (declaratorStep declarator) fun world declarator =>
      MeetsDeclarator realm.stem world world declarator := by
  obtain ⟨pattern, init⟩ := declarator
  obtain ⟨inPattern, inInit⟩ := given_append.mp (given_cons.mp given).2
  apply (works_declared (works_pattern pattern inPattern)).bind
  intro pattern
  apply (works_option init inInit).bind
  intro init
  exact .pure fun _ _ inInit inPattern => ⟨meets_binding pattern inPattern, inInit⟩

/-- Lowering declarators works. -/
theorem works_declarators (declarators : List Declarator)
    (given : realm.Given (declaratorsNodes declarators)) :
    realm.Works false (declaratorsStep declarators) fun world declarators =>
      ∀ declarator ∈ declarators, MeetsDeclarator realm.stem world world declarator := by
  cases declarators with
  | nil => exact .pure fun _ _ => List.forall_mem_nil _
  | cons declarator rest =>
    obtain ⟨inDeclarator, inRest⟩ := given_append.mp given
    apply (works_declaratorStep declarator inDeclarator).bind
    intro declarator
    apply (works_declarators rest inRest).bind
    intro rest
    exact .pure fun _ _ inRest inDeclarator => List.forall_mem_cons.mpr ⟨inDeclarator, inRest⟩

/-- Lowering statements in braces works. -/
theorem works_block (block : Block) (given : realm.Given (blockNodes block)) :
    realm.Works false (blockStep block) fun world block => Meets realm.stem world (blockUses block) := by
  obtain ⟨span, body⟩ := block
  apply (works_stmts body given).bind
  intro body
  apply Works.pure
  intro world _ meets
  rwa [blockUses, meets_enclosed]

/-- Lowering statements works. -/
theorem works_stmts (stmts : List Stmt) (given : realm.Given (stmtsNodes stmts)) :
    realm.WorksStmts (stmtsStep stmts) := by
  cases stmts with
  | nil => exact .pure fun _ _ => by simp
  | cons stmt rest =>
    obtain ⟨inStmt, inRest⟩ := given_append.mp given
    apply (works_stmt stmt inStmt).stmts.bind
    intro first
    apply (works_stmts rest inRest).bind
    intro rest
    apply Works.pure
    intro world _ inRest inFirst
    rw [stmtsUses_append, stmtsNames_append, meets_append]
    -- Each part sees the names that both of them bind.
    constructor
    · exact Meets.mono inFirst (World.plus_mono (fun _ => id) fun _ => List.mem_append_left _)
    · exact Meets.mono inRest (World.plus_mono (fun _ => id) fun _ => List.mem_append_right _)

/-- Lowering a branch of a switch works. -/
theorem works_branch (branch : SwitchBranch) (given : realm.Given (branchNodes branch)) :
    realm.Works false (branchStep branch) fun world branch =>
      Meets realm.stem (world.plus realm.stem (branchNames false branch)) (branchUses branch) := by
  obtain ⟨span, test, body⟩ := branch
  obtain ⟨inTest, inBody⟩ := given_append.mp given
  apply (works_option test inTest).bind
  intro test
  apply (works_stmts body inBody).bind
  intro body
  apply Works.pure
  intro world _ inBody inTest
  rw [branchUses, branchNames, meets_append]
  exact ⟨inTest.plus, inBody⟩

/-- Lowering the branches of a switch works. -/
theorem works_branches (branches : List SwitchBranch) (given : realm.Given (branchesNodes branches)) :
    realm.Works false (branchesStep branches) fun world branches =>
      Meets realm.stem (world.plus realm.stem (branchesNames false branches))
        (branchesUses branches) := by
  cases branches with
  | nil => exact .pure fun _ _ => meets_nil
  | cons branch rest =>
    obtain ⟨inBranch, inRest⟩ := given_append.mp given
    apply (works_branch branch inBranch).bind
    intro branch
    apply (works_branches rest inRest).bind
    intro rest
    apply Works.pure
    intro world _ inRest inBranch
    -- The names of each branch are declared for all of them.
    rw [branchesUses, branchesNames, meets_append]
    constructor
    · exact Meets.mono inBranch (World.plus_mono (fun _ => id) fun _ => List.mem_append_left _)
    · exact Meets.mono inRest (World.plus_mono (fun _ => id) fun _ => List.mem_append_right _)

/-- Lowering a statement works, with or without its braces. -/
theorem works_stmt (stmt : Stmt) (given : realm.Given (stmtNodes stmt)) :
    realm.WorksStmtForms (stmtForms stmt) := by
  obtain ⟨span, shape⟩ := stmt
  obtain ⟨admits, inside⟩ := given_cons.mp given
  have inShape := works_stmtShape span shape admits inside
  cases shape with
  | block body => exact ⟨inShape, works_stmts body inside⟩
  | _ => exact ⟨inShape, inShape⟩

/-- The same for the shape of a statement, given that it is allowed where it stands. -/
theorem works_stmtShape (span : Span) (shape : StmtShape) (admits : realm.AdmitsNode (.stmt shape))
    (given : realm.Given (stmtShapeNodes shape)) :
    realm.WorksStmts (stmtShapeStep span shape) := by
  -- A statement that stays needs what its parts do, besides the names that it binds.
  have stays {world : World} {last : StmtShape}
      (meets : Meets realm.stem (world.plus realm.stem (stmtShapeNames false last))
        (stmtShapeUses last)) :
      Meets realm.stem (world.plus realm.stem (stmtsNames false [⟨span, last⟩]))
        (stmtsUses [⟨span, last⟩]) := by
    simpa using meets
  have single {world : World} {stmt : Stmt}
      (meets : Meets realm.stem (world.plus realm.stem (stmtNames false stmt)) (stmtUses stmt)) :
      Meets realm.stem (world.plus realm.stem (stmtsNames false [stmt])) (stmtsUses [stmt]) := by
    simpa using meets
  -- A lone statement inside of another one sees the names that it binds.
  have lone {world wide : World} {body : Stmt} (grows : ∀ name, world name → wide name)
      (meets : Meets realm.stem (world.plus realm.stem (stmtNames false body)) (stmtUses body)) :
      Meets realm.stem wide (enclosed (stmtNames false body) (stmtUses body)) := by
    rw [meets_enclosed]
    exact meets.mono (World.plus_mono grows fun _ => id)
  cases shape with
  | block body =>
    apply (works_stmts body given).bind
    intro body
    apply Works.pure
    intro world _ meets
    apply stays
    rw [stmtShapeUses, meets_enclosed]
    exact Meets.mono meets (World.plus_mono (fun _ => .inl) fun _ => id)
  | doWhile condition body =>
    obtain ⟨inCondition, inBody⟩ := given_append.mp given
    apply (works_single (works_stmt body inBody)).bind
    intro body
    apply (works_expr condition inCondition).value.bind
    intro condition
    apply Works.pure
    intro world _ inCondition inBody
    apply stays
    rw [stmtShapeUses, meets_append]
    exact ⟨inCondition.plus, lone (fun _ => .inl) inBody⟩
  | exportDefault value =>
    exact (works_expr value given).value.bind fun _ => .pure fun _ _ meets => stays meets.plus
  | exportNames names module =>
    exact works_exportStatement span names module admits
  | expr value =>
    apply (works_expr value given).value.bind
    intro value
    exact .pure fun _ _ meets => (meets_exprStmt meets).plus
  | forIn keyword binding subject body =>
    obtain ⟨inHead, inBody⟩ := given_append.mp given
    obtain ⟨inBinding, inSubject⟩ := given_append.mp inHead
    apply (works_loopBinding keyword (works_pattern binding inBinding)).bind
    intro binding
    apply (works_expr subject inSubject).value.bind
    intro subject
    apply (works_single (works_stmt body inBody)).bind
    intro body
    apply Works.pure
    intro world _ inBody inSubject inBinding
    apply stays
    rw [stmtShapeUses, meets_enclosed, meets_append, meets_append]
    exact ⟨inBinding.plus.plus, inSubject.plus.plus, lone (fun _ inWorld => .inl (.inl inWorld)) inBody⟩
  | forOf isAwait keyword binding subject body =>
    obtain ⟨inHead, inBody⟩ := given_append.mp given
    obtain ⟨inBinding, inSubject⟩ := given_append.mp inHead
    have binds := works_pattern binding inBinding
    have subjects := (works_expr subject inSubject).value
    have bodies := works_stmt body inBody
    cases isAwait with
    | true =>
      apply (works_forAwaitLoop span keyword binds subjects bodies).bind
      exact fun _ => .pure fun _ _ => single
    | false =>
      apply (works_require .forOf span .forOfLoop).andThen
      intro _
      apply (works_nativeLoop span false keyword binds subjects bodies).bind
      exact fun _ => .pure fun _ _ meets => single meets.plus
  | forLoop init condition post body =>
    obtain ⟨inHead, inBody⟩ := given_append.mp given
    obtain ⟨inStart, inPost⟩ := given_append.mp inHead
    obtain ⟨inInit, inCondition⟩ := given_append.mp inStart
    apply (works_option init inInit).bind
    intro init
    apply (works_option condition inCondition).bind
    intro condition
    apply (works_option post inPost).bind
    intro post
    apply (works_single (works_stmt body inBody)).bind
    intro body
    apply Works.pure
    intro world _ inBody inPost inCondition inInit
    apply stays
    rw [stmtShapeUses, meets_append, meets_append, meets_append]
    exact ⟨inInit.plus, inCondition.plus, inPost.plus, lone (fun _ => .inl) inBody⟩
  | forDecl declSpan keyword declarators condition post body =>
    obtain ⟨inHead, inBody⟩ := given_append.mp given
    obtain ⟨inStart, inPost⟩ := given_append.mp inHead
    obtain ⟨inDeclarators, inCondition⟩ := given_append.mp inStart
    apply (works_varDeclarators declSpan keyword (works_declarators declarators inDeclarators)).bind
    intro declarators
    apply (works_option condition inCondition).bind
    intro condition
    apply (works_option post inPost).bind
    intro post
    apply (works_single (works_stmt body inBody)).bind
    intro body
    apply Works.pure
    intro world _ inBody inPost inCondition inDeclarators
    apply stays
    rw [stmtShapeUses, meets_enclosed, meets_append, meets_append, meets_append]
    refine ⟨?_, inCondition.plus.plus, inPost.plus.plus, lone (fun _ inWorld => .inl (.inl inWorld)) inBody⟩
    exact Meets.mono inDeclarators (World.plus_mono (fun _ => .inl) fun _ => id)
  | ifThen test consequent =>
    obtain ⟨inTest, inConsequent⟩ := given_append.mp given
    apply (works_ifStatement span (works_expr test inTest).value
      (works_stmt consequent (given_into.mp inConsequent)) _).bind
    · exact fun _ => .pure fun _ _ meets => single meets.plus
    · intro forms isForm
      cases isForm
  | ifElse test consequent alternate =>
    obtain ⟨inHead, inAlternate⟩ := given_append.mp given
    obtain ⟨inTest, inConsequent⟩ := given_append.mp inHead
    apply (works_ifStatement span (works_expr test inTest).value
      (works_stmt consequent (given_into.mp inConsequent)) _).bind
    · exact fun _ => .pure fun _ _ meets => single meets.plus
    · rintro forms ⟨⟩
      exact works_stmt alternate (given_into.mp inAlternate)
  | label name body =>
    apply (works_single (works_stmt body given)).bind
    intro body
    apply Works.pure
    intro world _ inBody
    apply stays
    rw [stmtShapeUses, meets_cons]
    exact ⟨admits, lone (fun _ => .inl) inBody⟩
  | «return» value =>
    exact (works_option value given).bind fun _ => .pure fun _ _ meets => stays meets.plus
  | switch test branches =>
    obtain ⟨inTest, inBranches⟩ := given_append.mp given
    apply (works_expr test inTest).value.bind
    intro test
    apply (works_branches branches inBranches).bind
    intro branches
    apply Works.pure
    intro world _ inBranches inTest
    apply stays
    rw [stmtShapeUses, meets_append, meets_enclosed]
    exact ⟨inTest.plus, Meets.mono inBranches (World.plus_mono (fun _ => .inl) fun _ => id)⟩
  | throw value =>
    exact (works_expr value given).value.bind fun _ => .pure fun _ _ meets => stays meets.plus
  | tryCatch body param handler =>
    obtain ⟨handlerSpan, handler⟩ := handler
    obtain ⟨inHead, inHandler⟩ := given_append.mp given
    obtain ⟨inBody, inParam⟩ := given_append.mp inHead
    apply (works_block body inBody).bind
    intro body
    apply (works_handlerParam handlerSpan (works_patternOptionForms param inParam)).bind
    intro param
    apply (works_stmts handler inHandler).bind
    intro handler
    apply Works.pure
    intro world _ inHandler inParam inBody
    apply stays
    rw [stmtShapeUses, blockUses, meets_append, meets_enclosed, meets_append, meets_enclosed]
    refine ⟨inBody.plus, inParam.plus.plus, ?_⟩
    exact Meets.mono inHandler (World.plus_mono (fun _ inWorld => .inl (.inl inWorld)) fun _ => id)
  | tryFinally body finalizer =>
    obtain ⟨inBody, inFinalizer⟩ := given_append.mp given
    apply (works_block body inBody).bind
    intro body
    apply (works_block finalizer inFinalizer).bind
    intro finalizer
    apply Works.pure
    intro world _ inFinalizer inBody
    exact stays (meets_append.mpr ⟨inBody.plus, inFinalizer.plus⟩)
  | tryCatchFinally body param handler finalizer =>
    obtain ⟨handlerSpan, handler⟩ := handler
    obtain ⟨inOthers, inFinalizer⟩ := given_append.mp given
    obtain ⟨inHead, inHandler⟩ := given_append.mp inOthers
    obtain ⟨inBody, inParam⟩ := given_append.mp inHead
    apply (works_block body inBody).bind
    intro body
    apply (works_handlerParam handlerSpan (works_patternOptionForms param inParam)).bind
    intro param
    apply (works_stmts handler inHandler).bind
    intro handler
    apply (works_block finalizer inFinalizer).bind
    intro finalizer
    apply Works.pure
    intro world _ inFinalizer inHandler inParam inBody
    apply stays
    have whole : Meets realm.stem (world.plus realm.stem (patternOptionNames param))
        (blockUses ⟨handlerSpan, handler⟩) := by
      rw [blockUses, meets_enclosed]
      exact Meets.mono inHandler (World.plus_mono (fun _ => .inl) fun _ => id)
    rw [stmtShapeUses, meets_append, meets_append, meets_enclosed, meets_append]
    refine ⟨inBody.plus, ⟨inParam.plus.plus, ?_⟩, inFinalizer.plus⟩
    exact whole.mono (World.plus_mono (fun _ => .inl) fun _ => id)
  | «while» condition body =>
    obtain ⟨inCondition, inBody⟩ := given_append.mp given
    apply (works_expr condition inCondition).value.bind
    intro condition
    apply (works_single (works_stmt body inBody)).bind
    intro body
    apply Works.pure
    intro world _ inBody inCondition
    exact stays (meets_append.mpr ⟨inCondition.plus, lone (fun _ => .inl) inBody⟩)
  | «with» object body =>
    obtain ⟨inObject, inBody⟩ := given_append.mp given
    apply (works_expr object inObject).value.bind
    intro object
    apply (works_single (works_stmt body inBody)).bind
    intro body
    apply Works.pure
    intro world _ inBody inObject
    exact stays (meets_append.mpr ⟨inObject.plus, lone (fun _ => .inl) inBody⟩)
  | classDecl exported name heritage members =>
    obtain ⟨inHeritage, inMembers⟩ := given_append.mp given
    exact works_classDeclaration span exported members admits.writable
      (works_heritageStep heritage inHeritage) (works_classMembers members admits.fits inMembers)
      fun isClean => agree_classMembersForms (admits.agree isClean)
  | functionDecl exported name func =>
    apply (works_funcStep func given).bind
    intro func
    apply Works.pure
    intro world _ meets
    apply stays
    rw [stmtShapeUses, meets_append, meets_nameUses]
    exact ⟨admits, meets.1.plus⟩
  | varDecl isExported keyword declarators =>
    apply (works_varDeclarators span keyword (works_declarators declarators given)).bind
    intro declarators
    apply Works.pure
    intro world _ meets
    apply stays
    rw [stmtShapeUses, stmtShapeNames, if_neg (by simp)]
    exact meets
  | breakTo label | continueTo label =>
    apply Works.pure
    intro world _
    exact stays (meets_nameUses.mpr admits)
  | importNames default names module =>
    apply Works.pure
    intro world _
    exact stays (Meets.mono admits fun _ => False.elim)
  | comment | debugger | empty =>
    exact .pure fun _ _ => stays meets_nil

end

end Realm

end Downlevel
