import Downlevel.Proofs.Forms
import Downlevel.Proofs.Remaining.Builders

/-! Every part of a program leaves nothing but what may remain, by induction on the tree. -/

namespace Downlevel

open Lowering

namespace Ending

variable {ending : Ending} {site : Site}

/-- What is known about a node of the source. -/
structure Takes (ending : Ending) (site : Site) (node : Node) : Prop where
  formed : ending.isRead → node.Formed
  steps : node.StepsChain → ending.stepsChain
  waits : node.Waits → site = .static → ending.waitsInStatic
  await : node.Waits → ending.TakesAwait site
  yield : node.Yields → ending.TakesYield site
  outer : ∀ name ∈ node.outerNames, ending.isOuter name

/-- Everything among the nodes of a tree at the site is of the source. -/
abbrev Given (ending : Ending) (site : Site) (nodes : List Occurrence) : Prop :=
  Throughout ending.Takes site nodes

section Sites

variable {nodes : List Occurrence}

/-- Nothing depends on whether the site is one that never runs. -/
theorem Given.branch {isDead other : Bool} (given : ending.Given (site.branch isDead) nodes) :
    ending.Given (site.branch other) nodes := by
  refine given.imp fun inner node takes => ?_
  -- Being dead only matters for what stands in the own ground, and a branch takes at least what a
  -- live place takes.
  cases site with
  | own around =>
    cases inner with
    | own inside =>
      exact ⟨takes.formed, takes.steps, nofun, fun _ => .inr (.inl rfl),
        fun yields => takes.yield yields, takes.outer⟩
    | static => exact takes
    | inside ground => exact takes
  | static => exact takes
  | inside ground => exact takes

/-- Where an asynchronous function can wait, a generator that is going to stand in for it can. -/
theorem Given.standIn {isGenerator : Bool}
    (given : ending.Given (.inside (.body true isGenerator)) nodes) :
    ending.Given (.inside .standIn) nodes := by
  refine given.imp fun inner node takes => ?_
  -- Only the level of the body itself changes; what is in functions inside of it is untouched.
  cases inner with
  | own isDead =>
    exact ⟨takes.formed, takes.steps, nofun, fun _ => .inl rfl, fun _ => .inl rfl, takes.outer⟩
  | static => exact takes
  | inside ground => exact takes

/-- The parts of a function are of the source wherever the function stands. -/
theorem given_func {func : Func} :
    ending.Given site (funcNodes func)
      ↔ ending.Given (.inside .barred) (paramsNodes func.params)
        ∧ ending.Given (.inside (.body func.isAsync func.isGenerator)) (bodyNodes func.body) := by
  obtain ⟨span, isArrow, isAsync, isGenerator, params, body⟩ := func
  have own : ending.Takes (.inside .barred)
      (.func ⟨span, isArrow, isAsync, isGenerator, params, body⟩) :=
    ⟨fun _ => trivial, nofun, nofun, nofun, nofun, nofun⟩
  simp only [funcNodes, throughout_cons, throughout_append, throughout_into]
  exact and_iff_right own

/-- The body of a function is of the source wherever it is lowered. -/
theorem Given.body {isAsync isGenerator : Bool} {mode : FuncMode}
    (given : ending.Given (.inside (.body isAsync isGenerator)) nodes)
    (onlyAsync : mode ≠ .native → isAsync = true) :
    ending.Given (.inside (bodyGround mode isAsync isGenerator)) nodes := by
  unfold bodyGround
  split
  · exact given
  · obtain rfl := onlyAsync ‹_›
    exact given.standIn

end Sites

section Parts

/-- The nodes of an expression are its shape and what is inside. -/
theorem given_expr {e : Expr} :
    ending.Given site (exprNodes e)
      → ending.Takes site (.shape e.shape) ∧ ending.Given site (shapeNodes e.shape) := by
  obtain ⟨origin, shape⟩ := e
  simp only [exprNodes, throughout_cons, Site.into_own_false]
  exact And.right

/-- The nodes of a statement are its shape and what is inside. -/
theorem given_stmt {stmt : Stmt} :
    ending.Given site (stmtNodes stmt)
      ↔ ending.Takes site (.stmt stmt.shape) ∧ ending.Given site (stmtShapeNodes stmt.shape) := by
  obtain ⟨span, shape⟩ := stmt
  simp [stmtNodes]

/-- What is known of an array pattern is known of its parts. -/
theorem given_arrayPattern {span : Span} {slots : List PatternSlot} {rest : Option Pattern} :
    ending.Given site (patternNodes (.array span slots rest))
      → ending.Given site (slotsNodes slots) ∧ ending.Given site (patternOptionNodes rest) := by
  simp +contextual [patternNodes]

/-- What is known of an object pattern is known of its parts. -/
theorem given_objectPattern {span : Span} {properties : List PatternProperty}
    {rest : Option Pattern} :
    ending.Given site (patternNodes (.object span properties rest))
      → ending.Given site (propertiesNodes properties)
        ∧ ending.Given site (patternOptionNodes rest) := by
  simp +contextual [patternNodes]

/-- What is known of a place as a pattern is known of the place. -/
theorem given_targetPattern {span : Span} {place : Expr} :
    ending.Given site (patternNodes (.target span place))
      → (ending.isRead → place.isPlace = true) ∧ ending.Given site (exprNodes place) := by
  simp only [patternNodes, throughout_cons, Site.into_own_false]
  rintro ⟨takes, inPlace⟩
  exact ⟨takes.formed, inPlace⟩

/-- What is known of a member of a class is known of its key, and of its value in the class. -/
theorem given_classMember {span : Span} {key : Key} {isStatic : Bool} {value : MemberValue} :
    ending.Given site (classMemberNodes ⟨span, key, isStatic, value⟩)
      ↔ ending.Given site (keyNodes key)
        ∧ ending.Given (site.into (memberSite isStatic value)) (memberValueNodes value) := by
  simp only [classMemberNodes, throughout_append, throughout_into]

/-- A statement alone may remain as a list. -/
theorem keeps_single {stmt : Stmt} :
    ending.Keeps site (stmtsNodes [stmt]) ↔ ending.Keeps site (stmtNodes stmt) := by
  simp [stmtsNodes]

end Parts

mutual

/-- All forms of an expression leave nothing but what may remain. -/
theorem leaves_expr (e : Expr) {site : Site} (given : ending.Given site (exprNodes e)) :
    ending.LeavesForms site (exprForms e) := by
  obtain ⟨origin, shape⟩ := e
  obtain ⟨takes, inside⟩ := given_expr given
  exact leaves_shape origin shape takes inside

/-- The same for a shape, given that it is allowed where it stands. -/
theorem leaves_shape (origin : Origin) (shape : Shape) {site : Site}
    (takes : ending.Takes site (.shape shape)) (given : ending.Given site (shapeNodes shape)) :
    ending.LeavesForms site (shapeForms origin shape) := by
  -- One form at a time, in the order of the data type: the parts are lowered by the walk, and what
  -- the form itself accounts for is shown beside them.
  cases shape with
  | arrow func =>
    refine leaves_plainForms rfl ((leaves_funcStep func given).bind fun func => ?_)
    refine (leaves_lacks .arrow).bind fun isLacking => .ite (fun _ => ?_) fun has => ?_
    · exact .pure fun _ keeps => keeps_arrowToFunction keeps
    · exact .pure fun known keeps => keeps_arrow (by simpa [known] using has) keeps
  | binary op left right =>
    obtain ⟨inLeft, inRight⟩ := throughout_append.mp given
    refine leaves_plainForms rfl (leaves_binary origin (leaves_expr left inLeft)
      (leaves_expr right inRight).value ?_)
    rw [exprForms_source]
    exact fun isRead => takes.formed isRead
  | call link isPure callee args =>
    obtain ⟨inCallee, inArgs⟩ := throughout_append.mp given
    exact leaves_callForms isPure args (leaves_expr callee inCallee) (leaves_args args inArgs)
  | classExpr name heritage members =>
    obtain ⟨inHeritage, inMembers⟩ := throughout_append.mp given
    exact leaves_plainForms rfl (leaves_classExpression origin.span name members
      (leaves_heritageStep heritage inHeritage) (leaves_classMembers members inMembers))
  | computed link object key =>
    obtain ⟨inObject, inKey⟩ := throughout_append.mp given
    exact leaves_computedForms (leaves_expr object inObject) (leaves_expr key inKey).value
  | cond test consequent alternate =>
    obtain ⟨⟨inTest, inConsequent⟩, inAlternate⟩ := by
      simpa only [shapeNodes, throughout_append] using given
    refine leaves_plainForms rfl ((leaves_expr test inTest).value.bind fun _ =>
      (leaves_expr consequent inConsequent).value.bind fun _ =>
      (leaves_expr alternate inAlternate).value.bind fun _ => .pure ?_)
    intro keepsAlternate keepsConsequent keepsTest
    exact (keeps_plain rfl).mpr
      (throughout_append.mpr ⟨throughout_append.mpr ⟨keepsTest, keepsConsequent⟩, keepsAlternate⟩)
  | function name func =>
    exact leaves_plainForms rfl ((leaves_funcStep func given).bind fun _ => .pure keeps_function.mpr)
  | id name =>
    exact leaves_nameForms name
  | importCall module =>
    exact leaves_plainForms rfl ((leaves_expr module given).value.bind fun _ =>
      .pure fun keeps => (keeps_plain rfl).mpr keeps)
  | member link object name =>
    exact leaves_memberForms (leaves_expr object given) name
  | new callee args =>
    obtain ⟨inCallee, inArgs⟩ := throughout_append.mp given
    refine leaves_plainForms rfl ((leaves_expr callee inCallee).value.bind fun _ =>
      (leaves_args args inArgs).bind fun _ => .pure fun keepsArgs keepsCallee => ?_)
    exact (keeps_plain rfl).mpr (throughout_append.mpr ⟨keepsCallee, keepsArgs⟩)
  | tagged tag head spans =>
    obtain ⟨inTag, inSpans⟩ := throughout_append.mp given
    exact leaves_plainForms rfl
      (leaves_taggedTemplate origin head (leaves_expr tag inTag) (leaves_spans spans inSpans))
  | this =>
    refine leaves_plainForms rfl (leaves_resolveThis.bind fun found => ?_)
    cases found with
    | some name => exact .pure fun _ => keeps_id
    | none => exact .pure fun _ => (keeps_plain rfl).mpr throughout_nil
  | unary op operand =>
    refine leaves_plainForms rfl
      (leaves_unary origin (leaves_expr operand given) ?_ ?_ fun isAwait => ?_)
    · rw [exprForms_source]
      rintro (rfl | rfl)
      · exact takes.steps
      · exact takes.steps
    · rintro rfl
      exact takes.waits trivial
    · obtain rfl := isAwait
      exact takes.await trivial
  | update op operand =>
    have inOperand := leaves_expr operand given
    refine leaves_plainForms rfl (inOperand.target.bind fun e => .pure fun ⟨keeps, _⟩ => ?_)
    rw [exprForms_source] at keeps
    exact (keeps_plain rfl).mpr (keeps fun isChained => .inr (takes.steps isChained))
  | yield isDelegated operand =>
    refine leaves_plainForms rfl ((leaves_option operand given).bind fun operand => ?_)
    cases operand with
    | none => exact .pure fun keeps => keeps_yield (takes.yield trivial) keeps
    | some operand =>
      dsimp only
      split
      · refine (leaves_delegated _ operand).bind fun marked => .pure fun keeps inOperand => ?_
        exact keeps_yield (takes.yield trivial) (keeps inOperand)
      · exact .pure fun keeps => keeps_yield (takes.yield trivial) keeps
  | array items =>
    exact leaves_plainForms rfl ((leaves_items items given).bind fun _ =>
      .pure fun keeps => (keeps_plain rfl).mpr keeps)
  | bigint digits =>
    refine leaves_plainForms rfl ((leaves_lacks .bigint).bind fun isLacking => ?_)
    refine .ite (fun _ => .pure fun _ => keeps_bigintCall) fun has => .pure fun known => ?_
    have bigints : ending.target.supports .bigint = true := by simpa [known] using has
    exact keeps_expr.mpr ⟨⟨by simpa [Node.rewritable?] using bigints, by simp [Node.asynchronous?],
      nofun, trivial, nofun, allowed_plain nofun nofun, nofun⟩, throughout_nil⟩
  | object members =>
    refine leaves_plainForms rfl ((leaves_objectMembers members given).bind fun members => ?_)
    exact leaves_objectLiteral origin members
  | template head spans =>
    refine leaves_plainForms rfl ((leaves_spans spans given).bind fun spans => ?_)
    refine (leaves_lacks .templateLiteral).bind fun isLacking => .ite (fun _ => ?_) fun has => ?_
    · rw [templateToSum_eq]
      exact .pure fun _ keeps => keeps_templateSum keeps
    · refine .pure fun known keeps => ?_
      have templates : ending.target.supports .templateLiteral = true := by simpa [known] using has
      exact keeps_expr.mpr ⟨⟨by simpa [Node.rewritable?] using templates,
        by simp [Node.asynchronous?], nofun, trivial, nofun, allowed_plain nofun nofun, nofun⟩, keeps⟩
  | arrayPattern slots rest =>
    obtain ⟨inSlots, inRest⟩ := throughout_append.mp given
    refine leaves_assignedPattern rfl ((leaves_slots false slots inSlots).bind fun _ =>
      (leaves_patternOption rest inRest).bind fun _ => .pure fun keepsRest keepsSlots => ?_)
    exact (keeps_plain rfl).mpr (throughout_append.mpr ⟨keepsSlots, keepsRest⟩)
  | objectPattern properties rest =>
    obtain ⟨inProperties, inRest⟩ := throughout_append.mp given
    refine leaves_assignedPattern rfl ((leaves_properties false properties inProperties).bind fun _ =>
      (leaves_patternOption rest inRest).bind fun _ => .pure fun keepsRest keepsProperties => ?_)
    exact (keeps_plain rfl).mpr (throughout_append.mpr ⟨keepsProperties, keepsRest⟩)
  | importMeta | newTarget | super | bool | null | num | regex | str =>
    exact leaves_plainForms rfl (.pure ((keeps_plain rfl).mpr throughout_nil))

/-- Of an expression that may be absent nothing is left but what may remain. -/
theorem leaves_option (e : Option Expr) {site : Site} (given : ending.Given site (optionNodes e)) :
    ending.Leaves site (optionStep e) fun e => ending.Keeps site (optionNodes e) := by
  cases e with
  | none =>
    exact .pure throughout_nil
  | some e =>
    exact (leaves_expr e given).value.bind fun _ => .pure id

/-- Of the base class of a class nothing is left but what may remain. -/
theorem leaves_heritageStep (heritage : Option Expr) {site : Site}
    (given : ending.Given site (optionNodes heritage)) :
    ∀ step ∈ heritageStep heritage, ending.LeavesExpr site step := by
  cases heritage with
  | none => exact nofun
  | some e =>
    rintro step ⟨⟩
    exact (leaves_expr e given).value

/-- The forms of an expression that may be absent leave nothing but what may remain. -/
theorem leaves_optionForms (e : Option Expr) {site : Site}
    (given : ending.Given site (optionNodes e)) :
    ∀ forms ∈ optionForms e, ending.LeavesExpr site forms.value := by
  cases e with
  | none => exact nofun
  | some e =>
    rintro forms ⟨⟩
    exact (leaves_expr e given).value

/-- Of an argument nothing is left but what may remain. -/
theorem leaves_arg (arg : Arg) {site : Site} (given : ending.Given site (argNodes arg)) :
    ending.Leaves site (argStep arg) fun arg => ending.Keeps site (argNodes arg) := by
  obtain ⟨isSpread, value⟩ := arg
  exact (leaves_expr value given).value.bind fun _ => .pure id

/-- Of arguments nothing is left but what may remain. -/
theorem leaves_args (args : List Arg) {site : Site} (given : ending.Given site (argsNodes args)) :
    ending.Leaves site (argsStep args) fun args => ending.Keeps site (argsNodes args) := by
  cases args with
  | nil =>
    exact .pure throughout_nil
  | cons arg rest =>
    obtain ⟨inArg, inRest⟩ := throughout_append.mp given
    exact (leaves_arg arg inArg).bind fun _ => (leaves_args rest inRest).bind fun _ =>
      .pure fun keepsRest keepsArg => throughout_append.mpr ⟨keepsArg, keepsRest⟩

/-- Of a substitution nothing is left but what may remain. -/
theorem leaves_span (span : TemplateSpan) {site : Site}
    (given : ending.Given site (spanNodes span)) :
    ending.Leaves site (spanStep span) fun span => ending.Keeps site (spanNodes span) := by
  obtain ⟨value, text⟩ := span
  exact (leaves_expr value given).value.bind fun _ => .pure id

/-- Of substitutions nothing is left but what may remain. -/
theorem leaves_spans (spans : List TemplateSpan) {site : Site}
    (given : ending.Given site (spansNodes spans)) :
    ending.Leaves site (spansStep spans) fun spans => ending.Keeps site (spansNodes spans) := by
  cases spans with
  | nil =>
    exact .pure throughout_nil
  | cons span rest =>
    obtain ⟨inSpan, inRest⟩ := throughout_append.mp given
    exact (leaves_span span inSpan).bind fun _ => (leaves_spans rest inRest).bind fun _ =>
      .pure fun keepsRest keepsSpan => throughout_append.mpr ⟨keepsSpan, keepsRest⟩

/-- Of an element of an array literal nothing is left but what may remain. -/
theorem leaves_item (item : ArrayItem) {site : Site}
    (given : ending.Given site (itemNodes item)) :
    ending.Leaves site (itemStep item) fun item => ending.Keeps site (itemNodes item) := by
  cases item with
  | single value =>
    exact (leaves_expr value given).value.bind fun _ => .pure id
  | spread value =>
    exact (leaves_expr value given).value.bind fun _ => .pure id
  | hole =>
    exact .pure throughout_nil

/-- Of the elements of an array literal nothing is left but what may remain. -/
theorem leaves_items (items : List ArrayItem) {site : Site}
    (given : ending.Given site (itemsNodes items)) :
    ending.Leaves site (itemsStep items) fun items => ending.Keeps site (itemsNodes items) := by
  cases items with
  | nil =>
    exact .pure throughout_nil
  | cons item rest =>
    obtain ⟨inItem, inRest⟩ := throughout_append.mp given
    exact (leaves_item item inItem).bind fun _ => (leaves_items rest inRest).bind fun _ =>
      .pure fun keepsRest keepsItem => throughout_append.mpr ⟨keepsItem, keepsRest⟩

/-- Of the forms of a key nothing is left but what may remain. -/
theorem leaves_keyForms (key : Key) {site : Site} (given : ending.Given site (keyNodes key)) :
    ending.LeavesKey site (keyForms key) := by
  cases key with
  | direct name =>
    trivial
  | computed value =>
    exact (leaves_expr value given).value

/-- Of what a member of an object literal holds nothing is left but what may remain. -/
theorem leaves_objectValue (value : MemberValue) {site : Site}
    (given : ending.Given site (memberValueNodes value))
    (isOfObject : ending.isRead → value.isOfObject = true) :
    ending.Leaves site (objectValueStep value) fun value =>
      ending.Keeps site (memberValueNodes value) := by
  -- An accessor or a block is no value of an object, so the parser never gives one.
  cases value with
  | getter func =>
    exact (leaves_funcStep func given).bind fun _ => .pure id
  | setter func =>
    exact (leaves_funcStep func given).bind fun _ => .pure id
  | method func =>
    exact (leaves_funcStep func given).bind fun _ => .pure id
  | field init =>
    exact (leaves_option init given).bind fun _ => .pure id
  | accessor init | staticBlock block =>
    exact .pureRead fun isRead => nomatch isOfObject isRead

/-- Of a member of an object literal nothing is left but what may remain. -/
theorem leaves_objectMember (member : ObjectMember) {site : Site}
    (given : ending.Given site (objectMemberNodes member)) :
    ending.Leaves site (objectMemberStep member) (ending.KeepsMember site) := by
  -- A member keeps its key and its value, and accounts for nothing itself.
  cases member with
  | valued span key value =>
    simp only [objectMemberNodes, throughout_cons, throughout_append, Site.into_own_false] at given
    obtain ⟨takes, inKey, inValue⟩ := given
    refine (leaves_key (leaves_keyForms key inKey)).bind fun key => ?_
    refine (leaves_objectValue value inValue takes.formed).bind fun value => .pure ?_
    intro keepsValue keepsKey
    have own : ending.Accounts site (.objectMember (.valued span key value)) :=
      accounts_objectMember rfl
    simpa [KeepsMember, objectMemberNodes] using ⟨own, keepsKey, keepsValue⟩
  | shorthand span name =>
    exact leaves_shorthandMember span name
  | spread span value =>
    exact (leaves_expr value (throughout_cons.mp given).2).value.bind fun _ => .pure id

/-- Of the members of an object literal nothing is left but what may remain. -/
theorem leaves_objectMembers (members : List ObjectMember) {site : Site}
    (given : ending.Given site (objectMembersNodes members)) :
    ending.Leaves site (objectMembersStep members) fun members =>
      ∀ member ∈ members, ending.KeepsMember site member := by
  cases members with
  | nil =>
    exact .pure nofun
  | cons member rest =>
    obtain ⟨inMember, inRest⟩ := throughout_append.mp given
    exact (leaves_objectMember member inMember).bind fun _ =>
      (leaves_objectMembers rest inRest).bind fun _ =>
        .pure fun keepsRest keepsMember => List.forall_mem_cons.mpr ⟨keepsMember, keepsRest⟩

/-- Of a member of a class nothing is left but what may remain. -/
theorem leaves_classMember (member : ClassMember) {site : Site}
    (given : ending.Given site (classMemberNodes member)) :
    ending.LeavesMember site (classMemberForms member) := by
  obtain ⟨span, key, isStatic, value⟩ := member
  obtain ⟨inKey, inValue⟩ := given_classMember.mp given
  refine ⟨leaves_keyForms key inKey, ?_⟩
  -- A function is the same wherever it stands, and initializers run where their field says.
  cases value with
  | getter func =>
    exact leaves_funcStep func (given_func.mpr (given_func.mp inValue))
  | setter func =>
    exact leaves_funcStep func (given_func.mpr (given_func.mp inValue))
  | method func =>
    exact leaves_funcStep func (given_func.mpr (given_func.mp inValue))
  | field init =>
    exact leaves_heritageStep init (into_fieldSite isStatic ▸ inValue)
  | accessor init =>
    exact leaves_heritageStep init (into_fieldSite isStatic ▸ inValue)
  | staticBlock block =>
    obtain ⟨blockSpan, body⟩ := block
    exact leaves_stmts body inValue

/-- Of the members of a class nothing is left but what may remain. -/
theorem leaves_classMembers (members : List ClassMember) {site : Site}
    (given : ending.Given site (classMembersNodes members)) :
    ∀ forms ∈ classMembersForms members, ending.LeavesMember site forms := by
  cases members with
  | nil => exact List.forall_mem_nil _
  | cons member rest =>
    obtain ⟨inMember, inRest⟩ := throughout_append.mp given
    exact List.forall_mem_cons.mpr
      ⟨leaves_classMember member inMember, leaves_classMembers rest inRest⟩

/-- Of a function nothing is left but what may remain. -/
theorem leaves_funcStep (func : Func) {site : Site} (given : ending.Given site (funcNodes func)) :
    ending.Leaves site (funcStep func) fun func => ending.Keeps site (funcNodes func) := by
  obtain ⟨span, isArrow, isAsync, isGenerator, params, body⟩ := func
  obtain ⟨inParams, inBody⟩ := given_func.mp given
  exact leaves_func (leaves_params params inParams)
    fun mode onlyAsync => leaves_body body (inBody.body onlyAsync)

/-- Of the body of a function nothing is left but what may remain. -/
theorem leaves_body (body : Body) {site : Site} (given : ending.Given site (bodyNodes body)) :
    ending.Leaves site (bodyStep body) fun body => ending.Keeps site (bodyNodes body) := by
  cases body with
  | block stmts =>
    exact (leaves_stmts stmts given).bind fun _ => .pure id
  | value result =>
    exact (leaves_expr result given).value.bind fun _ => .pure id

/-- Of a parameter nothing is left but what may remain. -/
theorem leaves_paramStep (param : Param) {site : Site} (given : ending.Given site (paramNodes param)) :
    ending.Leaves site (paramStep param) (ending.Receives site) := by
  obtain ⟨span, isRest, pattern, default⟩ := param
  obtain ⟨inPattern, inDefault⟩ := throughout_append.mp (throughout_cons.mp given).2
  exact leaves_param (leaves_pattern pattern inPattern) (leaves_optionForms default inDefault)

/-- Of parameters nothing is left but what may remain. -/
theorem leaves_params (params : List Param) {site : Site}
    (given : ending.Given site (paramsNodes params)) :
    ending.Leaves site (paramsStep params) fun params =>
      ∀ param ∈ params, ending.Receives site param := by
  cases params with
  | nil =>
    exact .pure nofun
  | cons param rest =>
    obtain ⟨inParam, inRest⟩ := throughout_append.mp given
    exact (leaves_paramStep param inParam).bind fun _ => (leaves_params rest inRest).bind fun _ =>
      .pure fun keepsRest keepsParam => List.forall_mem_cons.mpr ⟨keepsParam, keepsRest⟩

/-- Of a pattern nothing is left but what may remain. -/
theorem leaves_pattern (pattern : Pattern) {site : Site}
    (given : ending.Given site (patternNodes pattern)) :
    ending.LeavesPattern site (patternForms pattern) := by
  -- A pattern is lowered twice, as a declaration and as an assignment; its parts go by the walk in
  -- both.
  cases pattern with
  | id span name =>
    exact ⟨.pure ⟨keeps_idPattern, nofun⟩, leaves_nameForms name, fun _ => .inl rfl⟩
  | array span slots rest =>
    obtain ⟨inSlots, inRest⟩ := given_arrayPattern given
    refine ⟨?_, leaves_assignedPattern rfl ?_, fun _ => .inr rfl⟩
    · refine (leaves_slots true slots inSlots).bind fun _ =>
        (leaves_patternOption rest inRest).bind fun _ => .pure fun keepsRest keepsSlots => ?_
      exact ⟨keeps_arrayPattern.mpr ⟨keepsSlots, keepsRest⟩, fun _ => rfl⟩
    · refine (leaves_slots false slots inSlots).bind fun _ =>
        (leaves_patternOption rest inRest).bind fun _ => .pure fun keepsRest keepsSlots => ?_
      exact (keeps_plain rfl).mpr (throughout_append.mpr ⟨keepsSlots, keepsRest⟩)
  | object span properties rest =>
    obtain ⟨inProperties, inRest⟩ := given_objectPattern given
    refine ⟨?_, leaves_assignedPattern rfl ?_, fun _ => .inr rfl⟩
    · refine (leaves_properties true properties inProperties).bind fun _ =>
        (leaves_patternOption rest inRest).bind fun _ => .pure fun keepsRest keepsProperties => ?_
      exact ⟨keeps_objectPattern.mpr ⟨keepsProperties, keepsRest⟩, fun _ => rfl⟩
    · refine (leaves_properties false properties inProperties).bind fun _ =>
        (leaves_patternOption rest inRest).bind fun _ => .pure fun keepsRest keepsProperties => ?_
      exact (keeps_plain rfl).mpr (throughout_append.mpr ⟨keepsProperties, keepsRest⟩)
  | target span place =>
    obtain ⟨isPlace, inPlace⟩ := given_targetPattern given
    have inForms := leaves_expr place inPlace
    have source := exprForms_source place
    refine ⟨?_, inForms, fun isRead => .inl (source.symm ▸ isPlace isRead)⟩
    refine inForms.target.bind fun e => .pureRead fun isRead ⟨keeps, noPattern⟩ => ?_
    rw [source] at keeps noPattern
    have notChained := @notChained_of_target _ .assignment (.inl (isPlace isRead))
    exact ⟨keeps_targetPattern.mpr ⟨noPattern (isPlace isRead), keeps (by simp [notChained])⟩,
      fun _ => rfl⟩

/-- The forms of a pattern that may be absent leave nothing but what may remain. -/
theorem leaves_patternOptionForms (pattern : Option Pattern) {site : Site}
    (given : ending.Given site (patternOptionNodes pattern)) :
    ∀ forms ∈ patternOptionForms pattern, ending.LeavesPattern site forms := by
  cases pattern with
  | none =>
    exact nofun
  | some pattern =>
    rintro forms ⟨⟩
    exact leaves_pattern pattern given

/-- Of a pattern that may be absent nothing is left but what may remain. -/
theorem leaves_patternOption (pattern : Option Pattern) {site : Site}
    (given : ending.Given site (patternOptionNodes pattern)) :
    ending.Leaves site (patternOptionStep pattern) fun pattern =>
      ending.Keeps site (patternOptionNodes pattern) := by
  cases pattern with
  | none =>
    exact .pure throughout_nil
  | some pattern =>
    exact (leaves_pattern pattern given).bound.bind fun _ => .pure fun keeps => keeps.1

/-- Of a default value nothing is left but what may remain. -/
theorem leaves_defaultStep (isBound : Bool) (default : Option Expr) {site : Site}
    (given : ending.Given site (optionNodes default)) :
    ending.Leaves site (defaultStep isBound default) fun default =>
      ending.Keeps site (optionNodes default) := by
  cases default with
  | none =>
    exact .pure throughout_nil
  | some e =>
    have inValue := (leaves_expr e given).value
    exact .ite (fun _ => (leaves_rooted inValue).bind fun _ => .pure id)
      fun _ => inValue.bind fun _ => .pure id

/-- Of an element of an array pattern nothing is left but what may remain. -/
theorem leaves_slot (isBound : Bool) (slot : PatternSlot) {site : Site}
    (given : ending.Given site (slotNodes slot)) :
    ending.Leaves site (slotStep isBound slot) fun slot => ending.Keeps site (slotNodes slot) := by
  cases slot with
  | hole =>
    exact .pure throughout_nil
  | slot target default =>
    obtain ⟨inTarget, inDefault⟩ := throughout_append.mp given
    exact (leaves_pattern target inTarget).bound.bind fun _ =>
      (leaves_defaultStep isBound default inDefault).bind fun _ =>
        .pure fun keepsDefault keepsTarget => throughout_append.mpr ⟨keepsTarget.1, keepsDefault⟩

/-- Of the elements of an array pattern nothing is left but what may remain. -/
theorem leaves_slots (isBound : Bool) (slots : List PatternSlot) {site : Site}
    (given : ending.Given site (slotsNodes slots)) :
    ending.Leaves site (slotsStep isBound slots) fun slots =>
      ending.Keeps site (slotsNodes slots) := by
  cases slots with
  | nil =>
    exact .pure throughout_nil
  | cons slot rest =>
    obtain ⟨inSlot, inRest⟩ := throughout_append.mp given
    exact (leaves_slot isBound slot inSlot).bind fun _ =>
      (leaves_slots isBound rest inRest).bind fun _ =>
        .pure fun keepsRest keepsSlot => throughout_append.mpr ⟨keepsSlot, keepsRest⟩

/-- Of a property of an object pattern nothing is left but what may remain. -/
theorem leaves_property (isBound : Bool) (property : PatternProperty) {site : Site}
    (given : ending.Given site (propertyNodes property)) :
    ending.Leaves site (propertyStep isBound property) fun property =>
      ending.Keeps site (propertyNodes property) := by
  obtain ⟨span, key, target, isShorthand, default⟩ := property
  obtain ⟨inOthers, inDefault⟩ := throughout_append.mp given
  obtain ⟨inKey, inTarget⟩ := throughout_append.mp inOthers
  refine (leaves_key (leaves_keyForms key inKey)).bind fun _ =>
    (leaves_pattern target inTarget).bound.bind fun _ =>
    (leaves_defaultStep isBound default inDefault).bind fun _ => .pure ?_
  intro keepsDefault keepsTarget keepsKey
  exact throughout_append.mpr ⟨throughout_append.mpr ⟨keepsKey, keepsTarget.1⟩, keepsDefault⟩

/-- Of the properties of an object pattern nothing is left but what may remain. -/
theorem leaves_properties (isBound : Bool) (properties : List PatternProperty) {site : Site}
    (given : ending.Given site (propertiesNodes properties)) :
    ending.Leaves site (propertiesStep isBound properties) fun properties =>
      ending.Keeps site (propertiesNodes properties) := by
  cases properties with
  | nil =>
    exact .pure throughout_nil
  | cons property rest =>
    obtain ⟨inProperty, inRest⟩ := throughout_append.mp given
    exact (leaves_property isBound property inProperty).bind fun _ =>
      (leaves_properties isBound rest inRest).bind fun _ =>
        .pure fun keepsRest keepsProperty => throughout_append.mpr ⟨keepsProperty, keepsRest⟩

/-- Of a declarator nothing is left but what may remain. -/
theorem leaves_declaratorStep (declarator : Declarator) {site : Site}
    (given : ending.Given site (declaratorNodes declarator)) :
    ending.Leaves site (declaratorStep declarator) (ending.Declares site) := by
  obtain ⟨pattern, init⟩ := declarator
  obtain ⟨inPattern, inInit⟩ := throughout_append.mp (throughout_cons.mp given).2
  exact leaves_declarator (leaves_pattern pattern inPattern) (leaves_option init inInit)

/-- Of declarators nothing is left but what may remain. -/
theorem leaves_declarators (declarators : List Declarator) {site : Site}
    (given : ending.Given site (declaratorsNodes declarators)) :
    ending.Leaves site (declaratorsStep declarators) fun declarators =>
      ∀ declarator ∈ declarators, ending.Declares site declarator := by
  cases declarators with
  | nil =>
    exact .pure nofun
  | cons declarator rest =>
    obtain ⟨inDeclarator, inRest⟩ := throughout_append.mp given
    exact (leaves_declaratorStep declarator inDeclarator).bind fun _ =>
      (leaves_declarators rest inRest).bind fun _ =>
        .pure fun declaresRest declares => List.forall_mem_cons.mpr ⟨declares, declaresRest⟩

/-- Of statements in braces nothing is left but what may remain. -/
theorem leaves_block (block : Block) {site : Site} (given : ending.Given site (blockNodes block)) :
    ending.Leaves site (blockStep block) fun block => ending.Keeps site (blockNodes block) := by
  obtain ⟨span, body⟩ := block
  exact (leaves_stmts body given).bind fun _ => .pure id

/-- Of statements nothing is left but what may remain. -/
theorem leaves_stmts (stmts : List Stmt) {site : Site}
    (given : ending.Given site (stmtsNodes stmts)) :
    ending.Leaves site (stmtsStep stmts) fun stmts => ending.Keeps site (stmtsNodes stmts) := by
  cases stmts with
  | nil =>
    exact .pure throughout_nil
  | cons stmt rest =>
    obtain ⟨inStmt, inRest⟩ := throughout_append.mp given
    refine (leaves_stmt stmt inStmt).stmts.bind fun _ => (leaves_stmts rest inRest).bind fun _ =>
      .pure fun keepsRest keepsStmt => ?_
    exact keeps_stmts.mpr
      (List.forall_mem_append.mpr ⟨keeps_stmts.mp keepsStmt, keeps_stmts.mp keepsRest⟩)

/-- Of a branch of a switch nothing is left but what may remain. -/
theorem leaves_branch (branch : SwitchBranch) {site : Site}
    (given : ending.Given site (branchNodes branch)) :
    ending.Leaves site (branchStep branch) fun branch =>
      ending.Keeps site (branchNodes branch) := by
  obtain ⟨span, test, body⟩ := branch
  obtain ⟨inTest, inBody⟩ := throughout_append.mp given
  exact (leaves_option test inTest).bind fun _ => (leaves_stmts body inBody).bind fun _ =>
    .pure fun keepsBody keepsTest => throughout_append.mpr ⟨keepsTest, keepsBody⟩

/-- Of the branches of a switch nothing is left but what may remain. -/
theorem leaves_branches (branches : List SwitchBranch) {site : Site}
    (given : ending.Given site (branchesNodes branches)) :
    ending.Leaves site (branchesStep branches) fun branches =>
      ending.Keeps site (branchesNodes branches) := by
  cases branches with
  | nil =>
    exact .pure throughout_nil
  | cons branch rest =>
    obtain ⟨inBranch, inRest⟩ := throughout_append.mp given
    exact (leaves_branch branch inBranch).bind fun _ => (leaves_branches rest inRest).bind fun _ =>
      .pure fun keepsRest keepsBranch => throughout_append.mpr ⟨keepsBranch, keepsRest⟩

/-- Of a statement nothing is left but what may remain, with or without its braces. -/
theorem leaves_stmt (stmt : Stmt) {site : Site} (given : ending.Given site (stmtNodes stmt)) :
    ending.LeavesStmt site (stmtForms stmt) := by
  obtain ⟨span, shape⟩ := stmt
  obtain ⟨takes, inside⟩ := given_stmt.mp given
  have inShape := leaves_stmtShape span shape takes inside
  cases shape with
  | block body => exact ⟨inShape, leaves_stmts body inside⟩
  | _ => exact ⟨inShape, inShape⟩

/-- The same for the shape of a statement, given that it is allowed where it stands. -/
theorem leaves_stmtShape (span : Span) (shape : StmtShape) {site : Site}
    (takes : ending.Takes site (.stmt shape)) (given : ending.Given site (stmtShapeNodes shape)) :
    ending.Leaves site (stmtShapeStep span shape) fun stmts =>
      ending.Keeps site (stmtsNodes stmts) := by
  -- A statement that every target has may remain with its parts.
  have stays {last : StmtShape} (complete : (Node.stmt last).rewritable? = none)
      (noAwait : ¬(Node.stmt last).Waits) (announced : ending.Announced site (.stmt last))
      (keeps : ending.Keeps site (stmtShapeNodes last))
      (outside : ∀ name ∈ (Node.stmt last).outerNames,
        name = "default" ∨ ending.isOuter name) :
      ending.Keeps site (stmtsNodes [⟨span, last⟩]) :=
    keeps_single.mpr (keeps_stmt.mpr ⟨accounts_stmt complete noAwait announced outside, keeps⟩)
  cases shape with
  | block body =>
    exact (leaves_stmts body given).bind fun _ => .pure fun keeps => stays rfl nofun trivial keeps nofun
  | doWhile condition body =>
    obtain ⟨inCondition, inBody⟩ := throughout_append.mp given
    refine (leaves_stmt body inBody).single.bind fun _ =>
      (leaves_expr condition inCondition).value.bind fun _ => .pure ?_
    intro keepsCondition keepsBody
    exact stays rfl nofun trivial (throughout_append.mpr ⟨keepsCondition, keepsBody⟩) nofun
  | exportDefault value =>
    exact (leaves_expr value given).value.bind fun _ =>
      .pure fun keeps => stays rfl nofun trivial keeps nofun
  | exportNames names module =>
    exact leaves_exportStatement span names takes.formed takes.outer
  | expr value =>
    exact (leaves_expr value given).value.bind fun _ => .pure keeps_usedStmt
  | forIn keyword binding subject body =>
    obtain ⟨inHead, inBody⟩ := throughout_append.mp given
    obtain ⟨inBinding, inSubject⟩ := throughout_append.mp inHead
    refine (leaves_loopBinding (leaves_pattern binding inBinding)).bind fun _ =>
      (leaves_expr subject inSubject).value.bind fun _ =>
      (leaves_stmt body inBody).single.bind fun _ => .pure ?_
    intro keepsBody keepsSubject ⟨keepsBinding, admits⟩
    exact stays rfl nofun admits
      (throughout_append.mpr ⟨throughout_append.mpr ⟨keepsBinding, keepsSubject⟩, keepsBody⟩) nofun
  | forOf isAwait keyword binding subject body =>
    obtain ⟨inHead, inBody⟩ := throughout_append.mp given
    obtain ⟨inBinding, inSubject⟩ := throughout_append.mp inHead
    have binds := leaves_pattern binding inBinding
    have subjects := (leaves_expr subject inSubject).value
    have bodies := leaves_stmt body inBody
    cases isAwait with
    | true =>
      refine (leaves_forAwaitLoop span binds subjects bodies (takes.waits trivial)
        (takes.await trivial)).bind fun _ => .pure keeps_single.mpr
    | false =>
      refine (leaves_require .forOf span .forOfLoop).bind fun _ => ?_
      refine (leaves_nativeLoop span binds subjects bodies ?_).bind fun _ => .pure ?_
      · exact nofun
      · exact fun keeps admits => keeps_single.mpr (keeps (.inl admits))
  | forLoop init condition post body =>
    obtain ⟨inHead, inBody⟩ := throughout_append.mp given
    obtain ⟨inStart, inPost⟩ := throughout_append.mp inHead
    obtain ⟨inInit, inCondition⟩ := throughout_append.mp inStart
    refine (leaves_option init inInit).bind fun _ => (leaves_option condition inCondition).bind
      fun _ => (leaves_option post inPost).bind fun _ =>
      (leaves_stmt body inBody).single.bind fun _ => .pure ?_
    intro keepsBody keepsPost keepsCondition keepsInit
    refine stays rfl nofun trivial (throughout_append.mpr ⟨throughout_append.mpr ⟨?_, keepsPost⟩,
      keepsBody⟩) nofun
    exact throughout_append.mpr ⟨keepsInit, keepsCondition⟩
  | forDecl declSpan keyword declarators condition post body =>
    obtain ⟨inHead, inBody⟩ := throughout_append.mp given
    obtain ⟨inStart, inPost⟩ := throughout_append.mp inHead
    obtain ⟨inDeclarators, inCondition⟩ := throughout_append.mp inStart
    refine (leaves_varDeclarators declSpan keyword (leaves_declarators declarators
      inDeclarators)).bind fun _ => (leaves_option condition inCondition).bind
      fun _ => (leaves_option post inPost).bind fun _ =>
      (leaves_stmt body inBody).single.bind fun _ => .pure ?_
    intro keepsBody keepsPost keepsCondition ⟨admits, keepsDeclarators⟩
    refine stays rfl nofun admits (throughout_append.mpr ⟨throughout_append.mpr ⟨?_, keepsPost⟩,
      keepsBody⟩) nofun
    exact throughout_append.mpr ⟨keepsDeclarators, keepsCondition⟩
  | ifThen test consequent =>
    obtain ⟨inTest, inConsequent⟩ := throughout_append.mp given
    rw [throughout_into] at inConsequent
    refine (leaves_ifStatement span (leaves_expr test inTest).value
      (fun isDead => leaves_stmt consequent (Given.branch inConsequent)) ?_).bind
      fun _ => .pure keeps_single.mpr
    exact nofun
  | ifElse test consequent alternate =>
    obtain ⟨inHead, inAlternate⟩ := throughout_append.mp given
    obtain ⟨inTest, inConsequent⟩ := throughout_append.mp inHead
    rw [throughout_into] at inConsequent inAlternate
    refine (leaves_ifStatement span (leaves_expr test inTest).value
      (fun isDead => leaves_stmt consequent (Given.branch inConsequent)) ?_).bind
      fun _ => .pure keeps_single.mpr
    rintro forms ⟨⟩ isDead
    exact leaves_stmt alternate (Given.branch inAlternate)
  | label name body =>
    exact (leaves_stmt body given).single.bind fun _ =>
      .pure fun keeps => stays rfl nofun trivial keeps nofun
  | «return» value =>
    exact (leaves_option value given).bind fun _ => .pure fun keeps => stays rfl nofun trivial keeps nofun
  | switch test branches =>
    obtain ⟨inTest, inBranches⟩ := throughout_append.mp given
    refine (leaves_expr test inTest).value.bind fun _ =>
      (leaves_branches branches inBranches).bind fun _ => .pure fun keepsBranches keepsTest => ?_
    exact stays rfl nofun trivial (throughout_append.mpr ⟨keepsTest, keepsBranches⟩) nofun
  | throw value =>
    exact (leaves_expr value given).value.bind fun _ =>
      .pure fun keeps => stays rfl nofun trivial keeps nofun
  | tryCatch body param handler =>
    obtain ⟨handlerSpan, handler⟩ := handler
    obtain ⟨inHead, inHandler⟩ := throughout_append.mp given
    obtain ⟨inBody, inParam⟩ := throughout_append.mp inHead
    refine (leaves_block body inBody).bind fun _ =>
      (leaves_handlerParam handlerSpan (leaves_patternOptionForms param inParam)).bind fun _ =>
      (leaves_stmts handler inHandler).bind fun _ => .pure ?_
    exact fun keepsHandler keepsParam keepsBody =>
      keeps_single.mpr (keeps_tryCatch keepsBody keepsParam keepsHandler)
  | tryFinally body finalizer =>
    obtain ⟨inBody, inFinalizer⟩ := throughout_append.mp given
    refine (leaves_block body inBody).bind fun _ => (leaves_block finalizer inFinalizer).bind
      fun _ => .pure fun keepsFinalizer keepsBody => ?_
    exact stays rfl nofun trivial (throughout_append.mpr ⟨keepsBody, keepsFinalizer⟩) nofun
  | tryCatchFinally body param handler finalizer =>
    obtain ⟨handlerSpan, handler⟩ := handler
    obtain ⟨inOthers, inFinalizer⟩ := throughout_append.mp given
    obtain ⟨inHead, inHandler⟩ := throughout_append.mp inOthers
    obtain ⟨inBody, inParam⟩ := throughout_append.mp inHead
    refine (leaves_block body inBody).bind fun _ =>
      (leaves_handlerParam handlerSpan (leaves_patternOptionForms param inParam)).bind fun _ =>
      (leaves_stmts handler inHandler).bind fun _ =>
      (leaves_block finalizer inFinalizer).bind fun _ => .pure ?_
    exact fun keepsFinalizer keepsHandler keepsParam keepsBody =>
      keeps_single.mpr (keeps_tryCatchFinally keepsBody keepsParam keepsHandler keepsFinalizer)
  | «while» condition body =>
    obtain ⟨inCondition, inBody⟩ := throughout_append.mp given
    refine (leaves_expr condition inCondition).value.bind fun _ =>
      (leaves_stmt body inBody).single.bind fun _ => .pure fun keepsBody keepsCondition => ?_
    exact stays rfl nofun trivial (throughout_append.mpr ⟨keepsCondition, keepsBody⟩) nofun
  | «with» object body =>
    obtain ⟨inObject, inBody⟩ := throughout_append.mp given
    refine (leaves_expr object inObject).value.bind fun _ =>
      (leaves_stmt body inBody).single.bind fun _ => .pure fun keepsBody keepsObject => ?_
    exact stays rfl nofun trivial (throughout_append.mpr ⟨keepsObject, keepsBody⟩) nofun
  | classDecl exported name heritage members =>
    obtain ⟨inHeritage, inMembers⟩ := throughout_append.mp given
    exact leaves_classDeclaration span exported name members
      (leaves_heritageStep heritage inHeritage) (leaves_classMembers members inMembers)
  | functionDecl exported name func =>
    exact (leaves_funcStep func given).bind fun _ =>
      .pure fun keeps => stays rfl nofun trivial keeps nofun
  | varDecl isExported keyword declarators =>
    refine (leaves_varDeclarators span keyword (leaves_declarators declarators given)).bind
      fun _ => .pure fun ⟨admits, keeps⟩ => ?_
    exact keeps_single.mpr (keeps_varDecl admits keeps)
  | importNames =>
    exact .pure (stays rfl nofun trivial throughout_nil fun name mem => .inr (takes.outer name mem))
  | breakTo | comment | continueTo | debugger | empty =>
    exact .pure (stays rfl nofun trivial throughout_nil nofun)

end

end Ending

end Downlevel
