import Downlevel.Proofs.Formed
import Downlevel.Proofs.Native.Classes

/-! Lowering for a target that has every feature: every part of a program stays, by induction on the
tree. -/

namespace Downlevel

open Lowering

/-- Whether a shape is a link of an optional chain. -/
def Shape.isChained : Shape → Bool
  | .member link .. | .computed link .. | .call link .. => link.isChained
  | _ => false

/-- Whether a node is a link of an optional chain that stands on a literal `null`, or on an `undefined`
that no scope declares. -/
def Node.isSkipped (scopes : ScopeTree) : Node → Bool
  | .shape link => link.isChained && link.chainBase?.any (isBareNullish (scopes.declares "undefined"))
  | _ => false

namespace Native

variable {scopes : ScopeTree}

/-- What is known about a node of the source. -/
structure Stays (scopes : ScopeTree) (node : Node) : Prop where
  formed : node.Formed
  runs : node.isSkipped scopes = false

/-- Everything among the nodes of a tree is of the source. -/
abbrev Given (scopes : ScopeTree) (nodes : List Occurrence) : Prop :=
  ∀ found ∈ nodes, Stays scopes found.node

section Given

variable {nodes others : List Occurrence}

/-- What is known of two lists of nodes is known of each. -/
theorem given_append :
    Given scopes (nodes ++ others) ↔ Given scopes nodes ∧ Given scopes others :=
  List.forall_mem_append

/-- It does not matter where a node runs. -/
theorem given_into {site : Site} : Given scopes (nodes.map (.into site)) ↔ Given scopes nodes :=
  List.forall_mem_map

/-- A link of a chain may run unless the chain stands on a value that is nullish by its name. -/
theorem mayRun_of_not_skipped {origin : Origin} {shape : Shape}
    (runs : (Node.shape shape).isSkipped scopes = false) : MayRun scopes ⟨origin, shape⟩ := by
  intro isChained base mem
  have sameLink : shape.isChained = (⟨origin, shape⟩ : Expr).isChained := by
    cases shape <;> rfl
  have sameBase : shape.chainBase? = some base := mem
  simpa [Node.isSkipped, sameLink, isChained, sameBase] using runs

/-- An expression of the source is whole, and so is what is inside. -/
theorem given_expr {origin : Origin} {shape : Shape}
    (given : Given scopes (exprNodes ⟨origin, shape⟩)) :
    origin.collapsed = false ∧ MayRun scopes ⟨origin, shape⟩ ∧ Given scopes (shapeNodes shape) := by
  rw [exprNodes] at given
  obtain ⟨ofOrigin, others⟩ := List.forall_mem_cons.mp given
  obtain ⟨ofShape, inside⟩ := List.forall_mem_cons.mp others
  exact ⟨ofOrigin.formed, mayRun_of_not_skipped ofShape.runs, inside⟩

/-- An expression of the source may run. -/
theorem mayRun_of_given {e : Expr} (given : Given scopes (exprNodes e)) : MayRun scopes e := by
  obtain ⟨origin, shape⟩ := e
  exact (given_expr given).2.1

/-- The parts of a function are of the source. -/
theorem given_func {func : Func} (given : Given scopes (funcNodes func)) :
    Given scopes (paramsNodes func.params) ∧ Given scopes (bodyNodes func.body) := by
  obtain ⟨span, isArrow, isAsync, isGenerator, params, body⟩ := func
  rw [funcNodes] at given
  obtain ⟨inParams, inBody⟩ := given_append.mp (List.forall_mem_cons.mp given).2
  exact ⟨given_into.mp inParams, given_into.mp inBody⟩

end Given

/-- The forms of members are those of each member. -/
theorem classMembersForms_eq (members : List ClassMember) :
    classMembersForms members = members.map classMemberForms := by
  induction members with
  | nil => rfl
  | cons member members ih => exact congrArg (classMemberForms member :: ·) ih

/-- The forms of a pattern that may be absent are those of the pattern. -/
theorem patternOptionForms_eq (pattern : Option Pattern) :
    patternOptionForms pattern = pattern.map patternForms := by
  cases pattern <;> rfl

mutual

/-- An expression stays as it is where the target has every feature. -/
theorem stays_expr (e : Expr) (given : Given scopes (exprNodes e)) :
    StaysExpr scopes (exprForms e) e := by
  obtain ⟨origin, shape⟩ := e
  obtain ⟨whole, runs, inside⟩ := given_expr given
  exact stays_shape origin shape whole runs inside

/-- The same for a shape. -/
theorem stays_shape (origin : Origin) (shape : Shape) (whole : origin.collapsed = false)
    (runs : MayRun scopes ⟨origin, shape⟩) (given : Given scopes (shapeNodes shape)) :
    StaysExpr scopes (shapeForms origin shape) ⟨origin, shape⟩ := by
  -- One form at a time, in the order of the data type: each step keeps its parts, by the walk over
  -- them.
  cases shape with
  | arrow func =>
    exact staysPlain rfl ((keeps_funcStep func given).next (.lacks (.pure rfl)))
  | binary op left right =>
    obtain ⟨inLeft, inRight⟩ := given_append.mp given
    exact staysPlain rfl (keeps_binary (stays_expr left inLeft) (stays_expr right inRight))
  | call link isPure callee args =>
    obtain ⟨inCallee, inArgs⟩ := given_append.mp given
    exact staysCall (stays_expr callee inCallee) (mayRun_of_given inCallee) (keeps_args args inArgs)
      runs
  | classExpr name heritage members =>
    obtain ⟨inHeritage, inMembers⟩ := given_append.mp given
    obtain ⟨span, collapsed⟩ := origin
    obtain rfl : collapsed = false := whole
    refine staysPlain rfl ?_
    rw [classMembersForms_eq]
    exact keeps_classExpression (stays_heritage heritage inHeritage)
      (stays_classMembers members inMembers)
  | computed link object key =>
    obtain ⟨inObject, inKey⟩ := given_append.mp given
    exact staysComputed (stays_expr object inObject) (stays_expr key inKey) runs
  | cond test consequent alternate =>
    obtain ⟨inHead, inAlternate⟩ := given_append.mp given
    obtain ⟨inTest, inConsequent⟩ := given_append.mp inHead
    exact staysPlain rfl ((stays_expr test inTest).value.next
      ((stays_expr consequent inConsequent).value.next
        ((stays_expr alternate inAlternate).value.next (.pure rfl))))
  | function name func =>
    exact staysPlain rfl ((keeps_funcStep func given).next (.pure rfl))
  | id name =>
    exact staysName name
  | importCall module =>
    exact staysPlain rfl ((stays_expr module given).value.next (.pure rfl))
  | member link object name =>
    exact staysMember (stays_expr object given) runs
  | new callee args =>
    obtain ⟨inCallee, inArgs⟩ := given_append.mp given
    exact staysPlain rfl ((stays_expr callee inCallee).value.next
      ((keeps_args args inArgs).next (.pure rfl)))
  | tagged tag head spans =>
    obtain ⟨inTag, inSpans⟩ := given_append.mp given
    exact staysPlain rfl (keeps_taggedTemplate (stays_expr tag inTag) (mayRun_of_given inTag)
      (keeps_spans spans inSpans))
  | this =>
    exact staysPlain rfl (keeps_resolveThis.next (.pure rfl))
  | unary op operand =>
    exact staysPlain rfl (keeps_unary (stays_expr operand given) (mayRun_of_given given))
  | update op operand =>
    exact staysPlain rfl ((stays_expr operand given).target.next (.pure rfl))
  | yield isDelegated operand =>
    refine staysPlain rfl ((keeps_option operand given).next ?_)
    cases operand with
    | none => exact .pure rfl
    | some operand =>
      dsimp only
      split
      · exact keeps_delegated.next (.pure rfl)
      · exact .pure rfl
  | array items =>
    exact staysPlain rfl ((keeps_items items given).next (.pure rfl))
  | bigint digits =>
    exact staysPlain rfl (.lacks (.pure rfl))
  | object members =>
    exact staysPlain rfl ((keeps_objectMembers members given).next keeps_objectLiteral)
  | template head spans =>
    exact staysPlain rfl ((keeps_spans spans given).next (.lacks (.pure rfl)))
  | arrayPattern slots rest =>
    obtain ⟨inSlots, inRest⟩ := given_append.mp given
    exact staysAssigned rfl ((keeps_slots false slots inSlots).next
      ((keeps_patternOption rest inRest).next (.pure rfl)))
  | objectPattern properties rest =>
    obtain ⟨inProperties, inRest⟩ := given_append.mp given
    exact staysAssigned rfl ((keeps_properties false properties inProperties).next
      ((keeps_patternOption rest inRest).next (.pure rfl)))
  | importMeta | newTarget | super | bool | null | num | regex | str =>
    exact staysPlain rfl (.pure rfl)

/-- An expression that may be absent stays as it is where the target has every feature. -/
theorem keeps_option (e : Option Expr) (given : Given scopes (optionNodes e)) :
    Keeps scopes (optionStep e) e := by
  cases e with
  | none =>
    exact .pure rfl
  | some e =>
    exact (stays_expr e given).value.next (.pure rfl)

/-- The base class of a class stays as it is where the target has every feature. -/
theorem stays_heritage (heritage : Option Expr) (given : Given scopes (optionNodes heritage)) :
    StaysOption scopes (heritageStep heritage) heritage := by
  cases heritage with
  | none =>
    exact .none
  | some e =>
    exact .some (stays_expr e given).value

/-- The forms of an expression that may be absent stay as they are where the target has every
feature. -/
theorem keeps_optionForms (e : Option Expr) (given : Given scopes (optionNodes e)) :
    Keeps scopes ((optionForms e).mapM rooted) e := by
  cases e with
  | none =>
    exact .pure rfl
  | some e =>
    have root := keeps_rooted (stays_expr e given).value
    exact .map (root.weaken fun _ same => congrArg some same)

/-- An argument stays as it is where the target has every feature. -/
theorem keeps_arg (arg : Arg) (given : Given scopes (argNodes arg)) :
    Keeps scopes (argStep arg) arg := by
  obtain ⟨isSpread, value⟩ := arg
  exact (stays_expr value given).value.next (.pure rfl)

/-- Arguments stay as they are where the target has every feature. -/
theorem keeps_args (args : List Arg) (given : Given scopes (argsNodes args)) :
    Keeps scopes (argsStep args) args := by
  cases args with
  | nil =>
    exact .pure rfl
  | cons arg rest =>
    obtain ⟨inArg, inRest⟩ := given_append.mp given
    exact (keeps_arg arg inArg).next ((keeps_args rest inRest).next (.pure rfl))

/-- A substitution stays as it is where the target has every feature. -/
theorem keeps_span (span : TemplateSpan) (given : Given scopes (spanNodes span)) :
    Keeps scopes (spanStep span) span := by
  obtain ⟨value, text⟩ := span
  exact (stays_expr value given).value.next (.pure rfl)

/-- Substitutions stay as they are where the target has every feature. -/
theorem keeps_spans (spans : List TemplateSpan) (given : Given scopes (spansNodes spans)) :
    Keeps scopes (spansStep spans) spans := by
  cases spans with
  | nil =>
    exact .pure rfl
  | cons span rest =>
    obtain ⟨inSpan, inRest⟩ := given_append.mp given
    exact (keeps_span span inSpan).next ((keeps_spans rest inRest).next (.pure rfl))

/-- An element of an array literal stays as it is where the target has every feature. -/
theorem keeps_item (item : ArrayItem) (given : Given scopes (itemNodes item)) :
    Keeps scopes (itemStep item) item := by
  cases item with
  | single value =>
    exact (stays_expr value given).value.next (.pure rfl)
  | spread value =>
    exact (stays_expr value given).value.next (.pure rfl)
  | hole =>
    exact .pure rfl

/-- The elements of an array literal stay as they are where the target has every feature. -/
theorem keeps_items (items : List ArrayItem) (given : Given scopes (itemsNodes items)) :
    Keeps scopes (itemsStep items) items := by
  cases items with
  | nil =>
    exact .pure rfl
  | cons item rest =>
    obtain ⟨inItem, inRest⟩ := given_append.mp given
    exact (keeps_item item inItem).next ((keeps_items rest inRest).next (.pure rfl))

/-- A key stays as it is where the target has every feature. -/
theorem stays_key (key : Key) (given : Given scopes (keyNodes key)) :
    StaysKey scopes (keyForms key) key := by
  cases key with
  | direct name =>
    exact .direct name
  | computed value =>
    exact .computed (stays_expr value given)

/-- What a member holds stays as it is where the target has every feature. -/
theorem stays_memberValue (value : MemberValue) (given : Given scopes (memberValueNodes value)) :
    StaysValue scopes (memberValueForms value) value := by
  -- The values of a class keep their functions and bodies by the walk over these.
  cases value with
  | getter func =>
    exact .getter (keeps_funcStep func given)
  | setter func =>
    exact .setter (keeps_funcStep func given)
  | method func =>
    exact .method (keeps_funcStep func given)
  | field init =>
    exact .field (stays_heritage init given)
  | accessor init =>
    exact .accessor (stays_heritage init given)
  | staticBlock block =>
    obtain ⟨span, body⟩ := block
    exact .staticBlock (keeps_stmts body given)

/-- What a member of an object literal holds stays as it is where the target has every feature. -/
theorem keeps_objectValue (value : MemberValue) (given : Given scopes (memberValueNodes value)) :
    Keeps scopes (objectValueStep value) value := by
  cases value with
  | getter func =>
    exact (keeps_funcStep func given).next (.pure rfl)
  | setter func =>
    exact (keeps_funcStep func given).next (.pure rfl)
  | method func =>
    exact (keeps_funcStep func given).next (.pure rfl)
  | field init =>
    exact (keeps_option init given).next (.pure rfl)
  | accessor init | staticBlock block =>
    exact .pure rfl

/-- A member of an object literal stays as it is where the target has every feature. -/
theorem keeps_objectMember (member : ObjectMember)
    (given : Given scopes (objectMemberNodes member)) :
    Keeps scopes (objectMemberStep member) member := by
  -- A member keeps its key and its value; a shorthand is a name.
  cases member with
  | valued span key value =>
    obtain ⟨inKey, inValue⟩ := given_append.mp (List.forall_mem_cons.mp given).2
    exact (keeps_lowerKey (stays_key key inKey)).next
      ((keeps_objectValue value inValue).next (.pure rfl))
  | shorthand span name =>
    exact keeps_shorthandMember
  | spread span value =>
    exact (stays_expr value (List.forall_mem_cons.mp given).2).value.next (.pure rfl)

/-- The members of an object literal stay as they are where the target has every feature. -/
theorem keeps_objectMembers (members : List ObjectMember)
    (given : Given scopes (objectMembersNodes members)) :
    Keeps scopes (objectMembersStep members) members := by
  cases members with
  | nil =>
    exact .pure rfl
  | cons member rest =>
    obtain ⟨inMember, inRest⟩ := given_append.mp given
    exact (keeps_objectMember member inMember).next
      ((keeps_objectMembers rest inRest).next (.pure rfl))

/-- A member of a class stays as it is where the target has every feature. -/
theorem stays_classMember (member : ClassMember) (given : Given scopes (classMemberNodes member)) :
    StaysMember scopes (classMemberForms member) member := by
  obtain ⟨span, key, isStatic, value⟩ := member
  rw [classMemberNodes] at given
  obtain ⟨inKey, inValue⟩ := given_append.mp given
  exact ⟨rfl, stays_key key inKey, rfl, stays_memberValue value (given_into.mp inValue)⟩

/-- The members of a class stay as they are where the target has every feature. -/
theorem stays_classMembers (members : List ClassMember)
    (given : Given scopes (classMembersNodes members)) :
    ∀ member ∈ members, StaysMember scopes (classMemberForms member) member := by
  cases members with
  | nil => exact nofun
  | cons member rest =>
    obtain ⟨inMember, inRest⟩ := given_append.mp given
    exact List.forall_mem_cons.mpr
      ⟨stays_classMember member inMember, stays_classMembers rest inRest⟩

/-- A function stays as it is where the target has every feature. -/
theorem keeps_funcStep (func : Func) (given : Given scopes (funcNodes func)) :
    Keeps scopes (funcStep func) func := by
  obtain ⟨span, isArrow, isAsync, isGenerator, params, body⟩ := func
  obtain ⟨inParams, inBody⟩ := given_func given
  exact keeps_lowerFunc (keeps_params params inParams) (keeps_body body inBody)

/-- The body of a function stays as it is where the target has every feature. -/
theorem keeps_body (body : Body) (given : Given scopes (bodyNodes body)) :
    Keeps scopes (bodyStep body) body := by
  cases body with
  | block stmts =>
    exact (keeps_stmts stmts given).next (.pure rfl)
  | value result =>
    exact (stays_expr result given).value.next (.pure rfl)

/-- A parameter stays as it is where the target has every feature. -/
theorem keeps_param (param : Param) (given : Given scopes (paramNodes param)) :
    Keeps scopes (paramStep param) param := by
  obtain ⟨span, isRest, pattern, default⟩ := param
  obtain ⟨inPattern, inDefault⟩ := given_append.mp (List.forall_mem_cons.mp given).2
  exact keeps_lowerParam (stays_pattern pattern inPattern) (keeps_optionForms default inDefault)

/-- Parameters stay as they are where the target has every feature. -/
theorem keeps_params (params : List Param) (given : Given scopes (paramsNodes params)) :
    Keeps scopes (paramsStep params) params := by
  cases params with
  | nil =>
    exact .pure rfl
  | cons param rest =>
    obtain ⟨inParam, inRest⟩ := given_append.mp given
    exact (keeps_param param inParam).next ((keeps_params rest inRest).next (.pure rfl))

/-- A pattern stays as it is where the target has every feature. -/
theorem stays_pattern (pattern : Pattern) (given : Given scopes (patternNodes pattern)) :
    StaysPattern scopes (patternForms pattern) pattern := by
  -- A pattern keeps its slots in either reading, as a declaration or as an assignment.
  cases pattern with
  | id span name =>
    exact ⟨rfl, .pure rfl⟩
  | array span slots rest =>
    obtain ⟨inSlots, inRest⟩ := given_append.mp (List.forall_mem_cons.mp given).2
    exact ⟨rfl, (keeps_slots true slots inSlots).next
      ((keeps_patternOption rest inRest).next (.pure rfl))⟩
  | object span properties rest =>
    obtain ⟨inProperties, inRest⟩ := given_append.mp (List.forall_mem_cons.mp given).2
    exact ⟨rfl, (keeps_properties true properties inProperties).next
      ((keeps_patternOption rest inRest).next (.pure rfl))⟩
  | target span place =>
    have inPlace := stays_expr place (List.forall_mem_cons.mp given).2
    exact ⟨rfl, inPlace.target.next (.pure rfl)⟩

/-- A pattern that may be absent stays as it is where the target has every feature. -/
theorem keeps_patternOption (pattern : Option Pattern)
    (given : Given scopes (patternOptionNodes pattern)) :
    Keeps scopes (patternOptionStep pattern) pattern := by
  cases pattern with
  | none =>
    exact .pure rfl
  | some pattern =>
    exact (stays_pattern pattern given).bound.next (.pure rfl)

/-- A pattern that may be absent stays as it is where the target has every feature. -/
theorem stays_patternOption (pattern : Option Pattern)
    (given : Given scopes (patternOptionNodes pattern)) :
    ∀ found ∈ pattern, StaysPattern scopes (patternForms found) found := by
  cases pattern with
  | none => exact nofun
  | some pattern =>
    rintro found ⟨⟩
    exact stays_pattern pattern given

/-- A default value stays as it is where the target has every feature. -/
theorem keeps_defaultStep (isBound : Bool) (default : Option Expr)
    (given : Given scopes (optionNodes default)) :
    Keeps scopes (defaultStep isBound default) default := by
  cases default with
  | none =>
    exact .pure rfl
  | some e =>
    have inValue := (stays_expr e given).value
    cases isBound with
    | true => exact (keeps_rooted inValue).next (.pure rfl)
    | false => exact inValue.next (.pure rfl)

/-- An element of an array pattern stays as it is where the target has every feature. -/
theorem keeps_slot (isBound : Bool) (slot : PatternSlot) (given : Given scopes (slotNodes slot)) :
    Keeps scopes (slotStep isBound slot) slot := by
  cases slot with
  | hole =>
    exact .pure rfl
  | slot target default =>
    obtain ⟨inTarget, inDefault⟩ := given_append.mp given
    exact (stays_pattern target inTarget).bound.next
      ((keeps_defaultStep isBound default inDefault).next (.pure rfl))

/-- The elements of an array pattern stay as they are where the target has every feature. -/
theorem keeps_slots (isBound : Bool) (slots : List PatternSlot)
    (given : Given scopes (slotsNodes slots)) : Keeps scopes (slotsStep isBound slots) slots := by
  cases slots with
  | nil =>
    exact .pure rfl
  | cons slot rest =>
    obtain ⟨inSlot, inRest⟩ := given_append.mp given
    exact (keeps_slot isBound slot inSlot).next ((keeps_slots isBound rest inRest).next (.pure rfl))

/-- A property of an object pattern stays as it is where the target has every feature. -/
theorem keeps_property (isBound : Bool) (property : PatternProperty)
    (given : Given scopes (propertyNodes property)) :
    Keeps scopes (propertyStep isBound property) property := by
  obtain ⟨span, key, target, isShorthand, default⟩ := property
  obtain ⟨inOthers, inDefault⟩ := given_append.mp given
  obtain ⟨inKey, inTarget⟩ := given_append.mp inOthers
  exact (keeps_lowerKey (stays_key key inKey)).next ((stays_pattern target inTarget).bound.next
    ((keeps_defaultStep isBound default inDefault).next (.pure rfl)))

/-- The properties of an object pattern stay as they are where the target has every feature. -/
theorem keeps_properties (isBound : Bool) (properties : List PatternProperty)
    (given : Given scopes (propertiesNodes properties)) :
    Keeps scopes (propertiesStep isBound properties) properties := by
  cases properties with
  | nil =>
    exact .pure rfl
  | cons property rest =>
    obtain ⟨inProperty, inRest⟩ := given_append.mp given
    exact (keeps_property isBound property inProperty).next
      ((keeps_properties isBound rest inRest).next (.pure rfl))

/-- A declarator stays as it is where the target has every feature. -/
theorem keeps_declarator (declarator : Declarator)
    (given : Given scopes (declaratorNodes declarator)) :
    Keeps scopes (declaratorStep declarator) declarator := by
  obtain ⟨pattern, init⟩ := declarator
  obtain ⟨inPattern, inInit⟩ := given_append.mp (List.forall_mem_cons.mp given).2
  exact (keeps_declaredPattern (stays_pattern pattern inPattern)).next
    ((keeps_option init inInit).next (.pure rfl))

/-- Declarators stay as they are where the target has every feature. -/
theorem keeps_declarators (declarators : List Declarator)
    (given : Given scopes (declaratorsNodes declarators)) :
    Keeps scopes (declaratorsStep declarators) declarators := by
  cases declarators with
  | nil =>
    exact .pure rfl
  | cons declarator rest =>
    obtain ⟨inDeclarator, inRest⟩ := given_append.mp given
    exact (keeps_declarator declarator inDeclarator).next
      ((keeps_declarators rest inRest).next (.pure rfl))

/-- Statements in braces stay as they are where the target has every feature. -/
theorem keeps_block (block : Block) (given : Given scopes (blockNodes block)) :
    Keeps scopes (blockStep block) block := by
  obtain ⟨span, body⟩ := block
  exact (keeps_stmts body given).next (.pure rfl)

/-- Statements stay as they are where the target has every feature. -/
theorem keeps_stmts (stmts : List Stmt) (given : Given scopes (stmtsNodes stmts)) :
    Keeps scopes (stmtsStep stmts) stmts := by
  cases stmts with
  | nil =>
    exact .pure rfl
  | cons stmt rest =>
    obtain ⟨inStmt, inRest⟩ := given_append.mp given
    exact (stays_stmt stmt inStmt).stmts.next ((keeps_stmts rest inRest).next (.pure rfl))

/-- A branch of a switch stays as it is where the target has every feature. -/
theorem keeps_branch (branch : SwitchBranch) (given : Given scopes (branchNodes branch)) :
    Keeps scopes (branchStep branch) branch := by
  obtain ⟨span, test, body⟩ := branch
  obtain ⟨inTest, inBody⟩ := given_append.mp given
  exact (keeps_option test inTest).next ((keeps_stmts body inBody).next (.pure rfl))

/-- The branches of a switch stay as they are where the target has every feature. -/
theorem keeps_branches (branches : List SwitchBranch)
    (given : Given scopes (branchesNodes branches)) :
    Keeps scopes (branchesStep branches) branches := by
  cases branches with
  | nil =>
    exact .pure rfl
  | cons branch rest =>
    obtain ⟨inBranch, inRest⟩ := given_append.mp given
    exact (keeps_branch branch inBranch).next ((keeps_branches rest inRest).next (.pure rfl))

/-- A statement stays as it is where the target has every feature. -/
theorem stays_stmt (stmt : Stmt) (given : Given scopes (stmtNodes stmt)) :
    StaysStmt scopes (stmtForms stmt) stmt := by
  obtain ⟨span, shape⟩ := stmt
  have inShape := keeps_stmtShape span shape (List.forall_mem_cons.mp given).2
  cases shape <;> exact ⟨inShape⟩

/-- The shape of a statement stays as it is where the target has every feature. -/
theorem keeps_stmtShape (span : Span) (shape : StmtShape)
    (given : Given scopes (stmtShapeNodes shape)) :
    Keeps scopes (stmtShapeStep span shape) [⟨span, shape⟩] := by
  -- One statement at a time; each keeps its expressions by the walk over them and its bodies by the
  -- walk over statements.
  cases shape with
  | block body =>
    exact (keeps_stmts body given).next (.pure rfl)
  | doWhile condition body =>
    obtain ⟨inCondition, inBody⟩ := given_append.mp given
    exact (stays_stmt body inBody).single.next
      ((stays_expr condition inCondition).value.next (.pure rfl))
  | exportDefault value =>
    exact (stays_expr value given).value.next (.pure rfl)
  | exportNames names module =>
    exact keeps_exportStatement
  | expr value =>
    have whole : value.origin.collapsed = false := by
      obtain ⟨origin, shape⟩ := value
      exact (given_expr given).1
    exact (stays_expr value given).value.next (.pure (exprStmt_of_not_collapsed whole))
  | forIn keyword binding subject body =>
    obtain ⟨inHead, inBody⟩ := given_append.mp given
    obtain ⟨inBinding, inSubject⟩ := given_append.mp inHead
    exact (keeps_loopBinding (stays_pattern binding inBinding)).next
      ((stays_expr subject inSubject).value.next ((stays_stmt body inBody).single.next (.pure rfl)))
  | forOf isAwait keyword binding subject body =>
    obtain ⟨inHead, inBody⟩ := given_append.mp given
    obtain ⟨inBinding, inSubject⟩ := given_append.mp inHead
    have binds := stays_pattern binding inBinding
    have subjects := (stays_expr subject inSubject).value
    have bodies := stays_stmt body inBody
    cases isAwait with
    | true => exact (keeps_forAwaitLoop binds subjects bodies).next (.pure rfl)
    | false => exact .require ((keeps_nativeLoop binds subjects bodies).next (.pure rfl))
  | forLoop init condition post body =>
    obtain ⟨inHead, inBody⟩ := given_append.mp given
    obtain ⟨inStart, inPost⟩ := given_append.mp inHead
    obtain ⟨inInit, inCondition⟩ := given_append.mp inStart
    exact (keeps_option init inInit).next ((keeps_option condition inCondition).next
      ((keeps_option post inPost).next ((stays_stmt body inBody).single.next (.pure rfl))))
  | forDecl declSpan keyword declarators condition post body =>
    obtain ⟨inHead, inBody⟩ := given_append.mp given
    obtain ⟨inStart, inPost⟩ := given_append.mp inHead
    obtain ⟨inDeclarators, inCondition⟩ := given_append.mp inStart
    exact (keeps_varDeclarators (keeps_declarators declarators inDeclarators)).next
      ((keeps_option condition inCondition).next ((keeps_option post inPost).next
        ((stays_stmt body inBody).single.next (.pure rfl))))
  | ifThen test consequent =>
    obtain ⟨inTest, inConsequent⟩ := given_append.mp given
    exact (keeps_ifThenStatement (stays_expr test inTest).value
      (stays_stmt consequent (given_into.mp inConsequent))).next (.pure rfl)
  | ifElse test consequent alternate =>
    obtain ⟨inHead, inAlternate⟩ := given_append.mp given
    obtain ⟨inTest, inConsequent⟩ := given_append.mp inHead
    exact (keeps_ifStatement (stays_expr test inTest).value
      (stays_stmt consequent (given_into.mp inConsequent))
      (stays_stmt alternate (given_into.mp inAlternate))).next (.pure rfl)
  | label name body =>
    exact (stays_stmt body given).single.next (.pure rfl)
  | «return» value =>
    exact (keeps_option value given).next (.pure rfl)
  | switch test branches =>
    obtain ⟨inTest, inBranches⟩ := given_append.mp given
    exact (stays_expr test inTest).value.next ((keeps_branches branches inBranches).next (.pure rfl))
  | throw value =>
    exact (stays_expr value given).value.next (.pure rfl)
  | tryCatch body param handler =>
    obtain ⟨handlerSpan, handler⟩ := handler
    obtain ⟨inHead, inHandler⟩ := given_append.mp given
    obtain ⟨inBody, inParam⟩ := given_append.mp inHead
    refine (keeps_block body inBody).next ?_
    rw [patternOptionForms_eq]
    exact (keeps_handlerParam (stays_patternOption param inParam)).next
      ((keeps_stmts handler inHandler).next (.pure rfl))
  | tryFinally body finalizer =>
    obtain ⟨inBody, inFinalizer⟩ := given_append.mp given
    exact (keeps_block body inBody).next ((keeps_block finalizer inFinalizer).next (.pure rfl))
  | tryCatchFinally body param handler finalizer =>
    obtain ⟨handlerSpan, handler⟩ := handler
    obtain ⟨inOthers, inFinalizer⟩ := given_append.mp given
    obtain ⟨inHead, inHandler⟩ := given_append.mp inOthers
    obtain ⟨inBody, inParam⟩ := given_append.mp inHead
    refine (keeps_block body inBody).next ?_
    rw [patternOptionForms_eq]
    exact (keeps_handlerParam (stays_patternOption param inParam)).next
      ((keeps_stmts handler inHandler).next ((keeps_block finalizer inFinalizer).next (.pure rfl)))
  | «while» condition body =>
    obtain ⟨inCondition, inBody⟩ := given_append.mp given
    exact (stays_expr condition inCondition).value.next
      ((stays_stmt body inBody).single.next (.pure rfl))
  | «with» object body =>
    obtain ⟨inObject, inBody⟩ := given_append.mp given
    exact (stays_expr object inObject).value.next ((stays_stmt body inBody).single.next (.pure rfl))
  | classDecl exported name heritage members =>
    obtain ⟨inHeritage, inMembers⟩ := given_append.mp given
    change Keeps scopes (classDeclaration span exported name _ _ (classMembersForms members)) _
    rw [classMembersForms_eq]
    exact keeps_classDeclaration (stays_heritage heritage inHeritage)
      (stays_classMembers members inMembers)
  | functionDecl exported name func =>
    exact (keeps_funcStep func given).next (.pure rfl)
  | varDecl isExported keyword declarators =>
    exact (keeps_varDeclarators (keeps_declarators declarators given)).next (.pure rfl)
  | breakTo | comment | continueTo | debugger | empty | importNames =>
    exact .pure rfl

end

end Native

end Downlevel
