import Downlevel.Printer
import Downlevel.Proofs.Scoping.Worlds

/-! Every program that makes sense anywhere is printed: what stops the printer is a static block
outside of any class, and nothing else. -/

namespace Downlevel

namespace Printer

/-- The printing comes to an end, in the head of a loop or elsewhere. -/
def Succeeds {α : Type} (printing : Printing α) : Prop :=
  ∀ noIn, (printing noIn).isSome = true

namespace Succeeds

variable {α β : Type} {printing other : Printing α} {rest : α → Printing β}

/-- Giving a result succeeds. -/
theorem pure {result : α} : Succeeds (Pure.pure result) :=
  fun _ => rfl

/-- One step after another succeeds if both do. -/
theorem bind (first : Succeeds printing) (second : ∀ result, Succeeds (rest result)) :
    Succeeds (printing >>= rest) := by
  intro noIn
  obtain ⟨⟨result, after⟩, ran⟩ := Option.isSome_iff_exists.mp (first noIn)
  have goesOn := second result after
  simpa only [Bind.bind, StateT.bind, ran, Option.bind_some] using goesOn

/-- Packing a result succeeds if there is one. -/
theorem map {pack : α → β} (holds : Succeeds printing) : Succeeds (pack <$> printing) := by
  rw [← bind_pure_comp]
  exact holds.bind fun _ => pure

/-- A choice succeeds if both of its sides do. -/
theorem ite {condition : Prop} [Decidable condition] (holds : Succeeds printing)
    (fails : Succeeds other) : Succeeds (if condition then printing else other) := by
  split
  · exact holds
  · exact fails

/-- Asking whether `in` is forbidden succeeds. -/
theorem get : Succeeds (MonadState.get : Printing Bool) :=
  fun _ => rfl

/-- Telling whether `in` is forbidden succeeds. -/
theorem set {noIn : Bool} : Succeeds (MonadStateOf.set noIn : Printing PUnit) :=
  fun _ => rfl

/-- Printing in the head of a loop succeeds if it does elsewhere. -/
theorem inLoopHead {inner : Print} (holds : Succeeds inner) : Succeeds (Printer.inLoopHead inner) :=
  set.bind fun _ => holds.bind fun _ => set.bind fun _ => pure

/-- Printing in parentheses succeeds if it does without. -/
theorem inParens {inner : Print} (holds : Succeeds inner) : Succeeds (Printer.inParens inner) :=
  get.bind fun _ => set.bind fun _ => holds.bind fun _ => set.bind fun _ => pure

end Succeeds

section

variable (stem : String)

mutual

/-- An expression can be printed if every name there can be written. -/
theorem succeeds_expr (world : World) (indent : Nat) (place : Place) (level : Nat) (e : Expr)
    (meets : Meets stem world (exprUses e)) : Succeeds (printExpr indent place level e) := by
  obtain ⟨origin, shape⟩ := e
  rw [exprUses] at meets
  exact .bind .get fun _ => .ite (.inParens (succeeds_shape world indent .elsewhere shape meets))
    (succeeds_shape world indent place shape meets)
termination_by structural e

/-- A shape can be printed if every name there can be written. -/
theorem succeeds_shape (world : World) (indent : Nat) (place : Place) (shape : Shape)
    (meets : Meets stem world (shapeUses shape)) : Succeeds (printShape indent place shape) := by
  -- One form at a time: printing fails at no name that is in the world, and the parts print by the
  -- walk.
  cases shape with
  | arrow func => exact succeeds_arrow world indent func meets
  | binary op left right =>
    obtain ⟨inLeft, inRight⟩ := meets_append.mp meets
    exact (succeeds_expr world _ _ _ left inLeft).bind fun _ =>
      (succeeds_expr world _ _ _ right inRight).bind fun _ => .pure
  | call link isPure callee args =>
    obtain ⟨inCallee, inArgs⟩ := meets_append.mp meets
    exact (succeeds_expr world _ _ _ callee inCallee).bind fun _ =>
      (succeeds_args world _ args inArgs).bind fun _ => .pure
  | classExpr name heritage members =>
    obtain ⟨-, inClass⟩ := meets_append.mp meets
    obtain ⟨inHeritage, inMembers⟩ := meets_append.mp (meets_enclosed.mp inClass)
    exact (succeeds_heritage _ _ heritage inHeritage).bind fun _ =>
      (succeeds_classMembers _ _ members inMembers).bind fun _ => .pure
  | computed link object key =>
    obtain ⟨inObject, inKey⟩ := meets_append.mp meets
    exact (succeeds_expr world _ _ _ object inObject).bind fun _ =>
      (succeeds_expr world _ _ _ key inKey).bind fun _ => .pure
  | cond test consequent alternate =>
    obtain ⟨inTest, inBranches⟩ := meets_append.mp meets
    obtain ⟨inConsequent, inAlternate⟩ := meets_append.mp inBranches
    exact (succeeds_expr world _ _ _ test inTest).bind fun _ =>
      (succeeds_expr world _ _ _ consequent inConsequent).bind fun _ =>
        (succeeds_expr world _ _ _ alternate inAlternate).bind fun _ => .pure
  | function name func =>
    obtain ⟨-, inFunc⟩ := meets_append.mp meets
    exact succeeds_function _ indent name func (meets_enclosed.mp inFunc)
  | importCall module => exact (succeeds_expr world _ _ _ module meets).bind fun _ => .pure
  | member link object name => exact (succeeds_expr world _ _ _ object meets).bind fun _ => .pure
  | new callee args =>
    obtain ⟨inCallee, inArgs⟩ := meets_append.mp meets
    exact (succeeds_expr world _ _ _ callee inCallee).bind fun _ =>
      (succeeds_args world _ args inArgs).bind fun _ => .pure
  | tagged tag head spans =>
    obtain ⟨inTag, inSpans⟩ := meets_append.mp meets
    exact (succeeds_expr world _ _ _ tag inTag).bind fun _ =>
      (succeeds_spans world _ spans inSpans).bind fun _ => .pure
  | unary op operand => exact (succeeds_expr world _ _ _ operand meets).bind fun _ => .pure
  | update op operand => exact (succeeds_expr world _ _ _ operand meets).bind fun _ => .pure
  | yield isDelegated operand =>
    exact (succeeds_option world _ _ operand meets).bind fun _ => .pure
  | array items => exact (succeeds_items world _ items meets).bind fun _ => .pure
  | object members => exact (succeeds_objectMembers world _ members meets).bind fun _ => .pure
  | template head spans => exact (succeeds_spans world _ spans meets).bind fun _ => .pure
  | arrayPattern slots rest =>
    obtain ⟨inSlots, inRest⟩ := meets_append.mp meets
    exact (succeeds_slots world _ false slots inSlots).bind fun _ =>
      (succeeds_patternOption world _ false rest inRest).bind fun _ => .pure
  | objectPattern properties rest =>
    obtain ⟨inProperties, inRest⟩ := meets_append.mp meets
    exact (succeeds_properties world _ false properties inProperties).bind fun _ =>
      (succeeds_patternOption world _ false rest inRest).bind fun _ => .pure
  | id | importMeta | newTarget | super | this | bigint | bool | null | num | regex | str =>
    exact .pure
termination_by structural shape

/-- An expression that may be absent can be printed if every name there can be written. -/
theorem succeeds_option (world : World) (indent level : Nat) (e : Option Expr)
    (meets : Meets stem world (optionUses e)) : Succeeds (printOption indent level e) := by
  cases e with
  | none => exact .pure
  | some e => exact (succeeds_expr world _ _ _ e meets).bind fun _ => .pure
termination_by structural e

/-- The value of a field can be printed if every name there can be written. -/
theorem succeeds_init (world : World) (indent : Nat) (e : Option Expr)
    (meets : Meets stem world (optionUses e)) : Succeeds (printInit indent e) := by
  cases e with
  | none => exact .pure
  | some e => exact (succeeds_expr world _ _ _ e meets).bind fun _ => .pure
termination_by structural e

/-- An argument can be printed if every name there can be written. -/
theorem succeeds_arg (world : World) (indent : Nat) (arg : Arg)
    (meets : Meets stem world (argUses arg)) : Succeeds (printArg indent arg) := by
  obtain ⟨isSpread, value⟩ := arg
  exact (succeeds_expr world _ _ _ value meets).bind fun _ => .pure
termination_by structural arg

/-- Arguments can be printed if every name there can be written. -/
theorem succeeds_args (world : World) (indent : Nat) (args : List Arg)
    (meets : Meets stem world (argsUses args)) : Succeeds (printArgs indent args) := by
  cases args with
  | nil => exact .pure
  | cons arg rest =>
    obtain ⟨inArg, inRest⟩ := meets_append.mp meets
    exact (succeeds_arg world _ arg inArg).bind fun _ =>
      (succeeds_args world _ rest inRest).bind fun _ => .pure
termination_by structural args

/-- A substitution can be printed if every name there can be written. -/
theorem succeeds_span (world : World) (indent : Nat) (span : TemplateSpan)
    (meets : Meets stem world (spanUses span)) : Succeeds (printSpan indent span) := by
  obtain ⟨value, text⟩ := span
  exact (succeeds_expr world _ _ _ value meets).bind fun _ => .pure
termination_by structural span

/-- Substitutions can be printed if every name there can be written. -/
theorem succeeds_spans (world : World) (indent : Nat) (spans : List TemplateSpan)
    (meets : Meets stem world (spansUses spans)) : Succeeds (printSpans indent spans) := by
  cases spans with
  | nil => exact .pure
  | cons span rest =>
    obtain ⟨inSpan, inRest⟩ := meets_append.mp meets
    exact (succeeds_span world _ span inSpan).bind fun _ =>
      (succeeds_spans world _ rest inRest).bind fun _ => .pure
termination_by structural spans

/-- An element of an array literal can be printed if every name there can be written. -/
theorem succeeds_item (world : World) (indent : Nat) (item : ArrayItem)
    (meets : Meets stem world (itemUses item)) : Succeeds (printItem indent item) := by
  cases item with
  | single value => exact succeeds_expr world _ _ _ value meets
  | spread value => exact (succeeds_expr world _ _ _ value meets).bind fun _ => .pure
  | hole => exact .pure
termination_by structural item

/-- The elements of an array literal can be printed if every name there can be written. -/
theorem succeeds_items (world : World) (indent : Nat) (items : List ArrayItem)
    (meets : Meets stem world (itemsUses items)) : Succeeds (printItems indent items) := by
  cases items with
  | nil => exact .pure
  | cons item rest =>
    obtain ⟨inItem, inRest⟩ := meets_append.mp meets
    exact (succeeds_item world _ item inItem).bind fun _ =>
      (succeeds_items world _ rest inRest).bind fun _ => .pure
termination_by structural items

/-- A key can be printed if every name there can be written. -/
theorem succeeds_key (world : World) (indent : Nat) (key : Key)
    (meets : Meets stem world (keyUses key)) : Succeeds (printKey indent key) := by
  cases key with
  | direct name => exact .pure
  | computed value => exact (succeeds_expr world _ _ _ value meets).bind fun _ => .pure
termination_by structural key

/-- A method can be printed if every name that it mentions can be written. -/
theorem succeeds_method (world : World) (indent : Nat) (words key : String) (func : Func)
    (meets : Meets stem world (funcUses func)) : Succeeds (printMethod indent words key func) := by
  obtain ⟨span, isArrow, isAsync, isGenerator, params, body⟩ := func
  obtain ⟨inParams, inBody⟩ := meets_append.mp meets
  exact (succeeds_params _ _ params (meets_enclosed.mp inParams)).bind fun _ =>
    (succeeds_body _ _ body (meets_enclosed.mp inBody)).bind fun _ => .pure
termination_by structural func

/-- What a member of an object literal holds can be printed if every name there can be written. -/
theorem succeeds_objectValue (world : World) (indent : Nat) (key : String) (value : MemberValue)
    (isOfObject : value.isStaticBlock = false) (meets : Meets stem world (memberValueUses value)) :
    Succeeds (printObjectValue indent key value) := by
  -- A static block is no member of an object literal, so the printer never meets one here.
  cases value with
  | getter func => exact succeeds_method world _ _ _ func meets
  | setter func => exact succeeds_method world _ _ _ func meets
  | method func => exact succeeds_method world _ _ _ func meets
  | field init => exact (succeeds_option world _ _ init meets).bind fun _ => .pure
  | accessor init => exact (succeeds_option world _ _ init meets).bind fun _ => .pure
  | staticBlock block => cases isOfObject
termination_by structural value

/-- A member of an object literal can be printed if every name there can be written. -/
theorem succeeds_objectMember (world : World) (indent : Nat) (member : ObjectMember)
    (meets : Meets stem world (objectMemberUses member)) :
    Succeeds (printObjectMember indent member) := by
  cases member with
  | valued span key value =>
    obtain ⟨noStray, inMember⟩ := meets_append.mp meets
    obtain ⟨inKey, inValue⟩ := meets_append.mp inMember
    -- A block in an object would be a stray one, which the uses rule out.
    have isOfObject : value.isStaticBlock = false := by
      by_cases isStray : value.isStaticBlock = true
      · rw [if_pos isStray, meets_cons] at noStray
        exact noStray.1.elim
      · simpa using isStray
    exact (succeeds_key world _ key inKey).bind fun _ =>
      succeeds_objectValue world _ _ value isOfObject inValue
  | shorthand span name => exact .pure
  | spread span value => exact (succeeds_expr world _ _ _ value meets).bind fun _ => .pure
termination_by structural member

/-- The members of an object literal can be printed if every name there can be written. -/
theorem succeeds_objectMembers (world : World) (indent : Nat) (members : List ObjectMember)
    (meets : Meets stem world (objectMembersUses members)) :
    Succeeds (printObjectMembers indent members) := by
  cases members with
  | nil => exact .pure
  | cons member rest =>
    obtain ⟨inMember, inRest⟩ := meets_append.mp meets
    exact (succeeds_objectMember world _ member inMember).bind fun _ =>
      (succeeds_objectMembers world _ rest inRest).bind fun _ => .pure
termination_by structural members

/-- What a member of a class holds can be printed if every name that it mentions can be written. -/
theorem succeeds_classValue (world : World) (indent : Nat) (key : String) (value : MemberValue)
    (meets : Meets stem world (memberValueUses value)) :
    Succeeds (printClassValue indent key value) := by
  -- A class may hold every kind of value, a static block included.
  cases value with
  | getter func => exact succeeds_method world _ _ _ func meets
  | setter func => exact succeeds_method world _ _ _ func meets
  | method func => exact succeeds_method world _ _ _ func meets
  | field init => exact (succeeds_init world _ init meets).bind fun _ => .pure
  | accessor init => exact (succeeds_init world _ init meets).bind fun _ => .pure
  | staticBlock block => exact succeeds_block world _ block meets
termination_by structural value

/-- A member of a class can be printed if every name there can be written. -/
theorem succeeds_classMember (world : World) (indent : Nat) (member : ClassMember)
    (meets : Meets stem world (classMemberUses member)) :
    Succeeds (printClassMember indent member) := by
  obtain ⟨span, key, isStatic, value⟩ := member
  obtain ⟨inKey, inValue⟩ := meets_append.mp meets
  exact (succeeds_key world _ key inKey).bind fun _ =>
    (succeeds_classValue world _ _ value inValue).bind fun _ => .pure
termination_by structural member

/-- The members of a class can be printed if every name there can be written. -/
theorem succeeds_classMembers (world : World) (indent : Nat) (members : List ClassMember)
    (meets : Meets stem world (classMembersUses members)) :
    Succeeds (printClassMembers indent members) := by
  cases members with
  | nil => exact .pure
  | cons member rest =>
    obtain ⟨inMember, inRest⟩ := meets_append.mp meets
    exact (succeeds_classMember world _ member inMember).bind fun _ =>
      (succeeds_classMembers world _ rest inRest).bind fun _ => .pure
termination_by structural members

/-- The base class of a class can be printed if every name there can be written. -/
theorem succeeds_heritage (world : World) (indent : Nat) (heritage : Option Expr)
    (meets : Meets stem world (optionUses heritage)) : Succeeds (printHeritage indent heritage) := by
  cases heritage with
  | none => exact .pure
  | some e => exact (succeeds_expr world _ _ _ e meets).bind fun _ => .pure
termination_by structural heritage

/-- A function that is no arrow can be printed if every name that it mentions can be written. -/
theorem succeeds_function (world : World) (indent : Nat) (name : Option String) (func : Func)
    (meets : Meets stem world (funcUses func)) : Succeeds (printFunction indent name func) := by
  obtain ⟨span, isArrow, isAsync, isGenerator, params, body⟩ := func
  obtain ⟨inParams, inBody⟩ := meets_append.mp meets
  exact (succeeds_params _ _ params (meets_enclosed.mp inParams)).bind fun _ =>
    (succeeds_body _ _ body (meets_enclosed.mp inBody)).bind fun _ => .pure
termination_by structural func

/-- An arrow function can be printed if every name that it mentions can be written. -/
theorem succeeds_arrow (world : World) (indent : Nat) (func : Func)
    (meets : Meets stem world (funcUses func)) : Succeeds (printArrow indent func) := by
  obtain ⟨span, isArrow, isAsync, isGenerator, params, body⟩ := func
  obtain ⟨inParams, inBody⟩ := meets_append.mp meets
  exact (succeeds_params _ _ params (meets_enclosed.mp inParams)).bind fun _ =>
    (succeeds_body _ _ body (meets_enclosed.mp inBody)).bind fun _ => .pure
termination_by structural func

/-- The body of a function can be printed if every name there can be written. -/
theorem succeeds_body (world : World) (indent : Nat) (body : Body)
    (meets : Meets stem world (bodyUses body)) : Succeeds (printBody indent body) := by
  cases body with
  | block stmts => exact (succeeds_stmts world _ stmts meets).bind fun _ => .pure
  | value result => exact succeeds_expr world _ _ _ result meets
termination_by structural body

/-- A parameter can be printed if every name there can be written. -/
theorem succeeds_param (world : World) (indent : Nat) (param : Param)
    (meets : Meets stem world (paramUses param)) : Succeeds (printParam indent param) := by
  obtain ⟨span, isRest, pattern, default⟩ := param
  obtain ⟨inPattern, inDefault⟩ := meets_append.mp meets
  exact (succeeds_pattern world _ true pattern inPattern).bind fun _ =>
    (succeeds_init world _ default inDefault).bind fun _ => .pure
termination_by structural param

/-- Parameters can be printed if every name there can be written. -/
theorem succeeds_params (world : World) (indent : Nat) (params : List Param)
    (meets : Meets stem world (paramsUses params)) : Succeeds (printParams indent params) := by
  cases params with
  | nil => exact .pure
  | cons param rest =>
    obtain ⟨inParam, inRest⟩ := meets_append.mp meets
    exact (succeeds_param world _ param inParam).bind fun _ =>
      (succeeds_params world _ rest inRest).bind fun _ => .pure
termination_by structural params

/-- A pattern can be printed if every name there can be written. -/
theorem succeeds_pattern (world : World) (indent : Nat) (binds : Bool) (pattern : Pattern)
    (meets : Meets stem world (patternUses binds pattern)) :
    Succeeds (printPattern indent pattern) := by
  -- A pattern prints its slots as the walk does; a name prints itself.
  cases pattern with
  | id span name => exact .pure
  | array span slots rest =>
    obtain ⟨inSlots, inRest⟩ := meets_append.mp meets
    exact (succeeds_slots world _ binds slots inSlots).bind fun _ =>
      (succeeds_patternOption world _ binds rest inRest).bind fun _ => .pure
  | object span properties rest =>
    obtain ⟨inProperties, inRest⟩ := meets_append.mp meets
    exact (succeeds_properties world _ binds properties inProperties).bind fun _ =>
      (succeeds_patternOption world _ binds rest inRest).bind fun _ => .pure
  | target span place => exact succeeds_expr world _ _ _ place meets
termination_by structural pattern

/-- A pattern that may be absent can be printed if every name there can be written. -/
theorem succeeds_patternOption (world : World) (indent : Nat) (binds : Bool)
    (pattern : Option Pattern) (meets : Meets stem world (patternOptionUses binds pattern)) :
    Succeeds (printPatternOption indent pattern) := by
  cases pattern with
  | none => exact .pure
  | some pattern => exact (succeeds_pattern world _ binds pattern meets).bind fun _ => .pure
termination_by structural pattern

/-- An element of an array pattern can be printed if every name there can be written. -/
theorem succeeds_slot (world : World) (indent : Nat) (binds : Bool) (slot : PatternSlot)
    (meets : Meets stem world (slotUses binds slot)) : Succeeds (printSlot indent slot) := by
  cases slot with
  | hole => exact .pure
  | slot target default =>
    obtain ⟨inTarget, inDefault⟩ := meets_append.mp meets
    exact (succeeds_pattern world _ binds target inTarget).bind fun _ =>
      (succeeds_init world _ default inDefault).bind fun _ => .pure
termination_by structural slot

/-- The elements of an array pattern can be printed if every name there can be written. -/
theorem succeeds_slots (world : World) (indent : Nat) (binds : Bool) (slots : List PatternSlot)
    (meets : Meets stem world (slotsUses binds slots)) : Succeeds (printSlots indent slots) := by
  cases slots with
  | nil => exact .pure
  | cons slot rest =>
    obtain ⟨inSlot, inRest⟩ := meets_append.mp meets
    exact (succeeds_slot world _ binds slot inSlot).bind fun _ =>
      (succeeds_slots world _ binds rest inRest).bind fun _ => .pure
termination_by structural slots

/-- A property of an object pattern can be printed if every name there can be written. -/
theorem succeeds_property (world : World) (indent : Nat) (binds : Bool)
    (property : PatternProperty) (meets : Meets stem world (propertyUses binds property)) :
    Succeeds (printProperty indent property) := by
  obtain ⟨span, key, target, isShorthand, default⟩ := property
  obtain ⟨inKey, inParts⟩ := meets_append.mp meets
  obtain ⟨inTarget, inDefault⟩ := meets_append.mp inParts
  have behind (front : String) : Succeeds (do
      let target ← printPattern indent target
      return front ++ target ++ (← printInit indent default)) :=
    (succeeds_pattern world _ binds target inTarget).bind fun _ =>
      (succeeds_init world _ default inDefault).bind fun _ => .pure
  -- Only a shorthand property has no key to print.
  cases isShorthand with
  | true => exact .bind .pure behind
  | false => exact (succeeds_key world _ key inKey).map.bind behind
termination_by structural property

/-- The properties of an object pattern can be printed if every name there can be written. -/
theorem succeeds_properties (world : World) (indent : Nat) (binds : Bool)
    (properties : List PatternProperty) (meets : Meets stem world (propertiesUses binds properties)) :
    Succeeds (printProperties indent properties) := by
  -- A list is printed member by member, and every member meets its own part.
  cases properties with
  | nil => exact .pure
  | cons property rest =>
    obtain ⟨inProperty, inRest⟩ := meets_append.mp meets
    exact (succeeds_property world _ binds property inProperty).bind fun _ =>
      (succeeds_properties world _ binds rest inRest).bind fun _ => .pure
termination_by structural properties

/-- A declarator can be printed if every name there can be written. -/
theorem succeeds_declarator (world : World) (indent : Nat) (declarator : Declarator)
    (meets : Meets stem world (declaratorUses declarator)) :
    Succeeds (printDeclarator indent declarator) := by
  obtain ⟨pattern, init⟩ := declarator
  obtain ⟨inPattern, inInit⟩ := meets_append.mp meets
  exact (succeeds_pattern world _ true pattern inPattern).bind fun _ =>
    (succeeds_init world _ init inInit).bind fun _ => .pure
termination_by structural declarator

/-- Declarators can be printed if every name there can be written. -/
theorem succeeds_declarators (world : World) (indent : Nat) (declarators : List Declarator)
    (meets : Meets stem world (declaratorsUses declarators)) :
    Succeeds (printDeclarators indent declarators) := by
  cases declarators with
  | nil => exact .pure
  | cons declarator rest =>
    obtain ⟨inDeclarator, inRest⟩ := meets_append.mp meets
    exact (succeeds_declarator world _ declarator inDeclarator).bind fun _ =>
      (succeeds_declarators world _ rest inRest).bind fun _ => .pure
termination_by structural declarators

/-- Statements in braces can be printed if every name there can be written. -/
theorem succeeds_block (world : World) (indent : Nat) (block : Block)
    (meets : Meets stem world (blockUses block)) : Succeeds (printBlock indent block) := by
  obtain ⟨span, body⟩ := block
  exact (succeeds_stmts _ _ body (meets_enclosed.mp meets)).bind fun _ => .pure
termination_by structural block

/-- Statements can be printed if every name there can be written. -/
theorem succeeds_stmts (world : World) (indent : Nat) (stmts : List Stmt)
    (meets : Meets stem world (stmtsUses stmts)) : Succeeds (printStmts indent stmts) := by
  cases stmts with
  | nil => exact .pure
  | cons stmt rest =>
    obtain ⟨inStmt, inRest⟩ := meets_append.mp meets
    exact (succeeds_stmt world _ stmt inStmt).bind fun _ =>
      (succeeds_stmts world _ rest inRest).bind fun _ => .pure
termination_by structural stmts

/-- A statement can be printed if every name there can be written. -/
theorem succeeds_stmt (world : World) (indent : Nat) (stmt : Stmt)
    (meets : Meets stem world (stmtUses stmt)) : Succeeds (printStmt indent stmt) := by
  obtain ⟨span, shape⟩ := stmt
  exact succeeds_stmtShape world _ shape meets
termination_by structural stmt

/-- A statement at the start of a line can be printed if every name that it mentions can be
written. -/
theorem succeeds_leading (world : World) (indent : Nat) (stmt : Stmt)
    (meets : Meets stem world (stmtUses stmt)) : Succeeds (printLeading indent stmt) := by
  obtain ⟨span, shape⟩ := stmt
  cases shape with
  | block body => exact (succeeds_stmts _ _ body (meets_enclosed.mp meets)).bind fun _ => .pure
  | _ => exact (succeeds_stmtShape world _ _ meets).bind fun _ => .pure
termination_by structural stmt

/-- A branch of a switch can be printed if every name there can be written. -/
theorem succeeds_branch (world : World) (indent : Nat) (branch : SwitchBranch)
    (meets : Meets stem world (branchUses branch)) : Succeeds (printBranch indent branch) := by
  obtain ⟨span, test, body⟩ := branch
  obtain ⟨inTest, inBody⟩ := meets_append.mp meets
  exact (succeeds_option world _ _ test inTest).bind fun _ =>
    (succeeds_stmts world _ body inBody).bind fun _ => .pure
termination_by structural branch

/-- The branches of a switch can be printed if every name there can be written. -/
theorem succeeds_branches (world : World) (indent : Nat) (branches : List SwitchBranch)
    (meets : Meets stem world (branchesUses branches)) : Succeeds (printBranches indent branches) := by
  cases branches with
  | nil => exact .pure
  | cons branch rest =>
    obtain ⟨inBranch, inRest⟩ := meets_append.mp meets
    exact (succeeds_branch world _ branch inBranch).bind fun _ =>
      (succeeds_branches world _ rest inRest).bind fun _ => .pure
termination_by structural branches

/-- The shape of a statement can be printed if every name there can be written. -/
theorem succeeds_stmtShape (world : World) (indent : Nat) (shape : StmtShape)
    (meets : Meets stem world (stmtShapeUses shape)) : Succeeds (printStmtShape indent shape) := by
  -- One statement at a time; what stands in a scope of its own is printed in the world that scope
  -- makes.
  cases shape with
  | block body => exact (succeeds_stmts _ _ body (meets_enclosed.mp meets)).bind fun _ => .pure
  | doWhile condition body =>
    obtain ⟨inCondition, inBody⟩ := meets_append.mp meets
    exact (succeeds_leading _ _ body (meets_enclosed.mp inBody)).bind fun _ =>
      (succeeds_expr world _ _ _ condition inCondition).bind fun _ => .pure
  | exportDefault value => exact (succeeds_expr world _ _ _ value meets).bind fun _ => .pure
  | expr value => exact (succeeds_expr world _ _ _ value meets).bind fun _ => .pure
  | forIn keyword binding subject body =>
    obtain ⟨inBinding, inRest⟩ := meets_append.mp (meets_enclosed.mp meets)
    obtain ⟨inSubject, inBody⟩ := meets_append.mp inRest
    exact (succeeds_pattern _ _ _ binding inBinding).bind fun _ =>
      (succeeds_expr _ _ _ _ subject inSubject).bind fun _ =>
        (succeeds_stmt _ _ body (meets_enclosed.mp inBody)).bind fun _ => .pure
  | forOf isAwait keyword binding subject body =>
    obtain ⟨inBinding, inRest⟩ := meets_append.mp (meets_enclosed.mp meets)
    obtain ⟨inSubject, inBody⟩ := meets_append.mp inRest
    exact (succeeds_pattern _ _ _ binding inBinding).bind fun _ =>
      (succeeds_expr _ _ _ _ subject inSubject).bind fun _ =>
        (succeeds_stmt _ _ body (meets_enclosed.mp inBody)).bind fun _ => .pure
  | forLoop init condition post body =>
    obtain ⟨inInit, inRest⟩ := meets_append.mp meets
    obtain ⟨inCondition, inTail⟩ := meets_append.mp inRest
    obtain ⟨inPost, inBody⟩ := meets_append.mp inTail
    exact (succeeds_option world _ _ init inInit).map.inLoopHead.bind fun _ =>
      (succeeds_option world _ _ condition inCondition).bind fun _ =>
        (succeeds_option world _ _ post inPost).bind fun _ =>
          (succeeds_stmt _ _ body (meets_enclosed.mp inBody)).bind fun _ => .pure
  | forDecl span keyword declarators condition post body =>
    obtain ⟨inInit, inRest⟩ := meets_append.mp (meets_enclosed.mp meets)
    obtain ⟨inCondition, inTail⟩ := meets_append.mp inRest
    obtain ⟨inPost, inBody⟩ := meets_append.mp inTail
    exact (succeeds_declarators _ _ declarators inInit).map.inLoopHead.bind fun _ =>
      (succeeds_option _ _ _ condition inCondition).bind fun _ =>
        (succeeds_option _ _ _ post inPost).bind fun _ =>
          (succeeds_stmt _ _ body (meets_enclosed.mp inBody)).bind fun _ => .pure
  | ifThen test consequent =>
    obtain ⟨inTest, inConsequent⟩ := meets_append.mp meets
    exact (succeeds_expr world _ _ _ test inTest).bind fun _ =>
      (succeeds_stmt _ _ consequent (meets_enclosed.mp inConsequent)).bind fun _ => .pure
  | ifElse test consequent alternate =>
    obtain ⟨inTest, inBranches⟩ := meets_append.mp meets
    obtain ⟨inConsequent, inAlternate⟩ := meets_append.mp inBranches
    exact (succeeds_expr world _ _ _ test inTest).bind fun _ =>
      (succeeds_leading _ _ consequent (meets_enclosed.mp inConsequent)).bind fun _ =>
        (succeeds_stmt _ _ alternate (meets_enclosed.mp inAlternate)).bind fun _ => .pure
  | label name body =>
    obtain ⟨-, inBody⟩ := meets_cons.mp meets
    exact (succeeds_stmt _ _ body (meets_enclosed.mp inBody)).bind fun _ => .pure
  | «return» value => exact (succeeds_option world _ _ value meets).bind fun _ => .pure
  | switch test branches =>
    obtain ⟨inTest, inBranches⟩ := meets_append.mp meets
    exact (succeeds_expr world _ _ _ test inTest).bind fun _ =>
      (succeeds_branches _ _ branches (meets_enclosed.mp inBranches)).bind fun _ => .pure
  | throw value => exact (succeeds_expr world _ _ _ value meets).bind fun _ => .pure
  | tryCatch body param handler =>
    obtain ⟨inBody, inHandler⟩ := meets_append.mp meets
    obtain ⟨inParam, inBlock⟩ := meets_append.mp (meets_enclosed.mp inHandler)
    exact (succeeds_block world _ body inBody).bind fun _ =>
      (succeeds_patternOption _ _ _ param inParam).bind fun _ =>
        (succeeds_block _ _ handler inBlock).bind fun _ => .pure
  | tryFinally body finalizer =>
    obtain ⟨inBody, inFinalizer⟩ := meets_append.mp meets
    exact (succeeds_block world _ body inBody).bind fun _ =>
      (succeeds_block world _ finalizer inFinalizer).bind fun _ => .pure
  | tryCatchFinally body param handler finalizer =>
    obtain ⟨inBody, inRest⟩ := meets_append.mp meets
    obtain ⟨inHandler, inFinalizer⟩ := meets_append.mp inRest
    obtain ⟨inParam, inBlock⟩ := meets_append.mp (meets_enclosed.mp inHandler)
    exact (succeeds_block world _ body inBody).bind fun _ =>
      (succeeds_patternOption _ _ _ param inParam).bind fun _ =>
        (succeeds_block _ _ handler inBlock).bind fun _ =>
          (succeeds_block world _ finalizer inFinalizer).bind fun _ => .pure
  | «while» condition body =>
    obtain ⟨inCondition, inBody⟩ := meets_append.mp meets
    exact (succeeds_expr world _ _ _ condition inCondition).bind fun _ =>
      (succeeds_stmt _ _ body (meets_enclosed.mp inBody)).bind fun _ => .pure
  | «with» object body =>
    obtain ⟨inObject, inBody⟩ := meets_append.mp meets
    exact (succeeds_expr world _ _ _ object inObject).bind fun _ =>
      (succeeds_stmt _ _ body (meets_enclosed.mp inBody)).bind fun _ => .pure
  | classDecl exported name heritage members =>
    obtain ⟨-, inClass⟩ := meets_append.mp meets
    obtain ⟨inHeritage, inMembers⟩ := meets_append.mp (meets_enclosed.mp inClass)
    exact (succeeds_heritage _ _ heritage inHeritage).bind fun _ =>
      (succeeds_classMembers _ _ members inMembers).bind fun _ => .pure
  | functionDecl exported name func =>
    obtain ⟨-, inFunc⟩ := meets_append.mp meets
    exact (succeeds_function world _ name func inFunc).bind fun _ => .pure
  | varDecl isExported keyword declarators =>
    exact (succeeds_declarators world _ declarators meets).bind fun _ => .pure
  | breakTo | comment | continueTo | debugger | empty | exportNames | importNames => exact .pure
termination_by structural shape

end

end

end Printer

/-- A program that makes sense anywhere is printed. -/
theorem Program.print?_isSome {program : Program} {stem : String} {world : World}
    (meets : Meets stem world program.uses) : program.print?.isSome = true := by
  rw [Program.uses, meets_enclosed] at meets
  have printed := Printer.succeeds_stmts stem _ 0 program.body meets false
  rw [Program.print?, Option.isSome_map]
  exact printed

end Downlevel
