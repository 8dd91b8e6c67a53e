import Downlevel.Parser
import Downlevel.Proofs.Formed

/-! What can be said about whatever a parser gives, and the trees that are formed as the nodes of a
source are. -/

namespace Downlevel

/-- Every node among them is formed as one that was read. -/
def AreFormed (nodes : List Occurrence) : Prop :=
  ∀ found ∈ nodes, found.node.Formed

section Nodes

variable {nodes more : List Occurrence}

/-- Where there are no nodes, all are formed. -/
@[simp] theorem areFormed_nil : AreFormed [] :=
  nofun

/-- The first node is formed, and so are the others. -/
@[simp] theorem areFormed_cons {found : Occurrence} :
    AreFormed (found :: nodes) ↔ found.node.Formed ∧ AreFormed nodes :=
  List.forall_mem_cons

/-- Two lists of nodes are formed if both are. -/
@[simp] theorem areFormed_append :
    AreFormed (nodes ++ more) ↔ AreFormed nodes ∧ AreFormed more :=
  List.forall_mem_append

/-- How a node is formed does not depend on where it runs. -/
@[simp] theorem areFormed_into {site : Site} :
    AreFormed (nodes.map (.into site)) ↔ AreFormed nodes := by
  simp [AreFormed, Occurrence.into]

/-- Nodes of many parts are formed if those of each part are. -/
@[simp] theorem areFormed_flatMap {α : Type} {items : List α} {nodesOf : α → List Occurrence} :
    AreFormed (items.flatMap nodesOf) ↔ ∀ item ∈ items, AreFormed (nodesOf item) := by
  simp only [AreFormed, List.mem_flatMap]
  exact ⟨fun all item mem found inItem => all found ⟨item, mem, inItem⟩,
    fun all found ⟨item, mem, inItem⟩ => all item mem found inItem⟩

end Nodes

/-- An expression as it was read. -/
def Expr.IsRead (e : Expr) : Prop :=
  AreFormed (exprNodes e)

/-- A key as it was read. -/
structure Key.IsRead (key : Key) : Prop where
  formed : AreFormed (keyNodes key)
  spelled : ∀ name, key = .direct name → (name.kind = .identifier → IsSpelled name.text)
    ∧ (name.kind = .privateName → IsPrivatelySpelled name.text)

/-- A pattern as it was read, which binds nothing but names. -/
structure Pattern.IsRead (pattern : Pattern) : Prop where
  formed : AreFormed (patternNodes pattern)
  binds : hasTarget pattern = false

/-- An element of an array pattern as it was read. -/
structure PatternSlot.IsRead (slot : PatternSlot) : Prop where
  formed : AreFormed (slotNodes slot)
  binds : slotHasTarget slot = false

/-- A property of an object pattern as it was read. -/
structure PatternProperty.IsRead (property : PatternProperty) : Prop where
  formed : AreFormed (propertyNodes property)
  binds : propertyHasTarget property = false

/-- A member of a class as it was read. -/
structure ClassMember.IsRead (member : ClassMember) : Prop where
  formed : AreFormed (classMemberNodes member)
  fits : member.Formed

/-- A function as it was read that is no arrow function. -/
structure Func.IsRead (func : Func) : Prop where
  formed : AreFormed (funcNodes func)
  isMethod : func.isArrow = false ∧ func.body.isBlock = true

/-- An expression is formed if its origin, its shape and what is inside are. -/
theorem formed_expr {e : Expr} :
    AreFormed (exprNodes e) ↔ e.origin.collapsed = false ∧ (Node.shape e.shape).Formed
      ∧ AreFormed (shapeNodes e.shape) := by
  obtain ⟨origin, shape⟩ := e
  rw [exprNodes, areFormed_cons, areFormed_cons]
  rfl

/-- An expression that is put together was read if its shape and its parts were. -/
theorem isRead_of {span : Span} {shape : Shape} (own : (Node.shape shape).Formed)
    (inside : AreFormed (shapeNodes shape)) : (Expr.of span shape).IsRead :=
  formed_expr.mpr ⟨rfl, own, inside⟩

namespace Parser

variable {α β σ : Type}

/-- Whatever the parser gives is as described. -/
def Yields (parser : Parser α) (described : α → Prop) : Prop :=
  ∀ reader result later, parser reader = .ok result later → described result

/-- What holds after one round of a loop. -/
def Round.Holds (known : σ → Prop) (final : β → Prop) : Round σ β → Prop
  | .again state => known state
  | .done result => final result

namespace Yields

variable {parser : Parser α} {rest : α → Parser β} {described : α → Prop} {final : β → Prop}

/-- Nothing need be known about what comes out. -/
theorem any : Yields parser fun _ => True :=
  fun _ _ _ _ => trivial

/-- A result as described is given. -/
theorem pure {result : α} (holds : described result) : Yields (Pure.pure result) described := by
  rintro reader _ later ⟨⟩
  exact holds

/-- One parser after another gives what the second is to give. -/
theorem bind (first : Yields parser described)
    (second : ∀ result, described result → Yields (rest result) final) :
    Yields (parser >>= rest) final := by
  intro reader last later run
  simp only [Bind.bind, EStateM.bind] at run
  split at run
  · rename_i result middle ran
    exact second result (first reader result middle ran) middle last later run
  · cases run

/-- One step after another of which nothing need be known. -/
theorem next (second : ∀ result, Yields (rest result) final) : Yields (parser >>= rest) final :=
  any.bind fun result _ => second result

/-- What follows from the description holds as well. -/
theorem weaken {weaker : α → Prop} (holds : Yields parser described)
    (implies : ∀ result, described result → weaker result) : Yields parser weaker :=
  fun reader result later run => implies result (holds reader result later run)

/-- Packing a result gives what the packed one is to be. -/
theorem map {pack : α → β} (holds : Yields parser fun result => final (pack result)) :
    Yields (pack <$> parser) final := by
  rw [← bind_pure_comp]
  exact holds.bind fun _ => .pure

/-- What comes behind a parser whose result is packed. -/
theorem mapped {γ : Type} {pack : α → β} {rest : β → Parser γ} {final : γ → Prop}
    (holds : Yields parser described)
    (second : ∀ result, described result → Yields (rest (pack result)) final) :
    Yields (pack <$> parser >>= rest) final := by
  rw [← bind_pure_comp, bind_assoc]
  simpa only [pure_bind] using holds.bind second

/-- A parser that fails gives nothing. -/
theorem fault {failure : ParseFailure} : Yields (throw failure : Parser α) described := by
  rintro reader result later ⟨⟩

/-- A syntax error gives nothing. -/
theorem fail {error : SyntaxError} : Yields (Parser.fail error) described :=
  fault

/-- A choice gives what both of its sides do. -/
theorem ite {condition : Prop} [Decidable condition] {other : Parser α}
    (holds : condition → Yields parser described) (fails : ¬condition → Yields other described) :
    Yields (if condition then parser else other) described := by
  split
  · exact holds ‹_›
  · exact fails ‹_›

/-- A step that is only taken on a condition, of which nothing need be known. -/
theorem maybe {condition : Prop} [Decidable condition] {step : Parser σ} {other : Parser β}
    (holds : Yields other final) :
    Yields (if condition then step >>= fun _ => other else other) final :=
  .ite (fun _ => .next fun _ => holds) fun _ => holds

/-- What comes behind a check that goes well, where what was checked is needed. -/
theorem checked {condition : Prop} [Decidable condition] {error : SyntaxError}
    {rest : α → Parser β} {other : Parser β} (holds : ¬condition → Yields other final) :
    Yields (if condition then Parser.fail error >>= rest else other) final := by
  refine .ite (fun _ => ?_) holds
  exact (show Yields (Parser.fail error) fun _ => False from .fail).bind fun _ => False.elim

/-- Nothing comes out of a check that fails. -/
theorem check {condition : Prop} [Decidable condition] {error : SyntaxError}
    {rest : α → Parser β} {other : Parser β} (holds : Yields other final) :
    Yields (if condition then Parser.fail error >>= rest else other) final :=
  .checked fun _ => holds

/-- What is known about the state of a loop holds from round to round. -/
theorem loop {step : σ → Parser (Round σ β)} {state : σ} (known : σ → Prop) (start : known state)
    (round : ∀ state, known state → Yields (step state) (Round.Holds known final)) :
    Yields (Parser.loop step state) final := by
  -- The induction is on the fuel that the loop is given.
  have goes (fuel : Nat) (state : σ) (start : known state) :
      Yields (iterate fuel step state) final := by
    induction fuel generalizing state with
    | zero => exact .fault
    | succ fuel ih =>
      refine (round state start).bind fun next shown => ?_
      cases next with
      | again state => exact ih state shown
      | done result => exact .pure shown
  exact .next fun reader => goes reader.limit state start

/-- What comes behind a parser with a span may depend on the span in any way. -/
theorem spanned {rest : Span × α → Parser β}
    (holds : Yields parser fun result => ∀ span, Yields (rest (span, result)) final) :
    Yields (Parser.spanned parser >>= rest) final := by
  have packed : Yields (Parser.spanned parser) fun pair => Yields (rest pair) final :=
    .next fun _ => holds.bind fun _ shown => .next fun _ => .pure (shown _)
  exact packed.bind fun _ => id

/-- An attempt that goes well gives what the parser does. -/
theorem attempt (holds : Yields parser described) :
    Yields (Parser.attempt parser) fun
      | .ok result => described result
      | .error _ => True := by
  intro reader result later run
  unfold Parser.attempt at run
  -- A failure is caught, and nothing is said about it.
  split at run
  · rename_i inner middle ran
    cases run
    exact holds reader inner later ran
  · cases run
    trivial

/-- Every item of a list is as described. -/
theorem commaList {close : Punctuator} (item : Yields parser described) :
    Yields (Parser.commaList close parser) fun items => ∀ item ∈ items, described item := by
  refine .loop (fun items => ∀ item ∈ items, described item) nofun fun items known => ?_
  refine .next fun isDone => .ite (fun _ => .pure known) fun _ => item.bind fun next shown => ?_
  have added : ∀ item ∈ items ++ [next], described item :=
    List.forall_mem_append.mpr ⟨known, List.forall_mem_singleton.mpr shown⟩
  exact .next fun _ => .ite (fun _ => .pure added) fun _ => .pure added

end Yields

/-- The parts that the rules refer to give what is formed. -/
structure Grammar.Reads (grammar : Grammar) : Prop where
  expr : ∀ context level stops, Yields (grammar.expr context level stops) Expr.IsRead
  operand : ∀ context stops, Yields (grammar.operand context stops) Expr.IsRead
  suffix : ∀ context left level stops, left.IsRead →
    Yields (grammar.suffix context left level stops) Expr.IsRead
  pattern : ∀ context, Yields (grammar.pattern context) Pattern.IsRead
  stmt : ∀ context, Yields (grammar.stmt context) fun stmt => AreFormed (stmtNodes stmt)

/-! What is formed item by item is so as a list, and the other way round. -/

section Lists

/-- The nodes of arguments are formed if those of each are. -/
theorem formed_args {list : List Arg} :
    AreFormed (argsNodes list) ↔ ∀ arg ∈ list, AreFormed (argNodes arg) := by
  rw [argsNodes_eq, areFormed_flatMap]

/-- The nodes of substitutions are formed if those of each are. -/
theorem formed_spans {list : List TemplateSpan} :
    AreFormed (spansNodes list) ↔ ∀ span ∈ list, AreFormed (spanNodes span) := by
  rw [spansNodes_eq, areFormed_flatMap]

/-- The nodes of the elements of an array literal are formed if those of each are. -/
theorem formed_items {list : List ArrayItem} :
    AreFormed (itemsNodes list) ↔ ∀ item ∈ list, AreFormed (itemNodes item) := by
  rw [itemsNodes_eq, areFormed_flatMap]

/-- The nodes of the members of an object literal are formed if those of each are. -/
theorem formed_objectMembers {list : List ObjectMember} :
    AreFormed (objectMembersNodes list) ↔ ∀ member ∈ list, AreFormed (objectMemberNodes member) := by
  rw [objectMembersNodes_eq, areFormed_flatMap]

/-- The nodes of the members of a class are formed if those of each are. -/
theorem formed_classMembers {list : List ClassMember} :
    AreFormed (classMembersNodes list) ↔ ∀ member ∈ list, AreFormed (classMemberNodes member) := by
  rw [classMembersNodes_eq, areFormed_flatMap]

/-- The nodes of parameters are formed if those of each are. -/
theorem formed_params {list : List Param} :
    AreFormed (paramsNodes list) ↔ ∀ param ∈ list, AreFormed (paramNodes param) := by
  rw [paramsNodes_eq, areFormed_flatMap]

/-- The nodes of the elements of an array pattern are formed if those of each are. -/
theorem formed_slots {list : List PatternSlot} :
    AreFormed (slotsNodes list) ↔ ∀ slot ∈ list, AreFormed (slotNodes slot) := by
  rw [slotsNodes_eq, areFormed_flatMap]

/-- The nodes of the properties of an object pattern are formed if those of each are. -/
theorem formed_properties {list : List PatternProperty} :
    AreFormed (propertiesNodes list) ↔ ∀ property ∈ list, AreFormed (propertyNodes property) := by
  rw [propertiesNodes_eq, areFormed_flatMap]

/-- The nodes of declarators are formed if those of each are. -/
theorem formed_declarators {list : List Declarator} :
    AreFormed (declaratorsNodes list) ↔ ∀ declarator ∈ list, AreFormed (declaratorNodes declarator) := by
  rw [declaratorsNodes_eq, areFormed_flatMap]

/-- The nodes of statements are formed if those of each are. -/
theorem formed_stmts {list : List Stmt} :
    AreFormed (stmtsNodes list) ↔ ∀ stmt ∈ list, AreFormed (stmtNodes stmt) := by
  rw [stmtsNodes_eq, areFormed_flatMap]

/-- The nodes of the branches of a switch are formed if those of each are. -/
theorem formed_branches {list : List SwitchBranch} :
    AreFormed (branchesNodes list) ↔ ∀ branch ∈ list, AreFormed (branchNodes branch) := by
  rw [branchesNodes_eq, areFormed_flatMap]

end Lists

/-- A rest that may be absent was read. -/
theorem isRead_rest {rest : Option Pattern} (inRest : ∀ pattern ∈ rest, pattern.IsRead) :
    AreFormed (patternOptionNodes rest) ∧ optionHasTarget rest = false := by
  cases rest with
  | none => exact ⟨areFormed_nil, rfl⟩
  | some pattern => exact ⟨(inRest pattern rfl).formed, (inRest pattern rfl).binds⟩

/-- An array pattern was read if its parts were. -/
theorem isRead_arrayPattern {span : Span} {slots : List PatternSlot} {rest : Option Pattern}
    (inSlots : ∀ slot ∈ slots, slot.IsRead) (inRest : ∀ pattern ∈ rest, pattern.IsRead) :
    (Pattern.array span slots rest).IsRead := by
  obtain ⟨formed, binds⟩ := isRead_rest inRest
  have slotsFormed := formed_slots.mpr fun slot mem => (inSlots slot mem).formed
  have slotsBind := slotsHaveTarget_eq_false.mpr fun slot mem => (inSlots slot mem).binds
  refine ⟨areFormed_cons.mpr ⟨trivial, areFormed_append.mpr ⟨slotsFormed, formed⟩⟩, ?_⟩
  rw [hasTarget, slotsBind, binds]
  rfl

/-- An object pattern was read if its parts were. -/
theorem isRead_objectPattern {span : Span} {properties : List PatternProperty}
    {rest : Option Pattern} (inProperties : ∀ property ∈ properties, property.IsRead)
    (inRest : ∀ pattern ∈ rest, pattern.IsRead) : (Pattern.object span properties rest).IsRead := by
  obtain ⟨formed, binds⟩ := isRead_rest inRest
  have partsFormed := formed_properties.mpr fun property mem => (inProperties property mem).formed
  have partsBind := propertiesHaveTarget_eq_false.mpr fun property mem =>
    (inProperties property mem).binds
  refine ⟨areFormed_cons.mpr ⟨trivial, areFormed_append.mpr ⟨partsFormed, formed⟩⟩, ?_⟩
  rw [hasTarget, partsBind, binds]
  rfl

/-- A statement is formed if its shape is, and what that is made of. -/
theorem formed_stmt {stmt : Stmt} :
    AreFormed (stmtNodes stmt)
      ↔ (Node.stmt stmt.shape).Formed ∧ AreFormed (stmtShapeNodes stmt.shape) := by
  obtain ⟨span, shape⟩ := stmt
  simp [stmtNodes]

/-- One more item that is as all before it. -/
theorem forall_mem_snoc {α : Type} {holds : α → Prop} {items : List α} {item : α}
    (all : ∀ item ∈ items, holds item) (own : holds item) : ∀ other ∈ items ++ [item], holds other :=
  List.forall_mem_append.mpr ⟨all, List.forall_mem_singleton.mpr own⟩

/-- Comments as statements are formed. -/
theorem yields_takeComments (upTo : Nat) :
    Yields (takeComments upTo) fun comments => ∀ stmt ∈ comments, AreFormed (stmtNodes stmt) := by
  rintro reader _ later ⟨⟩ stmt mem
  obtain ⟨comment, -, rfl⟩ := List.mem_map.mp mem
  exact formed_stmt.mpr ⟨trivial, areFormed_nil⟩

/-- A name is a pattern. -/
theorem isRead_namePattern {span : Span} {name : String} (spelled : IsSpelled name) :
    (Pattern.id span name).IsRead :=
  ⟨areFormed_cons.mpr ⟨spelled, areFormed_nil⟩, rfl⟩

/-- A shorthand binds a name that was read. -/
theorem yields_shorthandTarget {key : Key} (isRead : key.IsRead) :
    Yields (shorthandTarget key) Pattern.IsRead := by
  cases key with
  | direct name =>
    refine .ite (fun isName => .pure ?_) fun _ => .fail
    exact isRead_namePattern ((isRead.spelled name rfl).1 isName)
  | computed value => exact .fail

/-- A function is formed if its parameters and its body are. -/
theorem formed_func {func : Func} (inParams : AreFormed (paramsNodes func.params))
    (inBody : AreFormed (bodyNodes func.body)) : AreFormed (funcNodes func) := by
  obtain ⟨span, isArrow, isAsync, isGenerator, params, body⟩ := func
  simpa [funcNodes, Node.Formed] using ⟨inParams, inBody⟩

/-- A valued member is formed if its parts are and an object literal can hold its value. -/
theorem formed_valued {span : Span} {key : Key} {value : MemberValue}
    (inKey : AreFormed (keyNodes key)) (inValue : AreFormed (memberValueNodes value))
    (isOfObject : value.isOfObject = true) :
    AreFormed (objectMemberNodes (.valued span key value)) :=
  areFormed_cons.mpr ⟨isOfObject, areFormed_append.mpr ⟨inKey, inValue⟩⟩

/-- A member of a class is formed if its key and its value are. -/
theorem formed_classMember {span : Span} {key : Key} {isStatic : Bool} {value : MemberValue}
    (inKey : AreFormed (keyNodes key)) (inValue : AreFormed (memberValueNodes value)) :
    AreFormed (classMemberNodes ⟨span, key, isStatic, value⟩) :=
  areFormed_append.mpr ⟨inKey, areFormed_into.mpr inValue⟩

/-- A name is an expression. -/
theorem isRead_id {span : Span} {name : String} (spelled : IsSpelled name) :
    (Expr.id span name).IsRead :=
  isRead_of spelled areFormed_nil

/-- The access of a named member is formed. -/
theorem yields_memberAccess {object : Expr} (inObject : object.IsRead) {link : ChainLink}
    (follows : link.Follows object) :
    Yields (memberAccess object link) fun e => e.IsRead ∧ e.link = link :=
  .next fun _ => .check (.pure ⟨isRead_of follows inObject, rfl⟩)

end Parser

end Downlevel
