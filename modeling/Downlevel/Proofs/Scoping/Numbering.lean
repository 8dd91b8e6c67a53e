import Downlevel.Proofs.Scoping.Regions
import Downlevel.Proofs.Scoping.Survey

/-! The walk opens one scope for each region of a program, in the order of the text, and records the
names of the program and no others. -/

namespace Downlevel

namespace ScopeTree

/-- What there is to know of each scope besides the names in it: its kind and the scope around. -/
def frames (tree : ScopeTree) : List (ScopeKind × Option ScopeId) :=
  tree.scopes.toList.map fun scope => (scope.kind, scope.parent)

/-- Every name that some scope binds is recorded. -/
def Recorded (tree : ScopeTree) : Prop :=
  ∀ scope ∈ tree.scopes, ∀ name ∈ scope.declared.names, name ∈ tree.names.names

end ScopeTree

/-- The kind of a scope and the scope around. -/
def Opening.frame (one : Opening) : ScopeKind × Option ScopeId :=
  (one.kind, some one.around)

/-- Where scopes are found that are numbered from the given number on, the latest first. -/
def placesFrom (next : ScopeId) (openings : List Opening) : List (Span × ScopeKind × ScopeId) :=
  ((openings.zipIdx next).map fun (one, scope) => (one.span, one.kind, scope)).reverse

/-- Scopes one behind the other are found one behind the other. -/
theorem placesFrom_append (next : ScopeId) (openings more : List Opening) :
    placesFrom next (openings ++ more)
      = placesFrom (next + openings.length) more ++ placesFrom next openings := by
  simp [placesFrom, List.zipIdx_append]

namespace ScopeTree

variable {tree before middle after : ScopeTree} {around : ScopeId} {names more : List String}
  {regions later : List Region}

/-- Every scope has a kind and a scope around. -/
theorem length_frames (tree : ScopeTree) : tree.frames.length = tree.size := by
  simp [frames, size]

/-- What a part of the walk does to the scopes when its regions lie in the scope around: it adds
those of the regions, and records its names. -/
structure Surveyed (around : ScopeId) (names : List String) (regions : List Region)
    (before after : ScopeTree) : Prop where
  names : ∀ name, name ∈ after.names.names ↔ name ∈ names ∨ name ∈ before.names.names
  recorded : before.Recorded → after.Recorded
  frames : after.frames
    = before.frames ++ (openingsOf around before.size regions).map Opening.frame
  places : after.places
    = placesFrom before.size (openingsOf around before.size regions) ++ before.places

/-- Without names and regions nothing changes. -/
theorem Surveyed.refl (tree : ScopeTree) : Surveyed around [] [] tree tree :=
  ⟨fun _ => by simp, id, by simp, by simp [placesFrom]⟩

/-- The scopes that a part of the walk adds are as many as its regions have. -/
theorem Surveyed.size (surveyed : Surveyed around names regions before after) :
    after.size = before.size + (openingsOf around before.size regions).length := by
  have lengths := congrArg List.length surveyed.frames
  rwa [length_frames, List.length_append, length_frames, List.length_map] at lengths

/-- What two parts of the walk add is added by both together. -/
theorem Surveyed.trans (first : Surveyed around names regions before middle)
    (second : Surveyed around more later middle after) :
    Surveyed around (names ++ more) (regions ++ later) before after where
  names name := by
    rw [second.names, first.names, List.mem_append, or_left_comm, or_assoc]
  recorded := second.recorded ∘ first.recorded
  frames := by
    rw [second.frames, first.frames, first.size, openingsOf_append, List.map_append,
      List.append_assoc]
  places := by
    rw [second.places, first.places, first.size, openingsOf_append, placesFrom_append,
      List.append_assoc]

/-- Recording a name adds that name and no scope. -/
theorem surveyed_reserve (tree : ScopeTree) (name : String) :
    Surveyed around [name] [] tree (tree.reserve name) where
  names _ := by simp [reserve]
  recorded recorded scope mem own declared :=
    NameSet.mem_insert.mpr (.inr (recorded scope mem own declared))
  frames := by simp [reserve, ScopeTree.frames]
  places := by simp [reserve, placesFrom]

/-- Binding a name changes the names of one scope only. -/
theorem surveyed_declare {scope : ScopeId} {name : String}
    (declared : tree.declare? scope name = some after) :
    Surveyed around [name] [] tree after := by
  unfold declare? at declared
  split at declared
  case isFalse => cases declared
  cases declared
  refine ⟨fun _ => by simp [reserve], fun recorded data mem own isOwn => ?_, ?_, by
    simp [reserve, placesFrom]⟩
  · -- A name of the scope is the new one, or it was there before.
    obtain ⟨index, inside, rfl⟩ := Array.mem_iff_getElem.mp mem
    simp only [Array.getElem_modify] at isOwn
    refine NameSet.mem_insert.mpr ?_
    split at isOwn
    · exact (NameSet.mem_insert.mp isOwn).imp_right fun old =>
        recorded _ (Array.getElem_mem _) own old
    · exact .inr (recorded _ (Array.getElem_mem _) own isOwn)
  · rw [openingsOf_nil, List.map_nil, List.append_nil]
    refine List.ext_getElem? fun index => ?_
    simp only [ScopeTree.frames, List.getElem?_map, Array.getElem?_toList, Array.getElem?_modify]
    split
    · cases tree.scopes[index]? <;> rfl
    · rfl

/-- A scope that is opened comes in front of the scopes inside it. -/
theorem surveyed_openScope {kind : ScopeKind} {span : Span}
    (inside : Surveyed tree.size names regions (tree.openScope around kind span) after) :
    Surveyed around names [⟨span, kind, regions⟩] tree after := by
  have size : (tree.openScope around kind span).size = tree.size + 1 := Array.size_push ..
  refine ⟨inside.names, fun recorded => inside.recorded fun scope mem name declared => ?_, ?_, ?_⟩
  · -- The new scope binds nothing yet.
    rcases Array.mem_push.mp mem with old | rfl
    · exact recorded scope old name declared
    · cases declared
  · rw [inside.frames, size, openingsOf_single, Region.openings]
    simp [ScopeTree.frames, openScope, Opening.frame]
  · rw [inside.places, size, openingsOf_single, Region.openings]
    simp [placesFrom, openScope]

end ScopeTree

namespace Survey

/-- When a part of the walk comes to its end, it has opened the scopes of the regions and recorded
the names of the nodes. -/
def Surveys (around : ScopeId) (nodes : List Occurrence) (regions : List Region) (walk : Walk) :
    Prop :=
  ∀ before after, walk before = some ((), after) →
    ScopeTree.Surveyed around (namesOf nodes) regions before after

namespace Surveys

variable {spot : Spot} {around : ScopeId} {nodes more : List Occurrence}
  {regions later : List Region} {first second walk : Walk} {node : Node} {name : String}

/-- Doing nothing opens no scopes and records no names. -/
theorem nothing : Surveys around [] [] (pure ()) := by
  rintro before after ⟨⟩
  exact .refl before

/-- One part of the walk after another. -/
theorem seq (one : Surveys around nodes regions first) (other : Surveys around more later second) :
    Surveys around (nodes ++ more) (regions ++ later) (do first; second) := by
  intro before after ran
  obtain ⟨⟨⟨⟩, middle⟩, ran₁, ran₂⟩ := Option.bind_eq_some_iff.mp ran
  rw [namesOf_append]
  exact (one before middle ran₁).trans (other middle after ran₂)

/-- Only the set of the names counts. -/
theorem congr (walks : Surveys around nodes regions walk)
    (same : ∀ name, name ∈ namesOf more ↔ name ∈ namesOf nodes) :
    Surveys around more regions walk :=
  fun before after ran =>
    { walks before after ran with
      names := fun name => by rw [(walks before after ran).names, same] }

/-- A node without names may be there or not. -/
theorem unnamed (walks : Surveys around nodes regions walk) (noName : node.names = []) :
    Surveys around (.here node :: nodes) regions walk :=
  walks.congr fun _ => by simp [noName]

/-- Where the nodes run makes no difference. -/
theorem into {site : Site} (walks : Surveys around nodes regions walk) :
    Surveys around (nodes.map (.into site)) regions walk :=
  walks.congr fun _ => by simp

/-- A name that is mentioned is recorded. -/
theorem mention (isName : node.names = [name]) :
    Surveys around [.here node] [] (Survey.mention name) := by
  rintro before after ⟨⟩
  simpa [isName] using ScopeTree.surveyed_reserve before name

/-- A name that is bound is recorded. -/
theorem bindIn {scope : ScopeId} (isName : node.names = [name]) :
    Surveys around [.here node] [] (Survey.bindIn scope name) := by
  intro before after ran
  rw [bindIn_eq] at ran
  obtain ⟨later, declared, same⟩ := Option.map_eq_some_iff.mp ran
  cases same
  simpa [isName] using ScopeTree.surveyed_declare declared

/-- Wherever the name is bound, it is recorded. -/
theorem bindName (isName : node.names = [name]) :
    Surveys around [.here node] [] (Survey.bindName spot name) := by
  intro before after ran
  rw [bindName_eq] at ran
  obtain ⟨scope, -, ran⟩ := Option.bind_eq_some_iff.mp ran
  exact bindIn isName before after ran

/-- A function or class may have a name of its own. -/
theorem bindOwnName {name : Option String} (isName : node.names = name.toList) :
    Surveys around [.here node] [] (Survey.bindOwnName spot name) := by
  cases name with
  | none => exact nothing.unnamed isName
  | some own => exact bindIn isName

/-- A scope is opened where the walk is, and the walk goes on inside. -/
theorem enter {kind : ScopeKind} {span : Span} {rest : Spot → Walk}
    (walks : ∀ inside : Spot, Surveys inside.scope nodes regions (rest inside)) :
    Surveys spot.scope nodes [⟨span, kind, regions⟩] (do rest (← Survey.enter spot kind span)) :=
  fun before after ran =>
    ScopeTree.surveyed_openScope (walks { spot with scope := before.size } _ after ran)

end Surveys

/-- Nodes that do no more than mention the names. -/
def mentions (names : List String) : List Occurrence :=
  names.map fun name => .here (.shape (.id name))

/-- What is mentioned are the names. -/
@[simp] theorem namesOf_mentions (names : List String) : namesOf (mentions names) = names := by
  rw [namesOf, mentions, List.flatMap_map]
  exact List.flatMap_singleton' names

/-- The default import mentions its name. -/
theorem surveys_default (spot : Spot) (default : Option String) :
    Surveys spot.scope (mentions default.toList) [] (default.forM (bindName spot)) := by
  cases default with
  | none => exact .nothing
  | some name => exact .bindName rfl

/-- An import mentions the names that it binds. -/
theorem surveys_importNames (spot : Spot) (names : Option ImportNames) :
    Surveys spot.scope (mentions (importedNames names)) [] (walkImportNames spot names) := by
  rcases names with _ | _ | entries
  · exact .nothing
  · exact .bindName rfl
  · simp only [walkImportNames, importedNames]
    induction entries with
    | nil => exact .nothing
    | cons entry rest ih =>
      have first : Surveys spot.scope [.here (.shape (.id entry.boundAs))] []
          (bindName spot entry.boundAs) := .bindName rfl
      exact first.seq ih

/-- Which names are variables does not matter for the scopes. -/
theorem surveys_binding (spot : Spot) (keyword : Option DeclKeyword) {nodes : List Occurrence}
    {regions : List Region} {walk : Walk}
    (walks : Surveys (spot.binding keyword).scope nodes regions walk) :
    Surveys spot.scope nodes regions walk := by
  cases keyword <;> exact walks

mutual

/-- Walking through an expression opens the scopes there in order, and records the names. -/
theorem surveys_expr (spot : Spot) (e : Expr) :
    Surveys spot.scope (exprNodes e) (exprRegions e) (walkExpr spot e) := by
  obtain ⟨origin, shape⟩ := e
  exact (surveys_shape spot origin.span shape).unnamed rfl
termination_by structural e

/-- Walking through a shape opens the scopes there in order, and records the names. -/
theorem surveys_shape (spot : Spot) (span : Span) (shape : Shape) :
    Surveys spot.scope (.here (.shape shape) :: shapeNodes shape) (shapeRegions span shape)
      (walkShape spot span shape) := by
  -- Only names, and the classes and functions that have one, are to be recorded.
  have inside {nodes : List Occurrence} {regions : List Region} {walk : Walk}
      (walks : Surveys spot.scope nodes regions walk) (noName : (Node.shape shape).names = []) :
      Surveys spot.scope (.here (.shape shape) :: nodes) regions walk :=
    walks.unnamed noName
  cases shape with
  | id name => exact .mention rfl
  | arrow func => exact inside (surveys_func spot func) rfl
  | binary op left right =>
    exact inside ((surveys_expr spot left).seq (surveys_expr spot right)) rfl
  | call link isPure callee args =>
    exact inside ((surveys_expr spot callee).seq (surveys_args spot args)) rfl
  | classExpr name heritage members =>
    have named (within : Spot) : Surveys within.scope
        [.here (.shape (.classExpr name heritage members))] [] (bindOwnName within name) :=
      .bindOwnName rfl
    exact .enter fun within => (named within).seq
      ((surveys_option within heritage).seq (surveys_classMembers within members))
  | computed link object key =>
    exact inside ((surveys_expr spot object).seq (surveys_expr spot key)) rfl
  | cond test consequent alternate =>
    rw [shapeNodes, List.append_assoc]
    exact inside ((surveys_expr spot test).seq ((surveys_expr spot consequent).seq
      (surveys_expr spot alternate))) rfl
  | function name func =>
    have named : Surveys spot.scope [.here (.shape (.function name func))] []
        (bindOwnName spot name) := .bindOwnName rfl
    exact named.seq (surveys_func spot func)
  | importCall module => exact inside (surveys_expr spot module) rfl
  | member link object name => exact inside (surveys_expr spot object) rfl
  | new callee args =>
    exact inside ((surveys_expr spot callee).seq (surveys_args spot args)) rfl
  | tagged tag head spans =>
    exact inside ((surveys_expr spot tag).seq (surveys_spans spot spans)) rfl
  | unary op operand => exact inside (surveys_expr spot operand) rfl
  | update op operand => exact inside (surveys_expr spot operand) rfl
  | yield isDelegated operand => exact inside (surveys_option spot operand) rfl
  | array items => exact inside (surveys_items spot items) rfl
  | object members => exact inside (surveys_objectMembers spot members) rfl
  | template head spans => exact inside (surveys_spans spot spans) rfl
  | arrayPattern slots rest =>
    exact inside ((surveys_slots spot slots).seq (surveys_patternOption spot rest)) rfl
  | objectPattern properties rest =>
    exact inside ((surveys_properties spot properties).seq (surveys_patternOption spot rest)) rfl
  | importMeta | newTarget | super | this | bigint | bool | null | num | regex | str =>
    exact inside .nothing rfl
termination_by structural shape

/-- Walking through an expression that may be absent opens the scopes there in order, and records
the names. -/
theorem surveys_option (spot : Spot) (e : Option Expr) :
    Surveys spot.scope (optionNodes e) (optionRegions e) (walkOption spot e) := by
  cases e with
  | none => exact .nothing
  | some e => exact surveys_expr spot e
termination_by structural e

/-- Walking through an argument opens the scopes there in order, and records the names. -/
theorem surveys_arg (spot : Spot) (arg : Arg) :
    Surveys spot.scope (argNodes arg) (argRegions arg) (walkArg spot arg) := by
  obtain ⟨isSpread, value⟩ := arg
  exact surveys_expr spot value
termination_by structural arg

/-- Walking through arguments opens the scopes there in order, and records the names. -/
theorem surveys_args (spot : Spot) (args : List Arg) :
    Surveys spot.scope (argsNodes args) (argsRegions args) (walkArgs spot args) := by
  cases args with
  | nil => exact .nothing
  | cons arg rest => exact (surveys_arg spot arg).seq (surveys_args spot rest)
termination_by structural args

/-- Walking through a substitution opens the scopes there in order, and records the names. -/
theorem surveys_span (spot : Spot) (span : TemplateSpan) :
    Surveys spot.scope (spanNodes span) (spanRegions span) (walkSpan spot span) := by
  obtain ⟨value, text⟩ := span
  exact surveys_expr spot value
termination_by structural span

/-- Walking through substitutions opens the scopes there in order, and records the names. -/
theorem surveys_spans (spot : Spot) (spans : List TemplateSpan) :
    Surveys spot.scope (spansNodes spans) (spansRegions spans) (walkSpans spot spans) := by
  cases spans with
  | nil => exact .nothing
  | cons span rest => exact (surveys_span spot span).seq (surveys_spans spot rest)
termination_by structural spans

/-- Walking through an element of an array literal opens the scopes there in order, and records the
names. -/
theorem surveys_item (spot : Spot) (item : ArrayItem) :
    Surveys spot.scope (itemNodes item) (itemRegions item) (walkItem spot item) := by
  cases item with
  | single value => exact surveys_expr spot value
  | spread value => exact surveys_expr spot value
  | hole => exact .nothing
termination_by structural item

/-- Walking through the elements of an array literal opens the scopes there in order, and records
the names. -/
theorem surveys_items (spot : Spot) (items : List ArrayItem) :
    Surveys spot.scope (itemsNodes items) (itemsRegions items) (walkItems spot items) := by
  cases items with
  | nil => exact .nothing
  | cons item rest => exact (surveys_item spot item).seq (surveys_items spot rest)
termination_by structural items

/-- Walking through a key opens the scopes there in order, and records the names. -/
theorem surveys_key (spot : Spot) (key : Key) :
    Surveys spot.scope (keyNodes key) (keyRegions key) (walkKey spot key) := by
  cases key with
  | direct name => exact .nothing
  | computed value => exact surveys_expr spot value
termination_by structural key

/-- Walking through what a member holds opens the scopes there in order, and records the names. -/
theorem surveys_memberValue (spot : Spot) (value : MemberValue) :
    Surveys spot.scope (memberValueNodes value) (memberValueRegions value)
      (walkMemberValue spot value) := by
  cases value with
  | getter func => exact surveys_func spot func
  | setter func => exact surveys_func spot func
  | method func => exact surveys_func spot func
  | field init => exact surveys_option spot init
  | accessor init => exact surveys_option spot init
  | staticBlock block =>
    obtain ⟨span, body⟩ := block
    exact .enter fun within => surveys_stmts within body
termination_by structural value

/-- Walking through a member of an object literal opens the scopes there in order, and records the
names. -/
theorem surveys_objectMember (spot : Spot) (member : ObjectMember) :
    Surveys spot.scope (objectMemberNodes member) (objectMemberRegions member)
      (walkObjectMember spot member) := by
  cases member with
  | valued span key value =>
    exact ((surveys_key spot key).seq (surveys_memberValue spot value)).unnamed rfl
  | shorthand span name => exact .mention rfl
  | spread span value => exact (surveys_expr spot value).unnamed rfl
termination_by structural member

/-- Walking through the members of an object literal opens the scopes there in order, and records
the names. -/
theorem surveys_objectMembers (spot : Spot) (members : List ObjectMember) :
    Surveys spot.scope (objectMembersNodes members) (objectMembersRegions members)
      (walkObjectMembers spot members) := by
  cases members with
  | nil => exact .nothing
  | cons member rest =>
    exact (surveys_objectMember spot member).seq (surveys_objectMembers spot rest)
termination_by structural members

/-- Walking through a member of a class opens the scopes there in order, and records the names. -/
theorem surveys_classMember (spot : Spot) (member : ClassMember) :
    Surveys spot.scope (classMemberNodes member) (classMemberRegions member)
      (walkClassMember spot member) := by
  obtain ⟨span, key, isStatic, value⟩ := member
  exact (surveys_key spot key).seq (surveys_memberValue spot value).into
termination_by structural member

/-- Walking through the members of a class opens the scopes there in order, and records the
names. -/
theorem surveys_classMembers (spot : Spot) (members : List ClassMember) :
    Surveys spot.scope (classMembersNodes members) (classMembersRegions members)
      (walkClassMembers spot members) := by
  cases members with
  | nil => exact .nothing
  | cons member rest =>
    exact (surveys_classMember spot member).seq (surveys_classMembers spot rest)
termination_by structural members

/-- Walking through a function opens the scopes there in order, and records the names. -/
theorem surveys_func (spot : Spot) (func : Func) :
    Surveys spot.scope (funcNodes func) (funcRegions func) (walkFunc spot func) := by
  obtain ⟨span, isArrow, isAsync, isGenerator, params, body⟩ := func
  have walked : Surveys spot.scope
      ((paramsNodes params).map (.into (.inside .barred))
        ++ (bodyNodes body).map (.into (.inside (.body isAsync isGenerator))))
      [⟨span, .function, paramsRegions params ++ bodyRegions body⟩]
      (do
        let inside ← enter { spot with isVar := false } .function span
        walkParams inside params
        walkBody inside body) :=
    .enter fun within => (surveys_params within params).into.seq (surveys_body within body).into
  exact walked.congr fun _ => by rw [funcNodes, namesOf_cons]; rfl
termination_by structural func

/-- Walking through the body of a function opens the scopes there in order, and records the
names. -/
theorem surveys_body (spot : Spot) (body : Body) :
    Surveys spot.scope (bodyNodes body) (bodyRegions body) (walkBody spot body) := by
  cases body with
  | block stmts => exact surveys_stmts spot stmts
  | value result => exact surveys_expr spot result
termination_by structural body

/-- Walking through a parameter opens the scopes there in order, and records the names. -/
theorem surveys_param (spot : Spot) (param : Param) :
    Surveys spot.scope (paramNodes param) (paramRegions param) (walkParam spot param) := by
  obtain ⟨span, isRest, pattern, default⟩ := param
  exact ((surveys_pattern spot pattern).seq (surveys_option spot default)).unnamed rfl
termination_by structural param

/-- Walking through parameters opens the scopes there in order, and records the names. -/
theorem surveys_params (spot : Spot) (params : List Param) :
    Surveys spot.scope (paramsNodes params) (paramsRegions params) (walkParams spot params) := by
  cases params with
  | nil => exact .nothing
  | cons param rest => exact (surveys_param spot param).seq (surveys_params spot rest)
termination_by structural params

/-- Walking through a pattern opens the scopes there in order, and records the names. -/
theorem surveys_pattern (spot : Spot) (pattern : Pattern) :
    Surveys spot.scope (patternNodes pattern) (patternRegions pattern)
      (walkPattern spot pattern) := by
  cases pattern with
  | id span name => exact .bindName rfl
  | array span slots rest =>
    exact ((surveys_slots spot slots).seq (surveys_patternOption spot rest)).unnamed rfl
  | object span properties rest =>
    exact ((surveys_properties spot properties).seq (surveys_patternOption spot rest)).unnamed rfl
  | target span place => exact (surveys_expr spot place).unnamed rfl
termination_by structural pattern

/-- Walking through a pattern that may be absent opens the scopes there in order, and records the
names. -/
theorem surveys_patternOption (spot : Spot) (pattern : Option Pattern) :
    Surveys spot.scope (patternOptionNodes pattern) (patternOptionRegions pattern)
      (walkPatternOption spot pattern) := by
  cases pattern with
  | none => exact .nothing
  | some pattern => exact surveys_pattern spot pattern
termination_by structural pattern

/-- Walking through an element of an array pattern opens the scopes there in order, and records the
names. -/
theorem surveys_slot (spot : Spot) (slot : PatternSlot) :
    Surveys spot.scope (slotNodes slot) (slotRegions slot) (walkSlot spot slot) := by
  cases slot with
  | hole => exact .nothing
  | slot target default => exact (surveys_pattern spot target).seq (surveys_option spot default)
termination_by structural slot

/-- Walking through the elements of an array pattern opens the scopes there in order, and records
the names. -/
theorem surveys_slots (spot : Spot) (slots : List PatternSlot) :
    Surveys spot.scope (slotsNodes slots) (slotsRegions slots) (walkSlots spot slots) := by
  cases slots with
  | nil => exact .nothing
  | cons slot rest => exact (surveys_slot spot slot).seq (surveys_slots spot rest)
termination_by structural slots

/-- Walking through a property of an object pattern opens the scopes there in order, and records the
names. -/
theorem surveys_property (spot : Spot) (property : PatternProperty) :
    Surveys spot.scope (propertyNodes property) (propertyRegions property)
      (walkProperty spot property) := by
  obtain ⟨span, key, target, isShorthand, default⟩ := property
  rw [propertyNodes, List.append_assoc]
  exact (surveys_key spot key).seq
    ((surveys_pattern spot target).seq (surveys_option spot default))
termination_by structural property

/-- Walking through the properties of an object pattern opens the scopes there in order, and records
the names. -/
theorem surveys_properties (spot : Spot) (properties : List PatternProperty) :
    Surveys spot.scope (propertiesNodes properties) (propertiesRegions properties)
      (walkProperties spot properties) := by
  cases properties with
  | nil => exact .nothing
  | cons property rest =>
    exact (surveys_property spot property).seq (surveys_properties spot rest)
termination_by structural properties

/-- Walking through a declarator opens the scopes there in order, and records the names. -/
theorem surveys_declarator (spot : Spot) (declarator : Declarator) :
    Surveys spot.scope (declaratorNodes declarator) (declaratorRegions declarator)
      (walkDeclarator spot declarator) := by
  obtain ⟨pattern, init⟩ := declarator
  exact ((surveys_pattern spot pattern).seq (surveys_option spot init)).unnamed rfl
termination_by structural declarator

/-- Walking through declarators opens the scopes there in order, and records the names. -/
theorem surveys_declarators (spot : Spot) (declarators : List Declarator) :
    Surveys spot.scope (declaratorsNodes declarators) (declaratorsRegions declarators)
      (walkDeclarators spot declarators) := by
  cases declarators with
  | nil => exact .nothing
  | cons declarator rest =>
    exact (surveys_declarator spot declarator).seq (surveys_declarators spot rest)
termination_by structural declarators

/-- Walking through statements in braces opens the scopes there in order, and records the names. -/
theorem surveys_block (spot : Spot) (block : Block) :
    Surveys spot.scope (blockNodes block) (blockRegions block) (walkBlock spot block) := by
  obtain ⟨span, body⟩ := block
  exact .enter fun within => surveys_stmts within body
termination_by structural block

/-- Walking through statements opens the scopes there in order, and records the names. -/
theorem surveys_stmts (spot : Spot) (stmts : List Stmt) :
    Surveys spot.scope (stmtsNodes stmts) (stmtsRegions stmts) (walkStmts spot stmts) := by
  cases stmts with
  | nil => exact .nothing
  | cons stmt rest => exact (surveys_stmt spot stmt).seq (surveys_stmts spot rest)
termination_by structural stmts

/-- Walking through a branch of a switch opens the scopes there in order, and records the names. -/
theorem surveys_branch (spot : Spot) (branch : SwitchBranch) :
    Surveys spot.scope (branchNodes branch) (branchRegions branch) (walkBranch spot branch) := by
  obtain ⟨span, test, body⟩ := branch
  exact (surveys_option spot test).seq (surveys_stmts spot body)
termination_by structural branch

/-- Walking through the branches of a switch opens the scopes there in order, and records the
names. -/
theorem surveys_branches (spot : Spot) (branches : List SwitchBranch) :
    Surveys spot.scope (branchesNodes branches) (branchesRegions branches)
      (walkBranches spot branches) := by
  cases branches with
  | nil => exact .nothing
  | cons branch rest => exact (surveys_branch spot branch).seq (surveys_branches spot rest)
termination_by structural branches

/-- Walking through a statement opens the scopes there in order, and records the names. -/
theorem surveys_stmt (spot : Spot) (stmt : Stmt) :
    Surveys spot.scope (stmtNodes stmt) (stmtRegions stmt) (walkStmt spot stmt) := by
  obtain ⟨span, shape⟩ := stmt
  exact surveys_stmtShape spot span shape
termination_by structural stmt

/-- Walking through the shape of a statement opens the scopes there in order, and records the
names. -/
theorem surveys_stmtShape (spot : Spot) (span : Span) (shape : StmtShape) :
    Surveys spot.scope (.here (.stmt shape) :: stmtShapeNodes shape) (stmtShapeRegions span shape)
      (walkStmtShape spot span shape) := by
  -- Imports and the declarations of functions and classes bind names themselves.
  have inside {nodes : List Occurrence} {regions : List Region} {walk : Walk}
      (walks : Surveys spot.scope nodes regions walk) (noName : (Node.stmt shape).names = []) :
      Surveys spot.scope (.here (.stmt shape) :: nodes) regions walk :=
    walks.unnamed noName
  cases shape with
  | block body => exact inside (.enter fun within => surveys_stmts within body) rfl
  | doWhile condition body =>
    exact inside ((surveys_expr spot condition).seq (surveys_stmt spot body)) rfl
  | exportDefault value => exact inside (surveys_expr spot value) rfl
  | expr value => exact inside (surveys_expr spot value) rfl
  | forIn keyword binding subject body =>
    rw [stmtShapeNodes, List.append_assoc]
    refine inside (.enter fun within => ?_) rfl
    exact (surveys_binding within keyword (surveys_pattern _ binding)).seq
      ((surveys_expr within subject).seq (surveys_stmt within body))
  | forOf isAwait keyword binding subject body =>
    rw [stmtShapeNodes, List.append_assoc]
    refine inside (.enter fun within => ?_) rfl
    exact (surveys_binding within keyword (surveys_pattern _ binding)).seq
      ((surveys_expr within subject).seq (surveys_stmt within body))
  | forLoop init condition post body =>
    rw [stmtShapeNodes, List.append_assoc, List.append_assoc]
    refine inside (.enter fun within => ?_) rfl
    exact (surveys_option within init).seq ((surveys_option within condition).seq
      ((surveys_option within post).seq (surveys_stmt within body)))
  | forDecl at' keyword declarators condition post body =>
    rw [stmtShapeNodes, List.append_assoc, List.append_assoc]
    refine inside (.enter fun within => ?_) rfl
    exact (surveys_declarators (within.declaring keyword) declarators).seq
      ((surveys_option within condition).seq
        ((surveys_option within post).seq (surveys_stmt within body)))
  | ifThen test consequent =>
    exact inside ((surveys_expr spot test).seq (surveys_stmt spot consequent).into) rfl
  | ifElse test consequent alternate =>
    rw [stmtShapeNodes, List.append_assoc]
    exact inside ((surveys_expr spot test).seq ((surveys_stmt spot consequent).into.seq
      (surveys_stmt spot alternate).into)) rfl
  | importNames default names module =>
    exact ((surveys_default spot default).seq (surveys_importNames spot names)).congr
      fun _ => by simp [stmtShapeNodes, Node.names]
  | label name body => exact inside (surveys_stmt spot body) rfl
  | «return» value => exact inside (surveys_option spot value) rfl
  | switch test branches =>
    refine inside (.enter fun within => ?_) rfl
    exact (surveys_expr within test).seq (surveys_branches within branches)
  | throw value => exact inside (surveys_expr spot value) rfl
  | tryCatch body param handler =>
    obtain ⟨handlerSpan, handler⟩ := handler
    rw [stmtShapeNodes, List.append_assoc]
    refine inside ((surveys_block spot body).seq (.enter fun within => ?_)) rfl
    exact (surveys_patternOption within param).seq (surveys_stmts within handler)
  | tryFinally body finalizer =>
    exact inside ((surveys_block spot body).seq (surveys_block spot finalizer)) rfl
  | tryCatchFinally body param handler finalizer =>
    obtain ⟨handlerSpan, handler⟩ := handler
    -- The finalizer is walked outside of the scope of the handler.
    have caught : Surveys spot.scope (patternOptionNodes param ++ stmtsNodes handler)
        (handlerRegions (patternOptionRegions param) ⟨handlerSpan, handler⟩)
        (do
          let inside ← enter spot .block handlerSpan
          walkPatternOption inside param
          walkStmts inside handler) :=
      .enter fun within => (surveys_patternOption within param).seq (surveys_stmts within handler)
    have walked := inside ((surveys_block spot body).seq
      (caught.seq (surveys_block spot finalizer))) rfl
    simp only [bind_assoc] at walked
    rw [stmtShapeNodes, List.append_assoc, List.append_assoc,
      ← List.append_assoc (patternOptionNodes param)]
    exact walked
  | «while» condition body =>
    exact inside ((surveys_expr spot condition).seq (surveys_stmt spot body)) rfl
  | «with» object body =>
    exact inside ((surveys_expr spot object).seq (surveys_stmt spot body)) rfl
  | classDecl exported name heritage members =>
    -- The name is bound twice, around the class and in it.
    have named (within : Spot) : Surveys within.scope
        [.here (.stmt (.classDecl exported name heritage members))] []
        (bindOwnName within name) :=
      .bindOwnName rfl
    have opened : Surveys spot.scope
        (.here (.stmt (.classDecl exported name heritage members))
          :: (optionNodes heritage ++ classMembersNodes members))
        [⟨span, .classBody, optionRegions heritage ++ classMembersRegions members⟩]
        (do
          let inside ← enter spot .classBody span
          bindOwnName inside name
          walkOption inside heritage
          walkClassMembers inside members) :=
      .enter fun within => (named within).seq
        ((surveys_option within heritage).seq (surveys_classMembers within members))
    exact ((named spot).seq opened).congr fun _ => by simp [stmtShapeNodes]
  | functionDecl exported name func =>
    have named : Surveys spot.scope [.here (.stmt (.functionDecl exported name func))] []
        (bindOwnName spot name) := .bindOwnName rfl
    exact named.seq (surveys_func spot func)
  | varDecl isExported keyword declarators =>
    exact inside (surveys_declarators (spot.declaring keyword) declarators) rfl
  | breakTo | comment | continueTo | debugger | empty | exportNames => exact inside .nothing rfl
termination_by structural shape

end

end Survey

/-- Every program has scopes: one for the whole file and one for each region, with the names that
the program mentions or binds. -/
theorem Program.scopes?_surveyed (program : Program) :
    ∃ tree, program.scopes? = some tree ∧ tree.Sound
      ∧ ScopeTree.Surveyed ScopeTree.root program.names (stmtsRegions program.body) {} tree := by
  obtain ⟨tree, ran, grows, -⟩ :=
    Survey.records_stmts {} program.body {} ScopeTree.sound_default Nat.one_pos
  refine ⟨tree, ?_, grows.sound, Survey.surveys_stmts {} program.body {} tree ran⟩
  rw [scopes?]
  exact congrArg (Option.map Prod.snd) ran

end Downlevel
