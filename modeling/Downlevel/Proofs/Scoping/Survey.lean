import Downlevel.Proofs.Nodes
import Downlevel.Proofs.MadeUpNames
import Downlevel.Scope.Survey

/-! The walk that records the scopes of a program never asks for a scope that is not there, and every
name that a node mentions or binds is recorded. -/

namespace Downlevel

namespace ScopeTree

/-- Every scope comes after the one around it. -/
def Sound (tree : ScopeTree) : Prop :=
  ∀ index (data : Scope), tree.scopes[index]? = some data → ∀ around ∈ data.parent, around < index

/-- What a part of the walk leaves of the scopes: there are no fewer of them, and no fewer names. -/
structure Grows (before after : ScopeTree) : Prop where
  sound : after.Sound
  size : before.size ≤ after.size
  names : ∀ name ∈ before.names.names, name ∈ after.names.names

variable {tree before middle after : ScopeTree} {scope : ScopeId} {name : String}

/-- A sound tree of scopes grows into itself. -/
theorem Grows.refl (sound : tree.Sound) : tree.Grows tree :=
  ⟨sound, Nat.le_refl _, fun _ => id⟩

/-- Growing twice is growing. -/
theorem Grows.trans (first : before.Grows middle) (second : middle.Grows after) :
    before.Grows after :=
  ⟨second.sound, Nat.le_trans first.size second.size,
    fun name mem => second.names name (first.names name mem)⟩

/-- The scopes of a file start out sound. -/
theorem sound_default : Sound {} := by
  intro index data found around isAround
  obtain ⟨inside, rfl⟩ := Array.getElem?_eq_some_iff.mp found
  obtain rfl : index = 0 := Nat.lt_one_iff.mp inside
  cases isAround

/-- Recording a name only adds it. -/
theorem grows_reserve (sound : tree.Sound) (name : String) : tree.Grows (tree.reserve name) :=
  ⟨sound, Nat.le_refl _, fun _ mem => NameSet.mem_insert.mpr (.inr mem)⟩

/-- A scope is opened behind the one around it. -/
theorem grows_openScope (sound : tree.Sound) (inside : scope < tree.size) (kind : ScopeKind)
    (span : Span) : tree.Grows (tree.openScope scope kind span)
      ∧ tree.size < (tree.openScope scope kind span).size := by
  have size : (tree.openScope scope kind span).size = tree.size + 1 := Array.size_push ..
  -- A new scope is pushed at the end: the old ones keep their places, and what is around the new
  -- one exists.
  refine ⟨⟨fun index data found around isAround => ?_, by omega, fun _ => id⟩, by omega⟩
  simp only [openScope, Array.getElem?_push] at found
  split at found
  · rename_i isLast
    cases found
    cases isAround
    exact isLast ▸ inside
  · exact sound index data found around isAround

/-- A name can be bound in every scope of the file. -/
theorem grows_declare (sound : tree.Sound) (inside : scope < tree.size) (name : String) :
    ∃ after, tree.declare? scope name = some after ∧ tree.Grows after
      ∧ name ∈ after.names.names := by
  refine ⟨_, if_pos inside, ⟨fun index data found around isAround => ?_, ?_, fun _ mem =>
    NameSet.mem_insert.mpr (.inr mem)⟩, NameSet.mem_insert.mpr (.inl rfl)⟩
  · -- What is around a scope does not change.
    rw [Array.getElem?_modify] at found
    split at found
    · cases old : tree.scopes[index]? with
      | none => simp [old] at found
      | some data' =>
        rw [old] at found
        cases found
        exact sound index data' old around isAround
    · exact sound index data found around isAround
  · exact Nat.le_of_eq (Array.size_modify ..).symm

/-- Some scope of the file owns the variables that are declared in a scope. -/
theorem varScopeWithin?_isSome (sound : tree.Sound) {fuel : Nat} (enough : scope < fuel)
    (inside : scope < tree.size) :
    ∃ owner, tree.varScopeWithin? fuel scope = some owner ∧ owner < tree.size := by
  -- By induction on the fuel: the scope around is one with a smaller number.
  induction fuel generalizing scope with
  | zero => exact absurd enough (Nat.not_lt_zero _)
  | succ fuel ih =>
    obtain ⟨data, found⟩ : ∃ data, tree.scopes[scope]? = some data :=
      ⟨_, Array.getElem?_eq_getElem inside⟩
    simp only [varScopeWithin?, found, Option.bind_eq_bind, Option.bind_some]
    split
    · exact ⟨scope, rfl, inside⟩
    · split
      · rename_i around isAround
        have less : around < scope := sound scope data found around isAround
        exact ih (Nat.lt_of_lt_of_le less (Nat.le_of_lt_succ enough)) (Nat.lt_trans less inside)
      · exact ⟨scope, rfl, inside⟩

end ScopeTree

/-- The name that a node mentions or binds as a variable. -/
def Node.name? : Node → Option String
  | .shape (.id name) | .pattern (.id _ name) | .objectMember (.shorthand _ name) => some name
  | _ => none

namespace Survey

/-- The names of all nodes are among those recorded. -/
def Knows (tree : ScopeTree) (nodes : List Occurrence) : Prop :=
  ∀ found ∈ nodes, ∀ name ∈ found.node.name?, name ∈ tree.names.names

section

variable {tree after : ScopeTree} {nodes more : List Occurrence} {node : Node} {site : Site}

/-- No nodes have names to be recorded. -/
@[simp] theorem knows_nil : Knows tree [] :=
  nofun

/-- The name of the first node is recorded, and those of the others are. -/
@[simp] theorem knows_cons :
    Knows tree (.here node :: nodes)
      ↔ (∀ name ∈ node.name?, name ∈ tree.names.names) ∧ Knows tree nodes :=
  List.forall_mem_cons

/-- The names of two lists of nodes are recorded if those of each are. -/
@[simp] theorem knows_append : Knows tree (nodes ++ more) ↔ Knows tree nodes ∧ Knows tree more :=
  List.forall_mem_append

/-- Where a node belongs makes no difference to its name. -/
@[simp] theorem knows_into : Knows tree (nodes.map (.into site)) ↔ Knows tree nodes :=
  List.forall_mem_map

/-- What was recorded stays so. -/
theorem Knows.grows (knows : Knows tree nodes) (grows : tree.Grows after) : Knows after nodes :=
  fun found mem name isName => grows.names name (knows found mem name isName)

end

/-- Binding a name in a scope fails only where the file has no such scope. -/
theorem bindIn_eq (scope : ScopeId) (name : String) (tree : ScopeTree) :
    bindIn scope name tree = (tree.declare? scope name).map ((), ·) := by
  show (StateT.lift (tree.declare? scope name) tree).bind _ = _
  rw [StateT.lift]
  cases tree.declare? scope name <;> rfl

/-- Variables are bound in the scope that owns them. -/
theorem bindName_eq (spot : Spot) (name : String) (tree : ScopeTree) :
    bindName spot name tree
      = (if spot.isVar then tree.varScope? spot.scope else some spot.scope).bind
        (bindIn · name tree) := by
  unfold bindName
  split
  · simp only [Bind.bind, StateT.bind, get, getThe, MonadStateOf.get, StateT.get, liftM, monadLift,
      MonadLift.monadLift, StateT.lift, pure, Option.bind_some]
    cases tree.varScope? spot.scope <;> rfl
  · rfl

/-- From every scope of a file the walk goes on, and records the names of the nodes. -/
def Records (spot : Spot) (nodes : List Occurrence) (walk : Walk) : Prop :=
  ∀ tree : ScopeTree, tree.Sound → spot.scope < tree.size →
    ∃ after, walk tree = some ((), after) ∧ tree.Grows after ∧ Knows after nodes

namespace Records

variable {spot : Spot} {nodes more : List Occurrence} {first second walk : Walk}
  {name : String}

/-- Doing nothing records the names of no nodes. -/
theorem nothing : Records spot [] (pure ()) :=
  fun tree sound _ => ⟨tree, rfl, .refl sound, knows_nil⟩

/-- One part of the walk after another. -/
theorem seq (one : Records spot nodes first) (other : Records spot more second) :
    Records spot (nodes ++ more) (do first; second) := by
  intro tree sound inside
  obtain ⟨middle, ran, grows, knows⟩ := one tree sound inside
  obtain ⟨after, ran', grows', knows'⟩ := other middle grows.sound (Nat.lt_of_lt_of_le inside grows.size)
  refine ⟨after, ?_, grows.trans grows', knows_append.mpr ⟨knows.grows grows', knows'⟩⟩
  simp only [Bind.bind, StateT.bind, ran, Option.bind_some, ran']

/-- Only the names of the nodes count. -/
theorem weaken (records : Records spot nodes walk) (fewer : ∀ tree, Knows tree nodes → Knows tree more) :
    Records spot more walk := by
  intro tree sound inside
  obtain ⟨after, ran, grows, knows⟩ := records tree sound inside
  exact ⟨after, ran, grows, fewer after knows⟩

/-- A name that is mentioned is recorded. -/
theorem mention {node : Node} (isName : node.name? = some name) :
    Records spot [.here node] (Survey.mention name) := by
  intro tree sound inside
  refine ⟨tree.reserve name, rfl, ScopeTree.grows_reserve sound name, knows_cons.mpr ⟨?_, knows_nil⟩⟩
  rw [isName]
  rintro _ ⟨⟩
  exact NameSet.mem_insert.mpr (.inl rfl)

/-- A name can be bound in every scope that is there. -/
theorem binds {node : Node} (isName : ∀ own ∈ node.name?, own = name) {tree : ScopeTree}
    (sound : tree.Sound) {scope : ScopeId} (inside : scope < tree.size) :
    ∃ after, Survey.bindIn scope name tree = some ((), after) ∧ tree.Grows after
      ∧ Knows after [.here node] := by
  obtain ⟨after, declared, grows, mem⟩ := ScopeTree.grows_declare sound inside name
  refine ⟨after, ?_, grows, knows_cons.mpr ⟨fun own isOwn => isName own isOwn ▸ mem, knows_nil⟩⟩
  rw [bindIn_eq, declared]
  rfl

/-- A name that is bound is recorded. -/
theorem bindIn {node : Node} (isName : ∀ own ∈ node.name?, own = name) :
    Records spot [.here node] (Survey.bindIn spot.scope name) :=
  fun _ sound inside => binds isName sound inside

/-- A name can be bound where the walk is, or in the scope that owns variables. -/
theorem bindName {node : Node} (isName : ∀ own ∈ node.name?, own = name) :
    Records spot [.here node] (Survey.bindName spot name) := by
  intro tree sound inside
  rw [bindName_eq]
  split
  · obtain ⟨owner, found, known⟩ := ScopeTree.varScopeWithin?_isSome sound inside inside
    rw [ScopeTree.varScope?, found]
    exact binds isName sound known
  · exact binds isName sound inside

/-- The name of a class or function is no variable. -/
theorem bindOwnName (name : Option String) : Records spot [] (Survey.bindOwnName spot name) := by
  cases name with
  | none => exact nothing
  | some own =>
    have recorded : Records spot [.here (.stmt .empty)] (Survey.bindIn spot.scope own) :=
      bindIn nofun
    exact recorded.weaken fun _ _ => knows_nil

/-- A node without a name may be left out. -/
theorem unnamed {node : Node} (records : Records spot nodes walk) (noName : node.name? = none) :
    Records spot (.here node :: nodes) walk :=
  records.weaken fun _ knows => knows_cons.mpr ⟨by simp [noName], knows⟩

/-- Where the nodes run makes no difference. -/
theorem into {site : Site} (records : Records spot nodes walk) :
    Records spot (nodes.map (.into site)) walk :=
  records.weaken fun _ => knows_into.mpr

/-- A scope is opened, and the walk goes on inside. -/
theorem enter {kind : ScopeKind} {span : Span} {rest : Spot → Walk}
    (records : ∀ inside : Spot, spot.scope ≤ inside.scope → Records inside nodes (rest inside)) :
    Records spot nodes (do rest (← Survey.enter spot kind span)) := by
  intro tree sound inside
  obtain ⟨grows, opened⟩ := ScopeTree.grows_openScope sound inside kind span
  obtain ⟨after, ran, grows', knows⟩ :=
    records { spot with scope := tree.size } (Nat.le_of_lt inside) _ grows.sound opened
  exact ⟨after, ran, grows.trans grows', knows⟩

/-- What can be walked in a scope can be walked once there are more of them. -/
theorem outside {inner : Spot} (records : Records spot nodes walk) (later : spot.scope ≤ inner.scope) :
    Records inner nodes walk :=
  fun tree sound inside => records tree sound (Nat.lt_of_le_of_lt later inside)

end Records

/-- What is imported is bound, though no node mentions it. -/
theorem records_imported (spot : Spot) (name : String) : Records spot [] (bindName spot name) :=
  have recorded : Records spot [.here (.stmt .empty)] (bindName spot name) := .bindName nofun
  recorded.weaken fun _ _ => knows_nil

/-- The default import binds its name. -/
theorem records_default (spot : Spot) (default : Option String) :
    Records spot [] (default.forM (bindName spot)) := by
  cases default with
  | none => exact .nothing
  | some name => exact records_imported spot name

/-- The names of an import are bound. -/
theorem records_importNames (spot : Spot) (names : Option ImportNames) :
    Records spot [] (walkImportNames spot names) := by
  rcases names with _ | _ | entries
  · exact .nothing
  · exact records_imported spot _
  · simp only [walkImportNames]
    induction entries with
    | nil => exact .nothing
    | cons entry rest ih => exact (records_imported spot entry.boundAs).seq ih

/-- Which names are variables does not matter. -/
theorem records_declaring (spot : Spot) (keyword : DeclKeyword) {nodes : List Occurrence}
    {walk : Walk} (records : Records (spot.declaring keyword) nodes walk) : Records spot nodes walk :=
  records

/-- A binding is walked through like any pattern. -/
theorem records_binding (spot : Spot) (keyword : Option DeclKeyword) {nodes : List Occurrence}
    {walk : Walk} (records : Records (spot.binding keyword) nodes walk) : Records spot nodes walk := by
  cases keyword <;> exact records

mutual

/-- Walking through an expression records the names there. -/
theorem records_expr (spot : Spot) (e : Expr) : Records spot (exprNodes e) (walkExpr spot e) := by
  obtain ⟨origin, shape⟩ := e
  rw [walkExpr, exprNodes]
  refine (records_shape spot origin.span shape).weaken fun _ knows => knows_cons.mpr ⟨nofun, knows⟩
termination_by structural e

/-- Walking through a shape records the names there. -/
theorem records_shape (spot : Spot) (span : Span) (shape : Shape) :
    Records spot (.here (.shape shape) :: shapeNodes shape) (walkShape spot span shape) := by
  -- All shapes but names say nothing by themselves.
  have inside {nodes : List Occurrence} {walk : Walk} (records : Records spot nodes walk)
      (noName : (Node.shape shape).name? = none) :
      Records spot (.here (.shape shape) :: nodes) walk :=
    records.unnamed noName
  cases shape with
  | id name => exact .mention rfl
  | arrow func => exact inside (records_func spot func) rfl
  | binary op left right =>
    exact inside ((records_expr spot left).seq (records_expr spot right)) rfl
  | call link isPure callee args =>
    exact inside ((records_expr spot callee).seq (records_args spot args)) rfl
  | classExpr name heritage members =>
    apply inside _ rfl
    apply Records.enter
    intro within _
    exact (Records.bindOwnName name).seq
      ((records_option within heritage).seq (records_classMembers within members))
  | computed link object key =>
    exact inside ((records_expr spot object).seq (records_expr spot key)) rfl
  | cond test consequent alternate =>
    rw [shapeNodes, List.append_assoc]
    exact inside ((records_expr spot test).seq ((records_expr spot consequent).seq
      (records_expr spot alternate))) rfl
  | function name func =>
    exact inside ((Records.bindOwnName name).seq (records_func spot func)) rfl
  | importCall module => exact inside (records_expr spot module) rfl
  | member link object name => exact inside (records_expr spot object) rfl
  | new callee args =>
    exact inside ((records_expr spot callee).seq (records_args spot args)) rfl
  | tagged tag head spans =>
    exact inside ((records_expr spot tag).seq (records_spans spot spans)) rfl
  | unary op operand => exact inside (records_expr spot operand) rfl
  | update op operand => exact inside (records_expr spot operand) rfl
  | yield isDelegated operand => exact inside (records_option spot operand) rfl
  | array items => exact inside (records_items spot items) rfl
  | object members => exact inside (records_objectMembers spot members) rfl
  | template head spans => exact inside (records_spans spot spans) rfl
  | arrayPattern slots rest =>
    exact inside ((records_slots spot slots).seq (records_patternOption spot rest)) rfl
  | objectPattern properties rest =>
    exact inside ((records_properties spot properties).seq (records_patternOption spot rest)) rfl
  | importMeta | newTarget | super | this | bigint | bool | null | num | regex | str =>
    exact inside .nothing rfl
termination_by structural shape

/-- Walking through an expression that may be absent records the names there. -/
theorem records_option (spot : Spot) (e : Option Expr) :
    Records spot (optionNodes e) (walkOption spot e) := by
  cases e with
  | none => exact .nothing
  | some e => exact records_expr spot e
termination_by structural e

/-- Walking through an argument records the names there. -/
theorem records_arg (spot : Spot) (arg : Arg) : Records spot (argNodes arg) (walkArg spot arg) := by
  obtain ⟨isSpread, value⟩ := arg
  exact records_expr spot value
termination_by structural arg

/-- Walking through arguments records the names there. -/
theorem records_args (spot : Spot) (args : List Arg) :
    Records spot (argsNodes args) (walkArgs spot args) := by
  cases args with
  | nil => exact .nothing
  | cons arg rest => exact (records_arg spot arg).seq (records_args spot rest)
termination_by structural args

/-- Walking through a substitution records the names there. -/
theorem records_span (spot : Spot) (span : TemplateSpan) :
    Records spot (spanNodes span) (walkSpan spot span) := by
  obtain ⟨value, text⟩ := span
  exact records_expr spot value
termination_by structural span

/-- Walking through substitutions records the names there. -/
theorem records_spans (spot : Spot) (spans : List TemplateSpan) :
    Records spot (spansNodes spans) (walkSpans spot spans) := by
  cases spans with
  | nil => exact .nothing
  | cons span rest => exact (records_span spot span).seq (records_spans spot rest)
termination_by structural spans

/-- Walking through an element of an array literal records the names there. -/
theorem records_item (spot : Spot) (item : ArrayItem) :
    Records spot (itemNodes item) (walkItem spot item) := by
  cases item with
  | single value => exact records_expr spot value
  | spread value => exact records_expr spot value
  | hole => exact .nothing
termination_by structural item

/-- Walking through the elements of an array literal records the names there. -/
theorem records_items (spot : Spot) (items : List ArrayItem) :
    Records spot (itemsNodes items) (walkItems spot items) := by
  cases items with
  | nil => exact .nothing
  | cons item rest => exact (records_item spot item).seq (records_items spot rest)
termination_by structural items

/-- Walking through a key records the names there. -/
theorem records_key (spot : Spot) (key : Key) : Records spot (keyNodes key) (walkKey spot key) := by
  cases key with
  | direct name => exact .nothing
  | computed value => exact records_expr spot value
termination_by structural key

/-- Walking through what a member holds records the names there. -/
theorem records_memberValue (spot : Spot) (value : MemberValue) :
    Records spot (memberValueNodes value) (walkMemberValue spot value) := by
  cases value with
  | getter func => exact records_func spot func
  | setter func => exact records_func spot func
  | method func => exact records_func spot func
  | field init => exact records_option spot init
  | accessor init => exact records_option spot init
  | staticBlock block =>
    obtain ⟨span, body⟩ := block
    exact .enter fun within _ => records_stmts within body
termination_by structural value

/-- Walking through a member of an object literal records the names there. -/
theorem records_objectMember (spot : Spot) (member : ObjectMember) :
    Records spot (objectMemberNodes member) (walkObjectMember spot member) := by
  cases member with
  | valued span key value =>
    exact ((records_key spot key).seq (records_memberValue spot value)).unnamed rfl
  | shorthand span name => exact .mention rfl
  | spread span value => exact (records_expr spot value).unnamed rfl
termination_by structural member

/-- Walking through the members of an object literal records the names there. -/
theorem records_objectMembers (spot : Spot) (members : List ObjectMember) :
    Records spot (objectMembersNodes members) (walkObjectMembers spot members) := by
  cases members with
  | nil => exact .nothing
  | cons member rest =>
    exact (records_objectMember spot member).seq (records_objectMembers spot rest)
termination_by structural members

/-- Walking through a member of a class records the names there. -/
theorem records_classMember (spot : Spot) (member : ClassMember) :
    Records spot (classMemberNodes member) (walkClassMember spot member) := by
  obtain ⟨span, key, isStatic, value⟩ := member
  exact (records_key spot key).seq (records_memberValue spot value).into
termination_by structural member

/-- Walking through the members of a class records the names there. -/
theorem records_classMembers (spot : Spot) (members : List ClassMember) :
    Records spot (classMembersNodes members) (walkClassMembers spot members) := by
  cases members with
  | nil => exact .nothing
  | cons member rest =>
    exact (records_classMember spot member).seq (records_classMembers spot rest)
termination_by structural members

/-- Walking through a function records the names there. -/
theorem records_func (spot : Spot) (func : Func) :
    Records spot (funcNodes func) (walkFunc spot func) := by
  obtain ⟨span, isArrow, isAsync, isGenerator, params, body⟩ := func
  -- The function is walked in a scope of its own, where nothing of the outside is declared by
  -- `var`.
  have walked : Records { spot with isVar := false }
      ((paramsNodes params).map (.into (.inside .barred))
        ++ (bodyNodes body).map (.into (.inside (.body isAsync isGenerator))))
      (do
        let inside ← enter { spot with isVar := false } .function span
        walkParams inside params
        walkBody inside body) :=
    .enter fun within _ => (records_params within params).into.seq (records_body within body).into
  intro tree sound inside
  obtain ⟨after, ran, grows, knows⟩ := walked tree sound inside
  exact ⟨after, ran, grows, List.forall_mem_cons.mpr ⟨nofun, knows⟩⟩
termination_by structural func

/-- Walking through the body of a function records the names there. -/
theorem records_body (spot : Spot) (body : Body) :
    Records spot (bodyNodes body) (walkBody spot body) := by
  cases body with
  | block stmts => exact records_stmts spot stmts
  | value result => exact records_expr spot result
termination_by structural body

/-- Walking through a parameter records the names there. -/
theorem records_param (spot : Spot) (param : Param) :
    Records spot (paramNodes param) (walkParam spot param) := by
  obtain ⟨span, isRest, pattern, default⟩ := param
  exact ((records_pattern spot pattern).seq (records_option spot default)).unnamed rfl
termination_by structural param

/-- Walking through parameters records the names there. -/
theorem records_params (spot : Spot) (params : List Param) :
    Records spot (paramsNodes params) (walkParams spot params) := by
  cases params with
  | nil => exact .nothing
  | cons param rest => exact (records_param spot param).seq (records_params spot rest)
termination_by structural params

/-- Walking through a pattern records the names there. -/
theorem records_pattern (spot : Spot) (pattern : Pattern) :
    Records spot (patternNodes pattern) (walkPattern spot pattern) := by
  cases pattern with
  | id span name => exact .bindName fun _ isName => (Option.some.inj isName).symm
  | array span slots rest =>
    exact ((records_slots spot slots).seq (records_patternOption spot rest)).unnamed rfl
  | object span properties rest =>
    exact ((records_properties spot properties).seq (records_patternOption spot rest)).unnamed rfl
  | target span place => exact (records_expr spot place).unnamed rfl
termination_by structural pattern

/-- Walking through a pattern that may be absent records the names there. -/
theorem records_patternOption (spot : Spot) (pattern : Option Pattern) :
    Records spot (patternOptionNodes pattern) (walkPatternOption spot pattern) := by
  cases pattern with
  | none => exact .nothing
  | some pattern => exact records_pattern spot pattern
termination_by structural pattern

/-- Walking through an element of an array pattern records the names there. -/
theorem records_slot (spot : Spot) (slot : PatternSlot) :
    Records spot (slotNodes slot) (walkSlot spot slot) := by
  cases slot with
  | hole => exact .nothing
  | slot target default => exact (records_pattern spot target).seq (records_option spot default)
termination_by structural slot

/-- Walking through the elements of an array pattern records the names there. -/
theorem records_slots (spot : Spot) (slots : List PatternSlot) :
    Records spot (slotsNodes slots) (walkSlots spot slots) := by
  cases slots with
  | nil => exact .nothing
  | cons slot rest => exact (records_slot spot slot).seq (records_slots spot rest)
termination_by structural slots

/-- Walking through a property of an object pattern records the names there. -/
theorem records_property (spot : Spot) (property : PatternProperty) :
    Records spot (propertyNodes property) (walkProperty spot property) := by
  obtain ⟨span, key, target, isShorthand, default⟩ := property
  rw [propertyNodes, List.append_assoc]
  exact (records_key spot key).seq ((records_pattern spot target).seq (records_option spot default))
termination_by structural property

/-- Walking through the properties of an object pattern records the names there. -/
theorem records_properties (spot : Spot) (properties : List PatternProperty) :
    Records spot (propertiesNodes properties) (walkProperties spot properties) := by
  cases properties with
  | nil => exact .nothing
  | cons property rest =>
    exact (records_property spot property).seq (records_properties spot rest)
termination_by structural properties

/-- Walking through a declarator records the names there. -/
theorem records_declarator (spot : Spot) (declarator : Declarator) :
    Records spot (declaratorNodes declarator) (walkDeclarator spot declarator) := by
  obtain ⟨pattern, init⟩ := declarator
  exact ((records_pattern spot pattern).seq (records_option spot init)).unnamed rfl
termination_by structural declarator

/-- Walking through declarators records the names there. -/
theorem records_declarators (spot : Spot) (declarators : List Declarator) :
    Records spot (declaratorsNodes declarators) (walkDeclarators spot declarators) := by
  cases declarators with
  | nil => exact .nothing
  | cons declarator rest =>
    exact (records_declarator spot declarator).seq (records_declarators spot rest)
termination_by structural declarators

/-- Walking through statements in braces records the names there. -/
theorem records_block (spot : Spot) (block : Block) :
    Records spot (blockNodes block) (walkBlock spot block) := by
  obtain ⟨span, body⟩ := block
  exact .enter fun within _ => records_stmts within body
termination_by structural block

/-- Walking through statements records the names there. -/
theorem records_stmts (spot : Spot) (stmts : List Stmt) :
    Records spot (stmtsNodes stmts) (walkStmts spot stmts) := by
  cases stmts with
  | nil => exact .nothing
  | cons stmt rest => exact (records_stmt spot stmt).seq (records_stmts spot rest)
termination_by structural stmts

/-- Walking through a branch of a switch records the names there. -/
theorem records_branch (spot : Spot) (branch : SwitchBranch) :
    Records spot (branchNodes branch) (walkBranch spot branch) := by
  obtain ⟨span, test, body⟩ := branch
  exact (records_option spot test).seq (records_stmts spot body)
termination_by structural branch

/-- Walking through the branches of a switch records the names there. -/
theorem records_branches (spot : Spot) (branches : List SwitchBranch) :
    Records spot (branchesNodes branches) (walkBranches spot branches) := by
  cases branches with
  | nil => exact .nothing
  | cons branch rest => exact (records_branch spot branch).seq (records_branches spot rest)
termination_by structural branches

/-- Walking through a statement records the names there. -/
theorem records_stmt (spot : Spot) (stmt : Stmt) :
    Records spot (stmtNodes stmt) (walkStmt spot stmt) := by
  obtain ⟨span, shape⟩ := stmt
  exact (records_stmtShape spot span shape).unnamed (by cases shape <;> rfl)
termination_by structural stmt

/-- Walking through the shape of a statement records the names there. -/
theorem records_stmtShape (spot : Spot) (span : Span) (shape : StmtShape) :
    Records spot (stmtShapeNodes shape) (walkStmtShape spot span shape) := by
  -- One statement at a time; each walk enters the scopes the statement makes and records the names
  -- it binds.
  cases shape with
  | block body => exact .enter fun within _ => records_stmts within body
  | doWhile condition body => exact (records_expr spot condition).seq (records_stmt spot body)
  | exportDefault value => exact records_expr spot value
  | expr value => exact records_expr spot value
  | forIn keyword binding subject body =>
    rw [stmtShapeNodes, List.append_assoc]
    apply Records.enter
    intro within _
    exact (records_binding within keyword (records_pattern _ binding)).seq
      ((records_expr within subject).seq (records_stmt within body))
  | forOf isAwait keyword binding subject body =>
    rw [stmtShapeNodes, List.append_assoc]
    apply Records.enter
    intro within _
    exact (records_binding within keyword (records_pattern _ binding)).seq
      ((records_expr within subject).seq (records_stmt within body))
  | forLoop init condition post body =>
    rw [stmtShapeNodes, List.append_assoc, List.append_assoc]
    apply Records.enter
    intro within _
    exact (records_option within init).seq ((records_option within condition).seq
      ((records_option within post).seq (records_stmt within body)))
  | forDecl at' keyword declarators condition post body =>
    rw [stmtShapeNodes, List.append_assoc, List.append_assoc]
    apply Records.enter
    intro within _
    exact (records_declaring within keyword (records_declarators _ declarators)).seq
      ((records_option within condition).seq
        ((records_option within post).seq (records_stmt within body)))
  | ifThen test consequent =>
    exact (records_expr spot test).seq (records_stmt spot consequent).into
  | ifElse test consequent alternate =>
    rw [stmtShapeNodes, List.append_assoc]
    exact (records_expr spot test).seq ((records_stmt spot consequent).into.seq
      (records_stmt spot alternate).into)
  | importNames default names module =>
    exact (records_default spot default).seq (records_importNames spot names)
  | label name body => exact records_stmt spot body
  | «return» value => exact records_option spot value
  | switch test branches =>
    apply Records.enter
    intro within _
    exact (records_expr within test).seq (records_branches within branches)
  | throw value => exact records_expr spot value
  | tryCatch body param handler =>
    obtain ⟨handlerSpan, handler⟩ := handler
    rw [stmtShapeNodes, List.append_assoc]
    apply (records_block spot body).seq
    apply Records.enter
    intro within _
    exact (records_patternOption within param).seq (records_stmts within handler)
  | tryFinally body finalizer =>
    exact (records_block spot body).seq (records_block spot finalizer)
  | tryCatchFinally body param handler finalizer =>
    obtain ⟨handlerSpan, handler⟩ := handler
    rw [stmtShapeNodes, List.append_assoc, List.append_assoc]
    apply (records_block spot body).seq
    apply Records.enter
    intro within later
    exact (records_patternOption within param).seq ((records_stmts within handler).seq
      ((records_block spot finalizer).outside later))
  | «while» condition body => exact (records_expr spot condition).seq (records_stmt spot body)
  | «with» object body => exact (records_expr spot object).seq (records_stmt spot body)
  | classDecl exported name heritage members =>
    apply (Records.bindOwnName name).seq
    apply Records.enter
    intro within _
    exact (Records.bindOwnName name).seq
      ((records_option within heritage).seq (records_classMembers within members))
  | functionDecl exported name func =>
    exact (Records.bindOwnName name).seq (records_func spot func)
  | varDecl isExported keyword declarators =>
    exact records_declaring spot keyword (records_declarators _ declarators)
  | breakTo | comment | continueTo | debugger | empty | exportNames => exact .nothing
termination_by structural shape

end

end Survey

namespace Program

variable {program : Program}

/-- Every program has scopes, and they record every name that its nodes mention or bind. -/
theorem scopes?_records (program : Program) :
    ∃ scopes, program.scopes? = some scopes ∧ Survey.Knows scopes program.nodes := by
  obtain ⟨after, ran, -, knows⟩ :=
    Survey.records_stmts {} program.body {} ScopeTree.sound_default Nat.one_pos
  refine ⟨after, ?_, knows⟩
  rw [scopes?]
  exact congrArg (Option.map Prod.snd) ran

end Program

end Downlevel
