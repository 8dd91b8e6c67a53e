import Downlevel.Lowering.Statement

/-! Every node of a tree, with what the tree tells about where the node runs. -/

namespace Downlevel

/-- What code inside of a function or of an instance belongs to. -/
inductive Ground
  /-- Parameters, or the initializer of an instance, where nothing can wait or yield. -/
  | barred
  /-- The body of a function. -/
  | body (isAsync isGenerator : Bool)
  /-- The body of an asynchronous function that a generator is going to stand in for. -/
  | standIn
deriving DecidableEq

/-- Where code runs, seen from the tree that it belongs to. -/
inductive Site
  /-- Where the tree itself runs, possibly in a branch that never does. -/
  | own (isDead : Bool)
  /-- In a static initializer or a static block of a class. -/
  | static
  /-- In a function or in the initializer of an instance. -/
  | inside (ground : Ground)
deriving DecidableEq

namespace Site

/-- The site of a branch, which may be one that never runs. -/
def branch (site : Site) (isDead : Bool) : Site :=
  match site with
  | .own around => .own (around || isDead)
  | site => site

/-- A site of a tree, seen from a tree around it that holds the first one at the given site. -/
def into (site : Site) : Site → Site
  | .own isDead => site.branch isDead
  | inner => inner

/-- Sites can be taken into a tree around step by step. -/
theorem into_into (outer middle inner : Site) :
    (outer.into middle).into inner = outer.into (middle.into inner) := by
  cases outer <;> cases middle <;> cases inner <;> simp [into, branch, Bool.or_assoc]

/-- A tree is where it is. -/
@[simp] theorem into_own_false (site : Site) : site.into (.own false) = site := by
  cases site <;> simp [into, branch]

end Site

/-- A part of a program that is of interest by itself. -/
inductive Node
  | origin (origin : Origin)
  | shape (shape : Shape)
  | func (func : Func)
  | param (param : Param)
  | pattern (pattern : Pattern)
  | objectMember (member : ObjectMember)
  | declarator (declarator : Declarator)
  | stmt (shape : StmtShape)

/-- A node at its site. -/
structure Occurrence where
  site : Site
  node : Node

/-- The node in a tree around. -/
def Occurrence.into (site : Site) (found : Occurrence) : Occurrence :=
  ⟨site.into found.site, found.node⟩

/-- Nodes that run where the tree does. -/
abbrev Occurrence.here (node : Node) : Occurrence :=
  ⟨.own false, node⟩

/-- Where the value of a class member runs. -/
def memberSite (isStatic : Bool) : MemberValue → Site
  | .staticBlock _ => .static
  | _ => if isStatic then .static else .inside .barred

mutual

/-- The nodes of an expression. -/
def exprNodes : Expr → List Occurrence
  | ⟨origin, shape⟩ => .here (.origin origin) :: .here (.shape shape) :: shapeNodes shape

/-- The nodes inside a shape. -/
def shapeNodes : Shape → List Occurrence
  | .arrow func => funcNodes func
  | .binary _ left right => exprNodes left ++ exprNodes right
  | .call _ _ callee args => exprNodes callee ++ argsNodes args
  | .classExpr _ heritage members => optionNodes heritage ++ classMembersNodes members
  | .computed _ object key => exprNodes object ++ exprNodes key
  | .cond test consequent alternate =>
    exprNodes test ++ exprNodes consequent ++ exprNodes alternate
  | .function _ func => funcNodes func
  | .importCall module => exprNodes module
  | .member _ object _ => exprNodes object
  | .new callee args => exprNodes callee ++ argsNodes args
  | .tagged tag _ spans => exprNodes tag ++ spansNodes spans
  | .unary _ operand => exprNodes operand
  | .update _ operand => exprNodes operand
  | .yield _ operand => optionNodes operand
  | .array items => itemsNodes items
  | .object members => objectMembersNodes members
  | .template _ spans => spansNodes spans
  | .arrayPattern slots rest => slotsNodes slots ++ patternOptionNodes rest
  | .objectPattern properties rest => propertiesNodes properties ++ patternOptionNodes rest
  | .id _ | .importMeta | .newTarget | .super | .this | .bigint _ | .bool _ | .null | .num _
  | .regex _ | .str _ => []

/-- The nodes of an expression that may be absent. -/
def optionNodes : Option Expr → List Occurrence
  | none => []
  | some e => exprNodes e

/-- The nodes of an argument. -/
def argNodes : Arg → List Occurrence
  | ⟨_, value⟩ => exprNodes value

/-- The nodes of arguments. -/
def argsNodes : List Arg → List Occurrence
  | [] => []
  | arg :: rest => argNodes arg ++ argsNodes rest

/-- The nodes of a substitution. -/
def spanNodes : TemplateSpan → List Occurrence
  | ⟨value, _⟩ => exprNodes value

/-- The nodes of substitutions. -/
def spansNodes : List TemplateSpan → List Occurrence
  | [] => []
  | span :: rest => spanNodes span ++ spansNodes rest

/-- The nodes of an element of an array literal. -/
def itemNodes : ArrayItem → List Occurrence
  | .single value | .spread value => exprNodes value
  | .hole => []

/-- The nodes of the elements of an array literal. -/
def itemsNodes : List ArrayItem → List Occurrence
  | [] => []
  | item :: rest => itemNodes item ++ itemsNodes rest

/-- The nodes of a key. -/
def keyNodes : Key → List Occurrence
  | .direct _ => []
  | .computed value => exprNodes value

/-- The nodes of what a member holds. -/
def memberValueNodes : MemberValue → List Occurrence
  | .getter func | .setter func | .method func => funcNodes func
  | .field init | .accessor init => optionNodes init
  | .staticBlock block => blockNodes block

/-- The nodes of a member of an object literal. -/
def objectMemberNodes : ObjectMember → List Occurrence
  | .valued span key value =>
    .here (.objectMember (.valued span key value)) :: (keyNodes key ++ memberValueNodes value)
  | .shorthand span name => [.here (.objectMember (.shorthand span name))]
  | .spread span value => .here (.objectMember (.spread span value)) :: exprNodes value

/-- The nodes of the members of an object literal. -/
def objectMembersNodes : List ObjectMember → List Occurrence
  | [] => []
  | member :: rest => objectMemberNodes member ++ objectMembersNodes rest

/-- The nodes of a member of a class; the key is evaluated outside of the class. -/
def classMemberNodes : ClassMember → List Occurrence
  | ⟨_, key, isStatic, value⟩ =>
    keyNodes key ++ (memberValueNodes value).map (.into (memberSite isStatic value))

/-- The nodes of the members of a class. -/
def classMembersNodes : List ClassMember → List Occurrence
  | [] => []
  | member :: rest => classMemberNodes member ++ classMembersNodes rest

/-- The nodes of a function. -/
def funcNodes : Func → List Occurrence
  | ⟨span, isArrow, isAsync, isGenerator, params, body⟩ =>
    ⟨.inside .barred, .func ⟨span, isArrow, isAsync, isGenerator, params, body⟩⟩
      :: ((paramsNodes params).map (.into (.inside .barred))
        ++ (bodyNodes body).map (.into (.inside (.body isAsync isGenerator))))

/-- The nodes of the body of a function. -/
def bodyNodes : Body → List Occurrence
  | .block stmts => stmtsNodes stmts
  | .value result => exprNodes result

/-- The nodes of a parameter. -/
def paramNodes : Param → List Occurrence
  | ⟨span, isRest, pattern, default⟩ =>
    .here (.param ⟨span, isRest, pattern, default⟩) :: (patternNodes pattern ++ optionNodes default)

/-- The nodes of parameters. -/
def paramsNodes : List Param → List Occurrence
  | [] => []
  | param :: rest => paramNodes param ++ paramsNodes rest

/-- The nodes of a pattern. -/
def patternNodes : Pattern → List Occurrence
  | .id span name => [.here (.pattern (.id span name))]
  | .array span slots rest =>
    .here (.pattern (.array span slots rest)) :: (slotsNodes slots ++ patternOptionNodes rest)
  | .object span properties rest =>
    .here (.pattern (.object span properties rest))
      :: (propertiesNodes properties ++ patternOptionNodes rest)
  | .target span place => .here (.pattern (.target span place)) :: exprNodes place

/-- The nodes of a pattern that may be absent. -/
def patternOptionNodes : Option Pattern → List Occurrence
  | none => []
  | some pattern => patternNodes pattern

/-- The nodes of an element of an array pattern. -/
def slotNodes : PatternSlot → List Occurrence
  | .hole => []
  | .slot target default => patternNodes target ++ optionNodes default

/-- The nodes of the elements of an array pattern. -/
def slotsNodes : List PatternSlot → List Occurrence
  | [] => []
  | slot :: rest => slotNodes slot ++ slotsNodes rest

/-- The nodes of a property of an object pattern. -/
def propertyNodes : PatternProperty → List Occurrence
  | ⟨_, key, target, _, default⟩ => keyNodes key ++ patternNodes target ++ optionNodes default

/-- The nodes of the properties of an object pattern. -/
def propertiesNodes : List PatternProperty → List Occurrence
  | [] => []
  | property :: rest => propertyNodes property ++ propertiesNodes rest

/-- The nodes of a declarator. -/
def declaratorNodes : Declarator → List Occurrence
  | ⟨pattern, init⟩ =>
    .here (.declarator ⟨pattern, init⟩) :: (patternNodes pattern ++ optionNodes init)

/-- The nodes of declarators. -/
def declaratorsNodes : List Declarator → List Occurrence
  | [] => []
  | declarator :: rest => declaratorNodes declarator ++ declaratorsNodes rest

/-- The nodes of statements in braces. -/
def blockNodes : Block → List Occurrence
  | ⟨_, body⟩ => stmtsNodes body

/-- The nodes of statements. -/
def stmtsNodes : List Stmt → List Occurrence
  | [] => []
  | stmt :: rest => stmtNodes stmt ++ stmtsNodes rest

/-- The nodes of a branch of a switch. -/
def branchNodes : SwitchBranch → List Occurrence
  | ⟨_, test, body⟩ => optionNodes test ++ stmtsNodes body

/-- The nodes of the branches of a switch. -/
def branchesNodes : List SwitchBranch → List Occurrence
  | [] => []
  | branch :: rest => branchNodes branch ++ branchesNodes rest

/-- The nodes of a statement. -/
def stmtNodes : Stmt → List Occurrence
  | ⟨_, shape⟩ => .here (.stmt shape) :: stmtShapeNodes shape

/-- The nodes inside the shape of a statement. -/
def stmtShapeNodes : StmtShape → List Occurrence
  | .block body => stmtsNodes body
  | .doWhile condition body => exprNodes condition ++ stmtNodes body
  | .exportDefault value => exprNodes value
  | .expr value => exprNodes value
  | .forIn _ binding subject body => patternNodes binding ++ exprNodes subject ++ stmtNodes body
  | .forOf _ _ binding subject body => patternNodes binding ++ exprNodes subject ++ stmtNodes body
  | .forLoop init condition post body =>
    optionNodes init ++ optionNodes condition ++ optionNodes post ++ stmtNodes body
  | .forDecl _ _ declarators condition post body =>
    declaratorsNodes declarators ++ optionNodes condition ++ optionNodes post ++ stmtNodes body
  | .ifThen test consequent =>
    exprNodes test
      ++ (stmtNodes consequent).map (.into (.own (Lowering.knownTruth test = some false)))
  | .ifElse test consequent alternate =>
    exprNodes test
      ++ (stmtNodes consequent).map (.into (.own (Lowering.knownTruth test = some false)))
      ++ (stmtNodes alternate).map (.into (.own (Lowering.knownTruth test = some true)))
  | .label _ body => stmtNodes body
  | .return value => optionNodes value
  | .switch test branches => exprNodes test ++ branchesNodes branches
  | .throw value => exprNodes value
  | .tryCatch body param handler =>
    blockNodes body ++ patternOptionNodes param ++ blockNodes handler
  | .tryFinally body finalizer => blockNodes body ++ blockNodes finalizer
  | .tryCatchFinally body param handler finalizer =>
    blockNodes body ++ patternOptionNodes param ++ blockNodes handler ++ blockNodes finalizer
  | .while condition body => exprNodes condition ++ stmtNodes body
  | .with object body => exprNodes object ++ stmtNodes body
  | .classDecl _ _ heritage members => optionNodes heritage ++ classMembersNodes members
  | .functionDecl _ _ func => funcNodes func
  | .varDecl _ _ declarators => declaratorsNodes declarators
  | .breakTo _ | .comment _ | .continueTo _ | .debugger | .empty | .exportNames .. | .importNames ..
    => []

end

attribute [simp] shapeNodes stmtShapeNodes memberValueNodes

/-- A function that appends what the members of a list give, one after another, is a `flatMap`. -/
theorem flatMap_of_cons {α β : Type} {ofList : List α → List β} {ofMember : α → List β}
    (nil : ofList [] = [])
    (cons : ∀ member rest, ofList (member :: rest) = ofMember member ++ ofList rest)
    (list : List α) : ofList list = list.flatMap ofMember := by
  -- Along the list: what the first member gives comes first.
  induction list with
  | nil => exact nil
  | cons member rest ih => rw [cons, ih, List.flatMap_cons]

/-- The nodes of arguments are those of each, one after another. -/
theorem argsNodes_eq (list : List Arg) : argsNodes list = list.flatMap argNodes :=
  flatMap_of_cons (by rw [argsNodes]) (fun _ _ => by rw [argsNodes]) list

/-- The nodes of substitutions are those of each, one after another. -/
theorem spansNodes_eq (list : List TemplateSpan) : spansNodes list = list.flatMap spanNodes :=
  flatMap_of_cons (by rw [spansNodes]) (fun _ _ => by rw [spansNodes]) list

/-- The nodes of the elements of an array literal are those of each, one after another. -/
theorem itemsNodes_eq (list : List ArrayItem) : itemsNodes list = list.flatMap itemNodes :=
  flatMap_of_cons (by rw [itemsNodes]) (fun _ _ => by rw [itemsNodes]) list

/-- The nodes of the members of an object literal are those of each, one after another. -/
theorem objectMembersNodes_eq (list : List ObjectMember) :
    objectMembersNodes list = list.flatMap objectMemberNodes :=
  flatMap_of_cons (by rw [objectMembersNodes]) (fun _ _ => by rw [objectMembersNodes]) list

/-- The nodes of the members of a class are those of each, one after another. -/
theorem classMembersNodes_eq (list : List ClassMember) :
    classMembersNodes list = list.flatMap classMemberNodes :=
  flatMap_of_cons (by rw [classMembersNodes]) (fun _ _ => by rw [classMembersNodes]) list

/-- The nodes of parameters are those of each, one after another. -/
theorem paramsNodes_eq (list : List Param) : paramsNodes list = list.flatMap paramNodes :=
  flatMap_of_cons (by rw [paramsNodes]) (fun _ _ => by rw [paramsNodes]) list

/-- The nodes of declarators are those of each, one after another. -/
theorem declaratorsNodes_eq (list : List Declarator) :
    declaratorsNodes list = list.flatMap declaratorNodes :=
  flatMap_of_cons (by rw [declaratorsNodes]) (fun _ _ => by rw [declaratorsNodes]) list

/-- The nodes of statements are those of each, one after another. -/
theorem stmtsNodes_eq (list : List Stmt) : stmtsNodes list = list.flatMap stmtNodes :=
  flatMap_of_cons (by rw [stmtsNodes]) (fun _ _ => by rw [stmtsNodes]) list

/-- The nodes of the elements of an array pattern are those of each, one after another. -/
theorem slotsNodes_eq (list : List PatternSlot) : slotsNodes list = list.flatMap slotNodes :=
  flatMap_of_cons (by rw [slotsNodes]) (fun _ _ => by rw [slotsNodes]) list

/-- The nodes of the properties of an object pattern are those of each, one after another. -/
theorem propertiesNodes_eq (list : List PatternProperty) :
    propertiesNodes list = list.flatMap propertyNodes :=
  flatMap_of_cons (by rw [propertiesNodes]) (fun _ _ => by rw [propertiesNodes]) list

/-- The nodes of the branches of a switch are those of each, one after another. -/
theorem branchesNodes_eq (list : List SwitchBranch) :
    branchesNodes list = list.flatMap branchNodes :=
  flatMap_of_cons (by rw [branchesNodes]) (fun _ _ => by rw [branchesNodes]) list

/-- The nodes of a program. -/
def Program.nodes (program : Program) : List Occurrence :=
  stmtsNodes program.body

/-- A rule holds for all the nodes, which belong to a tree at the given site. -/
def Throughout (rule : Site → Node → Prop) (site : Site) (nodes : List Occurrence) : Prop :=
  ∀ found ∈ nodes, rule (site.into found.site) found.node

section

variable {rule other : Site → Node → Prop} {site inner : Site} {nodes more : List Occurrence}

/-- A rule holds of no nodes. -/
@[simp] theorem throughout_nil : Throughout rule site [] :=
  nofun

/-- A rule holds of the first node, and of the others. -/
@[simp] theorem throughout_cons {found : Occurrence} :
    Throughout rule site (found :: more)
      ↔ rule (site.into found.site) found.node ∧ Throughout rule site more :=
  List.forall_mem_cons

/-- A rule holds of two lists if it holds of each. -/
@[simp] theorem throughout_append :
    Throughout rule site (nodes ++ more)
      ↔ Throughout rule site nodes ∧ Throughout rule site more :=
  List.forall_mem_append

/-- Nodes of a tree inside are seen from where that tree is. -/
@[simp] theorem throughout_into :
    Throughout rule site (nodes.map (.into inner)) ↔ Throughout rule (site.into inner) nodes := by
  simp [Throughout, Occurrence.into, Site.into_into]

/-- A rule holds of many parts if it holds of each. -/
@[simp] theorem throughout_flatMap {α : Type} {items : List α} {nodesOf : α → List Occurrence} :
    Throughout rule site (items.flatMap nodesOf)
      ↔ ∀ item ∈ items, Throughout rule site (nodesOf item) := by
  simp only [Throughout, List.mem_flatMap]
  exact ⟨fun holds item mem found inItem => holds found ⟨item, mem, inItem⟩,
    fun holds found ⟨item, mem, inItem⟩ => holds item mem found inItem⟩

/-- A rule that implies another one does so for all nodes, even seen from another site. -/
theorem Throughout.imp (holds : Throughout rule site nodes)
    (implies : ∀ at' node, rule (site.into at') node → other (inner.into at') node) :
    Throughout other inner nodes :=
  fun found mem => implies found.site found.node (holds found mem)

end

end Downlevel
