import Downlevel.Proofs.Scoping.Uses
import Downlevel.Scope

/-! Which parts of a program have a scope of their own, and which names there are to record, read
off the tree alone. -/

namespace Downlevel

/-- A part of a program that has a scope of its own, and the parts inside that have one. -/
structure Region where
  span : Span
  kind : ScopeKind
  inside : List Region

/-- A scope of a program: what opened it, and the number of the scope around. -/
structure Opening where
  span : Span
  kind : ScopeKind
  around : ScopeId
deriving DecidableEq

mutual

/-- The scopes of a part, where the number of the scope around is given and the next number that is
free. A scope comes before those inside it. -/
def Region.openings (around next : ScopeId) : Region → List Opening
  | ⟨span, kind, inside⟩ => ⟨span, kind, around⟩ :: openingsOf next (next + 1) inside

/-- The scopes of parts that follow one another. -/
def openingsOf (around next : ScopeId) : List Region → List Opening
  | [] => []
  | region :: rest =>
    region.openings around next
      ++ openingsOf around (next + (region.openings around next).length) rest

end

mutual

/-- Where the scopes of a part start, and of which kind they are. -/
def Region.marks : Region → List (Nat × ScopeKind)
  | ⟨span, kind, inside⟩ => (span.start, kind) :: marksOf inside

/-- Where the scopes of parts that follow one another start. -/
def marksOf : List Region → List (Nat × ScopeKind)
  | [] => []
  | region :: rest => region.marks ++ marksOf rest

end

section Lists

variable {around next : ScopeId} {region : Region} {regions more : List Region}

/-- Without regions no scope is opened. -/
@[simp] theorem openingsOf_nil : openingsOf around next [] = [] := by
  rw [openingsOf]

/-- One region opens its own scopes. -/
@[simp] theorem openingsOf_single :
    openingsOf around next [region] = region.openings around next := by
  rw [openingsOf, openingsOf_nil, List.append_nil]

/-- The numbers of later scopes go on from those of the earlier ones. -/
theorem openingsOf_append :
    openingsOf around next (regions ++ more)
      = openingsOf around next regions
        ++ openingsOf around (next + (openingsOf around next regions).length) more := by
  induction regions generalizing next with
  | nil => simp
  | cons region rest ih =>
    rw [List.cons_append, openingsOf, openingsOf, ih]
    simp [Nat.add_assoc]

/-- Without regions no scope starts. -/
@[simp] theorem marksOf_nil : marksOf [] = [] := by
  rw [marksOf]

/-- The scopes of the first region start in front of the others. -/
@[simp] theorem marksOf_cons : marksOf (region :: more) = region.marks ++ marksOf more := by
  rw [marksOf]

/-- The scopes of two lists start one list behind the other. -/
@[simp] theorem marksOf_append : marksOf (regions ++ more) = marksOf regions ++ marksOf more := by
  induction regions with
  | nil => simp
  | cons region rest ih => simp [ih]

end Lists

mutual

/-- Numbers do not matter for where scopes start. -/
theorem Region.map_openings (around next : ScopeId) (region : Region) :
    (region.openings around next).map (fun one => (one.span.start, one.kind)) = region.marks := by
  obtain ⟨span, kind, inside⟩ := region
  rw [Region.openings, Region.marks, List.map_cons, map_openingsOf]

/-- Scopes start where their regions do, however they are numbered. -/
theorem map_openingsOf (around next : ScopeId) (regions : List Region) :
    (openingsOf around next regions).map (fun one => (one.span.start, one.kind))
      = marksOf regions := by
  cases regions with
  | nil => simp
  | cons region rest =>
    rw [openingsOf, marksOf, List.map_append, region.map_openings, map_openingsOf]

end

/-! ### The regions of a tree -/

mutual

/-- The regions of an expression. -/
def exprRegions : Expr → List Region
  | ⟨origin, shape⟩ => shapeRegions origin.span shape

/-- The regions of an expression of the shape at the span. A class has one, which its heritage
is in. -/
def shapeRegions (span : Span) : Shape → List Region
  | .arrow func => funcRegions func
  | .binary _ left right => exprRegions left ++ exprRegions right
  | .call _ _ callee args => exprRegions callee ++ argsRegions args
  | .classExpr _ heritage members =>
    [⟨span, .classBody, optionRegions heritage ++ classMembersRegions members⟩]
  | .computed _ object key => exprRegions object ++ exprRegions key
  | .cond test consequent alternate =>
    exprRegions test ++ (exprRegions consequent ++ exprRegions alternate)
  | .function _ func => funcRegions func
  | .importCall module => exprRegions module
  | .member _ object _ => exprRegions object
  | .new callee args => exprRegions callee ++ argsRegions args
  | .tagged tag _ spans => exprRegions tag ++ spansRegions spans
  | .unary _ operand => exprRegions operand
  | .update _ operand => exprRegions operand
  | .yield _ operand => optionRegions operand
  | .array items => itemsRegions items
  | .object members => objectMembersRegions members
  | .template _ spans => spansRegions spans
  | .arrayPattern slots rest => slotsRegions slots ++ patternOptionRegions rest
  | .objectPattern properties rest => propertiesRegions properties ++ patternOptionRegions rest
  | .id _ | .importMeta | .newTarget | .super | .this | .bigint _ | .bool _ | .null | .num _
  | .regex _ | .str _ => []

/-- The regions of an expression that may be absent. -/
def optionRegions : Option Expr → List Region
  | none => []
  | some e => exprRegions e

/-- The regions of an argument. -/
def argRegions : Arg → List Region
  | ⟨_, value⟩ => exprRegions value

/-- The regions of arguments. -/
def argsRegions : List Arg → List Region
  | [] => []
  | arg :: rest => argRegions arg ++ argsRegions rest

/-- The regions of a substitution. -/
def spanRegions : TemplateSpan → List Region
  | ⟨value, _⟩ => exprRegions value

/-- The regions of substitutions. -/
def spansRegions : List TemplateSpan → List Region
  | [] => []
  | span :: rest => spanRegions span ++ spansRegions rest

/-- The regions of an element of an array literal. -/
def itemRegions : ArrayItem → List Region
  | .single value | .spread value => exprRegions value
  | .hole => []

/-- The regions of the elements of an array literal. -/
def itemsRegions : List ArrayItem → List Region
  | [] => []
  | item :: rest => itemRegions item ++ itemsRegions rest

/-- The regions of a key. -/
def keyRegions : Key → List Region
  | .direct _ => []
  | .computed value => exprRegions value

/-- The regions of what a member holds. -/
def memberValueRegions : MemberValue → List Region
  | .getter func | .setter func | .method func => funcRegions func
  | .field init | .accessor init => optionRegions init
  | .staticBlock ⟨span, body⟩ => [⟨span, .function, stmtsRegions body⟩]

/-- The regions of a member of an object literal. -/
def objectMemberRegions : ObjectMember → List Region
  | .valued _ key value => keyRegions key ++ memberValueRegions value
  | .shorthand .. => []
  | .spread _ value => exprRegions value

/-- The regions of the members of an object literal. -/
def objectMembersRegions : List ObjectMember → List Region
  | [] => []
  | member :: rest => objectMemberRegions member ++ objectMembersRegions rest

/-- The regions of a member of a class. -/
def classMemberRegions : ClassMember → List Region
  | ⟨_, key, _, value⟩ => keyRegions key ++ memberValueRegions value

/-- The regions of the members of a class. -/
def classMembersRegions : List ClassMember → List Region
  | [] => []
  | member :: rest => classMemberRegions member ++ classMembersRegions rest

/-- The region of a function, which its parameters are in. -/
def funcRegions : Func → List Region
  | ⟨span, _, _, _, params, body⟩ =>
    [⟨span, .function, paramsRegions params ++ bodyRegions body⟩]

/-- The regions of the body of a function. -/
def bodyRegions : Body → List Region
  | .block stmts => stmtsRegions stmts
  | .value result => exprRegions result

/-- The regions of a parameter. -/
def paramRegions : Param → List Region
  | ⟨_, _, pattern, default⟩ => patternRegions pattern ++ optionRegions default

/-- The regions of parameters. -/
def paramsRegions : List Param → List Region
  | [] => []
  | param :: rest => paramRegions param ++ paramsRegions rest

/-- The regions of a pattern. -/
def patternRegions : Pattern → List Region
  | .id .. => []
  | .array _ slots rest => slotsRegions slots ++ patternOptionRegions rest
  | .object _ properties rest => propertiesRegions properties ++ patternOptionRegions rest
  | .target _ place => exprRegions place

/-- The regions of a pattern that may be absent. -/
def patternOptionRegions : Option Pattern → List Region
  | none => []
  | some pattern => patternRegions pattern

/-- The regions of an element of an array pattern. -/
def slotRegions : PatternSlot → List Region
  | .hole => []
  | .slot target default => patternRegions target ++ optionRegions default

/-- The regions of the elements of an array pattern. -/
def slotsRegions : List PatternSlot → List Region
  | [] => []
  | slot :: rest => slotRegions slot ++ slotsRegions rest

/-- The regions of a property of an object pattern. -/
def propertyRegions : PatternProperty → List Region
  | ⟨_, key, target, _, default⟩ =>
    keyRegions key ++ (patternRegions target ++ optionRegions default)

/-- The regions of the properties of an object pattern. -/
def propertiesRegions : List PatternProperty → List Region
  | [] => []
  | property :: rest => propertyRegions property ++ propertiesRegions rest

/-- The regions of a declarator. -/
def declaratorRegions : Declarator → List Region
  | ⟨pattern, init⟩ => patternRegions pattern ++ optionRegions init

/-- The regions of declarators. -/
def declaratorsRegions : List Declarator → List Region
  | [] => []
  | declarator :: rest => declaratorRegions declarator ++ declaratorsRegions rest

/-- The region of statements in braces. -/
def blockRegions : Block → List Region
  | ⟨span, body⟩ => [⟨span, .block, stmtsRegions body⟩]

/-- The region of a handler, which those of its parameter are in. -/
def handlerRegions (param : List Region) : Block → List Region
  | ⟨span, body⟩ => [⟨span, .block, param ++ stmtsRegions body⟩]

/-- The regions of statements. -/
def stmtsRegions : List Stmt → List Region
  | [] => []
  | stmt :: rest => stmtRegions stmt ++ stmtsRegions rest

/-- The regions of a branch of a switch. -/
def branchRegions : SwitchBranch → List Region
  | ⟨_, test, body⟩ => optionRegions test ++ stmtsRegions body

/-- The regions of the branches of a switch. -/
def branchesRegions : List SwitchBranch → List Region
  | [] => []
  | branch :: rest => branchRegions branch ++ branchesRegions rest

/-- The regions of a statement. -/
def stmtRegions : Stmt → List Region
  | ⟨span, shape⟩ => stmtShapeRegions span shape

/-- The regions of a statement of the shape at the span. Loops with a head and switches have one for
all of themselves. -/
def stmtShapeRegions (span : Span) : StmtShape → List Region
  | .block body => [⟨span, .block, stmtsRegions body⟩]
  | .doWhile condition body => exprRegions condition ++ stmtRegions body
  | .exportDefault value => exprRegions value
  | .expr value => exprRegions value
  | .forIn _ binding subject body =>
    [⟨span, .block, patternRegions binding ++ (exprRegions subject ++ stmtRegions body)⟩]
  | .forOf _ _ binding subject body =>
    [⟨span, .block, patternRegions binding ++ (exprRegions subject ++ stmtRegions body)⟩]
  | .forLoop init condition post body =>
    [⟨span, .block,
      optionRegions init
        ++ (optionRegions condition ++ (optionRegions post ++ stmtRegions body))⟩]
  | .forDecl _ _ declarators condition post body =>
    [⟨span, .block,
      declaratorsRegions declarators
        ++ (optionRegions condition ++ (optionRegions post ++ stmtRegions body))⟩]
  | .ifThen test consequent => exprRegions test ++ stmtRegions consequent
  | .ifElse test consequent alternate =>
    exprRegions test ++ (stmtRegions consequent ++ stmtRegions alternate)
  | .label _ body => stmtRegions body
  | .return value => optionRegions value
  | .switch test branches =>
    [⟨span, .block, exprRegions test ++ branchesRegions branches⟩]
  | .throw value => exprRegions value
  | .tryCatch body param handler =>
    blockRegions body ++ handlerRegions (patternOptionRegions param) handler
  | .tryFinally body finalizer => blockRegions body ++ blockRegions finalizer
  | .tryCatchFinally body param handler finalizer =>
    blockRegions body
      ++ (handlerRegions (patternOptionRegions param) handler ++ blockRegions finalizer)
  | .while condition body => exprRegions condition ++ stmtRegions body
  | .with object body => exprRegions object ++ stmtRegions body
  | .classDecl _ _ heritage members =>
    [⟨span, .classBody, optionRegions heritage ++ classMembersRegions members⟩]
  | .functionDecl _ _ func => funcRegions func
  | .varDecl _ _ declarators => declaratorsRegions declarators
  | .breakTo _ | .comment _ | .continueTo _ | .debugger | .empty | .exportNames .. | .importNames ..
    => []

end

/-- The regions of arguments are those of each, one after another. -/
theorem argsRegions_eq (list : List Arg) :
    argsRegions list = list.flatMap argRegions :=
  flatMap_of_cons (by rw [argsRegions]) (fun _ _ => by rw [argsRegions]) list

/-- The regions of substitutions are those of each, one after another. -/
theorem spansRegions_eq (list : List TemplateSpan) :
    spansRegions list = list.flatMap spanRegions :=
  flatMap_of_cons (by rw [spansRegions]) (fun _ _ => by rw [spansRegions]) list

/-- The regions of the elements of an array literal are those of each, one after another. -/
theorem itemsRegions_eq (list : List ArrayItem) :
    itemsRegions list = list.flatMap itemRegions :=
  flatMap_of_cons (by rw [itemsRegions]) (fun _ _ => by rw [itemsRegions]) list

/-- The regions of the members of an object literal are those of each, one after another. -/
theorem objectMembersRegions_eq (list : List ObjectMember) :
    objectMembersRegions list = list.flatMap objectMemberRegions :=
  flatMap_of_cons (by rw [objectMembersRegions]) (fun _ _ => by rw [objectMembersRegions]) list

/-- The regions of the members of a class are those of each, one after another. -/
theorem classMembersRegions_eq (list : List ClassMember) :
    classMembersRegions list = list.flatMap classMemberRegions :=
  flatMap_of_cons (by rw [classMembersRegions]) (fun _ _ => by rw [classMembersRegions]) list

/-- The regions of parameters are those of each, one after another. -/
theorem paramsRegions_eq (list : List Param) :
    paramsRegions list = list.flatMap paramRegions :=
  flatMap_of_cons (by rw [paramsRegions]) (fun _ _ => by rw [paramsRegions]) list

/-- The regions of the elements of an array pattern are those of each, one after another. -/
theorem slotsRegions_eq (list : List PatternSlot) :
    slotsRegions list = list.flatMap slotRegions :=
  flatMap_of_cons (by rw [slotsRegions]) (fun _ _ => by rw [slotsRegions]) list

/-- The regions of the properties of an object pattern are those of each, one after another. -/
theorem propertiesRegions_eq (list : List PatternProperty) :
    propertiesRegions list = list.flatMap propertyRegions :=
  flatMap_of_cons (by rw [propertiesRegions]) (fun _ _ => by rw [propertiesRegions]) list

/-- The regions of declarators are those of each, one after another. -/
theorem declaratorsRegions_eq (list : List Declarator) :
    declaratorsRegions list = list.flatMap declaratorRegions :=
  flatMap_of_cons (by rw [declaratorsRegions]) (fun _ _ => by rw [declaratorsRegions]) list

/-- The regions of statements are those of each, one after another. -/
theorem stmtsRegions_eq (list : List Stmt) :
    stmtsRegions list = list.flatMap stmtRegions :=
  flatMap_of_cons (by rw [stmtsRegions]) (fun _ _ => by rw [stmtsRegions]) list

/-- The regions of the branches of a switch are those of each, one after another. -/
theorem branchesRegions_eq (list : List SwitchBranch) :
    branchesRegions list = list.flatMap branchRegions :=
  flatMap_of_cons (by rw [branchesRegions]) (fun _ _ => by rw [branchesRegions]) list

/-- The scopes of a program besides that of the whole file, in the order of their numbers. -/
def Program.openings (program : Program) : List Opening :=
  openingsOf ScopeTree.root 1 (stmtsRegions program.body)

/-! ### The names of a tree -/

/-- The names that a node mentions or binds. What stands in an export list is none of them. -/
def Node.names : Node → List String
  | .shape (.id name) | .pattern (.id _ name) | .objectMember (.shorthand _ name) => [name]
  | .shape (.function name _) | .shape (.classExpr name _ _) => name.toList
  | .stmt (.functionDecl _ name _) | .stmt (.classDecl _ name _ _) => name.toList
  | .stmt (.importNames default names _) => default.toList ++ importedNames names
  | _ => []

/-- The names that nodes mention or bind. -/
def namesOf (nodes : List Occurrence) : List String :=
  nodes.flatMap (·.node.names)

section Names

variable {nodes more : List Occurrence} {found : Occurrence} {site : Site}

/-- No nodes have no names. -/
@[simp] theorem namesOf_nil : namesOf [] = [] :=
  rfl

/-- The names of the first node come in front of the others. -/
@[simp] theorem namesOf_cons : namesOf (found :: nodes) = found.node.names ++ namesOf nodes :=
  List.flatMap_cons

/-- The names of two lists come one list behind the other. -/
@[simp] theorem namesOf_append : namesOf (nodes ++ more) = namesOf nodes ++ namesOf more :=
  List.flatMap_append

/-- Where the nodes run makes no difference. -/
@[simp] theorem namesOf_into : namesOf (nodes.map (.into site)) = namesOf nodes := by
  rw [namesOf, List.flatMap_map]
  rfl

end Names

/-- The names that a program mentions or binds. -/
def Program.names (program : Program) : List String :=
  namesOf program.nodes

end Downlevel
