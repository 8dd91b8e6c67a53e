import Downlevel.Lowering.Chain
import Downlevel.Proofs.Nodes
import Downlevel.Purity
import Downlevel.Tree.Rename

/-! Where the code of a tree pauses: to wait for a promise, or to hand out a value. Each pause belongs to
the function whose body it is in, if to any part of the tree. -/

namespace Downlevel

open Lowering Rename

/-- What a pause belongs to, when that is a part of the tree. -/
inductive Home
  /-- The body of a function. -/
  | body (span : Span) (isAsync isGenerator : Bool)
  /-- Parameters, the initializer of a field or a static block. Nothing can pause there. -/
  | barred
deriving DecidableEq

/-- A place where code pauses until something resumes it. -/
structure Pause where
  /-- What it belongs to; nothing if that is around the tree. -/
  home : Option Home
  /-- It hands out a value, instead of waiting for a promise. -/
  yields : Bool
  span : Span
deriving DecidableEq

/-- A pause of a part that the home is around. -/
def Pause.into (home : Home) (pause : Pause) : Pause :=
  { pause with home := some (pause.home.getD home) }

/-- Which pauses of a tree to look at. -/
inductive Extent
  | all
  /-- Without those that lowering may leave out: in the links of a chain whose base is always
  nullish, and in the key of a field without a value if the key need not be evaluated. -/
  | sure (bindsUndefined : Bool)

namespace Expr

mutual

/-- Whether an expression may be left out where its value is not used: what becomes of it need not be
evaluated. -/
def mayVanish : Expr → Bool
  | ⟨_, shape⟩ => mayVanishShape shape

/-- The same for a shape. -/
def mayVanishShape : Shape → Bool
  | .null | .bool _ | .num _ | .str _ | .bigint _ | .regex _ | .this | .super => true
  | .arrow _ | .function .. => true
  | .member link object _ => link.isChained && emptiesOut (link == .continues) object
  | .computed link object _ => link.isChained && emptiesOut (link == .continues) object
  | .call link isPure callee args =>
    isPure && mayAllVanish args || link.isChained && emptiesOut (link == .continues) callee
  | .unary .typeof ⟨_, .id _⟩ => true
  | .unary .delete operand => operand.isChained && emptiesOut true operand
  | .unary op operand => op.isRemovableSign && mayVanish operand
  | .binary .comma left right => mayVanish left && mayVanish right
  | .cond test consequent alternate =>
    mayVanish test && mayVanish consequent && mayVanish alternate
  | .array items => mayItemsVanish items
  | .template _ spans => spans.isEmpty
  | _ => false

/-- Whether an expression is always nullish, and does nothing besides that need be evaluated; also as
the base of the chain that it ends, if it is one. -/
def emptiesOut (ofChain : Bool) : Expr → Bool
  | ⟨_, .member link object _⟩ => ofChain && emptiesOut (link == .continues) object
  | ⟨_, .computed link object _⟩ => ofChain && emptiesOut (link == .continues) object
  | ⟨_, .call link _ callee _⟩ => ofChain && emptiesOut (link == .continues) callee
  | ⟨_, .unary .void operand⟩ => isReusable operand || mayVanish operand
  | ⟨_, .binary .comma left right⟩ => mayVanish left && emptiesOut false right
  | ⟨_, .id name⟩ => name == "undefined"
  | ⟨_, .null⟩ => true
  | _ => false

/-- The same for an argument. -/
def mayArgVanish : Arg → Bool
  | ⟨isSpread, value⟩ => !isSpread && mayVanish value

/-- The same for arguments. -/
def mayAllVanish : List Arg → Bool
  | [] => true
  | arg :: rest => mayArgVanish arg && mayAllVanish rest

/-- The same for an element of an array literal. -/
def mayItemVanish : ArrayItem → Bool
  | .single value => mayVanish value
  | .hole => true
  | .spread _ => false

/-- The same for the elements of an array literal. -/
def mayItemsVanish : List ArrayItem → Bool
  | [] => true
  | item :: rest => mayItemVanish item && mayItemsVanish rest

end

end Expr

/-- Where a chain starts that ends with the expression. -/
def Expr.chainBase : Expr → Expr
  | ⟨_, .member .continues object _⟩ | ⟨_, .computed .continues object _⟩
  | ⟨_, .call .continues _ object _⟩ => object.chainBase
  | ⟨_, .member _ object _⟩ | ⟨_, .computed _ object _⟩ | ⟨_, .call _ _ object _⟩ => object
  | e => e

/-- Where the chain of a link starts, given what is in front of the link. -/
def ChainLink.base (link : ChainLink) (object : Expr) : Expr :=
  if link = .continues then object.chainBase else object

namespace Extent

/-- The links of a chain with the base are not looked at. -/
def skips (extent : Extent) (base : Expr) : Bool :=
  match extent with
  | .all => false
  | .sure bindsUndefined => isNullish bindsUndefined base

/-- A link of a chain is not looked at. -/
def skipsLink (extent : Extent) (link : ChainLink) (object : Expr) : Bool :=
  extent.skips (link.base object) && link.isChained

/-- The key of a class member with the value is not looked at. A static block has none that is
evaluated. -/
def skipsKey (extent : Extent) (key : Key) (value : MemberValue) : Bool :=
  match extent, value, key with
  | .sure _, .staticBlock _, _ => true
  | .sure _, .field none, .computed key => key.mayVanish
  | _, _, _ => false

/-- Every key is looked at when all pauses are. -/
@[simp] theorem skipsKey_all (key : Key) (value : MemberValue) :
    all.skipsKey key value = false :=
  rfl

end Extent

variable (extent : Extent)

mutual

/-- The pauses of an expression. -/
def exprPauses : Expr → List Pause
  | ⟨origin, shape⟩ => shapePauses origin.span shape

/-- The pauses of a shape that stands for the span. -/
def shapePauses (span : Span) : Shape → List Pause
  | .arrow func => funcPauses func
  | .binary _ left right => exprPauses left ++ exprPauses right
  | .call link _ callee args =>
    exprPauses callee ++ if extent.skipsLink link callee then [] else argsPauses args
  | .classExpr _ heritage members => optionPauses heritage ++ classMembersPauses members
  | .computed link object key =>
    exprPauses object ++ if extent.skipsLink link object then [] else exprPauses key
  | .cond test consequent alternate =>
    exprPauses test ++ exprPauses consequent ++ exprPauses alternate
  | .function _ func => funcPauses func
  | .importCall module => exprPauses module
  | .member _ object _ => exprPauses object
  | .new callee args => exprPauses callee ++ argsPauses args
  | .tagged tag _ spans => exprPauses tag ++ spansPauses spans
  | .unary op operand => exprPauses operand ++ if op = .await then [⟨none, false, span⟩] else []
  | .update _ operand => exprPauses operand
  | .yield _ operand => optionPauses operand ++ [⟨none, true, span⟩]
  | .array items => itemsPauses items
  | .object members => objectMembersPauses members
  | .template _ spans => spansPauses spans
  | .arrayPattern slots rest => slotsPauses slots ++ patternOptionPauses rest
  | .objectPattern properties rest => propertiesPauses properties ++ patternOptionPauses rest
  | .id _ | .importMeta | .newTarget | .super | .this | .bigint _ | .bool _ | .null | .num _
  | .regex _ | .str _ => []

/-- The pauses of an expression that may be absent. -/
def optionPauses : Option Expr → List Pause
  | none => []
  | some e => exprPauses e

/-- The pauses of an argument. -/
def argPauses : Arg → List Pause
  | ⟨_, value⟩ => exprPauses value

/-- The pauses of arguments. -/
def argsPauses : List Arg → List Pause
  | [] => []
  | arg :: rest => argPauses arg ++ argsPauses rest

/-- The pauses of a substitution. -/
def spanPauses : TemplateSpan → List Pause
  | ⟨value, _⟩ => exprPauses value

/-- The pauses of substitutions. -/
def spansPauses : List TemplateSpan → List Pause
  | [] => []
  | span :: rest => spanPauses span ++ spansPauses rest

/-- The pauses of an element of an array literal. -/
def itemPauses : ArrayItem → List Pause
  | .single value | .spread value => exprPauses value
  | .hole => []

/-- The pauses of the elements of an array literal. -/
def itemsPauses : List ArrayItem → List Pause
  | [] => []
  | item :: rest => itemPauses item ++ itemsPauses rest

/-- The pauses of a key. -/
def keyPauses : Key → List Pause
  | .direct _ => []
  | .computed value => exprPauses value

/-- The pauses of what a member holds. -/
def memberValuePauses : MemberValue → List Pause
  | .getter func | .setter func | .method func => funcPauses func
  | .field init | .accessor init => optionPauses init
  | .staticBlock block => blockPauses block

/-- The pauses of a member of an object literal. -/
def objectMemberPauses : ObjectMember → List Pause
  | .valued _ key value => keyPauses key ++ memberValuePauses value
  | .shorthand .. => []
  | .spread _ value => exprPauses value

/-- The pauses of the members of an object literal. -/
def objectMembersPauses : List ObjectMember → List Pause
  | [] => []
  | member :: rest => objectMemberPauses member ++ objectMembersPauses rest

/-- The pauses of a member of a class; the key is evaluated outside of the class. -/
def classMemberPauses : ClassMember → List Pause
  | ⟨_, key, _, value⟩ =>
    (if extent.skipsKey key value then [] else keyPauses key)
      ++ (memberValuePauses value).map (.into .barred)

/-- The pauses of the members of a class. -/
def classMembersPauses : List ClassMember → List Pause
  | [] => []
  | member :: rest => classMemberPauses member ++ classMembersPauses rest

/-- The pauses of a function. -/
def funcPauses : Func → List Pause
  | ⟨span, _, isAsync, isGenerator, params, body⟩ =>
    (paramsPauses params).map (.into .barred)
      ++ (bodyPauses body).map (.into (.body span isAsync isGenerator))

/-- The pauses of the body of a function. -/
def bodyPauses : Body → List Pause
  | .block stmts => stmtsPauses stmts
  | .value result => exprPauses result

/-- The pauses of a parameter. -/
def paramPauses : Param → List Pause
  | ⟨_, _, pattern, default⟩ => patternPauses pattern ++ optionPauses default

/-- The pauses of parameters. -/
def paramsPauses : List Param → List Pause
  | [] => []
  | param :: rest => paramPauses param ++ paramsPauses rest

/-- The pauses of a pattern. -/
def patternPauses : Pattern → List Pause
  | .id .. => []
  | .array _ slots rest => slotsPauses slots ++ patternOptionPauses rest
  | .object _ properties rest => propertiesPauses properties ++ patternOptionPauses rest
  | .target _ place => exprPauses place

/-- The pauses of a pattern that may be absent. -/
def patternOptionPauses : Option Pattern → List Pause
  | none => []
  | some pattern => patternPauses pattern

/-- The pauses of an element of an array pattern. -/
def slotPauses : PatternSlot → List Pause
  | .hole => []
  | .slot target default => patternPauses target ++ optionPauses default

/-- The pauses of the elements of an array pattern. -/
def slotsPauses : List PatternSlot → List Pause
  | [] => []
  | slot :: rest => slotPauses slot ++ slotsPauses rest

/-- The pauses of a property of an object pattern. -/
def propertyPauses : PatternProperty → List Pause
  | ⟨_, key, target, _, default⟩ =>
    keyPauses key ++ patternPauses target ++ optionPauses default

/-- The pauses of the properties of an object pattern. -/
def propertiesPauses : List PatternProperty → List Pause
  | [] => []
  | property :: rest => propertyPauses property ++ propertiesPauses rest

/-- The pauses of a declarator. -/
def declaratorPauses : Declarator → List Pause
  | ⟨pattern, init⟩ => patternPauses pattern ++ optionPauses init

/-- The pauses of declarators. -/
def declaratorsPauses : List Declarator → List Pause
  | [] => []
  | declarator :: rest => declaratorPauses declarator ++ declaratorsPauses rest

/-- The pauses of statements in braces. -/
def blockPauses : Block → List Pause
  | ⟨_, body⟩ => stmtsPauses body

/-- The pauses of statements. -/
def stmtsPauses : List Stmt → List Pause
  | [] => []
  | stmt :: rest => stmtPauses stmt ++ stmtsPauses rest

/-- The pauses of a branch of a switch. -/
def branchPauses : SwitchBranch → List Pause
  | ⟨_, test, body⟩ => optionPauses test ++ stmtsPauses body

/-- The pauses of the branches of a switch. -/
def branchesPauses : List SwitchBranch → List Pause
  | [] => []
  | branch :: rest => branchPauses branch ++ branchesPauses rest

/-- The pauses of a statement. -/
def stmtPauses : Stmt → List Pause
  | ⟨span, shape⟩ => stmtShapePauses span shape

/-- The pauses of the shape of a statement that stands for the span. -/
def stmtShapePauses (span : Span) : StmtShape → List Pause
  | .block body => stmtsPauses body
  | .doWhile condition body => exprPauses condition ++ stmtPauses body
  | .exportDefault value => exprPauses value
  | .expr value => exprPauses value
  | .forIn _ binding subject body =>
    patternPauses binding ++ exprPauses subject ++ stmtPauses body
  | .forOf isAwait _ binding subject body =>
    patternPauses binding ++ exprPauses subject ++ stmtPauses body
      ++ if isAwait then [⟨none, false, span⟩] else []
  | .forLoop init condition post body =>
    optionPauses init ++ optionPauses condition ++ optionPauses post ++ stmtPauses body
  | .forDecl _ _ declarators condition post body =>
    declaratorsPauses declarators ++ optionPauses condition ++ optionPauses post
      ++ stmtPauses body
  | .ifThen test consequent => exprPauses test ++ stmtPauses consequent
  | .ifElse test consequent alternate =>
    exprPauses test ++ stmtPauses consequent ++ stmtPauses alternate
  | .label _ body => stmtPauses body
  | .return value => optionPauses value
  | .switch test branches => exprPauses test ++ branchesPauses branches
  | .throw value => exprPauses value
  | .tryCatch body param handler =>
    blockPauses body ++ patternOptionPauses param ++ blockPauses handler
  | .tryFinally body finalizer => blockPauses body ++ blockPauses finalizer
  | .tryCatchFinally body param handler finalizer =>
    blockPauses body ++ patternOptionPauses param ++ blockPauses handler
      ++ blockPauses finalizer
  | .while condition body => exprPauses condition ++ stmtPauses body
  | .with object body => exprPauses object ++ stmtPauses body
  | .classDecl _ _ heritage members => optionPauses heritage ++ classMembersPauses members
  | .functionDecl _ _ func => funcPauses func
  | .varDecl _ _ declarators => declaratorsPauses declarators
  | .breakTo _ | .comment _ | .continueTo _ | .debugger | .empty | .exportNames .. | .importNames ..
    => []

end

attribute [simp] exprPauses shapePauses optionPauses argPauses argsPauses spanPauses spansPauses
  itemPauses itemsPauses keyPauses memberValuePauses objectMemberPauses objectMembersPauses
  classMembersPauses bodyPauses paramPauses paramsPauses patternPauses patternOptionPauses
  slotPauses slotsPauses propertyPauses propertiesPauses declaratorPauses declaratorsPauses
  blockPauses stmtsPauses branchPauses branchesPauses stmtPauses stmtShapePauses

/-- The pauses of a program. -/
def Program.pauses (program : Program) : List Pause :=
  stmtsPauses extent program.body

section Lists

/-! What lists of parts add up to. -/

/-- The pauses of substitutions are those of each, one after another. -/
theorem spansPauses_eq (list : List TemplateSpan) :
    spansPauses extent list = list.flatMap (spanPauses extent) :=
  flatMap_of_cons (by rw [spansPauses]) (fun _ _ => by rw [spansPauses]) list

/-- The pauses of the elements of an array literal are those of each, one after another. -/
theorem itemsPauses_eq (list : List ArrayItem) :
    itemsPauses extent list = list.flatMap (itemPauses extent) :=
  flatMap_of_cons (by rw [itemsPauses]) (fun _ _ => by rw [itemsPauses]) list

/-- The pauses of the members of an object literal are those of each, one after another. -/
theorem objectMembersPauses_eq (list : List ObjectMember) :
    objectMembersPauses extent list = list.flatMap (objectMemberPauses extent) :=
  flatMap_of_cons (by rw [objectMembersPauses]) (fun _ _ => by rw [objectMembersPauses]) list

/-- The pauses of the members of a class are those of each, one after another. -/
theorem classMembersPauses_eq (list : List ClassMember) :
    classMembersPauses extent list = list.flatMap (classMemberPauses extent) :=
  flatMap_of_cons (by rw [classMembersPauses]) (fun _ _ => by rw [classMembersPauses]) list

/-- The pauses of parameters are those of each, one after another. -/
theorem paramsPauses_eq (list : List Param) :
    paramsPauses extent list = list.flatMap (paramPauses extent) :=
  flatMap_of_cons (by rw [paramsPauses]) (fun _ _ => by rw [paramsPauses]) list

/-- The pauses of declarators are those of each, one after another. -/
theorem declaratorsPauses_eq (list : List Declarator) :
    declaratorsPauses extent list = list.flatMap (declaratorPauses extent) :=
  flatMap_of_cons (by rw [declaratorsPauses]) (fun _ _ => by rw [declaratorsPauses]) list

/-- The pauses of statements are those of each, one after another. -/
theorem stmtsPauses_eq (list : List Stmt) :
    stmtsPauses extent list = list.flatMap (stmtPauses extent) :=
  flatMap_of_cons (by rw [stmtsPauses]) (fun _ _ => by rw [stmtsPauses]) list

end Lists

section Built

/-! The pauses of the trees that lowering builds are those of the parts that are put together. -/

variable {span : Span} {e left right object key test consequent alternate receiver : Expr}

/-- A name does not pause. -/
@[simp] theorem pauses_id {name : String} : exprPauses extent (.id span name) = [] :=
  rfl

/-- A `this` does not pause. -/
@[simp] theorem pauses_this : exprPauses extent (.this span) = [] :=
  rfl

/-- A `null` does not pause. -/
@[simp] theorem pauses_null : exprPauses extent (.null span) = [] :=
  rfl

/-- A truth value does not pause. -/
@[simp] theorem pauses_bool {value : Bool} : exprPauses extent (.bool span value) = [] :=
  rfl

/-- A number does not pause. -/
@[simp] theorem pauses_num {text : String} : exprPauses extent (.num span text) = [] :=
  rfl

/-- A string does not pause. -/
@[simp] theorem pauses_str {value : String} : exprPauses extent (.str span value) = [] :=
  rfl

/-- The value `undefined`, as it is written, does not pause. -/
@[simp] theorem pauses_undefined : exprPauses extent (.undefined span) = [] :=
  rfl

/-- An operator pauses where its operand does, and `await` behind that. -/
@[simp] theorem pauses_unary {op : Operator} :
    exprPauses extent (.unary span op e)
      = exprPauses extent e ++ if op = .await then [⟨none, false, span⟩] else [] :=
  rfl

/-- The left operand is evaluated in front of the right one. -/
@[simp] theorem pauses_binary {op : Operator} :
    exprPauses extent (.binary span op left right)
      = exprPauses extent left ++ exprPauses extent right :=
  rfl

/-- An assignment pauses where its sides do. -/
@[simp] theorem pauses_assign :
    exprPauses extent (.assign span left right)
      = exprPauses extent left ++ exprPauses extent right :=
  rfl

/-- A comma pauses where its operands do. -/
@[simp] theorem pauses_andThen :
    exprPauses extent (.andThen left right) = exprPauses extent left ++ exprPauses extent right :=
  rfl

/-- The expressions of a sequence are evaluated one after another. -/
@[simp] theorem pauses_sequence {rest : List Expr} :
    exprPauses extent (.sequence e rest)
      = exprPauses extent e ++ rest.flatMap (exprPauses extent) := by
  induction rest generalizing e with
  | nil => simp [Expr.sequence]
  | cons first rest ih =>
    have step : Expr.sequence e (first :: rest) = Expr.sequence (e.andThen first) rest := rfl
    simp [step, ih]

/-- A conditional pauses where its three parts do. -/
@[simp] theorem pauses_cond :
    exprPauses extent (.cond span test consequent alternate)
      = exprPauses extent test ++ exprPauses extent consequent ++ exprPauses extent alternate :=
  rfl

/-- A member access pauses where its object does. -/
@[simp] theorem pauses_member {name : String} :
    exprPauses extent (.member span object name) = exprPauses extent object :=
  rfl

/-- An access outside any chain is never left out. -/
@[simp] theorem skipsLink_plain : extent.skipsLink .plain object = false := by
  simp [Extent.skipsLink, ChainLink.isChained]

/-- Nothing is left out when all pauses are looked at. -/
@[simp] theorem skipsLink_all {link : ChainLink} : Extent.all.skipsLink link object = false :=
  rfl

/-- A computed access pauses where its object and its key do. -/
@[simp] theorem pauses_computed :
    exprPauses extent (.computed span object key)
      = exprPauses extent object ++ exprPauses extent key := by
  simp [Expr.computed, Expr.of]

/-- The pauses of arguments that are not spread are those of the values. -/
@[simp] theorem pauses_plainArgs {args : List Expr} :
    argsPauses extent (args.map (⟨false, ·⟩)) = args.flatMap (exprPauses extent) := by
  induction args with
  | nil => rfl
  | cons arg rest ih => simp [ih]

/-- A call outside any chain pauses where its callee and its arguments do. -/
@[simp] theorem pauses_plainCall {isPure : Bool} {args : List Arg} :
    exprPauses extent (.of span (.call .plain isPure e args))
      = exprPauses extent e ++ argsPauses extent args := by
  simp [Expr.of]

/-- The same for a call whose arguments are not spread. -/
@[simp] theorem pauses_call {args : List Expr} :
    exprPauses extent (.call span e args)
      = exprPauses extent e ++ args.flatMap (exprPauses extent) := by
  simp [Expr.call]

/-- The call of a helper pauses where its arguments do. -/
@[simp] theorem pauses_helper {name : String} {args : List Expr} :
    exprPauses extent (.helper span name args) = args.flatMap (exprPauses extent) := by
  simp [Expr.helper]

/-- An array literal pauses where its elements do. -/
@[simp] theorem pauses_array {items : List Expr} :
    exprPauses extent (.array span items) = items.flatMap (exprPauses extent) := by
  simp only [Expr.array, Expr.of, exprPauses, shapePauses]
  induction items with
  | nil => rfl
  | cons item rest ih => simp [ih]

/-- The call of a constructor with a name pauses where its arguments do. -/
@[simp] theorem pauses_new {name : String} {args : List Expr} :
    exprPauses extent (.new span name args) = args.flatMap (exprPauses extent) := by
  simp [Expr.new, Expr.of]

/-- A call with a receiver pauses where the callee, the receiver and the arguments do. -/
@[simp] theorem pauses_callWithThis {args : List Arg} :
    exprPauses extent (.callWithThis span e receiver args)
      = exprPauses extent e ++ exprPauses extent receiver ++ argsPauses extent args := by
  simp [Expr.callWithThis]

/-- An expression as a statement pauses where the expression does. -/
@[simp] theorem pauses_exprStmt :
    stmtPauses extent (.expr e) = exprPauses extent e :=
  rfl

/-- A `return` pauses where its value does. -/
@[simp] theorem pauses_returns :
    stmtPauses extent (.returns span e) = exprPauses extent e :=
  rfl

/-- Nothing pauses in an empty statement. -/
@[simp] theorem pauses_emptyStmt : stmtPauses extent (.empty span) = [] :=
  rfl

/-- A block pauses where its statements do. -/
@[simp] theorem pauses_blockStmt {body : List Stmt} :
    stmtPauses extent (.block span body) = stmtsPauses extent body :=
  rfl

/-- The declarator of a name pauses where its value does. -/
@[simp] theorem pauses_declaratorOfName {name : String} {init : Option Expr} :
    declaratorPauses extent (.ofName span name init) = optionPauses extent init :=
  rfl

/-- A parameter that is just a name does not pause. -/
@[simp] theorem pauses_paramOfName {name : String} :
    paramPauses extent (.ofName span name) = [] :=
  rfl

/-- The pauses of statements one behind the other. -/
@[simp] theorem pauses_append {stmts more : List Stmt} :
    stmtsPauses extent (stmts ++ more) = stmtsPauses extent stmts ++ stmtsPauses extent more := by
  simp [stmtsPauses_eq]

/-- The pauses of expressions as statements. -/
@[simp] theorem pauses_exprStmts {values : List Expr} :
    stmtsPauses extent (values.map Stmt.expr) = values.flatMap (exprPauses extent) := by
  simp [stmtsPauses_eq, List.flatMap_map]

/-- A body has the pauses of its statements. -/
@[simp] theorem pauses_bodyStmts {body : Body} :
    stmtsPauses extent body.stmts = bodyPauses extent body := by
  cases body with
  | block stmts => rfl
  | value result => simp [Body.stmts]

/-- A pattern on the left side of an assignment has the pauses of the pattern. -/
@[simp] theorem pauses_toExpr {pattern : Pattern} :
    exprPauses extent pattern.toExpr = patternPauses extent pattern := by
  cases pattern <;> rfl

end Built

section Renamed

variable (r : Renaming)

/-- Two lists are the same if their parts are. -/
theorem append_same {first first' second second' : List Pause} (same : first = first')
    (same' : second = second') : first ++ second = first' ++ second' := by
  rw [same, same']

/-- Pauses that are the same belong to the same. -/
theorem into_same {home : Home} {pauses pauses' : List Pause} (same : pauses = pauses') :
    pauses.map (Pause.into home) = pauses'.map (Pause.into home) := by
  rw [same]

mutual

/-- Renaming keeps the pauses of an expression. -/
theorem exprPauses_rename :
    ∀ tree : Expr, exprPauses .all (renameExpr r tree) = exprPauses .all tree
  | ⟨origin, shape⟩ => shapePauses_rename origin.span shape

/-- Renaming keeps the pauses of a shape. -/
theorem shapePauses_rename (span : Span) :
    ∀ tree : Shape, shapePauses .all span (renameShape r tree) = shapePauses .all span tree
  | .arrow func => funcPauses_rename func
  | .binary _ left right => append_same (exprPauses_rename left) (exprPauses_rename right)
  | .call _ _ callee args => append_same (exprPauses_rename callee) (argsPauses_rename args)
  | .classExpr _ heritage members =>
    append_same (optionPauses_rename heritage) (classMembersPauses_rename members)
  | .computed _ object key => append_same (exprPauses_rename object) (exprPauses_rename key)
  | .cond test consequent alternate =>
    append_same (append_same (exprPauses_rename test) (exprPauses_rename consequent))
      (exprPauses_rename alternate)
  | .function _ func => funcPauses_rename func
  | .importCall module => exprPauses_rename module
  | .member _ object _ => exprPauses_rename object
  | .new callee args => append_same (exprPauses_rename callee) (argsPauses_rename args)
  | .tagged tag _ spans => append_same (exprPauses_rename tag) (spansPauses_rename spans)
  | .unary _ operand => append_same (exprPauses_rename operand) rfl
  | .update _ operand => exprPauses_rename operand
  | .yield _ operand => append_same (optionPauses_rename operand) rfl
  | .array items => itemsPauses_rename items
  | .object members => objectMembersPauses_rename members
  | .template _ spans => spansPauses_rename spans
  | .arrayPattern slots rest =>
    append_same (slotsPauses_rename slots) (patternOptionPauses_rename rest)
  | .objectPattern properties rest =>
    append_same (propertiesPauses_rename properties) (patternOptionPauses_rename rest)
  | .id _ | .importMeta | .newTarget | .super | .this | .bigint _ | .bool _ | .null | .num _
  | .regex _ | .str _ => rfl

/-- Renaming keeps the pauses of an expression that may be absent. -/
theorem optionPauses_rename :
    ∀ tree : Option Expr, optionPauses .all (renameOption r tree) = optionPauses .all tree
  | none => rfl
  | some e => exprPauses_rename e

/-- Renaming keeps the pauses of an argument. -/
theorem argPauses_rename :
    ∀ tree : Arg, argPauses .all (renameArg r tree) = argPauses .all tree
  | ⟨_, value⟩ => exprPauses_rename value

/-- Renaming keeps the pauses of arguments. -/
theorem argsPauses_rename :
    ∀ tree : List Arg, argsPauses .all (renameArgs r tree) = argsPauses .all tree
  | [] => rfl
  | arg :: rest => append_same (argPauses_rename arg) (argsPauses_rename rest)

/-- Renaming keeps the pauses of a substitution. -/
theorem spanPauses_rename :
    ∀ tree : TemplateSpan, spanPauses .all (renameSpan r tree) = spanPauses .all tree
  | ⟨value, _⟩ => exprPauses_rename value

/-- Renaming keeps the pauses of substitutions. -/
theorem spansPauses_rename :
    ∀ tree : List TemplateSpan, spansPauses .all (renameSpans r tree) = spansPauses .all tree
  | [] => rfl
  | span :: rest => append_same (spanPauses_rename span) (spansPauses_rename rest)

/-- Renaming keeps the pauses of an element of an array literal. -/
theorem itemPauses_rename :
    ∀ tree : ArrayItem, itemPauses .all (renameItem r tree) = itemPauses .all tree
  | .single value => exprPauses_rename value
  | .spread value => exprPauses_rename value
  | .hole => rfl

/-- Renaming keeps the pauses of the elements of an array literal. -/
theorem itemsPauses_rename :
    ∀ tree : List ArrayItem, itemsPauses .all (renameItems r tree) = itemsPauses .all tree
  | [] => rfl
  | item :: rest => append_same (itemPauses_rename item) (itemsPauses_rename rest)

/-- Renaming keeps the pauses of a key. -/
theorem keyPauses_rename :
    ∀ tree : Key, keyPauses .all (renameKey r tree) = keyPauses .all tree
  | .direct _ => rfl
  | .computed value => exprPauses_rename value

/-- Renaming keeps the pauses of what a member holds. -/
theorem memberValuePauses_rename :
    ∀ tree : MemberValue,
      memberValuePauses .all (renameMemberValue r tree) = memberValuePauses .all tree
  | .getter func => funcPauses_rename func
  | .setter func => funcPauses_rename func
  | .method func => funcPauses_rename func
  | .field init => optionPauses_rename init
  | .accessor init => optionPauses_rename init
  | .staticBlock block => blockPauses_rename block

/-- Renaming keeps the pauses of a member of an object literal. -/
theorem objectMemberPauses_rename :
    ∀ tree : ObjectMember,
      objectMemberPauses .all (renameObjectMember r tree) = objectMemberPauses .all tree
  | .valued _ key value =>
    (append_same (keyPauses_rename key) (memberValuePauses_rename value))
  | .shorthand .. => rfl
  | .spread _ value => exprPauses_rename value

/-- Renaming keeps the pauses of the members of an object literal. -/
theorem objectMembersPauses_rename :
    ∀ tree : List ObjectMember,
      objectMembersPauses .all (renameObjectMembers r tree) = objectMembersPauses .all tree
  | [] => rfl
  | objectMember :: rest =>
    append_same (objectMemberPauses_rename objectMember) (objectMembersPauses_rename rest)

/-- Renaming keeps the pauses of a member of a class. -/
theorem classMemberPauses_rename :
    ∀ tree : ClassMember,
      classMemberPauses .all (renameClassMember r tree) = classMemberPauses .all tree
  | ⟨_, key, _, value⟩ => by
    refine append_same ?_ (into_same (memberValuePauses_rename value))
    rw [Extent.skipsKey_all, Extent.skipsKey_all, keyPauses_rename]

/-- Renaming keeps the pauses of the members of a class. -/
theorem classMembersPauses_rename :
    ∀ tree : List ClassMember,
      classMembersPauses .all (renameClassMembers r tree) = classMembersPauses .all tree
  | [] => rfl
  | classMember :: rest =>
    append_same (classMemberPauses_rename classMember) (classMembersPauses_rename rest)

/-- Renaming keeps the pauses of a function. -/
theorem funcPauses_rename :
    ∀ tree : Func, funcPauses .all (renameFunc r tree) = funcPauses .all tree
  | ⟨_, _, _, _, params, body⟩ =>
    append_same (into_same (paramsPauses_rename params)) (into_same (bodyPauses_rename body))

/-- Renaming keeps the pauses of the body of a function. -/
theorem bodyPauses_rename :
    ∀ tree : Body, bodyPauses .all (renameBody r tree) = bodyPauses .all tree
  | .block stmts => stmtsPauses_rename stmts
  | .value result => exprPauses_rename result

/-- Renaming keeps the pauses of a parameter. -/
theorem paramPauses_rename :
    ∀ tree : Param, paramPauses .all (renameParam r tree) = paramPauses .all tree
  | ⟨_, _, pattern, default⟩ =>
    (append_same (patternPauses_rename pattern) (optionPauses_rename default))

/-- Renaming keeps the pauses of parameters. -/
theorem paramsPauses_rename :
    ∀ tree : List Param, paramsPauses .all (renameParams r tree) = paramsPauses .all tree
  | [] => rfl
  | param :: rest => append_same (paramPauses_rename param) (paramsPauses_rename rest)

/-- Renaming keeps the pauses of a pattern. -/
theorem patternPauses_rename :
    ∀ tree : Pattern, patternPauses .all (renamePattern r tree) = patternPauses .all tree
  | .id .. => rfl
  | .array _ slots rest =>
    (append_same (slotsPauses_rename slots) (patternOptionPauses_rename rest))
  | .object _ properties rest =>
    append_same (propertiesPauses_rename properties) (patternOptionPauses_rename rest)
  | .target _ place => exprPauses_rename place

/-- Renaming keeps the pauses of a pattern that may be absent. -/
theorem patternOptionPauses_rename :
    ∀ tree : Option Pattern,
      patternOptionPauses .all (renamePatternOption r tree) = patternOptionPauses .all tree
  | none => rfl
  | some pattern => patternPauses_rename pattern

/-- Renaming keeps the pauses of an element of an array pattern. -/
theorem slotPauses_rename :
    ∀ tree : PatternSlot, slotPauses .all (renameSlot r tree) = slotPauses .all tree
  | .hole => rfl
  | .slot target default =>
    append_same (patternPauses_rename target) (optionPauses_rename default)

/-- Renaming keeps the pauses of the elements of an array pattern. -/
theorem slotsPauses_rename :
    ∀ tree : List PatternSlot, slotsPauses .all (renameSlots r tree) = slotsPauses .all tree
  | [] => rfl
  | slot :: rest => append_same (slotPauses_rename slot) (slotsPauses_rename rest)

/-- Renaming keeps the pauses of a property of an object pattern. -/
theorem propertyPauses_rename :
    ∀ tree : PatternProperty,
      propertyPauses .all (renameProperty r tree) = propertyPauses .all tree
  | ⟨_, key, target, _, default⟩ =>
    append_same (append_same (keyPauses_rename key) (patternPauses_rename target))
      (optionPauses_rename default)

/-- Renaming keeps the pauses of the properties of an object pattern. -/
theorem propertiesPauses_rename :
    ∀ tree : List PatternProperty,
      propertiesPauses .all (renameProperties r tree) = propertiesPauses .all tree
  | [] => rfl
  | property :: rest =>
    append_same (propertyPauses_rename property) (propertiesPauses_rename rest)

/-- Renaming keeps the pauses of a declarator. -/
theorem declaratorPauses_rename :
    ∀ tree : Declarator,
      declaratorPauses .all (renameDeclarator r tree) = declaratorPauses .all tree
  | ⟨pattern, init⟩ =>
    (append_same (patternPauses_rename pattern) (optionPauses_rename init))

/-- Renaming keeps the pauses of declarators. -/
theorem declaratorsPauses_rename :
    ∀ tree : List Declarator,
      declaratorsPauses .all (renameDeclarators r tree) = declaratorsPauses .all tree
  | [] => rfl
  | declarator :: rest =>
    append_same (declaratorPauses_rename declarator) (declaratorsPauses_rename rest)

/-- Renaming keeps the pauses of statements in braces. -/
theorem blockPauses_rename :
    ∀ tree : Block, blockPauses .all (renameBlock r tree) = blockPauses .all tree
  | ⟨_, body⟩ => stmtsPauses_rename body

/-- Renaming keeps the pauses of statements. -/
theorem stmtsPauses_rename :
    ∀ tree : List Stmt, stmtsPauses .all (renameStmts r tree) = stmtsPauses .all tree
  | [] => rfl
  | stmt :: rest => append_same (stmtPauses_rename stmt) (stmtsPauses_rename rest)

/-- Renaming keeps the pauses of a branch of a switch. -/
theorem branchPauses_rename :
    ∀ tree : SwitchBranch, branchPauses .all (renameBranch r tree) = branchPauses .all tree
  | ⟨_, test, body⟩ => append_same (optionPauses_rename test) (stmtsPauses_rename body)

/-- Renaming keeps the pauses of the branches of a switch. -/
theorem branchesPauses_rename :
    ∀ tree : List SwitchBranch,
      branchesPauses .all (renameBranches r tree) = branchesPauses .all tree
  | [] => rfl
  | branch :: rest => append_same (branchPauses_rename branch) (branchesPauses_rename rest)

/-- Renaming keeps the pauses of a statement. -/
theorem stmtPauses_rename :
    ∀ tree : Stmt, stmtPauses .all (renameStmt r tree) = stmtPauses .all tree
  | ⟨span, shape⟩ => stmtShapePauses_rename span shape

/-- Renaming keeps the pauses of the shape of a statement. -/
theorem stmtShapePauses_rename (span : Span) :
    ∀ tree : StmtShape,
      stmtShapePauses .all span (renameStmtShape r tree) = stmtShapePauses .all span tree
  | .block body => stmtsPauses_rename body
  | .doWhile condition body => append_same (exprPauses_rename condition) (stmtPauses_rename body)
  | .exportDefault value => exprPauses_rename value
  | .expr value => exprPauses_rename value
  | .forIn _ binding subject body =>
    append_same (append_same (patternPauses_rename binding) (exprPauses_rename subject))
      (stmtPauses_rename body)
  | .forOf _ _ binding subject body =>
    append_same
      (append_same (append_same (patternPauses_rename binding) (exprPauses_rename subject))
        (stmtPauses_rename body))
      rfl
  | .forLoop init condition post body =>
    append_same
      (append_same (append_same (optionPauses_rename init) (optionPauses_rename condition))
         (optionPauses_rename post))
      (stmtPauses_rename body)
  | .forDecl _ _ declarators condition post body =>
    append_same
      (append_same
         (append_same (declaratorsPauses_rename declarators) (optionPauses_rename condition))
         (optionPauses_rename post))
      (stmtPauses_rename body)
  | .ifThen test consequent => append_same (exprPauses_rename test) (stmtPauses_rename consequent)
  | .ifElse test consequent alternate =>
    append_same (append_same (exprPauses_rename test) (stmtPauses_rename consequent))
      (stmtPauses_rename alternate)
  | .label _ body => stmtPauses_rename body
  | .return value => optionPauses_rename value
  | .switch test branches =>
    append_same (exprPauses_rename test) (branchesPauses_rename branches)
  | .throw value => exprPauses_rename value
  | .tryCatch body param handler =>
    append_same (append_same (blockPauses_rename body) (patternOptionPauses_rename param))
      (blockPauses_rename handler)
  | .tryFinally body finalizer =>
    append_same (blockPauses_rename body) (blockPauses_rename finalizer)
  | .tryCatchFinally body param handler finalizer =>
    append_same
      (append_same
         (append_same (blockPauses_rename body) (patternOptionPauses_rename param))
         (blockPauses_rename handler))
      (blockPauses_rename finalizer)
  | .while condition body => append_same (exprPauses_rename condition) (stmtPauses_rename body)
  | .with object body => append_same (exprPauses_rename object) (stmtPauses_rename body)
  | .classDecl _ _ heritage members =>
    append_same (optionPauses_rename heritage) (classMembersPauses_rename members)
  | .functionDecl _ _ func => funcPauses_rename func
  | .varDecl _ _ declarators => declaratorsPauses_rename declarators
  | .breakTo _ | .comment _ | .continueTo _ | .debugger | .empty | .exportNames ..
  | .importNames .. => rfl

end

end Renamed

end Downlevel
