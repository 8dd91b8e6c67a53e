import Downlevel.Scope

/-! A walk through a program that opens its scopes in the order in which they start and records the
names on the way. -/

namespace Downlevel

namespace Survey

/-- Where the walk is. -/
structure Spot where
  scope : ScopeId := ScopeTree.root
  /-- Names that are bound here are variables of the function around. -/
  isVar : Bool := false
deriving DecidableEq

/-- A part of the walk, which would stop at a scope that is none of the file. -/
abbrev Walk := StateT ScopeTree Option Unit

/-- Records a name that is mentioned. -/
def mention (name : String) : Walk :=
  modify (·.reserve name)

/-- Binds a name in a scope. -/
def bindIn (scope : ScopeId) (name : String) : Walk := do
  set (← (← get).declare? scope name)

/-- Binds a name where the walk is. -/
def bindName (spot : Spot) (name : String) : Walk := do
  let scope ← if spot.isVar then (← get).varScope? spot.scope else pure spot.scope
  bindIn scope name

/-- The name of a class or function is bound right where the walk is. -/
def bindOwnName (spot : Spot) : Option String → Walk
  | some name => bindIn spot.scope name
  | none => return

/-- Opens a scope, and goes on inside it. -/
def enter (spot : Spot) (kind : ScopeKind) (span : Span) : StateT ScopeTree Option Spot := do
  let tree ← get
  set (tree.openScope spot.scope kind span)
  return { spot with scope := tree.size }

/-- Where the names of a declaration are bound. -/
def Spot.declaring (spot : Spot) (keyword : DeclKeyword) : Spot :=
  { spot with isVar := keyword == .varDecl }

/-- Where the pattern of a loop over a subject is bound. -/
def Spot.binding (spot : Spot) : Option DeclKeyword → Spot
  | some keyword => spot.declaring keyword
  | none => spot

/-- Binds what an import statement brings in besides the default. -/
def walkImportNames (spot : Spot) : Option ImportNames → Walk
  | none => return
  | some (.all boundAs) => bindName spot boundAs
  | some (.specific names) => names.forM fun entry => bindName spot entry.boundAs

mutual

/-- Walks through an expression. -/
def walkExpr (spot : Spot) : Expr → Walk
  | ⟨origin, shape⟩ => walkShape spot origin.span shape

/-- Walks through the shape of the expression at the span. -/
def walkShape (spot : Spot) (span : Span) : Shape → Walk
  | .arrow func => walkFunc spot func
  | .binary _ left right => do
    walkExpr spot left
    walkExpr spot right
  | .call _ _ callee args => do
    walkExpr spot callee
    walkArgs spot args
  | .classExpr name heritage members => do
    let inside ← enter spot .classBody span
    bindOwnName inside name
    walkOption inside heritage
    walkClassMembers inside members
  | .computed _ object key => do
    walkExpr spot object
    walkExpr spot key
  | .cond test consequent alternate => do
    walkExpr spot test
    walkExpr spot consequent
    walkExpr spot alternate
  | .function name func => do
    bindOwnName spot name
    walkFunc spot func
  | .id name => mention name
  | .importCall module => walkExpr spot module
  | .member _ object _ => walkExpr spot object
  | .new callee args => do
    walkExpr spot callee
    walkArgs spot args
  | .tagged tag _ spans => do
    walkExpr spot tag
    walkSpans spot spans
  | .unary _ operand => walkExpr spot operand
  | .update _ operand => walkExpr spot operand
  | .yield _ operand => walkOption spot operand
  | .array items => walkItems spot items
  | .object members => walkObjectMembers spot members
  | .template _ spans => walkSpans spot spans
  | .arrayPattern slots rest => do
    walkSlots spot slots
    walkPatternOption spot rest
  | .objectPattern properties rest => do
    walkProperties spot properties
    walkPatternOption spot rest
  | .importMeta | .newTarget | .super | .this | .bigint _ | .bool _ | .null | .num _ | .regex _
  | .str _ => return

/-- Walks through an expression that may be absent. -/
def walkOption (spot : Spot) : Option Expr → Walk
  | none => return
  | some e => walkExpr spot e

/-- Walks through an argument. -/
def walkArg (spot : Spot) : Arg → Walk
  | ⟨_, value⟩ => walkExpr spot value

/-- Walks through arguments. -/
def walkArgs (spot : Spot) : List Arg → Walk
  | [] => return
  | arg :: rest => do
    walkArg spot arg
    walkArgs spot rest

/-- Walks through a substitution. -/
def walkSpan (spot : Spot) : TemplateSpan → Walk
  | ⟨value, _⟩ => walkExpr spot value

/-- Walks through substitutions. -/
def walkSpans (spot : Spot) : List TemplateSpan → Walk
  | [] => return
  | span :: rest => do
    walkSpan spot span
    walkSpans spot rest

/-- Walks through an element of an array literal. -/
def walkItem (spot : Spot) : ArrayItem → Walk
  | .single value => walkExpr spot value
  | .spread value => walkExpr spot value
  | .hole => return

/-- Walks through the elements of an array literal. -/
def walkItems (spot : Spot) : List ArrayItem → Walk
  | [] => return
  | item :: rest => do
    walkItem spot item
    walkItems spot rest

/-- Walks through a key. -/
def walkKey (spot : Spot) : Key → Walk
  | .direct _ => return
  | .computed value => walkExpr spot value

/-- Walks through what a member holds. -/
def walkMemberValue (spot : Spot) : MemberValue → Walk
  | .getter func => walkFunc spot func
  | .setter func => walkFunc spot func
  | .method func => walkFunc spot func
  | .field init => walkOption spot init
  | .accessor init => walkOption spot init
  | .staticBlock ⟨span, body⟩ => do
    let inside ← enter spot .function span
    walkStmts inside body

/-- Walks through a member of an object literal. -/
def walkObjectMember (spot : Spot) : ObjectMember → Walk
  | .valued _ key value => do
    walkKey spot key
    walkMemberValue spot value
  | .shorthand _ name => mention name
  | .spread _ value => walkExpr spot value

/-- Walks through the members of an object literal. -/
def walkObjectMembers (spot : Spot) : List ObjectMember → Walk
  | [] => return
  | member :: rest => do
    walkObjectMember spot member
    walkObjectMembers spot rest

/-- Walks through a member of a class. -/
def walkClassMember (spot : Spot) : ClassMember → Walk
  | ⟨_, key, _, value⟩ => do
    walkKey spot key
    walkMemberValue spot value

/-- Walks through the members of a class. -/
def walkClassMembers (spot : Spot) : List ClassMember → Walk
  | [] => return
  | member :: rest => do
    walkClassMember spot member
    walkClassMembers spot rest

/-- Walks through a function. Parameters are bound in its own scope, whatever is declared around. -/
def walkFunc (spot : Spot) : Func → Walk
  | ⟨span, _, _, _, params, body⟩ => do
    let inside ← enter { spot with isVar := false } .function span
    walkParams inside params
    walkBody inside body

/-- Walks through the body of a function. -/
def walkBody (spot : Spot) : Body → Walk
  | .block stmts => walkStmts spot stmts
  | .value result => walkExpr spot result

/-- Walks through a parameter. -/
def walkParam (spot : Spot) : Param → Walk
  | ⟨_, _, pattern, default⟩ => do
    walkPattern spot pattern
    walkOption spot default

/-- Walks through parameters. -/
def walkParams (spot : Spot) : List Param → Walk
  | [] => return
  | param :: rest => do
    walkParam spot param
    walkParams spot rest

/-- Walks through a pattern. -/
def walkPattern (spot : Spot) : Pattern → Walk
  | .id _ name => bindName spot name
  | .array _ slots rest => do
    walkSlots spot slots
    walkPatternOption spot rest
  | .object _ properties rest => do
    walkProperties spot properties
    walkPatternOption spot rest
  | .target _ place => walkExpr spot place

/-- Walks through a pattern that may be absent. -/
def walkPatternOption (spot : Spot) : Option Pattern → Walk
  | none => return
  | some pattern => walkPattern spot pattern

/-- Walks through an element of an array pattern. -/
def walkSlot (spot : Spot) : PatternSlot → Walk
  | .hole => return
  | .slot target default => do
    walkPattern spot target
    walkOption spot default

/-- Walks through the elements of an array pattern. -/
def walkSlots (spot : Spot) : List PatternSlot → Walk
  | [] => return
  | slot :: rest => do
    walkSlot spot slot
    walkSlots spot rest

/-- Walks through a property of an object pattern. -/
def walkProperty (spot : Spot) : PatternProperty → Walk
  | ⟨_, key, target, _, default⟩ => do
    walkKey spot key
    walkPattern spot target
    walkOption spot default

/-- Walks through the properties of an object pattern. -/
def walkProperties (spot : Spot) : List PatternProperty → Walk
  | [] => return
  | property :: rest => do
    walkProperty spot property
    walkProperties spot rest

/-- Walks through a declarator. -/
def walkDeclarator (spot : Spot) : Declarator → Walk
  | ⟨pattern, init⟩ => do
    walkPattern spot pattern
    walkOption spot init

/-- Walks through declarators. -/
def walkDeclarators (spot : Spot) : List Declarator → Walk
  | [] => return
  | declarator :: rest => do
    walkDeclarator spot declarator
    walkDeclarators spot rest

/-- Walks through statements in braces, which have a scope of their own. -/
def walkBlock (spot : Spot) : Block → Walk
  | ⟨span, body⟩ => do
    let inside ← enter spot .block span
    walkStmts inside body

/-- Walks through statements. -/
def walkStmts (spot : Spot) : List Stmt → Walk
  | [] => return
  | stmt :: rest => do
    walkStmt spot stmt
    walkStmts spot rest

/-- Walks through a branch of a switch. -/
def walkBranch (spot : Spot) : SwitchBranch → Walk
  | ⟨_, test, body⟩ => do
    walkOption spot test
    walkStmts spot body

/-- Walks through the branches of a switch. -/
def walkBranches (spot : Spot) : List SwitchBranch → Walk
  | [] => return
  | branch :: rest => do
    walkBranch spot branch
    walkBranches spot rest

/-- Walks through a statement. -/
def walkStmt (spot : Spot) : Stmt → Walk
  | ⟨span, shape⟩ => walkStmtShape spot span shape

/-- Walks through the shape of the statement at the span. The outer names of an export list are no
bindings. -/
def walkStmtShape (spot : Spot) (span : Span) : StmtShape → Walk
  | .block body => do
    let inside ← enter spot .block span
    walkStmts inside body
  | .doWhile condition body => do
    walkExpr spot condition
    walkStmt spot body
  | .exportDefault value => walkExpr spot value
  | .expr value => walkExpr spot value
  | .forIn keyword binding subject body => do
    let inside ← enter spot .block span
    walkPattern (inside.binding keyword) binding
    walkExpr inside subject
    walkStmt inside body
  | .forOf _ keyword binding subject body => do
    let inside ← enter spot .block span
    walkPattern (inside.binding keyword) binding
    walkExpr inside subject
    walkStmt inside body
  | .forLoop init condition post body => do
    let inside ← enter spot .block span
    walkOption inside init
    walkOption inside condition
    walkOption inside post
    walkStmt inside body
  | .forDecl _ keyword declarators condition post body => do
    let inside ← enter spot .block span
    walkDeclarators (inside.declaring keyword) declarators
    walkOption inside condition
    walkOption inside post
    walkStmt inside body
  | .ifThen test consequent => do
    walkExpr spot test
    walkStmt spot consequent
  | .ifElse test consequent alternate => do
    walkExpr spot test
    walkStmt spot consequent
    walkStmt spot alternate
  | .importNames default names _ => do
    default.forM (bindName spot)
    walkImportNames spot names
  | .label _ body => walkStmt spot body
  | .return value => walkOption spot value
  | .switch test branches => do
    let inside ← enter spot .block span
    walkExpr inside test
    walkBranches inside branches
  | .throw value => walkExpr spot value
  | .tryCatch body param ⟨handlerSpan, handler⟩ => do
    walkBlock spot body
    let inside ← enter spot .block handlerSpan
    walkPatternOption inside param
    walkStmts inside handler
  | .tryFinally body finalizer => do
    walkBlock spot body
    walkBlock spot finalizer
  | .tryCatchFinally body param ⟨handlerSpan, handler⟩ finalizer => do
    walkBlock spot body
    let inside ← enter spot .block handlerSpan
    walkPatternOption inside param
    walkStmts inside handler
    walkBlock spot finalizer
  | .while condition body => do
    walkExpr spot condition
    walkStmt spot body
  | .with object body => do
    walkExpr spot object
    walkStmt spot body
  | .classDecl _ name heritage members => do
    -- The name is bound both around the class and inside it.
    bindOwnName spot name
    let inside ← enter spot .classBody span
    bindOwnName inside name
    walkOption inside heritage
    walkClassMembers inside members
  | .functionDecl _ name func => do
    bindOwnName spot name
    walkFunc spot func
  | .varDecl _ keyword declarators => walkDeclarators (spot.declaring keyword) declarators
  | .breakTo _ | .comment _ | .continueTo _ | .debugger | .empty | .exportNames .. => return

end

end Survey

/-- The scopes of a program, unless one is asked for that it does not have. -/
def Program.scopes? (program : Program) : Option ScopeTree :=
  ((Survey.walkStmts {} program.body).run {}).map (·.2)

/-- The scopes of a program. -/
def Program.scopes (program : Program) : ScopeTree :=
  program.scopes?.getD {}

end Downlevel
