import Downlevel.Operator
import Downlevel.Span

/-! The tree of a program: expressions, patterns, functions, classes and statements. -/

namespace Downlevel

/-- How a member access or a call takes part in an optional chain. -/
inductive ChainLink
  /-- No part of a chain. -/
  | plain
  /-- Carries the question mark. -/
  | opens
  /-- Comes after a question mark and is skipped along with it. -/
  | continues
deriving DecidableEq

/-- Whether the link is part of a chain. -/
def ChainLink.isChained (link : ChainLink) : Bool :=
  link != .plain

/-- Which keyword declares a variable. -/
inductive DeclKeyword
  | constDecl
  | letDecl
  | varDecl
deriving DecidableEq

/-- The spelling of a declaring keyword. -/
def DeclKeyword.text : DeclKeyword → String
  | .constDecl => "const"
  | .letDecl => "let"
  | .varDecl => "var"

/-- How a class or function declaration is exported. -/
inductive Exported
  | notExported
  | byName
  | asDefault
deriving DecidableEq

/-- Where an expression comes from. Expressions made by lowering take over the span of what they
replace. -/
structure Origin where
  span : Span
  /-- The expression is what remained of an optional chain whose base is always nullish. -/
  collapsed : Bool := false
deriving DecidableEq

/-- A property name that is written down and not computed. Names of strings are decoded, integer
literals are without their suffix, and private names keep their number sign. -/
structure KeyName where
  span : Span
  text : String
  /-- What the name was written as. -/
  kind : TokenKind
deriving DecidableEq

/-- A name in an import or export list, written as an identifier or as a string. -/
inductive ModuleName
  | identifier (name : String)
  | string (name : String)
deriving DecidableEq

/-- The name itself, however it is written. -/
def ModuleName.text : ModuleName → String
  | .identifier name | .string name => name

/-- One entry of an export list; the outer name is there even when it is not written. -/
structure ExportName where
  exportable : ModuleName
  exportedAs : String
deriving DecidableEq

/-- What an export statement without a declaration exports. -/
inductive ExportNames
  /-- Everything of another module, possibly under one name. -/
  | all (exportedAs : Option String)
  | specific (names : List ExportName)
deriving DecidableEq

/-- One entry of an import list; the bound name is there even when it is not written. -/
structure ImportName where
  importable : ModuleName
  boundAs : String
deriving DecidableEq

/-- What an import statement binds besides the default. -/
inductive ImportNames
  | all (boundAs : String)
  | specific (names : List ImportName)
deriving DecidableEq

mutual

/-- An expression with its origin. -/
structure Expr where
  origin : Origin
  shape : Shape

/-- What an expression is made of. -/
inductive Shape
  | arrow (func : Func)
  | binary (op : Operator) (left right : Expr)
  | call (link : ChainLink) (isPure : Bool) (callee : Expr) (args : List Arg)
  | classExpr (name : Option String) (heritage : Option Expr) (members : List ClassMember)
  | computed (link : ChainLink) (object key : Expr)
  | cond (test consequent alternate : Expr)
  | function (name : Option String) (func : Func)
  | id (name : String)
  | importCall (module : Expr)
  | importMeta
  /-- A name that starts with a number sign is private. -/
  | member (link : ChainLink) (object : Expr) (name : String)
  | new (callee : Expr) (args : List Arg)
  | newTarget
  | super
  | tagged (tag : Expr) (head : String) (spans : List TemplateSpan)
  | this
  | unary (op : Operator) (operand : Expr)
  | update (op : Operator) (operand : Expr)
  | yield (isDelegated : Bool) (operand : Option Expr)
  | array (items : List ArrayItem)
  /-- The digits as written, without the suffix. -/
  | bigint (digits : String)
  | bool (value : Bool)
  | null
  /-- The number as written. -/
  | num (text : String)
  | object (members : List ObjectMember)
  /-- The regular expression as written. -/
  | regex (text : String)
  /-- The decoded value. -/
  | str (value : String)
  /-- The raw text up to the first substitution, and the substitutions with the text after each. -/
  | template (head : String) (spans : List TemplateSpan)
  | arrayPattern (slots : List PatternSlot) (rest : Option Pattern)
  | objectPattern (properties : List PatternProperty) (rest : Option Pattern)

/-- An argument of a call. -/
structure Arg where
  isSpread : Bool
  value : Expr

/-- An element of an array literal. -/
inductive ArrayItem
  | single (value : Expr)
  | spread (value : Expr)
  | hole

/-- A substitution of a template and the raw text behind it. -/
structure TemplateSpan where
  value : Expr
  text : String

/-- The key of a class or object member. -/
inductive Key
  | direct (name : KeyName)
  | computed (value : Expr)

/-- What a class or object member holds. -/
inductive MemberValue
  | getter (func : Func)
  | setter (func : Func)
  | method (func : Func)
  | field (init : Option Expr)
  /-- A field with generated accessors, in classes only. -/
  | accessor (init : Option Expr)
  /-- A static initialization block, in classes only; its key is unused. -/
  | staticBlock (block : Block)

/-- A member of an object literal. -/
inductive ObjectMember
  | valued (span : Span) (key : Key) (value : MemberValue)
  | shorthand (span : Span) (name : String)
  | spread (span : Span) (value : Expr)

/-- A member of a class. -/
structure ClassMember where
  span : Span
  key : Key
  isStatic : Bool
  value : MemberValue

/-- A function of any kind, without its name. -/
structure Func where
  span : Span
  isArrow : Bool
  isAsync : Bool
  isGenerator : Bool
  params : List Param
  body : Body

/-- The body of a function; only arrows have a single value. -/
inductive Body
  | block (stmts : List Stmt)
  | value (result : Expr)

/-- A parameter of a function. -/
structure Param where
  span : Span
  isRest : Bool
  pattern : Pattern
  default : Option Expr

/-- What a value is bound or assigned to. -/
inductive Pattern
  | id (span : Span) (name : String)
  | array (span : Span) (slots : List PatternSlot) (rest : Option Pattern)
  | object (span : Span) (properties : List PatternProperty) (rest : Option Pattern)
  /-- A member that a destructuring assignment writes. -/
  | target (span : Span) (place : Expr)

/-- An element of an array pattern. -/
inductive PatternSlot
  | hole
  | slot (target : Pattern) (default : Option Expr)

/-- A property of an object pattern. -/
structure PatternProperty where
  span : Span
  key : Key
  target : Pattern
  /-- The key is also the name that is bound. -/
  isShorthand : Bool
  default : Option Expr

/-- A statement with its span. -/
structure Stmt where
  span : Span
  shape : StmtShape

/-- What a statement is made of. -/
inductive StmtShape
  | block (body : List Stmt)
  | breakTo (label : Option String)
  /-- A legal comment that stays in the output. -/
  | comment (text : String)
  | continueTo (label : Option String)
  | debugger
  | doWhile (condition : Expr) (body : Stmt)
  | empty
  | exportDefault (value : Expr)
  | exportNames (names : ExportNames) (module : Option String)
  | expr (value : Expr)
  /-- Without a keyword the pattern is assigned and not declared. -/
  | forIn (keyword : Option DeclKeyword) (binding : Pattern) (subject : Expr) (body : Stmt)
  /-- Without a keyword the pattern is assigned and not declared. -/
  | forOf (isAwait : Bool) (keyword : Option DeclKeyword) (binding : Pattern) (subject : Expr)
      (body : Stmt)
  | forLoop (init condition post : Option Expr) (body : Stmt)
  /-- A loop with declarations in its head, which have a span of their own. -/
  | forDecl (span : Span) (keyword : DeclKeyword) (declarators : List Declarator)
      (condition post : Option Expr) (body : Stmt)
  | ifThen (test : Expr) (consequent : Stmt)
  | ifElse (test : Expr) (consequent alternate : Stmt)
  | importNames (default : Option String) (names : Option ImportNames) (module : String)
  | label (name : String) (body : Stmt)
  | return (value : Option Expr)
  | switch (test : Expr) (branches : List SwitchBranch)
  | throw (value : Expr)
  | tryCatch (body : Block) (param : Option Pattern) (handler : Block)
  | tryFinally (body finalizer : Block)
  | tryCatchFinally (body : Block) (param : Option Pattern) (handler finalizer : Block)
  | while (condition : Expr) (body : Stmt)
  | with (object : Expr) (body : Stmt)
  | classDecl (exported : Exported) (name : Option String) (heritage : Option Expr)
      (members : List ClassMember)
  | functionDecl (exported : Exported) (name : Option String) (func : Func)
  | varDecl (isExported : Bool) (keyword : DeclKeyword) (declarators : List Declarator)

/-- Statements in braces. -/
structure Block where
  span : Span
  body : List Stmt

/-- A branch of a switch; the default branch has no test. -/
structure SwitchBranch where
  span : Span
  test : Option Expr
  body : List Stmt

/-- A pattern that is declared, and its initial value. -/
structure Declarator where
  pattern : Pattern
  init : Option Expr

end

/-- A whole source file. -/
structure Program where
  body : List Stmt

namespace Pattern

/-- The span of a pattern. -/
def span : Pattern → Span
  | .id span _ | .array span .. | .object span .. | .target span _ => span

/-- The name of a pattern that is a lone name. -/
def name? : Pattern → Option String
  | .id _ name => some name
  | _ => none

end Pattern

namespace Key

/-- Whether the key is a private name. -/
def isPrivate : Key → Bool
  | .direct name => name.kind == .privateName
  | .computed _ => false

/-- The private name that a key is. -/
def privateName? : Key → Option String
  | .direct name => if name.kind = .privateName then some name.text else none
  | .computed _ => none

end Key

namespace Expr

/-- The span of an expression. -/
def span (e : Expr) : Span :=
  e.origin.span

/-- Whether the expression is the identifier of the given name. -/
def isId (e : Expr) (name : String) : Bool :=
  match e.shape with
  | .id found => found == name
  | _ => false

/-- How the outermost access or call takes part in a chain. -/
def link (e : Expr) : ChainLink :=
  match e.shape with
  | .member link .. | .computed link .. | .call link .. => link
  | _ => .plain

/-- Whether the outermost access or call is part of an optional chain. -/
def isChained (e : Expr) : Bool :=
  e.link.isChained

end Expr

/-- Private names start with a number sign. -/
def isPrivateName (name : String) : Bool :=
  name.toList.head? == some '#'

/-- A string literal as a statement, which is a directive at the start of a body. -/
def Stmt.isDirective (stmt : Stmt) : Bool :=
  match stmt.shape with
  | .expr ⟨_, .str _⟩ => true
  | _ => false

end Downlevel
