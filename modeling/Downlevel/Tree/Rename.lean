import Downlevel.Tree

/-! Replacing a name wherever an expression mentions it. Names that are bound stay as they are. -/

namespace Downlevel

namespace Rename

/-- Which name is replaced by which. -/
structure Renaming where
  old : String
  new : String

/-- The name to write for a mentioned name. -/
def Renaming.apply (r : Renaming) (name : String) : String :=
  if name = r.old then r.new else name

mutual

/-- Renames in an expression. -/
def renameExpr (r : Renaming) : Expr → Expr
  | ⟨origin, shape⟩ => ⟨origin, renameShape r shape⟩

/-- Renames in a shape. -/
def renameShape (r : Renaming) : Shape → Shape
  | .arrow func => .arrow (renameFunc r func)
  | .binary op left right => .binary op (renameExpr r left) (renameExpr r right)
  | .call link isPure callee args => .call link isPure (renameExpr r callee) (renameArgs r args)
  | .classExpr name heritage members =>
    .classExpr name (renameOption r heritage) (renameClassMembers r members)
  | .computed link object key => .computed link (renameExpr r object) (renameExpr r key)
  | .cond test consequent alternate =>
    .cond (renameExpr r test) (renameExpr r consequent) (renameExpr r alternate)
  | .function name func => .function name (renameFunc r func)
  | .id name => .id (r.apply name)
  | .importCall module => .importCall (renameExpr r module)
  | .member link object name => .member link (renameExpr r object) name
  | .new callee args => .new (renameExpr r callee) (renameArgs r args)
  | .tagged tag head spans => .tagged (renameExpr r tag) head (renameSpans r spans)
  | .unary op operand => .unary op (renameExpr r operand)
  | .update op operand => .update op (renameExpr r operand)
  | .yield isDelegated operand => .yield isDelegated (renameOption r operand)
  | .array items => .array (renameItems r items)
  | .object members => .object (renameObjectMembers r members)
  | .template head spans => .template head (renameSpans r spans)
  | .arrayPattern slots rest => .arrayPattern (renameSlots r slots) (renamePatternOption r rest)
  | .objectPattern properties rest =>
    .objectPattern (renameProperties r properties) (renamePatternOption r rest)
  | .importMeta => .importMeta
  | .newTarget => .newTarget
  | .super => .super
  | .this => .this
  | .bigint digits => .bigint digits
  | .bool value => .bool value
  | .null => .null
  | .num text => .num text
  | .regex text => .regex text
  | .str value => .str value

/-- Renames in an expression that may be absent. -/
def renameOption (r : Renaming) : Option Expr → Option Expr
  | none => none
  | some e => some (renameExpr r e)

/-- Renames in an argument. -/
def renameArg (r : Renaming) : Arg → Arg
  | ⟨isSpread, value⟩ => ⟨isSpread, renameExpr r value⟩

/-- Renames in arguments. -/
def renameArgs (r : Renaming) : List Arg → List Arg
  | [] => []
  | arg :: rest => renameArg r arg :: renameArgs r rest

/-- Renames in a substitution. -/
def renameSpan (r : Renaming) : TemplateSpan → TemplateSpan
  | ⟨value, text⟩ => ⟨renameExpr r value, text⟩

/-- Renames in substitutions. -/
def renameSpans (r : Renaming) : List TemplateSpan → List TemplateSpan
  | [] => []
  | span :: rest => renameSpan r span :: renameSpans r rest

/-- Renames in an element of an array literal. -/
def renameItem (r : Renaming) : ArrayItem → ArrayItem
  | .single value => .single (renameExpr r value)
  | .spread value => .spread (renameExpr r value)
  | .hole => .hole

/-- Renames in the elements of an array literal. -/
def renameItems (r : Renaming) : List ArrayItem → List ArrayItem
  | [] => []
  | item :: rest => renameItem r item :: renameItems r rest

/-- Renames in a key. -/
def renameKey (r : Renaming) : Key → Key
  | .direct name => .direct name
  | .computed value => .computed (renameExpr r value)

/-- Renames in what a member holds. -/
def renameMemberValue (r : Renaming) : MemberValue → MemberValue
  | .getter func => .getter (renameFunc r func)
  | .setter func => .setter (renameFunc r func)
  | .method func => .method (renameFunc r func)
  | .field init => .field (renameOption r init)
  | .accessor init => .accessor (renameOption r init)
  | .staticBlock block => .staticBlock (renameBlock r block)

/-- Renames in a member of an object literal; a shorthand is renamed as a whole. -/
def renameObjectMember (r : Renaming) : ObjectMember → ObjectMember
  | .valued span key value => .valued span (renameKey r key) (renameMemberValue r value)
  | .shorthand span name => .shorthand span (r.apply name)
  | .spread span value => .spread span (renameExpr r value)

/-- Renames in the members of an object literal. -/
def renameObjectMembers (r : Renaming) : List ObjectMember → List ObjectMember
  | [] => []
  | member :: rest => renameObjectMember r member :: renameObjectMembers r rest

/-- Renames in a member of a class. -/
def renameClassMember (r : Renaming) : ClassMember → ClassMember
  | ⟨span, key, isStatic, value⟩ => ⟨span, renameKey r key, isStatic, renameMemberValue r value⟩

/-- Renames in the members of a class. -/
def renameClassMembers (r : Renaming) : List ClassMember → List ClassMember
  | [] => []
  | member :: rest => renameClassMember r member :: renameClassMembers r rest

/-- Renames in a function. -/
def renameFunc (r : Renaming) : Func → Func
  | ⟨span, isArrow, isAsync, isGenerator, params, body⟩ =>
    ⟨span, isArrow, isAsync, isGenerator, renameParams r params, renameBody r body⟩

/-- Renames in the body of a function. -/
def renameBody (r : Renaming) : Body → Body
  | .block stmts => .block (renameStmts r stmts)
  | .value result => .value (renameExpr r result)

/-- Renames in a parameter. -/
def renameParam (r : Renaming) : Param → Param
  | ⟨span, isRest, pattern, default⟩ =>
    ⟨span, isRest, renamePattern r pattern, renameOption r default⟩

/-- Renames in parameters. -/
def renameParams (r : Renaming) : List Param → List Param
  | [] => []
  | param :: rest => renameParam r param :: renameParams r rest

/-- Renames in a pattern. -/
def renamePattern (r : Renaming) : Pattern → Pattern
  | .id span name => .id span name
  | .array span slots rest => .array span (renameSlots r slots) (renamePatternOption r rest)
  | .object span properties rest =>
    .object span (renameProperties r properties) (renamePatternOption r rest)
  | .target span place => .target span (renameExpr r place)

/-- Renames in a pattern that may be absent. -/
def renamePatternOption (r : Renaming) : Option Pattern → Option Pattern
  | none => none
  | some pattern => some (renamePattern r pattern)

/-- Renames in an element of an array pattern. -/
def renameSlot (r : Renaming) : PatternSlot → PatternSlot
  | .hole => .hole
  | .slot target default => .slot (renamePattern r target) (renameOption r default)

/-- Renames in the elements of an array pattern. -/
def renameSlots (r : Renaming) : List PatternSlot → List PatternSlot
  | [] => []
  | slot :: rest => renameSlot r slot :: renameSlots r rest

/-- Renames in a property of an object pattern. -/
def renameProperty (r : Renaming) : PatternProperty → PatternProperty
  | ⟨span, key, target, isShorthand, default⟩ =>
    ⟨span, renameKey r key, renamePattern r target, isShorthand, renameOption r default⟩

/-- Renames in the properties of an object pattern. -/
def renameProperties (r : Renaming) : List PatternProperty → List PatternProperty
  | [] => []
  | property :: rest => renameProperty r property :: renameProperties r rest

/-- Renames in a declarator. -/
def renameDeclarator (r : Renaming) : Declarator → Declarator
  | ⟨pattern, init⟩ => ⟨renamePattern r pattern, renameOption r init⟩

/-- Renames in declarators. -/
def renameDeclarators (r : Renaming) : List Declarator → List Declarator
  | [] => []
  | declarator :: rest => renameDeclarator r declarator :: renameDeclarators r rest

/-- Renames in statements in braces. -/
def renameBlock (r : Renaming) : Block → Block
  | ⟨span, body⟩ => ⟨span, renameStmts r body⟩

/-- Renames in statements. -/
def renameStmts (r : Renaming) : List Stmt → List Stmt
  | [] => []
  | stmt :: rest => renameStmt r stmt :: renameStmts r rest

/-- Renames in a branch of a switch. -/
def renameBranch (r : Renaming) : SwitchBranch → SwitchBranch
  | ⟨span, test, body⟩ => ⟨span, renameOption r test, renameStmts r body⟩

/-- Renames in the branches of a switch. -/
def renameBranches (r : Renaming) : List SwitchBranch → List SwitchBranch
  | [] => []
  | branch :: rest => renameBranch r branch :: renameBranches r rest

/-- Renames in a statement. -/
def renameStmt (r : Renaming) : Stmt → Stmt
  | ⟨span, shape⟩ => ⟨span, renameStmtShape r shape⟩

/-- Renames in the shape of a statement. -/
def renameStmtShape (r : Renaming) : StmtShape → StmtShape
  | .block body => .block (renameStmts r body)
  | .breakTo label => .breakTo label
  | .comment text => .comment text
  | .continueTo label => .continueTo label
  | .debugger => .debugger
  | .doWhile condition body => .doWhile (renameExpr r condition) (renameStmt r body)
  | .empty => .empty
  | .exportDefault value => .exportDefault (renameExpr r value)
  | .exportNames names module => .exportNames names module
  | .expr value => .expr (renameExpr r value)
  | .forIn keyword binding subject body =>
    .forIn keyword (renamePattern r binding) (renameExpr r subject) (renameStmt r body)
  | .forOf isAwait keyword binding subject body =>
    .forOf isAwait keyword (renamePattern r binding) (renameExpr r subject) (renameStmt r body)
  | .forLoop init condition post body =>
    .forLoop (renameOption r init) (renameOption r condition) (renameOption r post)
      (renameStmt r body)
  | .forDecl span keyword declarators condition post body =>
    .forDecl span keyword (renameDeclarators r declarators) (renameOption r condition)
      (renameOption r post) (renameStmt r body)
  | .ifThen test consequent => .ifThen (renameExpr r test) (renameStmt r consequent)
  | .ifElse test consequent alternate =>
    .ifElse (renameExpr r test) (renameStmt r consequent) (renameStmt r alternate)
  | .importNames default names module => .importNames default names module
  | .label name body => .label name (renameStmt r body)
  | .return value => .return (renameOption r value)
  | .switch test branches => .switch (renameExpr r test) (renameBranches r branches)
  | .throw value => .throw (renameExpr r value)
  | .tryCatch body param handler =>
    .tryCatch (renameBlock r body) (renamePatternOption r param) (renameBlock r handler)
  | .tryFinally body finalizer => .tryFinally (renameBlock r body) (renameBlock r finalizer)
  | .tryCatchFinally body param handler finalizer =>
    .tryCatchFinally (renameBlock r body) (renamePatternOption r param) (renameBlock r handler)
      (renameBlock r finalizer)
  | .while condition body => .while (renameExpr r condition) (renameStmt r body)
  | .with object body => .with (renameExpr r object) (renameStmt r body)
  | .classDecl exported name heritage members =>
    .classDecl exported name (renameOption r heritage) (renameClassMembers r members)
  | .functionDecl exported name func => .functionDecl exported name (renameFunc r func)
  | .varDecl isExported keyword declarators =>
    .varDecl isExported keyword (renameDeclarators r declarators)

end

end Rename

/-- The expressions with one name replaced by another. -/
def renameInExprs (old new : String) (exprs : List Expr) : List Expr :=
  exprs.map (Rename.renameExpr ⟨old, new⟩)

/-- The class members with one name replaced by another. -/
def renameInMembers (old new : String) (members : List ClassMember) : List ClassMember :=
  Rename.renameClassMembers ⟨old, new⟩ members

end Downlevel
