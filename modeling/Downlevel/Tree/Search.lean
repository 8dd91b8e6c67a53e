import Downlevel.Tree

/-! Searching a tree for expressions of some shape. -/

namespace Downlevel

namespace Search

mutual

/-- Whether an expression or one inside it is of a shape that is sought. -/
def inExpr (found : Shape → Bool) : Expr → Bool
  | ⟨_, shape⟩ => found shape || inShape found shape

/-- The same for the expressions inside a shape. -/
def inShape (found : Shape → Bool) : Shape → Bool
  | .arrow func => inFunc found func
  | .binary _ left right => inExpr found left || inExpr found right
  | .call _ _ callee args => inExpr found callee || inArgs found args
  | .classExpr _ heritage members => inOption found heritage || inClassMembers found members
  | .computed _ object key => inExpr found object || inExpr found key
  | .cond test consequent alternate =>
    inExpr found test || inExpr found consequent || inExpr found alternate
  | .function _ func => inFunc found func
  | .importCall module => inExpr found module
  | .member _ object _ => inExpr found object
  | .new callee args => inExpr found callee || inArgs found args
  | .tagged tag _ spans => inExpr found tag || inSpans found spans
  | .unary _ operand => inExpr found operand
  | .update _ operand => inExpr found operand
  | .yield _ operand => inOption found operand
  | .array items => inItems found items
  | .object members => inObjectMembers found members
  | .template _ spans => inSpans found spans
  | .arrayPattern slots rest => inSlots found slots || inPatternOption found rest
  | .objectPattern properties rest => inProperties found properties || inPatternOption found rest
  | .id _ | .importMeta | .newTarget | .super | .this | .bigint _ | .bool _ | .null | .num _
  | .regex _ | .str _ => false

/-- The same for an expression that may be absent. -/
def inOption (found : Shape → Bool) : Option Expr → Bool
  | none => false
  | some e => inExpr found e

/-- The same for an argument. -/
def inArg (found : Shape → Bool) : Arg → Bool
  | ⟨_, value⟩ => inExpr found value

/-- The same for arguments. -/
def inArgs (found : Shape → Bool) : List Arg → Bool
  | [] => false
  | arg :: rest => inArg found arg || inArgs found rest

/-- The same for a substitution. -/
def inSpan (found : Shape → Bool) : TemplateSpan → Bool
  | ⟨value, _⟩ => inExpr found value

/-- The same for substitutions. -/
def inSpans (found : Shape → Bool) : List TemplateSpan → Bool
  | [] => false
  | span :: rest => inSpan found span || inSpans found rest

/-- The same for an element of an array literal. -/
def inItem (found : Shape → Bool) : ArrayItem → Bool
  | .single value => inExpr found value
  | .spread value => inExpr found value
  | .hole => false

/-- The same for the elements of an array literal. -/
def inItems (found : Shape → Bool) : List ArrayItem → Bool
  | [] => false
  | item :: rest => inItem found item || inItems found rest

/-- The same for a key. -/
def inKey (found : Shape → Bool) : Key → Bool
  | .direct _ => false
  | .computed value => inExpr found value

/-- The same for what a member holds. -/
def inMemberValue (found : Shape → Bool) : MemberValue → Bool
  | .getter func => inFunc found func
  | .setter func => inFunc found func
  | .method func => inFunc found func
  | .field init => inOption found init
  | .accessor init => inOption found init
  | .staticBlock block => inBlock found block

/-- The same for a member of an object literal. -/
def inObjectMember (found : Shape → Bool) : ObjectMember → Bool
  | .valued _ key value => inKey found key || inMemberValue found value
  | .shorthand .. => false
  | .spread _ value => inExpr found value

/-- The same for the members of an object literal. -/
def inObjectMembers (found : Shape → Bool) : List ObjectMember → Bool
  | [] => false
  | member :: rest => inObjectMember found member || inObjectMembers found rest

/-- The same for a member of a class. -/
def inClassMember (found : Shape → Bool) : ClassMember → Bool
  | ⟨_, key, _, value⟩ => inKey found key || inMemberValue found value

/-- The same for the members of a class. -/
def inClassMembers (found : Shape → Bool) : List ClassMember → Bool
  | [] => false
  | member :: rest => inClassMember found member || inClassMembers found rest

/-- The same for a function. -/
def inFunc (found : Shape → Bool) : Func → Bool
  | ⟨_, _, _, _, params, body⟩ => inParams found params || inBody found body

/-- The same for the body of a function. -/
def inBody (found : Shape → Bool) : Body → Bool
  | .block stmts => inStmts found stmts
  | .value result => inExpr found result

/-- The same for a parameter. -/
def inParam (found : Shape → Bool) : Param → Bool
  | ⟨_, _, pattern, default⟩ => inPattern found pattern || inOption found default

/-- The same for parameters. -/
def inParams (found : Shape → Bool) : List Param → Bool
  | [] => false
  | param :: rest => inParam found param || inParams found rest

/-- The same for a pattern. -/
def inPattern (found : Shape → Bool) : Pattern → Bool
  | .id .. => false
  | .array _ slots rest => inSlots found slots || inPatternOption found rest
  | .object _ properties rest => inProperties found properties || inPatternOption found rest
  | .target _ place => inExpr found place

/-- The same for a pattern that may be absent. -/
def inPatternOption (found : Shape → Bool) : Option Pattern → Bool
  | none => false
  | some pattern => inPattern found pattern

/-- The same for an element of an array pattern. -/
def inSlot (found : Shape → Bool) : PatternSlot → Bool
  | .hole => false
  | .slot target default => inPattern found target || inOption found default

/-- The same for the elements of an array pattern. -/
def inSlots (found : Shape → Bool) : List PatternSlot → Bool
  | [] => false
  | slot :: rest => inSlot found slot || inSlots found rest

/-- The same for a property of an object pattern. -/
def inProperty (found : Shape → Bool) : PatternProperty → Bool
  | ⟨_, key, target, _, default⟩ =>
    inKey found key || inPattern found target || inOption found default

/-- The same for the properties of an object pattern. -/
def inProperties (found : Shape → Bool) : List PatternProperty → Bool
  | [] => false
  | property :: rest => inProperty found property || inProperties found rest

/-- The same for a declarator. -/
def inDeclarator (found : Shape → Bool) : Declarator → Bool
  | ⟨pattern, init⟩ => inPattern found pattern || inOption found init

/-- The same for declarators. -/
def inDeclarators (found : Shape → Bool) : List Declarator → Bool
  | [] => false
  | declarator :: rest => inDeclarator found declarator || inDeclarators found rest

/-- The same for statements in braces. -/
def inBlock (found : Shape → Bool) : Block → Bool
  | ⟨_, body⟩ => inStmts found body

/-- The same for statements. -/
def inStmts (found : Shape → Bool) : List Stmt → Bool
  | [] => false
  | stmt :: rest => inStmt found stmt || inStmts found rest

/-- The same for a branch of a switch. -/
def inBranch (found : Shape → Bool) : SwitchBranch → Bool
  | ⟨_, test, body⟩ => inOption found test || inStmts found body

/-- The same for the branches of a switch. -/
def inBranches (found : Shape → Bool) : List SwitchBranch → Bool
  | [] => false
  | branch :: rest => inBranch found branch || inBranches found rest

/-- The same for a statement. -/
def inStmt (found : Shape → Bool) : Stmt → Bool
  | ⟨_, shape⟩ => inStmtShape found shape

/-- The same for the shape of a statement. -/
def inStmtShape (found : Shape → Bool) : StmtShape → Bool
  | .block body => inStmts found body
  | .doWhile condition body => inExpr found condition || inStmt found body
  | .exportDefault value => inExpr found value
  | .expr value => inExpr found value
  | .forIn _ binding subject body =>
    inPattern found binding || inExpr found subject || inStmt found body
  | .forOf _ _ binding subject body =>
    inPattern found binding || inExpr found subject || inStmt found body
  | .forLoop init condition post body =>
    inOption found init || inOption found condition || inOption found post || inStmt found body
  | .forDecl _ _ declarators condition post body =>
    inDeclarators found declarators || inOption found condition || inOption found post
      || inStmt found body
  | .ifThen test consequent => inExpr found test || inStmt found consequent
  | .ifElse test consequent alternate =>
    inExpr found test || inStmt found consequent || inStmt found alternate
  | .label _ body => inStmt found body
  | .return value => inOption found value
  | .switch test branches => inExpr found test || inBranches found branches
  | .throw value => inExpr found value
  | .tryCatch body param handler =>
    inBlock found body || inPatternOption found param || inBlock found handler
  | .tryFinally body finalizer => inBlock found body || inBlock found finalizer
  | .tryCatchFinally body param handler finalizer =>
    inBlock found body || inPatternOption found param || inBlock found handler
      || inBlock found finalizer
  | .while condition body => inExpr found condition || inStmt found body
  | .with object body => inExpr found object || inStmt found body
  | .classDecl _ _ heritage members => inOption found heritage || inClassMembers found members
  | .functionDecl _ _ func => inFunc found func
  | .varDecl _ _ declarators => inDeclarators found declarators
  | .breakTo _ | .comment _ | .continueTo _ | .debugger | .empty | .exportNames ..
  | .importNames .. => false

end

end Search

end Downlevel
