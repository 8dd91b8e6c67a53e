import Downlevel.Proofs.Nodes
import Downlevel.Tree.Rename

/-! Replacing a name changes what the nodes of a tree mention, but not which nodes there are. -/

namespace Downlevel

open Rename

/-- The node of a renamed tree. -/
def Node.rename (r : Renaming) : Node → Node
  | .origin own => .origin own
  | .shape own => .shape (renameShape r own)
  | .func own => .func (renameFunc r own)
  | .param own => .param (renameParam r own)
  | .pattern own => .pattern (renamePattern r own)
  | .objectMember own => .objectMember (renameObjectMember r own)
  | .declarator own => .declarator (renameDeclarator r own)
  | .stmt own => .stmt (renameStmtShape r own)

/-- The node of a renamed tree, at the same site. -/
def Occurrence.rename (r : Renaming) (found : Occurrence) : Occurrence :=
  ⟨found.site, found.node.rename r⟩

/-- The nodes of a renamed tree. -/
def renameNodes (r : Renaming) (nodes : List Occurrence) : List Occurrence :=
  nodes.map (.rename r)

variable (r : Renaming)

/-- The nodes of a renamed tree are those of its first part and of what comes behind. -/
theorem renamed_append {nodes more renamed renamedMore : List Occurrence}
    (first : renamed = renameNodes r nodes) (second : renamedMore = renameNodes r more) :
    renamed ++ renamedMore = renameNodes r (nodes ++ more) := by
  rw [first, second, renameNodes, renameNodes, renameNodes, List.map_append]

/-- A node is renamed along with all behind it. -/
theorem renamed_cons {found own : Occurrence} {nodes renamed : List Occurrence}
    (first : own = found.rename r) (rest : renamed = renameNodes r nodes) :
    own :: renamed = renameNodes r (found :: nodes) := by
  rw [first, rest, renameNodes, renameNodes, List.map_cons]

/-- A name is replaced wherever a tree is. -/
theorem renamed_into (site : Site) {nodes renamed : List Occurrence}
    (same : renamed = renameNodes r nodes) :
    renamed.map (.into site) = renameNodes r (nodes.map (.into site)) := by
  rw [same, renameNodes, renameNodes, List.map_map, List.map_map]
  rfl

/-- The truth of a test is known from literals alone. -/
theorem knownTruth_rename (test : Expr) :
    Lowering.knownTruth (renameExpr r test) = Lowering.knownTruth test := by
  obtain ⟨origin, shape⟩ := test
  rw [renameExpr]
  cases shape with
  | unary op operand => cases op <;> rfl
  | _ => rfl

/-- Where the value of a class member runs does not depend on names. -/
theorem memberSite_rename (isStatic : Bool) (value : MemberValue) :
    memberSite isStatic (renameMemberValue r value) = memberSite isStatic value := by
  cases value <;> rfl

mutual

/-- The nodes of an expression are renamed one by one. -/
theorem exprNodes_rename :
    ∀ tree : Expr, exprNodes (renameExpr r tree) = renameNodes r (exprNodes tree)
  | ⟨_, shape⟩ => renamed_cons r rfl (renamed_cons r rfl (shapeNodes_rename shape))

/-- The nodes of a shape are renamed one by one. -/
theorem shapeNodes_rename :
    ∀ tree : Shape, shapeNodes (renameShape r tree) = renameNodes r (shapeNodes tree)
  -- What a node holds is a list of lists, and each part is renamed by the lemma of its own kind.
  | .arrow func => funcNodes_rename func
  | .binary _ left right => renamed_append r (exprNodes_rename left) (exprNodes_rename right)
  | .call _ _ callee args => renamed_append r (exprNodes_rename callee) (argsNodes_rename args)
  | .classExpr _ heritage members =>
    renamed_append r (optionNodes_rename heritage) (classMembersNodes_rename members)
  | .computed _ object key => renamed_append r (exprNodes_rename object) (exprNodes_rename key)
  | .cond test consequent alternate =>
    renamed_append r (renamed_append r (exprNodes_rename test) (exprNodes_rename consequent))
      (exprNodes_rename alternate)
  | .function _ func => funcNodes_rename func
  | .importCall module => exprNodes_rename module
  | .member _ object _ => exprNodes_rename object
  | .new callee args => renamed_append r (exprNodes_rename callee) (argsNodes_rename args)
  | .tagged tag _ spans => renamed_append r (exprNodes_rename tag) (spansNodes_rename spans)
  | .unary _ operand => exprNodes_rename operand
  | .update _ operand => exprNodes_rename operand
  | .yield _ operand => optionNodes_rename operand
  | .array items => itemsNodes_rename items
  | .object members => objectMembersNodes_rename members
  | .template _ spans => spansNodes_rename spans
  | .arrayPattern slots rest =>
    renamed_append r (slotsNodes_rename slots) (patternOptionNodes_rename rest)
  | .objectPattern properties rest =>
    renamed_append r (propertiesNodes_rename properties) (patternOptionNodes_rename rest)
  | .id _ | .importMeta | .newTarget | .super | .this | .bigint _ | .bool _ | .null | .num _
  | .regex _ | .str _ => rfl

/-- The nodes of an expression that may be absent are renamed one by one. -/
theorem optionNodes_rename :
    ∀ tree : Option Expr, optionNodes (renameOption r tree) = renameNodes r (optionNodes tree)
  | none => rfl
  | some e => exprNodes_rename e

/-- The nodes of an argument are renamed one by one. -/
theorem argNodes_rename :
    ∀ tree : Arg, argNodes (renameArg r tree) = renameNodes r (argNodes tree)
  | ⟨_, value⟩ => exprNodes_rename value

/-- The nodes of arguments are renamed one by one. -/
theorem argsNodes_rename :
    ∀ tree : List Arg, argsNodes (renameArgs r tree) = renameNodes r (argsNodes tree)
  | [] => rfl
  | arg :: rest => renamed_append r (argNodes_rename arg) (argsNodes_rename rest)

/-- The nodes of a substitution are renamed one by one. -/
theorem spanNodes_rename :
    ∀ tree : TemplateSpan, spanNodes (renameSpan r tree) = renameNodes r (spanNodes tree)
  | ⟨value, _⟩ => exprNodes_rename value

/-- The nodes of substitutions are renamed one by one. -/
theorem spansNodes_rename :
    ∀ tree : List TemplateSpan, spansNodes (renameSpans r tree) = renameNodes r (spansNodes tree)
  | [] => rfl
  | span :: rest => renamed_append r (spanNodes_rename span) (spansNodes_rename rest)

/-- The nodes of an element of an array literal are renamed one by one. -/
theorem itemNodes_rename :
    ∀ tree : ArrayItem, itemNodes (renameItem r tree) = renameNodes r (itemNodes tree)
  | .single value => exprNodes_rename value
  | .spread value => exprNodes_rename value
  | .hole => rfl

/-- The nodes of the elements of an array literal are renamed one by one. -/
theorem itemsNodes_rename :
    ∀ tree : List ArrayItem, itemsNodes (renameItems r tree) = renameNodes r (itemsNodes tree)
  | [] => rfl
  | item :: rest => renamed_append r (itemNodes_rename item) (itemsNodes_rename rest)

/-- The nodes of a key are renamed one by one. -/
theorem keyNodes_rename :
    ∀ tree : Key, keyNodes (renameKey r tree) = renameNodes r (keyNodes tree)
  | .direct _ => rfl
  | .computed value => exprNodes_rename value

/-- The nodes of what a member holds are renamed one by one. -/
theorem memberValueNodes_rename :
    ∀ tree : MemberValue,
      memberValueNodes (renameMemberValue r tree) = renameNodes r (memberValueNodes tree)
  | .getter func => funcNodes_rename func
  | .setter func => funcNodes_rename func
  | .method func => funcNodes_rename func
  | .field init => optionNodes_rename init
  | .accessor init => optionNodes_rename init
  | .staticBlock block => blockNodes_rename block

/-- The nodes of a member of an object literal are renamed one by one. -/
theorem objectMemberNodes_rename :
    ∀ tree : ObjectMember,
      objectMemberNodes (renameObjectMember r tree) = renameNodes r (objectMemberNodes tree)
  | .valued _ key value =>
    renamed_cons r rfl (renamed_append r (keyNodes_rename key) (memberValueNodes_rename value))
  | .shorthand .. => rfl
  | .spread _ value => renamed_cons r rfl (exprNodes_rename value)

/-- The nodes of the members of an object literal are renamed one by one. -/
theorem objectMembersNodes_rename :
    ∀ tree : List ObjectMember,
      objectMembersNodes (renameObjectMembers r tree) = renameNodes r (objectMembersNodes tree)
  | [] => rfl
  | objectMember :: rest =>
    renamed_append r (objectMemberNodes_rename objectMember) (objectMembersNodes_rename rest)

/-- The nodes of a member of a class are renamed one by one. -/
theorem classMemberNodes_rename :
    ∀ tree : ClassMember,
      classMemberNodes (renameClassMember r tree) = renameNodes r (classMemberNodes tree)
  | ⟨_, key, isStatic, value⟩ => by
    change _ ++ (memberValueNodes (renameMemberValue r value)).map
      (Occurrence.into (memberSite isStatic (renameMemberValue r value))) = _
    rw [memberSite_rename]
    exact renamed_append r (keyNodes_rename key) (renamed_into r _ (memberValueNodes_rename value))

/-- The nodes of the members of a class are renamed one by one. -/
theorem classMembersNodes_rename :
    ∀ tree : List ClassMember,
      classMembersNodes (renameClassMembers r tree) = renameNodes r (classMembersNodes tree)
  | [] => rfl
  | classMember :: rest =>
    renamed_append r (classMemberNodes_rename classMember) (classMembersNodes_rename rest)

/-- The nodes of a function are renamed one by one. -/
theorem funcNodes_rename :
    ∀ tree : Func, funcNodes (renameFunc r tree) = renameNodes r (funcNodes tree)
  | ⟨_, _, _, _, params, body⟩ =>
    renamed_cons r rfl (renamed_append r (renamed_into r _ (paramsNodes_rename params))
      (renamed_into r _ (bodyNodes_rename body)))

/-- The nodes of the body of a function are renamed one by one. -/
theorem bodyNodes_rename :
    ∀ tree : Body, bodyNodes (renameBody r tree) = renameNodes r (bodyNodes tree)
  | .block stmts => stmtsNodes_rename stmts
  | .value result => exprNodes_rename result

/-- The nodes of a parameter are renamed one by one. -/
theorem paramNodes_rename :
    ∀ tree : Param, paramNodes (renameParam r tree) = renameNodes r (paramNodes tree)
  | ⟨_, _, pattern, default⟩ =>
    renamed_cons r rfl (renamed_append r (patternNodes_rename pattern) (optionNodes_rename default))

/-- The nodes of parameters are renamed one by one. -/
theorem paramsNodes_rename :
    ∀ tree : List Param, paramsNodes (renameParams r tree) = renameNodes r (paramsNodes tree)
  | [] => rfl
  | param :: rest => renamed_append r (paramNodes_rename param) (paramsNodes_rename rest)

/-- The nodes of a pattern are renamed one by one. -/
theorem patternNodes_rename :
    ∀ tree : Pattern, patternNodes (renamePattern r tree) = renameNodes r (patternNodes tree)
  | .id .. => rfl
  | .array _ slots rest =>
    renamed_cons r rfl (renamed_append r (slotsNodes_rename slots) (patternOptionNodes_rename rest))
  | .object _ properties rest =>
    renamed_cons r rfl
      (renamed_append r (propertiesNodes_rename properties) (patternOptionNodes_rename rest))
  | .target _ place => renamed_cons r rfl (exprNodes_rename place)

/-- The nodes of a pattern that may be absent are renamed one by one. -/
theorem patternOptionNodes_rename :
    ∀ tree : Option Pattern,
      patternOptionNodes (renamePatternOption r tree) = renameNodes r (patternOptionNodes tree)
  | none => rfl
  | some pattern => patternNodes_rename pattern

/-- The nodes of an element of an array pattern are renamed one by one. -/
theorem slotNodes_rename :
    ∀ tree : PatternSlot, slotNodes (renameSlot r tree) = renameNodes r (slotNodes tree)
  | .hole => rfl
  | .slot target default =>
    renamed_append r (patternNodes_rename target) (optionNodes_rename default)

/-- The nodes of the elements of an array pattern are renamed one by one. -/
theorem slotsNodes_rename :
    ∀ tree : List PatternSlot, slotsNodes (renameSlots r tree) = renameNodes r (slotsNodes tree)
  | [] => rfl
  | slot :: rest => renamed_append r (slotNodes_rename slot) (slotsNodes_rename rest)

/-- The nodes of a property of an object pattern are renamed one by one. -/
theorem propertyNodes_rename :
    ∀ tree : PatternProperty,
      propertyNodes (renameProperty r tree) = renameNodes r (propertyNodes tree)
  | ⟨_, key, target, _, default⟩ =>
    renamed_append r (renamed_append r (keyNodes_rename key) (patternNodes_rename target))
      (optionNodes_rename default)

/-- The nodes of the properties of an object pattern are renamed one by one. -/
theorem propertiesNodes_rename :
    ∀ tree : List PatternProperty,
      propertiesNodes (renameProperties r tree) = renameNodes r (propertiesNodes tree)
  | [] => rfl
  | property :: rest =>
    renamed_append r (propertyNodes_rename property) (propertiesNodes_rename rest)

/-- The nodes of a declarator are renamed one by one. -/
theorem declaratorNodes_rename :
    ∀ tree : Declarator,
      declaratorNodes (renameDeclarator r tree) = renameNodes r (declaratorNodes tree)
  | ⟨pattern, init⟩ =>
    renamed_cons r rfl (renamed_append r (patternNodes_rename pattern) (optionNodes_rename init))

/-- The nodes of declarators are renamed one by one. -/
theorem declaratorsNodes_rename :
    ∀ tree : List Declarator,
      declaratorsNodes (renameDeclarators r tree) = renameNodes r (declaratorsNodes tree)
  | [] => rfl
  | declarator :: rest =>
    renamed_append r (declaratorNodes_rename declarator) (declaratorsNodes_rename rest)

/-- The nodes of statements in braces are renamed one by one. -/
theorem blockNodes_rename :
    ∀ tree : Block, blockNodes (renameBlock r tree) = renameNodes r (blockNodes tree)
  | ⟨_, body⟩ => stmtsNodes_rename body

/-- The nodes of statements are renamed one by one. -/
theorem stmtsNodes_rename :
    ∀ tree : List Stmt, stmtsNodes (renameStmts r tree) = renameNodes r (stmtsNodes tree)
  | [] => rfl
  | stmt :: rest => renamed_append r (stmtNodes_rename stmt) (stmtsNodes_rename rest)

/-- The nodes of a branch of a switch are renamed one by one. -/
theorem branchNodes_rename :
    ∀ tree : SwitchBranch, branchNodes (renameBranch r tree) = renameNodes r (branchNodes tree)
  | ⟨_, test, body⟩ => renamed_append r (optionNodes_rename test) (stmtsNodes_rename body)

/-- The nodes of the branches of a switch are renamed one by one. -/
theorem branchesNodes_rename :
    ∀ tree : List SwitchBranch,
      branchesNodes (renameBranches r tree) = renameNodes r (branchesNodes tree)
  | [] => rfl
  | branch :: rest => renamed_append r (branchNodes_rename branch) (branchesNodes_rename rest)

/-- The nodes of a statement are renamed one by one. -/
theorem stmtNodes_rename :
    ∀ tree : Stmt, stmtNodes (renameStmt r tree) = renameNodes r (stmtNodes tree)
  | ⟨_, shape⟩ => renamed_cons r rfl (stmtShapeNodes_rename shape)

/-- The nodes of the shape of a statement are renamed one by one. -/
theorem stmtShapeNodes_rename :
    ∀ tree : StmtShape,
      stmtShapeNodes (renameStmtShape r tree) = renameNodes r (stmtShapeNodes tree)
  | .block body => stmtsNodes_rename body
  | .doWhile condition body => renamed_append r (exprNodes_rename condition) (stmtNodes_rename body)
  | .exportDefault value => exprNodes_rename value
  | .expr value => exprNodes_rename value
  | .forIn _ binding subject body =>
    renamed_append r (renamed_append r (patternNodes_rename binding) (exprNodes_rename subject))
      (stmtNodes_rename body)
  | .forOf _ _ binding subject body =>
    renamed_append r (renamed_append r (patternNodes_rename binding) (exprNodes_rename subject))
      (stmtNodes_rename body)
  | .forLoop init condition post body =>
    renamed_append r
      (renamed_append r (renamed_append r (optionNodes_rename init) (optionNodes_rename condition))
         (optionNodes_rename post))
      (stmtNodes_rename body)
  | .forDecl _ _ declarators condition post body =>
    renamed_append r
      (renamed_append r
         (renamed_append r (declaratorsNodes_rename declarators) (optionNodes_rename condition))
         (optionNodes_rename post))
      (stmtNodes_rename body)
  -- Whether a branch never runs is decided by the test, which renaming leaves as true as it was.
  | .ifThen test consequent => by
    change _ ++ (stmtNodes (renameStmt r consequent)).map
      (Occurrence.into (.own (Lowering.knownTruth (renameExpr r test) = some false))) = _
    rw [knownTruth_rename]
    exact renamed_append r (exprNodes_rename test) (renamed_into r _ (stmtNodes_rename consequent))
  | .ifElse test consequent alternate => by
    change _ ++ (stmtNodes (renameStmt r consequent)).map
        (Occurrence.into (.own (Lowering.knownTruth (renameExpr r test) = some false)))
      ++ (stmtNodes (renameStmt r alternate)).map
        (Occurrence.into (.own (Lowering.knownTruth (renameExpr r test) = some true))) = _
    rw [knownTruth_rename]
    exact renamed_append r
      (renamed_append r (exprNodes_rename test) (renamed_into r _ (stmtNodes_rename consequent)))
      (renamed_into r _ (stmtNodes_rename alternate))
  | .label _ body => stmtNodes_rename body
  | .return value => optionNodes_rename value
  | .switch test branches =>
    renamed_append r (exprNodes_rename test) (branchesNodes_rename branches)
  | .throw value => exprNodes_rename value
  | .tryCatch body param handler =>
    renamed_append r (renamed_append r (blockNodes_rename body) (patternOptionNodes_rename param))
      (blockNodes_rename handler)
  | .tryFinally body finalizer =>
    renamed_append r (blockNodes_rename body) (blockNodes_rename finalizer)
  | .tryCatchFinally body param handler finalizer =>
    renamed_append r
      (renamed_append r
         (renamed_append r (blockNodes_rename body) (patternOptionNodes_rename param))
         (blockNodes_rename handler))
      (blockNodes_rename finalizer)
  | .while condition body => renamed_append r (exprNodes_rename condition) (stmtNodes_rename body)
  | .with object body => renamed_append r (exprNodes_rename object) (stmtNodes_rename body)
  | .classDecl _ _ heritage members =>
    renamed_append r (optionNodes_rename heritage) (classMembersNodes_rename members)
  | .functionDecl _ _ func => funcNodes_rename func
  | .varDecl _ _ declarators => declaratorsNodes_rename declarators
  | .breakTo _ | .comment _ | .continueTo _ | .debugger | .empty | .exportNames ..
  | .importNames .. => rfl

end

end Downlevel
