import Downlevel.Json
import Downlevel.Tree

/-! The tree of a program as JSON, without the spans. A value that may be of several kinds says so
in a field of its own, which comes first. -/

namespace Downlevel

namespace Tree

/-- An object that is tagged with its kind. -/
def tagged (kind : String) (fields : List (String × Json)) : Json :=
  .object (("$t", .string kind) :: fields)

/-- The fields of a tagged object follow the tag of the object around it. -/
def retagged (kind : String) : Json → Json
  | .object fields => tagged kind fields
  | value => value

/-- A value that is named by its only field. -/
def variant (kind : String) (value : Json) : Json :=
  .object [(kind, value)]

/-- How an access takes part in a chain. -/
def linkJson : ChainLink → Json
  | .plain => .string "None"
  | .opens => .string "Start"
  | .continues => .string "Continue"

/-- Which keyword declares. -/
def declKeywordJson : DeclKeyword → Json
  | .constDecl => .string "Const"
  | .letDecl => .string "Let"
  | .varDecl => .string "Var"

/-- An object that only holds a name. -/
def nameJson (name : String) : Json :=
  .object [("name", .string name)]

/-- The name of a class or function. -/
def ownNameJson : Option String → Json
  | some name => nameJson name
  | none => .null

/-- How a declaration is exported. -/
def exportedFields (exported : Exported) : List (String × Json) :=
  [("export", .bool (exported != .notExported)), ("export_default", .bool (exported == .asDefault))]

/-- A key that is written down. -/
def keyNameJson (name : KeyName) : Json :=
  .object [("key", .string name.text), ("tt", .string name.kind.name)]

/-- A name as it is listed in an import or export. -/
def moduleNameJson : ModuleName → Json
  | .identifier name => variant "Ident" (.string name)
  | .string name => variant "Str" (.string name)

/-- A lone name that is declared. -/
def declaredNameJson (name : String) : Json :=
  .object [("pat", tagged "Id" [("name", .string name)])]

/-- What an export statement exports. -/
def exportNamesJson : ExportNames → Json
  | .all exportedAs => variant "All" (ownNameJson exportedAs)
  | .specific names => variant "Specific" (.array (names.map fun entry =>
      .object [("exportable", moduleNameJson entry.exportable),
        ("alias", nameJson entry.exportedAs)]))

/-- What an import statement binds besides the default. -/
def importNamesJson : ImportNames → Json
  | .all boundAs => variant "All" (declaredNameJson boundAs)
  | .specific names => variant "Specific" (.array (names.map fun entry =>
      .object [("importable", moduleNameJson entry.importable),
        ("alias", declaredNameJson entry.boundAs)]))

/-- What a loop over a subject binds, from its pattern. -/
def bindingJson (keyword : Option DeclKeyword) (pattern : Json) : Json :=
  match keyword with
  | none => variant "Assign" pattern
  | some keyword => variant "Decl" (.array [declKeywordJson keyword, .object [("pat", pattern)]])

/-- A function from its parameters and its body. -/
def funcObject (isArrow isAsync isGenerator : Bool) (params : List Json) (body : Json) : Json :=
  .object [("arrow", .bool isArrow), ("async_", .bool isAsync), ("generator", .bool isGenerator),
    ("parameters", .array params), ("body", body)]

mutual

/-- The JSON form of an expression. -/
def exprJson : Expr → Json
  | ⟨_, shape⟩ => shapeJson shape

/-- The JSON form of a shape. -/
def shapeJson : Shape → Json
  | .arrow func => tagged "ArrowFunc" [("func", funcJson func)]
  | .binary op left right =>
    tagged "Binary"
      [("operator", .string op.name), ("left", exprJson left), ("right", exprJson right)]
  | .call link isPure callee args =>
    tagged "Call"
      [("optional_chaining", linkJson link), ("pure", .bool isPure), ("callee", exprJson callee),
        ("arguments", .array (argsJson args))]
  | .classExpr name heritage members =>
    tagged "Class"
      [("name", ownNameJson name), ("extends", exprOptionJson heritage),
        ("members", .array (classMembersJson members))]
  | .computed link object key =>
    tagged "ComputedMember"
      [("optional_chaining", linkJson link), ("object", exprJson object), ("member", exprJson key)]
  | .cond test consequent alternate =>
    tagged "Cond"
      [("test", exprJson test), ("consequent", exprJson consequent),
        ("alternate", exprJson alternate)]
  | .function name func => tagged "Func" [("name", ownNameJson name), ("func", funcJson func)]
  | .id name => tagged "Id" [("name", .string name)]
  | .importCall module => tagged "Import" [("module", exprJson module)]
  | .importMeta => tagged "ImportMeta" []
  | .member link object name =>
    tagged "Member"
      [("optional_chaining", linkJson link), ("left", exprJson object), ("right", .string name)]
  | .new callee args =>
    tagged "New" [("callee", exprJson callee), ("arguments", .array (argsJson args))]
  | .newTarget => tagged "NewTarget" []
  | .super => tagged "Super" []
  | .tagged tag head spans =>
    tagged "TaggedTemplate"
      [("function", exprJson tag),
        ("parts", .array (variant "String" (.string head) :: spansJson spans))]
  | .this => tagged "This" []
  | .unary op operand =>
    tagged "Unary" [("operator", .string op.name), ("argument", exprJson operand)]
  | .update op operand =>
    tagged "UnaryPostfix" [("operator", .string op.name), ("argument", exprJson operand)]
  | .yield isDelegated operand =>
    tagged "Yield" [("delegate", .bool isDelegated), ("argument", exprOptionJson operand)]
  | .array items => tagged "LitArr" [("elements", .array (itemsJson items))]
  | .bigint digits => tagged "LitBigInt" [("value", .string digits)]
  | .bool value => tagged "LitBool" [("value", .bool value)]
  | .null => tagged "LitNull" []
  | .num text => tagged "LitNum" [("value", .string text)]
  | .object members => tagged "LitObj" [("members", .array (objectMembersJson members))]
  | .regex text => tagged "LitRegex" [("value", .string text)]
  | .str value => tagged "LitStr" [("value", .string value)]
  | .template head spans =>
    tagged "LitTemplate"
      [("parts", .array (variant "String" (.string head) :: spansJson spans))]
  | .arrayPattern slots rest =>
    tagged "ArrPat" [("elements", .array (slotsJson slots)), ("rest", patternOptionJson rest)]
  | .objectPattern properties rest =>
    tagged "ObjPat"
      [("properties", .array (propertiesJson properties)), ("rest", patternOptionJson rest)]

/-- The JSON form of an expression that may be absent. -/
def exprOptionJson : Option Expr → Json
  | none => .null
  | some e => exprJson e

/-- The JSON form of an argument. -/
def argJson : Arg → Json
  | ⟨isSpread, value⟩ => .object [("spread", .bool isSpread), ("value", exprJson value)]

/-- The JSON forms of arguments. -/
def argsJson : List Arg → List Json
  | [] => []
  | arg :: rest => argJson arg :: argsJson rest

/-- A substitution of a template and the text behind it, as two parts. -/
def spanJson : TemplateSpan → List Json
  | ⟨value, text⟩ => [variant "Substitution" (exprJson value), variant "String" (.string text)]

/-- The parts of a template behind its head. -/
def spansJson : List TemplateSpan → List Json
  | [] => []
  | span :: rest => spanJson span ++ spansJson rest

/-- The JSON form of an element of an array literal. -/
def itemJson : ArrayItem → Json
  | .single value => variant "Single" (exprJson value)
  | .spread value => variant "Rest" (exprJson value)
  | .hole => .string "Empty"

/-- The JSON forms of the elements of an array literal. -/
def itemsJson : List ArrayItem → List Json
  | [] => []
  | item :: rest => itemJson item :: itemsJson rest

/-- The JSON form of a key. -/
def keyJson : Key → Json
  | .direct name => variant "Direct" (keyNameJson name)
  | .computed value => variant "Computed" (exprJson value)

/-- The JSON form of what a member holds. -/
def memberValueJson : MemberValue → Json
  | .getter func => variant "Getter" (.object [("func", funcJson func)])
  | .setter func => variant "Setter" (.object [("func", funcJson func)])
  | .method func => variant "Method" (.object [("func", funcJson func)])
  | .field init => variant "Prop" (exprOptionJson init)
  | .accessor init => variant "Accessor" (exprOptionJson init)
  | .staticBlock block => variant "StaticBlock" (blockJson block)

/-- The JSON form of a member of an object literal. -/
def objectMemberJson : ObjectMember → Json
  | .valued _ key value =>
    .object [("typ", variant "Valued" (.object
      [("key", keyJson key), ("val", memberValueJson value)]))]
  | .shorthand _ name =>
    .object [("typ", variant "Shorthand" (.object [("id", nameJson name)]))]
  | .spread _ value => .object [("typ", variant "Rest" (.object [("val", exprJson value)]))]

/-- The JSON forms of the members of an object literal. -/
def objectMembersJson : List ObjectMember → List Json
  | [] => []
  | member :: rest => objectMemberJson member :: objectMembersJson rest

/-- The JSON form of a member of a class. -/
def classMemberJson : ClassMember → Json
  | ⟨_, key, isStatic, value⟩ =>
    .object [("key", keyJson key), ("static_", .bool isStatic), ("val", memberValueJson value)]

/-- The JSON forms of the members of a class. -/
def classMembersJson : List ClassMember → List Json
  | [] => []
  | member :: rest => classMemberJson member :: classMembersJson rest

/-- The JSON form of a function. -/
def funcJson : Func → Json
  | ⟨_, isArrow, isAsync, isGenerator, params, body⟩ =>
    funcObject isArrow isAsync isGenerator (paramsJson params) (bodyJson body)

/-- The JSON form of the body of a function. -/
def bodyJson : Body → Json
  | .block stmts => variant "Block" (.array (stmtsJson stmts))
  | .value result => variant "Expression" (exprJson result)

/-- The JSON form of a parameter. -/
def paramJson : Param → Json
  | ⟨_, isRest, pattern, default⟩ =>
    .object [("rest", .bool isRest), ("pattern", .object [("pat", patternJson pattern)]),
      ("default_value", exprOptionJson default)]

/-- The JSON forms of parameters. -/
def paramsJson : List Param → List Json
  | [] => []
  | param :: rest => paramJson param :: paramsJson rest

/-- The JSON form of a pattern. A place that is assigned to carries two tags. -/
def patternJson : Pattern → Json
  | .id _ name => tagged "Id" [("name", .string name)]
  | .array _ slots rest =>
    tagged "Arr" [("elements", .array (slotsJson slots)), ("rest", patternOptionJson rest)]
  | .object _ properties rest =>
    tagged "Obj"
      [("properties", .array (propertiesJson properties)), ("rest", patternOptionJson rest)]
  | .target _ place => retagged "AssignTarget" (exprJson place)

/-- The JSON form of a pattern that may be absent. -/
def patternOptionJson : Option Pattern → Json
  | none => .null
  | some pattern => patternJson pattern

/-- The JSON form of an element of an array pattern. -/
def slotJson : PatternSlot → Json
  | .hole => .null
  | .slot target default =>
    .object [("target", patternJson target), ("default_value", exprOptionJson default)]

/-- The JSON forms of the elements of an array pattern. -/
def slotsJson : List PatternSlot → List Json
  | [] => []
  | slot :: rest => slotJson slot :: slotsJson rest

/-- The JSON form of a property of an object pattern. -/
def propertyJson : PatternProperty → Json
  | ⟨_, key, target, isShorthand, default⟩ =>
    .object [("key", keyJson key), ("target", patternJson target),
      ("shorthand", .bool isShorthand), ("default_value", exprOptionJson default)]

/-- The JSON forms of the properties of an object pattern. -/
def propertiesJson : List PatternProperty → List Json
  | [] => []
  | property :: rest => propertyJson property :: propertiesJson rest

/-- The JSON form of a declarator. -/
def declaratorJson : Declarator → Json
  | ⟨pattern, init⟩ =>
    .object [("pattern", .object [("pat", patternJson pattern)]),
      ("initializer", exprOptionJson init)]

/-- The JSON forms of declarators. -/
def declaratorsJson : List Declarator → List Json
  | [] => []
  | declarator :: rest => declaratorJson declarator :: declaratorsJson rest

/-- The JSON form of statements in braces. -/
def blockJson : Block → Json
  | ⟨_, body⟩ => .object [("body", .array (stmtsJson body))]

/-- The JSON form of the parameter of a handler. -/
def handlerParamJson : Option Pattern → Json
  | none => .null
  | some pattern => .object [("pat", patternJson pattern)]

/-- The JSON form of a statement. -/
def stmtJson : Stmt → Json
  | ⟨_, shape⟩ => stmtShapeJson shape

/-- The JSON forms of statements. -/
def stmtsJson : List Stmt → List Json
  | [] => []
  | stmt :: rest => stmtJson stmt :: stmtsJson rest

/-- The JSON form of a branch of a switch. -/
def branchJson : SwitchBranch → Json
  | ⟨_, test, body⟩ => .object [("case", exprOptionJson test), ("body", .array (stmtsJson body))]

/-- The JSON forms of the branches of a switch. -/
def branchesJson : List SwitchBranch → List Json
  | [] => []
  | branch :: rest => branchJson branch :: branchesJson rest

/-- The JSON form of the initial expression of a loop. -/
def loopInitJson : Option Expr → Json
  | none => .string "None"
  | some init => variant "Expr" (exprJson init)

/-- The JSON form of the statements of a handler, whose parameter stands in front. -/
def handlerFields : Block → List (String × Json)
  | ⟨_, body⟩ => [("body", .array (stmtsJson body))]

/-- The JSON form of the shape of a statement. -/
def stmtShapeJson : StmtShape → Json
  | .block body => tagged "Block" [("body", .array (stmtsJson body))]
  | .breakTo label => tagged "Break" [("label", .ofText? label)]
  | .comment text => tagged "Comment" [("text", .string text)]
  | .continueTo label => tagged "Continue" [("label", .ofText? label)]
  | .debugger => tagged "Debugger" []
  | .doWhile condition body =>
    tagged "DoWhile" [("condition", exprJson condition), ("body", stmtJson body)]
  | .empty => tagged "Empty" []
  | .exportDefault value => tagged "ExportDefaultExpr" [("expression", exprJson value)]
  | .exportNames names module =>
    tagged "ExportList" [("names", exportNamesJson names), ("from", .ofText? module)]
  | .expr value => tagged "Expr" [("expr", exprJson value)]
  | .forIn keyword binding subject body =>
    tagged "ForIn"
      [("lhs", bindingJson keyword (patternJson binding)), ("rhs", exprJson subject),
        ("body", stmtJson body)]
  | .forOf isAwait keyword binding subject body =>
    tagged "ForOf"
      [("await_", .bool isAwait), ("lhs", bindingJson keyword (patternJson binding)),
        ("rhs", exprJson subject), ("body", stmtJson body)]
  | .forLoop init condition post body =>
    tagged "ForTriple"
      [("init", loopInitJson init), ("cond", exprOptionJson condition),
        ("post", exprOptionJson post), ("body", stmtJson body)]
  | .forDecl _ keyword declarators condition post body =>
    tagged "ForTriple"
      [("init", variant "Decl" (.object [("export", .bool false), ("mode", declKeywordJson keyword),
          ("declarators", .array (declaratorsJson declarators))])),
        ("cond", exprOptionJson condition), ("post", exprOptionJson post), ("body", stmtJson body)]
  | .ifThen test consequent =>
    tagged "If"
      [("test", exprJson test), ("consequent", stmtJson consequent), ("alternate", .null)]
  | .ifElse test consequent alternate =>
    tagged "If"
      [("test", exprJson test), ("consequent", stmtJson consequent),
        ("alternate", stmtJson alternate)]
  | .importNames default names module =>
    tagged "Import"
      [("default", (default.map declaredNameJson).getD .null),
        ("names", (names.map importNamesJson).getD .null), ("module", .string module)]
  | .label name body => tagged "Label" [("name", .string name), ("statement", stmtJson body)]
  | .return value => tagged "Return" [("value", exprOptionJson value)]
  | .switch test branches =>
    tagged "Switch" [("test", exprJson test), ("branches", .array (branchesJson branches))]
  | .throw value => tagged "Throw" [("value", exprJson value)]
  | .tryCatch body param handler =>
    tagged "Try"
      [("wrapped", blockJson body),
        ("catch", .object (("parameter", handlerParamJson param) :: handlerFields handler)),
        ("finally", .null)]
  | .tryFinally body finalizer =>
    tagged "Try"
      [("wrapped", blockJson body), ("catch", .null), ("finally", blockJson finalizer)]
  | .tryCatchFinally body param handler finalizer =>
    tagged "Try"
      [("wrapped", blockJson body),
        ("catch", .object (("parameter", handlerParamJson param) :: handlerFields handler)),
        ("finally", blockJson finalizer)]
  | .while condition body =>
    tagged "While" [("condition", exprJson condition), ("body", stmtJson body)]
  | .with object body => tagged "With" [("object", exprJson object), ("body", stmtJson body)]
  | .classDecl exported name heritage members =>
    tagged "ClassDecl"
      (exportedFields exported ++ [("name", ownNameJson name), ("extends", exprOptionJson heritage),
        ("members", .array (classMembersJson members))])
  | .functionDecl exported name func =>
    tagged "FunctionDecl"
      (exportedFields exported ++ [("name", ownNameJson name), ("function", funcJson func)])
  | .varDecl isExported keyword declarators =>
    tagged "VarDecl"
      [("export", .bool isExported), ("mode", declKeywordJson keyword),
        ("declarators", .array (declaratorsJson declarators))]

end

end Tree

/-- A program as JSON. -/
def Program.toJson (program : Program) : Json :=
  .object [("body", .array (Tree.stmtsJson program.body))]

end Downlevel
