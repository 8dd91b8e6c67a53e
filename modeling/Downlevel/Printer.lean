import Downlevel.Printer.Precedence
import Downlevel.Text.Escape

/-! Programs as text: two blanks for each level, one statement on a line, strings in double quotes
and object literals on one line. Parentheses follow from the levels of the operators. -/

namespace Downlevel

namespace Printer

/-- Printing keeps in mind whether it stands in the head of a loop, where a bare `in` would end the
initial part. It would stop at a static block that is no member of a class. -/
abbrev Printing := StateT Bool Option

/-- What is printed. -/
abbrev Print := Printing String

/-- The blanks in front of a line. -/
def indentation (indent : Nat) : String :=
  String.join (List.replicate indent "  ")

/-- Texts with commas between them. -/
def commas (items : List String) : String :=
  ", ".intercalate items

/-- A label behind a jump. -/
def labelText : Option String → String
  | some label => " " ++ label
  | none => ""

/-- A name behind a keyword. -/
def nameText : Option String → String
  | some name => " " ++ name
  | none => ""

/-- The words that export a declaration. -/
def exportedText : Exported → String
  | .notExported => ""
  | .byName => "export "
  | .asDefault => "export default "

/-- A key that is written down. -/
def keyNameText (name : KeyName) : String :=
  match name.kind with
  | .string => Text.quote name.text
  | .bigint => name.text ++ "n"
  | _ => name.text

/-- A name in an import or export list; it takes quotes only where it needs them. -/
def outerNameText (name : String) : String :=
  if Text.isIdentifierName name then name else Text.quote name

/-- A name as it is listed in an import or export. -/
def moduleNameText : ModuleName → String
  | .identifier name => name
  | .string name => outerNameText name

/-- Entries of an import or export list in braces. -/
def listText (entries : List String) : String :=
  if entries.isEmpty then "\x7b\x7d" else "\x7b " ++ commas entries ++ " \x7d"

/-- An entry of an export list. -/
def exportNameText (entry : ExportName) : String :=
  if entry.exportable.text = entry.exportedAs then moduleNameText entry.exportable
  else moduleNameText entry.exportable ++ " as " ++ outerNameText entry.exportedAs

/-- An entry of an import list. -/
def importNameText (entry : ImportName) : String :=
  if entry.importable.text = entry.boundAs then moduleNameText entry.importable
  else moduleNameText entry.importable ++ " as " ++ entry.boundAs

/-- What an export statement exports. -/
def exportNamesText : ExportNames → String
  | .all none => "*"
  | .all (some outer) => "* as " ++ outerNameText outer
  | .specific entries => listText (entries.map exportNameText)

/-- What an import statement binds besides the default. -/
def importNamesText : ImportNames → String
  | .all bound => "* as " ++ bound
  | .specific entries => listText (entries.map importNameText)

/-- What an import statement binds, with the word in front of the module. -/
def importClauseText (default : Option String) (names : Option ImportNames) : String :=
  match default.toList ++ names.toList.map importNamesText with
  | [] => ""
  | clauses => commas clauses ++ " from "

/-- The words in front of the parameters of a function. -/
def functionHeadText (isAsync isGenerator : Bool) (name : Option String) : String :=
  (if isAsync then "async " else "") ++ "function" ++ (if isGenerator then "*" else "")
    ++ match name with
      | some name => " " ++ name
      | none => if isGenerator then " " else ""

/-- The sign in front of a member name or an opening bracket. -/
def openingText (link : ChainLink) : String :=
  if link = .opens then "?." else ""

/-- Braces around members, which take no blanks when there are none. -/
def bracesText (members : List String) : String :=
  if members.isEmpty then "\x7b\x7d" else "\x7b " ++ commas members ++ " \x7d"

/-- Whether the last element of an array literal is a hole, which takes a comma of its own. -/
def endsWithHole : List ArrayItem → Bool
  | [] => false
  | [.hole] => true
  | _ :: rest => endsWithHole rest

/-- Whether the last slot of an array pattern is a hole, which takes a comma of its own. -/
def endsWithEmptySlot : List PatternSlot → Bool
  | [] => false
  | [.hole] => true
  | _ :: rest => endsWithEmptySlot rest

/-- The text of an array pattern from its slots and its rest. -/
def arrayPatternText (slots : List String) (rest : Option String) (endsEmpty : Bool) : String :=
  match rest with
  | some rest => "[" ++ commas (slots ++ ["..." ++ rest]) ++ "]"
  | none => "[" ++ commas slots ++ (if endsEmpty then "," else "") ++ "]"

/-- The text of an object pattern from its properties and its rest. -/
def objectPatternText (properties : List String) (rest : Option String) : String :=
  bracesText (properties ++ rest.toList.map ("..." ++ ·))

/-- The text of a class from its heritage and its members. -/
def classText (indent : Nat) (name : Option String) (heritage members : String) : String :=
  "class" ++ nameText name ++ heritage ++ " \x7b\n" ++ members ++ indentation indent ++ "\x7d"

/-- Prints the initial part of a loop head, in which a bare `in` takes parentheses. -/
def inLoopHead (inner : Print) : Print := do
  set true
  let text ← inner
  set false
  return text

/-- Prints in parentheses, inside which `in` is an operator like all others. -/
def inParens (inner : Print) : Print := do
  let noIn ← get
  set false
  let text ← inner
  set noIn
  return "(" ++ text ++ ")"

mutual

/-- Prints an expression where its level has to be at least the given one. -/
def printExpr (indent : Nat) (place : Place) (level : Nat) : Expr → Print
  | ⟨_, shape⟩ => do
    if needsParens place (← get) level shape then inParens (printShape indent .elsewhere shape)
    else printShape indent place shape

/-- Prints an expression without parentheses. Only what is printed first stands at the place. -/
def printShape (indent : Nat) (place : Place) : Shape → Print
  | .arrow func => printArrow indent func
  | .binary op left right => do
    let first ← printExpr indent place (leftOperandLevel op left) left
    let second ← printExpr indent .elsewhere (rightOperandLevel op right) right
    return first ++ (if op = .comma then ", " else " " ++ op.text ++ " ") ++ second
  | .call link isPure callee args => do
    let place := if isPure then .elsewhere else place
    let target ← printExpr indent place (targetLevel link false callee) callee
    let args ← printArgs indent args
    return (if isPure then "/* @__PURE__ */ " else "") ++ target ++ openingText link
      ++ "(" ++ commas args ++ ")"
  | .classExpr name heritage members => do
    let heritage ← printHeritage indent heritage
    let members ← printClassMembers (indent + 1) members
    return classText indent name heritage members
  | .computed link object key => do
    let object ← printExpr indent place (targetLevel link false object) object
    let key ← printExpr indent .elsewhere Precedence.comma key
    return object ++ openingText link ++ "[" ++ key ++ "]"
  | .cond test consequent alternate => do
    let test ← printExpr indent place (Precedence.conditional + 1) test
    let consequent ← printExpr indent .elsewhere Precedence.assignment consequent
    let alternate ← printExpr indent .elsewhere Precedence.assignment alternate
    return test ++ " ? " ++ consequent ++ " : " ++ alternate
  | .function name func => printFunction indent name func
  | .id name => return name
  | .importCall module => do
    return "import(" ++ (← printExpr indent .elsewhere Precedence.yielding module) ++ ")"
  | .importMeta => return "import.meta"
  | .member link object name => do
    let dotFollows := link != .opens
    let object ← printExpr indent place (targetLevel link dotFollows object) object
    return object ++ (if dotFollows then "." else "?.") ++ name
  | .new callee args => do
    let callee ← printExpr indent .elsewhere (calleeLevel callee) callee
    let args ← printArgs indent args
    return "new " ++ callee ++ "(" ++ commas args ++ ")"
  | .newTarget => return "new.target"
  | .super => return "super"
  | .tagged tag head spans => do
    let tag ← printExpr indent place (targetLevel .plain false tag) tag
    let spans ← printSpans indent spans
    return tag ++ "`" ++ head ++ spans ++ "`"
  | .this => return "this"
  | .unary op operand => do
    let gap := unaryGap op operand
    let operand ← printExpr indent .elsewhere Precedence.unary operand
    return op.text ++ gap ++ operand
  | .update op operand => do
    return (← printExpr indent place Precedence.update operand) ++ op.text
  | .yield isDelegated operand => do
    let operand ← printOption indent Precedence.yielding operand
    return (if isDelegated then "yield*" else "yield") ++ (operand.map (" " ++ ·)).getD ""
  | .array items => do
    let last := if endsWithHole items then "," else ""
    return "[" ++ commas (← printItems indent items) ++ last ++ "]"
  | .bigint digits => return digits ++ "n"
  | .bool value => return if value then "true" else "false"
  | .null => return "null"
  | .num text => return text
  | .object members => return bracesText (← printObjectMembers indent members)
  | .regex text => return text
  | .str value => return Text.quote value
  | .template head spans => do
    return "`" ++ head ++ (← printSpans indent spans) ++ "`"
  | .arrayPattern slots rest => do
    let endsEmpty := endsWithEmptySlot slots
    let slots ← printSlots indent slots
    return arrayPatternText slots (← printPatternOption indent rest) endsEmpty
  | .objectPattern properties rest => do
    let properties ← printProperties indent properties
    return objectPatternText properties (← printPatternOption indent rest)

/-- Prints an expression that may be absent. -/
def printOption (indent : Nat) (level : Nat) : Option Expr → Printing (Option String)
  | none => return none
  | some e => return some (← printExpr indent .elsewhere level e)

/-- Prints a value behind an equals sign, if there is one. -/
def printInit (indent : Nat) : Option Expr → Print
  | none => return ""
  | some e => return " = " ++ (← printExpr indent .elsewhere Precedence.yielding e)

/-- Prints an argument. -/
def printArg (indent : Nat) : Arg → Print
  | ⟨isSpread, value⟩ => do
    let value ← printExpr indent .elsewhere Precedence.yielding value
    return if isSpread then "..." ++ value else value

/-- Prints arguments, each by itself. -/
def printArgs (indent : Nat) : List Arg → Printing (List String)
  | [] => return []
  | arg :: rest => do
    let arg ← printArg indent arg
    return arg :: (← printArgs indent rest)

/-- Prints the substitutions of a template with the text behind each. -/
def printSpan (indent : Nat) : TemplateSpan → Print
  | ⟨value, text⟩ => do
    let value ← printExpr indent .elsewhere Precedence.comma value
    return "$\x7b" ++ value ++ "\x7d" ++ text

/-- Prints the substitutions of a template in a row. -/
def printSpans (indent : Nat) : List TemplateSpan → Print
  | [] => return ""
  | span :: rest => do
    let span ← printSpan indent span
    return span ++ (← printSpans indent rest)

/-- Prints an element of an array literal. -/
def printItem (indent : Nat) : ArrayItem → Print
  | .single value => printExpr indent .elsewhere Precedence.yielding value
  | .spread value => do
    return "..." ++ (← printExpr indent .elsewhere Precedence.yielding value)
  | .hole => return ""

/-- Prints the elements of an array literal, each by itself. -/
def printItems (indent : Nat) : List ArrayItem → Printing (List String)
  | [] => return []
  | item :: rest => do
    let item ← printItem indent item
    return item :: (← printItems indent rest)

/-- Prints a key. -/
def printKey (indent : Nat) : Key → Print
  | .direct name => return keyNameText name
  | .computed value => do
    return "[" ++ (← printExpr indent .elsewhere Precedence.yielding value) ++ "]"

/-- Prints a method or accessor behind the words in front of it. -/
def printMethod (indent : Nat) (words : String) (key : String) : Func → Print
  | ⟨_, _, isAsync, isGenerator, params, body⟩ => do
    let params ← printParams indent params
    let body ← printBody indent body
    return words ++ (if isAsync then "async " else "") ++ (if isGenerator then "*" else "")
      ++ key ++ "(" ++ commas params ++ ") " ++ body

/-- Prints what an object member holds, behind its key. -/
def printObjectValue (indent : Nat) (key : String) : MemberValue → Print
  | .getter func => printMethod indent "get " key func
  | .setter func => printMethod indent "set " key func
  | .method func => printMethod indent "" key func
  | .field init => do
    let init ← printOption indent Precedence.yielding init
    return key ++ (init.map (": " ++ ·)).getD ""
  | .accessor init => do
    let init ← printOption indent Precedence.yielding init
    return key ++ (init.map (": " ++ ·)).getD ""
  | .staticBlock _ => failure

/-- Prints a member of an object literal. -/
def printObjectMember (indent : Nat) : ObjectMember → Print
  | .valued _ key value => do
    let key ← printKey indent key
    printObjectValue indent key value
  | .shorthand _ name => return name
  | .spread _ value => do
    return "..." ++ (← printExpr indent .elsewhere Precedence.yielding value)

/-- Prints the members of an object literal, each by itself. -/
def printObjectMembers (indent : Nat) : List ObjectMember → Printing (List String)
  | [] => return []
  | member :: rest => do
    let member ← printObjectMember indent member
    return member :: (← printObjectMembers indent rest)

/-- Prints what a class member holds, behind its key. -/
def printClassValue (indent : Nat) (key : String) : MemberValue → Print
  | .getter func => printMethod indent "get " key func
  | .setter func => printMethod indent "set " key func
  | .method func => printMethod indent "" key func
  | .field init => return key ++ (← printInit indent init) ++ ";"
  | .accessor init => return "accessor " ++ key ++ (← printInit indent init) ++ ";"
  | .staticBlock block => printBlock indent block

/-- Prints a class member on a line of its own. -/
def printClassMember (indent : Nat) : ClassMember → Print
  | ⟨_, key, isStatic, value⟩ => do
    let key ← printKey indent key
    let value ← printClassValue indent key value
    return indentation indent ++ (if isStatic then "static " else "") ++ value ++ "\n"

/-- Prints the members of a class. -/
def printClassMembers (indent : Nat) : List ClassMember → Print
  | [] => return ""
  | member :: rest => do
    let member ← printClassMember indent member
    return member ++ (← printClassMembers indent rest)

/-- Prints the heritage of a class. -/
def printHeritage (indent : Nat) : Option Expr → Print
  | none => return ""
  | some e => return " extends " ++ (← printExpr indent .elsewhere Precedence.construction e)

/-- Prints a function that is no arrow. -/
def printFunction (indent : Nat) (name : Option String) : Func → Print
  | ⟨_, _, isAsync, isGenerator, params, body⟩ => do
    let params ← printParams indent params
    let body ← printBody indent body
    return functionHeadText isAsync isGenerator name ++ "(" ++ commas params ++ ") " ++ body

/-- Prints an arrow function. -/
def printArrow (indent : Nat) : Func → Print
  | ⟨_, _, isAsync, _, params, body⟩ => do
    let params ← printParams indent params
    let body ← printBody indent body
    return (if isAsync then "async " else "") ++ "(" ++ commas params ++ ") => " ++ body

/-- Prints the body of a function. -/
def printBody (indent : Nat) : Body → Print
  | .block stmts => do
    let stmts ← printStmts (indent + 1) stmts
    return "\x7b\n" ++ stmts ++ indentation indent ++ "\x7d"
  | .value result => printExpr indent .arrowBody Precedence.yielding result

/-- Prints a parameter. -/
def printParam (indent : Nat) : Param → Print
  | ⟨_, isRest, pattern, default⟩ => do
    let pattern ← printPattern indent pattern
    let default ← printInit indent default
    return (if isRest then "..." else "") ++ pattern ++ default

/-- Prints parameters, each by itself. -/
def printParams (indent : Nat) : List Param → Printing (List String)
  | [] => return []
  | param :: rest => do
    let param ← printParam indent param
    return param :: (← printParams indent rest)

/-- Prints a pattern. -/
def printPattern (indent : Nat) : Pattern → Print
  | .id _ name => return name
  | .array _ slots rest => do
    let endsEmpty := endsWithEmptySlot slots
    let slots ← printSlots indent slots
    return arrayPatternText slots (← printPatternOption indent rest) endsEmpty
  | .object _ properties rest => do
    let properties ← printProperties indent properties
    return objectPatternText properties (← printPatternOption indent rest)
  | .target _ place => printExpr indent .elsewhere Precedence.construction place

/-- Prints a pattern that may be absent. -/
def printPatternOption (indent : Nat) : Option Pattern → Printing (Option String)
  | none => return none
  | some pattern => return some (← printPattern indent pattern)

/-- Prints an element of an array pattern. -/
def printSlot (indent : Nat) : PatternSlot → Print
  | .hole => return ""
  | .slot target default => do
    let target ← printPattern indent target
    return target ++ (← printInit indent default)

/-- Prints the elements of an array pattern, each by itself. -/
def printSlots (indent : Nat) : List PatternSlot → Printing (List String)
  | [] => return []
  | slot :: rest => do
    let slot ← printSlot indent slot
    return slot :: (← printSlots indent rest)

/-- Prints a property of an object pattern. -/
def printProperty (indent : Nat) : PatternProperty → Print
  | ⟨_, key, target, isShorthand, default⟩ => do
    let key ← if isShorthand then pure "" else (· ++ ": ") <$> printKey indent key
    let target ← printPattern indent target
    return key ++ target ++ (← printInit indent default)

/-- Prints the properties of an object pattern, each by itself. -/
def printProperties (indent : Nat) : List PatternProperty → Printing (List String)
  | [] => return []
  | property :: rest => do
    let property ← printProperty indent property
    return property :: (← printProperties indent rest)

/-- Prints a declarator. -/
def printDeclarator (indent : Nat) : Declarator → Print
  | ⟨pattern, init⟩ => do
    let pattern ← printPattern indent pattern
    return pattern ++ (← printInit indent init)

/-- Prints declarators, each by itself. -/
def printDeclarators (indent : Nat) : List Declarator → Printing (List String)
  | [] => return []
  | declarator :: rest => do
    let declarator ← printDeclarator indent declarator
    return declarator :: (← printDeclarators indent rest)

/-- Prints statements in braces, without a line break behind them. -/
def printBlock (indent : Nat) : Block → Print
  | ⟨_, body⟩ => do
    let body ← printStmts (indent + 1) body
    return "\x7b\n" ++ body ++ indentation indent ++ "\x7d"

/-- Prints statements, each on lines of its own. -/
def printStmts (indent : Nat) : List Stmt → Print
  | [] => return ""
  | stmt :: rest => do
    let stmt ← printStmt indent stmt
    return indentation indent ++ stmt ++ (← printStmts indent rest)

/-- Prints a statement through its last line break, without the blanks in front. -/
def printStmt (indent : Nat) : Stmt → Print
  | ⟨_, shape⟩ => printStmtShape indent shape

/-- Prints a statement that another one follows on the same line after a block. -/
def printLeading (indent : Nat) : Stmt → Print
  | ⟨_, .block body⟩ => do
    let body ← printStmts (indent + 1) body
    return " \x7b\n" ++ body ++ indentation indent ++ "\x7d "
  | ⟨_, shape⟩ => return " " ++ (← printStmtShape indent shape) ++ indentation indent

/-- Prints a branch of a switch. -/
def printBranch (indent : Nat) : SwitchBranch → Print
  | ⟨_, test, body⟩ => do
    let test ← printOption indent Precedence.comma test
    let body ← printStmts (indent + 1) body
    let head := match test with
      | some test => "case " ++ test ++ ":\n"
      | none => "default:\n"
    return indentation indent ++ head ++ body

/-- Prints the branches of a switch. -/
def printBranches (indent : Nat) : List SwitchBranch → Print
  | [] => return ""
  | branch :: rest => do
    let branch ← printBranch indent branch
    return branch ++ (← printBranches indent rest)

/-- Prints a statement of the shape. -/
def printStmtShape (indent : Nat) : StmtShape → Print
  | .block body => do
    let body ← printStmts (indent + 1) body
    return "\x7b\n" ++ body ++ indentation indent ++ "\x7d\n"
  | .breakTo label => return "break" ++ labelText label ++ ";\n"
  | .comment text => return text ++ "\n"
  | .continueTo label => return "continue" ++ labelText label ++ ";\n"
  | .debugger => return "debugger;\n"
  | .doWhile condition body => do
    let body ← printLeading indent body
    let condition ← printExpr indent .elsewhere Precedence.comma condition
    return "do" ++ body ++ "while (" ++ condition ++ ");\n"
  | .empty => return ";\n"
  | .exportDefault value => do
    let value ← printExpr indent .exportDefault Precedence.yielding value
    return "export default " ++ value ++ ";\n"
  | .exportNames names module =>
    return "export " ++ exportNamesText names
      ++ ((module.map (" from " ++ Text.quote ·)).getD "") ++ ";\n"
  | .expr value => do
    return (← printExpr indent .statementStart Precedence.comma value) ++ ";\n"
  | .forIn keyword binding subject body => do
    let binding ← printPattern indent binding
    let subject ← printExpr indent .elsewhere Precedence.comma subject
    let body ← printStmt indent body
    return "for (" ++ (keyword.map (·.text ++ " ")).getD "" ++ binding ++ " in " ++ subject ++ ") "
      ++ body
  | .forOf isAwait keyword binding subject body => do
    let binding ← printPattern indent binding
    let subject ← printExpr indent .elsewhere Precedence.yielding subject
    let body ← printStmt indent body
    return (if isAwait then "for await (" else "for (") ++ (keyword.map (·.text ++ " ")).getD ""
      ++ binding ++ " of " ++ subject ++ ") " ++ body
  | .forLoop init condition post body => do
    let init ← inLoopHead ((·.getD "") <$> printOption indent Precedence.comma init)
    let condition ← printOption indent Precedence.comma condition
    let post ← printOption indent Precedence.comma post
    let body ← printStmt indent body
    return "for (" ++ init ++ "; " ++ condition.getD "" ++ "; " ++ post.getD "" ++ ") " ++ body
  | .forDecl _ keyword declarators condition post body => do
    let init ← inLoopHead (commas <$> printDeclarators indent declarators)
    let condition ← printOption indent Precedence.comma condition
    let post ← printOption indent Precedence.comma post
    let body ← printStmt indent body
    return "for (" ++ keyword.text ++ " " ++ init ++ "; " ++ condition.getD "" ++ "; "
      ++ post.getD "" ++ ") " ++ body
  | .ifThen test consequent => do
    let test ← printExpr indent .elsewhere Precedence.comma test
    let consequent ← printStmt indent consequent
    return "if (" ++ test ++ ") " ++ consequent
  | .ifElse test consequent alternate => do
    let test ← printExpr indent .elsewhere Precedence.comma test
    let consequent ← printLeading indent consequent
    let alternate ← printStmt indent alternate
    return "if (" ++ test ++ ")" ++ consequent ++ "else " ++ alternate
  | .importNames default names module =>
    return "import " ++ importClauseText default names ++ Text.quote module ++ ";\n"
  | .label name body => do
    return name ++ ": " ++ (← printStmt indent body)
  | .return value => do
    let value ← printOption indent Precedence.comma value
    return "return" ++ (value.map (" " ++ ·)).getD "" ++ ";\n"
  | .switch test branches => do
    let test ← printExpr indent .elsewhere Precedence.comma test
    let branches ← printBranches (indent + 1) branches
    return "switch (" ++ test ++ ") \x7b\n" ++ branches ++ indentation indent ++ "\x7d\n"
  | .throw value => do
    return "throw " ++ (← printExpr indent .elsewhere Precedence.comma value) ++ ";\n"
  | .tryCatch body param handler => do
    let body ← printBlock indent body
    let param ← printPatternOption indent param
    let handler ← printBlock indent handler
    return "try " ++ body ++ " catch " ++ ((param.map ("(" ++ · ++ ") ")).getD "") ++ handler
      ++ "\n"
  | .tryFinally body finalizer => do
    let body ← printBlock indent body
    let finalizer ← printBlock indent finalizer
    return "try " ++ body ++ " finally " ++ finalizer ++ "\n"
  | .tryCatchFinally body param handler finalizer => do
    let body ← printBlock indent body
    let param ← printPatternOption indent param
    let handler ← printBlock indent handler
    let finalizer ← printBlock indent finalizer
    return "try " ++ body ++ " catch " ++ ((param.map ("(" ++ · ++ ") ")).getD "") ++ handler
      ++ " finally " ++ finalizer ++ "\n"
  | .while condition body => do
    let condition ← printExpr indent .elsewhere Precedence.comma condition
    let body ← printStmt indent body
    return "while (" ++ condition ++ ") " ++ body
  | .with object body => do
    let object ← printExpr indent .elsewhere Precedence.comma object
    let body ← printStmt indent body
    return "with (" ++ object ++ ") " ++ body
  | .classDecl exported name heritage members => do
    let heritage ← printHeritage indent heritage
    let members ← printClassMembers (indent + 1) members
    return exportedText exported ++ classText indent name heritage members ++ "\n"
  | .functionDecl exported name func => do
    return exportedText exported ++ (← printFunction indent name func) ++ "\n"
  | .varDecl isExported keyword declarators => do
    let declarators ← printDeclarators indent declarators
    return (if isExported then "export " else "") ++ keyword.text ++ " " ++ commas declarators
      ++ ";\n"

end

end Printer

/-- The text of a program, unless a static block is no member of a class. -/
def Program.print? (program : Program) : Option String :=
  ((Printer.printStmts 0 program.body).run false).map (·.1)

/-- The text of a program. -/
def Program.print (program : Program) : String :=
  program.print?.getD ""

/-- The text of an expression by itself, unless a static block is no member of a class. -/
def Expr.print? (e : Expr) : Option String :=
  ((Printer.printExpr 0 .elsewhere Precedence.comma e).run false).map (·.1)

/-- The text of an expression by itself. -/
def Expr.print (e : Expr) : String :=
  e.print?.getD ""

end Downlevel
