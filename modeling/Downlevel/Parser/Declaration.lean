import Downlevel.Parser.AssignmentTarget
import Downlevel.Parser.Member

/-! Declarations of variables, functions and classes. -/

namespace Downlevel.Parser

/-- The keyword that declares variables. -/
def declKeyword : Parser DeclKeyword := do
  let token ← take
  match token.kind with
  | .keyword .letKw => return .letDecl
  | .keyword .constKw => return .constDecl
  | .keyword .varKw => return .varDecl
  | _ => fail (token.error (.expected "variable declaration"))

/-- The words that export a declaration. -/
def exportWords : Parser Exported := do
  if !(← accept (.keyword .exportKw)) then return .notExported
  return if ← accept (.keyword .defaultKw) then .asDefault else .byName

/-- Only a default export can do without a name. -/
def requireName (exported : Exported) (name : Option String) (start : Token) (what : String) :
    Parser Unit := do
  if name.isNone ∧ exported ≠ .asDefault then fail (start.error (.expected what))

namespace Grammar

/-- A declarator whose pattern is already read. -/
def declaratorOf (grammar : Grammar) (context : Context) (pattern : Pattern) :
    Parser Declarator := do
  return ⟨pattern, ← grammar.initializer context [.symbol .semicolon, .symbol .comma]⟩

/-- One round over the declarators behind the first. -/
def declaratorRound (grammar : Grammar) (context : Context) (declarators : List Declarator) :
    Parser (Round (List Declarator) (List Declarator)) := do
  if !(← accept (.symbol .comma)) then return .done declarators
  let pattern ← grammar.pattern context
  return .again (declarators ++ [← grammar.declaratorOf context pattern])

/-- The declarators of which the pattern of the first is already read. -/
def declaratorsOf (grammar : Grammar) (context : Context) (pattern : Pattern) :
    Parser (List Declarator) := do
  loop (grammar.declaratorRound context) [← grammar.declaratorOf context pattern]

/-- A declaration of variables. -/
def varDecl (grammar : Grammar) (context : Context) : Parser Stmt := do
  let (span, shape) ← spanned do
    let isExported ← accept (.keyword .exportKw)
    let keyword ← declKeyword
    let pattern ← grammar.pattern context
    let declarators ← grammar.declaratorsOf context pattern
    endStatement
    return StmtShape.varDecl isExported keyword declarators
  return ⟨span, shape⟩

/-- A declaration of a function. -/
def functionDecl (grammar : Grammar) (context : Context) : Parser Stmt := do
  let (span, shape) ← spanned do
    let exported ← exportWords
    let start ← peek
    let head ← functionHead
    requireName exported head.name start "function name"
    let func ← grammar.functionRest context head.isAsync head.isGenerator
    return StmtShape.functionDecl exported head.name func
  return ⟨span, shape⟩

/-- A declaration of a class. -/
def classDecl (grammar : Grammar) (context : Context) : Parser Stmt := do
  let (span, shape) ← spanned do
    let exported ← exportWords
    let start ← peek
    let (name, heritage, members) ← grammar.classParts context
    requireName exported name start "class name"
    return StmtShape.classDecl exported name heritage members
  return ⟨span, shape⟩

end Grammar

end Downlevel.Parser
