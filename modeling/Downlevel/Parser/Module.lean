import Downlevel.Parser.Declaration

/-! Imports and exports. -/

namespace Downlevel.Parser

/-- The name of a module, in quotes. -/
def moduleSpecifier : Parser String := do
  stringValue (← require .string)

/-- The name in an import or export list, and whether it needs an alias. A name that cannot be
bound needs one where it is imported. -/
def listedName (isExport : Bool) (token : Token) : Parser (ModuleName × Bool) := do
  if token.kind = .string then
    return (.string (← stringValue token), !isExport)
  else if token.kind.isBindable then
    return (.identifier token.text, false)
  else if token.kind.isKeyword then
    return (.identifier token.text, !isExport)
  else
    fail (token.error .expectedNotFound)

/-- The alias in an import or export list. -/
def listedAlias (isExport : Bool) : Parser String := do
  let token ← take
  if token.kind = .string ∧ isExport then
    stringValue token
  else if token.kind.isBindable ∨ (isExport ∧ token.kind.isKeyword) then
    return token.text
  else
    fail (token.error (.expected "identifier"))

/-- One entry of an import or export list, with its alias. -/
def listEntry (isExport : Bool) : Parser (ModuleName × String) := do
  let token ← take
  let (name, needsAlias) ← listedName isExport token
  if ← accept (.keyword .asKw) then
    return (name, ← listedAlias isExport)
  if needsAlias then fail (token.error (.tokenRequired (.keyword .asKw)))
  return (name, name.text)

/-- The entries of an import or export list in braces. -/
def listEntries (isExport : Bool) : Parser (List (ModuleName × String)) := do
  symbol .braceOpen
  let entries ← commaList .braceClose (listEntry isExport)
  symbol .braceClose
  return entries

/-- A name that an import binds. -/
def importBinding : Parser String := do
  return (← bindingId).2

/-- What an import binds besides the default. -/
def importNames : Parser ImportNames := do
  if ← accept (.symbol .asterisk) then
    keyword .asKw
    return .all (← importBinding)
  let entries ← listEntries false
  return .specific (entries.map fun (name, binding) => ⟨name, binding⟩)

/-- What an import binds, up to the word in front of the module. -/
def importClause : Parser (Option String × Option ImportNames) := do
  if (← peek).kind.isBindable then
    let default ← importBinding
    if ← accept (.symbol .comma) then return (some default, some (← importNames))
    return (some default, none)
  return (none, some (← importNames))

/-- An import statement. -/
def importStmt : Parser Stmt := do
  let (span, shape) ← spanned do
    keyword .importKw
    if (← peek).kind = .string then
      let module ← moduleSpecifier
      endStatement
      return StmtShape.importNames none none module
    let (default, names) ← importClause
    keyword .fromKw
    let module ← moduleSpecifier
    endStatement
    return .importNames default names module
  return ⟨span, shape⟩

/-- The name under which everything of a module is exported; any word will do. -/
def namespaceAlias : Parser String := do
  let token ← take
  match token.kind with
  | .string => stringValue token
  | .identifier | .keyword _ => return token.text
  | _ => fail (token.error (.expected "identifier"))

/-- What an export without a declaration exports. -/
def exportNames : Parser ExportNames := do
  if ← accept (.symbol .asterisk) then
    if ← accept (.keyword .asKw) then return .all (some (← namespaceAlias))
    return .all none
  let entries ← listEntries true
  return .specific (entries.map fun (name, outer) => ⟨name, outer⟩)

/-- The module an export takes its names from; everything must come from some module. -/
def exportSource (names : ExportNames) : Parser (Option String) := do
  if ← accept (.keyword .fromKw) then return some (← moduleSpecifier)
  match names with
  | .all _ => fail ((← peek).error (.tokenRequired (.keyword .fromKw)))
  | .specific _ => return none

/-- An export without a declaration. -/
def exportListStmt : Parser Stmt := do
  let (span, shape) ← spanned do
    keyword .exportKw
    let names ← exportNames
    let module ← exportSource names
    endStatement
    return StmtShape.exportNames names module
  return ⟨span, shape⟩

/-- Whether an asynchronous function follows the words of a default export. -/
def asyncFunctionExported : Parser Bool := do
  let saved ← checkpoint
  let _ ← take
  let _ ← take
  let (first, second) ← peek2
  restore saved
  return first.kind == .keyword .asyncKw && second.kind == .keyword .functionKw
    && !second.afterLineBreak

namespace Grammar

/-- An expression as the default export. -/
def exportDefault (grammar : Grammar) (context : Context) : Parser Stmt := do
  let (span, shape) ← spanned do
    keyword .exportKw
    keyword .defaultKw
    let value ← grammar.element context [.symbol .semicolon]
    endStatement
    return StmtShape.exportDefault value
  return ⟨span, shape⟩

/-- Any statement that starts with the export keyword. -/
def exportStmt (grammar : Grammar) (context : Context) : Parser Stmt := do
  let (_, second, third) ← peek3
  match second.kind with
  | .keyword .defaultKw =>
    match third.kind with
    | .keyword .functionKw => grammar.functionDecl context
    | .keyword .classKw => grammar.classDecl context
    | .keyword .asyncKw =>
      if ← asyncFunctionExported then grammar.functionDecl context
      else grammar.exportDefault context
    | _ => grammar.exportDefault context
  | .keyword .varKw | .keyword .letKw | .keyword .constKw => grammar.varDecl context
  | .keyword .functionKw | .keyword .asyncKw => grammar.functionDecl context
  | .keyword .classKw => grammar.classDecl context
  | .symbol .braceOpen | .symbol .asterisk => exportListStmt
  | _ => fail (second.error (.expected "exportable"))

end Grammar

end Downlevel.Parser
