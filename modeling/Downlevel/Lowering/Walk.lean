import Downlevel.Lowering.Statement

/-! Every part of a program gets its forms from those of its own parts, so lowering a program is one
walk through its tree. -/

namespace Downlevel

namespace Lowering

/-- A link that goes on with the chain of its object, or starts one on it. -/
def chainOn (link : ChainLink) (object : ExprForms) (part : LinkForms) : ChainForms :=
  if link = .continues then { object.chain with links := object.chain.links ++ [part] }
  else
    { base := some { source := object.source, value := object.value, callee := splitCallee object }
      links := [part] }

/-- The object of a link of a chain that stays. -/
def nativeObject (link : ChainLink) (object : ExprForms) : Lower Expr :=
  if link = .continues then object.natively else object.value

/-- The forms of a link, which is lowered along with its chain if it is part of one. -/
def linkForms (link : ChainLink) (forms : ExprForms) : ExprForms :=
  if link.isChained then { forms with value := Prod.fst <$> optionalChain forms .value } else forms

/-- The forms of a member access. -/
def memberForms (origin : Origin) (link : ChainLink) (object : ExprForms) (name : String) :
    ExprForms :=
  let source : Expr := ⟨origin, .member link object.source name⟩
  let kept (inner : Lower Expr) : Lower Expr := return ⟨origin, .member link (← inner) name⟩
  let place := PlaceForms.member object.source object.value name
  linkForms link {
    source
    value := do
      match ← privateBinding? name with
      | some binding => return binding.read origin.span (← object.value)
      | none => kept object.value
    target := do
      match ← privateBinding? name with
      | some binding => return binding.wrapper origin.span (← object.value)
      | none => kept object.value
    place
    natively := kept (nativeObject link object)
    chain := chainOn link object (.member origin.span name) }

/-- The forms of a computed member access. -/
def computedForms (origin : Origin) (link : ChainLink) (object key : ExprForms) : ExprForms :=
  let kept (inner : Lower Expr) : Lower Expr := do
    let object ← inner
    return ⟨origin, .computed link object (← key.value)⟩
  linkForms link {
    source := ⟨origin, .computed link object.source key.source⟩
    value := kept object.value
    target := kept object.value
    place := .computed object.source object.value key.value
    natively := kept (nativeObject link object)
    chain := chainOn link object (.computed origin.span key.value) }

/-- The forms of a call. -/
def callForms (origin : Origin) (link : ChainLink) (isPure : Bool) (callee : ExprForms)
    (source : List Arg) (args : Lower (List Arg)) : ExprForms :=
  let forms := linkForms link {
    source := ⟨origin, .call link isPure callee.source source⟩
    value := do
      let (function, receiver) ← calledExpr callee
      let args ← args
      match receiver with
      | some receiver => return .callWithThis origin.span function receiver args
      | none => return ⟨origin, .call link isPure function args⟩
    natively := do
      let function ← nativeObject link callee
      return ⟨origin, .call link isPure function (← args)⟩
    chain := chainOn link callee (.call origin.span isPure args) }
  -- A call is no place, so where one is asked for it is lowered as a value.
  { forms with target := forms.value }

/-- The forms of a name. -/
def nameForms (origin : Origin) (name : String) : ExprForms :=
  let source : Expr := ⟨origin, .id name⟩
  { source
    value := do
      if name ≠ "arguments" then return source
      match ← resolveArguments with
      | some other => return .id origin.span other
      | none => return source
    target := return source
    place := .identifier name }

/-- The forms of a pattern on the left side of an assignment. -/
def assignedPattern (source : Expr) (target : Lower Expr) : ExprForms :=
  { source, value := target, target }

/-- The forms of an expression that is always lowered in the same way. -/
def plainForms (source : Expr) (value : Lower Expr) : ExprForms :=
  { source, value }

/-- An operand of a delegating `yield`, which a generator that stands in for another one marks. -/
def delegated (span : Span) (operand : Expr) : Lower Expr := do
  if (← here).awaitForm = .yieldAwait then return .helper span "__yieldStar" [operand]
  else return operand

mutual

/-- The forms of an expression. -/
def exprForms : Expr → ExprForms
  | ⟨origin, shape⟩ => shapeForms origin shape

/-- The forms of the expression that has the origin and the shape. -/
def shapeForms (origin : Origin) : Shape → ExprForms
  | .arrow func =>
    plainForms ⟨origin, .arrow func⟩ do
      let func ← funcStep func
      if ← lacks .arrow then return arrowToFunction origin.span func
      else return ⟨origin, .arrow func⟩
  | .binary op left right =>
    let leftForms := exprForms left
    let rightForms := exprForms right
    plainForms ⟨origin, .binary op left right⟩ (binary origin op leftForms rightForms)
  | .call link isPure callee args =>
    callForms origin link isPure (exprForms callee) args (argsStep args)
  | .classExpr name heritage members =>
    plainForms ⟨origin, .classExpr name heritage members⟩
      (classExpression origin.span name (heritageStep heritage) members (classMembersForms members))
  | .computed link object key => computedForms origin link (exprForms object) (exprForms key)
  | .cond test consequent alternate =>
    let testForms := exprForms test
    let consequentForms := exprForms consequent
    let alternateForms := exprForms alternate
    plainForms ⟨origin, .cond test consequent alternate⟩ do
      let test ← testForms.value
      let consequent ← consequentForms.value
      return ⟨origin, .cond test consequent (← alternateForms.value)⟩
  | .function name func =>
    plainForms ⟨origin, .function name func⟩ do
      return ⟨origin, .function name (← funcStep func)⟩
  | .id name => nameForms origin name
  | .importCall module =>
    let moduleForms := exprForms module
    plainForms ⟨origin, .importCall module⟩ do
      return ⟨origin, .importCall (← moduleForms.value)⟩
  | .member link object name => memberForms origin link (exprForms object) name
  | .new callee args =>
    let calleeForms := exprForms callee
    plainForms ⟨origin, .new callee args⟩ do
      let callee ← calleeForms.value
      return ⟨origin, .new callee (← argsStep args)⟩
  | .tagged tag head spans =>
    plainForms ⟨origin, .tagged tag head spans⟩
      (taggedTemplate origin (exprForms tag) head (spansStep spans))
  | .this =>
    plainForms ⟨origin, .this⟩ do
      match ← resolveThis with
      | some name => return .id origin.span name
      | none => return ⟨origin, .this⟩
  | .unary op operand =>
    plainForms ⟨origin, .unary op operand⟩ (unary origin op (exprForms operand))
  | .update op operand =>
    let operandForms := exprForms operand
    plainForms ⟨origin, .update op operand⟩ do
      return ⟨origin, .update op (← operandForms.target)⟩
  | .yield isDelegated operand =>
    plainForms ⟨origin, .yield isDelegated operand⟩ do
      match ← optionStep operand with
      | some operand =>
        let operand ← if isDelegated then delegated origin.span operand else pure operand
        return ⟨origin, .yield isDelegated (some operand)⟩
      | none => return ⟨origin, .yield isDelegated none⟩
  | .array items =>
    plainForms ⟨origin, .array items⟩ do return ⟨origin, .array (← itemsStep items)⟩
  | .bigint digits =>
    plainForms ⟨origin, .bigint digits⟩ do
      if ← lacks .bigint then return bigintCall origin.span digits
      else return ⟨origin, .bigint digits⟩
  | .object members =>
    plainForms ⟨origin, .object members⟩ do objectLiteral origin (← objectMembersStep members)
  | .template head spans =>
    plainForms ⟨origin, .template head spans⟩ do
      let spans ← spansStep spans
      if ← lacks .templateLiteral then templateToSum origin.span head spans
      else return ⟨origin, .template head spans⟩
  | .arrayPattern slots rest =>
    assignedPattern ⟨origin, .arrayPattern slots rest⟩ do
      let slots ← slotsStep false slots
      return ⟨origin, .arrayPattern slots (← patternOptionStep rest)⟩
  | .objectPattern properties rest =>
    assignedPattern ⟨origin, .objectPattern properties rest⟩ do
      let properties ← propertiesStep false properties
      return ⟨origin, .objectPattern properties (← patternOptionStep rest)⟩
  | .importMeta => plainForms ⟨origin, .importMeta⟩ (return ⟨origin, .importMeta⟩)
  | .newTarget => plainForms ⟨origin, .newTarget⟩ (return ⟨origin, .newTarget⟩)
  | .super => plainForms ⟨origin, .super⟩ (return ⟨origin, .super⟩)
  | .bool value => plainForms ⟨origin, .bool value⟩ (return ⟨origin, .bool value⟩)
  | .null => plainForms ⟨origin, .null⟩ (return ⟨origin, .null⟩)
  | .num text => plainForms ⟨origin, .num text⟩ (return ⟨origin, .num text⟩)
  | .regex text => plainForms ⟨origin, .regex text⟩ (return ⟨origin, .regex text⟩)
  | .str value => plainForms ⟨origin, .str value⟩ (return ⟨origin, .str value⟩)

/-- Lowers an expression that may be absent. -/
def optionStep : Option Expr → Lower (Option Expr)
  | none => return none
  | some e => return some (← (exprForms e).value)

/-- The step that lowers the heritage of a class, if it has one. -/
def heritageStep : Option Expr → Option (Lower Expr)
  | none => none
  | some e => some (exprForms e).value

/-- The forms of an expression that may be absent. -/
def optionForms : Option Expr → Option ExprForms
  | none => none
  | some e => some (exprForms e)

/-- Lowers an argument. -/
def argStep : Arg → Lower Arg
  | ⟨isSpread, value⟩ => return ⟨isSpread, ← (exprForms value).value⟩

/-- Lowers arguments. -/
def argsStep : List Arg → Lower (List Arg)
  | [] => return []
  | arg :: rest => do
    let arg ← argStep arg
    return arg :: (← argsStep rest)

/-- Lowers a substitution. -/
def spanStep : TemplateSpan → Lower TemplateSpan
  | ⟨value, text⟩ => return ⟨← (exprForms value).value, text⟩

/-- Lowers substitutions. -/
def spansStep : List TemplateSpan → Lower (List TemplateSpan)
  | [] => return []
  | span :: rest => do
    let span ← spanStep span
    return span :: (← spansStep rest)

/-- Lowers an element of an array literal. -/
def itemStep : ArrayItem → Lower ArrayItem
  | .single value => return .single (← (exprForms value).value)
  | .spread value => return .spread (← (exprForms value).value)
  | .hole => return .hole

/-- Lowers the elements of an array literal. -/
def itemsStep : List ArrayItem → Lower (List ArrayItem)
  | [] => return []
  | item :: rest => do
    let item ← itemStep item
    return item :: (← itemsStep rest)

/-- The forms of a key. -/
def keyForms : Key → KeyForms
  | .direct name => .direct name
  | .computed value => .computed (exprForms value)

/-- The forms of what a class member holds. -/
def memberValueForms : MemberValue → MemberForms
  | .getter func => .getter (funcStep func)
  | .setter func => .setter (funcStep func)
  | .method func => .method (funcStep func)
  | .field init => .field (heritageStep init)
  | .accessor init => .accessor (heritageStep init)
  | .staticBlock ⟨span, body⟩ => .staticBlock span (stmtsStep body)

/-- Lowers what a member of an object literal holds. -/
def objectValueStep : MemberValue → Lower MemberValue
  | .getter func => return .getter (← funcStep func)
  | .setter func => return .setter (← funcStep func)
  | .method func => return .method (← funcStep func)
  | .field init => return .field (← optionStep init)
  | .accessor init => return .accessor init
  | .staticBlock block => return .staticBlock block

/-- Lowers a member of an object literal. -/
def objectMemberStep : ObjectMember → Lower ObjectMember
  | .valued span key value => do
    let key ← lowerKey (keyForms key)
    return .valued span key (← objectValueStep value)
  | .shorthand span name => shorthandMember span name
  | .spread span value => return .spread span (← (exprForms value).value)

/-- Lowers the members of an object literal. -/
def objectMembersStep : List ObjectMember → Lower (List ObjectMember)
  | [] => return []
  | member :: rest => do
    let member ← objectMemberStep member
    return member :: (← objectMembersStep rest)

/-- The forms of a member of a class. -/
def classMemberForms : ClassMember → ClassMemberForms
  | ⟨span, key, isStatic, value⟩ => ⟨span, keyForms key, isStatic, memberValueForms value⟩

/-- The forms of the members of a class. -/
def classMembersForms : List ClassMember → List ClassMemberForms
  | [] => []
  | member :: rest => classMemberForms member :: classMembersForms rest

/-- Lowers a function. -/
def funcStep : Func → Lower Func
  | ⟨span, isArrow, isAsync, isGenerator, params, body⟩ =>
    lowerFunc ⟨span, isArrow, isAsync, isGenerator, params, body⟩ (paramsStep params)
      (bodyStep body)

/-- Lowers the body of a function. -/
def bodyStep : Body → Lower Body
  | .block stmts => return .block (← stmtsStep stmts)
  | .value result => return .value (← (exprForms result).value)

/-- Lowers a parameter. -/
def paramStep : Param → Lower Param
  | ⟨span, isRest, pattern, default⟩ =>
    lowerParam ⟨span, isRest, pattern, default⟩ (patternForms pattern) (optionForms default)

/-- Lowers parameters. -/
def paramsStep : List Param → Lower (List Param)
  | [] => return []
  | param :: rest => do
    let param ← paramStep param
    return param :: (← paramsStep rest)

/-- The forms of a pattern. -/
def patternForms : Pattern → PatternForms
  | .id span name =>
    { source := .id span name
      bound := return .id span name
      assigned := nameForms ⟨span, false⟩ name }
  | .array span slots rest =>
    { source := .array span slots rest
      bound := do
        let slots ← slotsStep true slots
        return .array span slots (← patternOptionStep rest)
      assigned := assignedPattern (.of span (.arrayPattern slots rest)) do
        let slots ← slotsStep false slots
        return .of span (.arrayPattern slots (← patternOptionStep rest)) }
  | .object span properties rest =>
    { source := .object span properties rest
      bound := do
        let properties ← propertiesStep true properties
        return .object span properties (← patternOptionStep rest)
      assigned := assignedPattern (.of span (.objectPattern properties rest)) do
        let properties ← propertiesStep false properties
        return .of span (.objectPattern properties (← patternOptionStep rest)) }
  | .target span place =>
    let forms := exprForms place
    { source := .target span place
      bound := return .target span (← forms.target)
      assigned := forms }

/-- The forms of a pattern that may be absent. -/
def patternOptionForms : Option Pattern → Option PatternForms
  | none => none
  | some pattern => some (patternForms pattern)

/-- Lowers a pattern that may be absent. -/
def patternOptionStep : Option Pattern → Lower (Option Pattern)
  | none => return none
  | some pattern => return some (← (patternForms pattern).bound)

/-- Lowers a default value, which may belong to a parameter if it is bound. -/
def defaultStep (isBound : Bool) : Option Expr → Lower (Option Expr)
  | none => return none
  | some e =>
    let forms := exprForms e
    return some (← if isBound then rooted forms else forms.value)

/-- Lowers an element of an array pattern. -/
def slotStep (isBound : Bool) : PatternSlot → Lower PatternSlot
  | .hole => return .hole
  | .slot target default => do
    let target ← (patternForms target).bound
    return .slot target (← defaultStep isBound default)

/-- Lowers the elements of an array pattern. -/
def slotsStep (isBound : Bool) : List PatternSlot → Lower (List PatternSlot)
  | [] => return []
  | slot :: rest => do
    let slot ← slotStep isBound slot
    return slot :: (← slotsStep isBound rest)

/-- Lowers a property of an object pattern. -/
def propertyStep (isBound : Bool) : PatternProperty → Lower PatternProperty
  | ⟨span, key, target, isShorthand, default⟩ => do
    let key ← lowerKey (keyForms key)
    let target ← (patternForms target).bound
    return ⟨span, key, target, isShorthand, ← defaultStep isBound default⟩

/-- Lowers the properties of an object pattern. -/
def propertiesStep (isBound : Bool) : List PatternProperty → Lower (List PatternProperty)
  | [] => return []
  | property :: rest => do
    let property ← propertyStep isBound property
    return property :: (← propertiesStep isBound rest)

/-- Lowers a declarator. -/
def declaratorStep : Declarator → Lower Declarator
  | ⟨pattern, init⟩ => do
    let pattern ← declaredPattern (patternForms pattern)
    return ⟨pattern, ← optionStep init⟩

/-- Lowers declarators. -/
def declaratorsStep : List Declarator → Lower (List Declarator)
  | [] => return []
  | declarator :: rest => do
    let declarator ← declaratorStep declarator
    return declarator :: (← declaratorsStep rest)

/-- Lowers statements in braces. -/
def blockStep : Block → Lower Block
  | ⟨span, body⟩ => return ⟨span, ← stmtsStep body⟩

/-- Lowers statements. -/
def stmtsStep : List Stmt → Lower (List Stmt)
  | [] => return []
  | stmt :: rest => do
    let stmts ← (stmtForms stmt).stmts
    return stmts ++ (← stmtsStep rest)

/-- Lowers a branch of a switch. -/
def branchStep : SwitchBranch → Lower SwitchBranch
  | ⟨span, test, body⟩ => do
    let test ← optionStep test
    return ⟨span, test, ← stmtsStep body⟩

/-- Lowers the branches of a switch. -/
def branchesStep : List SwitchBranch → Lower (List SwitchBranch)
  | [] => return []
  | branch :: rest => do
    let branch ← branchStep branch
    return branch :: (← branchesStep rest)

/-- The forms of a statement. -/
def stmtForms : Stmt → StmtForms
  | ⟨span, .block body⟩ =>
    { span
      stmts := return [.block span (← stmtsStep body)]
      unbraced := stmtsStep body }
  | ⟨span, shape⟩ => { span, stmts := stmtShapeStep span shape }

/-- Lowers the statement that has the span and the shape. -/
def stmtShapeStep (span : Span) : StmtShape → Lower (List Stmt)
  | .block body => return [.block span (← stmtsStep body)]
  | .doWhile condition body => do
    -- The body comes first in a run and in the source.
    let body ← (stmtForms body).single
    return [⟨span, .doWhile (← (exprForms condition).value) body⟩]
  | .exportDefault value => return [⟨span, .exportDefault (← (exprForms value).value)⟩]
  | .exportNames names module => exportStatement span names module
  | .expr value => return exprStmt span (← (exprForms value).value)
  | .forIn keyword binding subject body => do
    let binding ← loopBinding keyword (patternForms binding)
    let subject ← (exprForms subject).value
    return [⟨span, .forIn keyword binding subject (← (stmtForms body).single)⟩]
  | .forOf isAwait keyword binding subject body => do
    let binding := patternForms binding
    let subject := (exprForms subject).value
    let body := stmtForms body
    if isAwait then return [← forAwaitLoop span keyword binding subject body]
    require .forOf span .forOfLoop
    return [← nativeLoop span false keyword binding subject body]
  | .forLoop init condition post body => do
    let init ← optionStep init
    let condition ← optionStep condition
    let post ← optionStep post
    return [⟨span, .forLoop init condition post (← (stmtForms body).single)⟩]
  | .forDecl declSpan keyword declarators condition post body => do
    let declarators ← varDeclarators declSpan keyword (declaratorsStep declarators)
    let condition ← optionStep condition
    let post ← optionStep post
    return [⟨span,
      .forDecl declSpan keyword declarators condition post (← (stmtForms body).single)⟩]
  | .ifThen test consequent => do
    return [← ifStatement span (exprForms test).value (stmtForms consequent) none]
  | .ifElse test consequent alternate => do
    return [← ifStatement span (exprForms test).value (stmtForms consequent)
      (some (stmtForms alternate))]
  | .label name body => return [⟨span, .label name (← (stmtForms body).single)⟩]
  | .return value => return [⟨span, .return (← optionStep value)⟩]
  | .switch test branches => do
    let test ← (exprForms test).value
    return [⟨span, .switch test (← branchesStep branches)⟩]
  | .throw value => return [⟨span, .throw (← (exprForms value).value)⟩]
  | .tryCatch body param ⟨handlerSpan, handler⟩ => do
    let body ← blockStep body
    let param ← handlerParam handlerSpan (patternOptionForms param)
    return [⟨span, .tryCatch body param ⟨handlerSpan, ← stmtsStep handler⟩⟩]
  | .tryFinally body finalizer => do
    let body ← blockStep body
    return [⟨span, .tryFinally body (← blockStep finalizer)⟩]
  | .tryCatchFinally body param ⟨handlerSpan, handler⟩ finalizer => do
    let body ← blockStep body
    let param ← handlerParam handlerSpan (patternOptionForms param)
    let handler ← stmtsStep handler
    return [⟨span, .tryCatchFinally body param ⟨handlerSpan, handler⟩ (← blockStep finalizer)⟩]
  | .while condition body => do
    let condition ← (exprForms condition).value
    return [⟨span, .while condition (← (stmtForms body).single)⟩]
  | .with object body => do
    let object ← (exprForms object).value
    return [⟨span, .with object (← (stmtForms body).single)⟩]
  | .classDecl exported name heritage members =>
    classDeclaration span exported name (heritageStep heritage) members (classMembersForms members)
  | .functionDecl exported name func =>
    return [⟨span, .functionDecl exported name (← funcStep func)⟩]
  | .varDecl isExported keyword declarators => do
    let declarators ← varDeclarators span keyword (declaratorsStep declarators)
    return [⟨span, .varDecl isExported keyword declarators⟩]
  | .breakTo label => return [⟨span, .breakTo label⟩]
  | .comment text => return [⟨span, .comment text⟩]
  | .continueTo label => return [⟨span, .continueTo label⟩]
  | .debugger => return [⟨span, .debugger⟩]
  | .empty => return [⟨span, .empty⟩]
  | .importNames default names module => return [⟨span, .importNames default names module⟩]

end

end Lowering

end Downlevel
