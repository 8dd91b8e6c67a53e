import Downlevel.Proofs.Nodes

/-! What may remain in a lowered program: what the target supports, what was reported, and what
lowering writes itself. -/

namespace Downlevel

/-- Whether an expression is an object pattern. -/
def Expr.isObjectPattern (e : Expr) : Bool :=
  match e.shape with
  | .objectPattern .. => true
  | _ => false

/-- The feature without which an operator is written in another way. -/
def Operator.rewritable? : Operator → Option Feature
  | .nullishCoalescing => some .nullishCoalescing
  | .assignmentLogicalAnd | .assignmentLogicalOr | .assignmentNullishCoalescing =>
    some .logicalAssignment
  | .exponentiation | .assignmentExponentiation => some .exponentOperator
  | _ => none

/-- A name in an import or export list that is written as a string. -/
def ModuleName.quoted : ModuleName → List String
  | .identifier _ => []
  | .string name => [name]

namespace Node

/-- The feature without which a node is written in another way. -/
def rewritable? : Node → Option Feature
  | .shape (.binary op ..) => op.rewritable?
  | .shape (.tagged ..) | .shape (.template ..) => some .templateLiteral
  | .shape (.bigint _) => some .bigint
  | .objectMember (.spread ..) => some .objectRestSpread
  | .stmt (.tryCatch _ none _) | .stmt (.tryCatchFinally _ none ..) => some .optionalCatchBinding
  | .stmt (.exportNames (.all (some _)) _) => some .exportStarAs
  | _ => none

/-- The feature without which generators stand in for an asynchronous function. -/
def asynchronous? : Node → Option Feature
  | .func ⟨_, _, isAsync, isGenerator, _, _⟩ =>
    if !isAsync then none else if isGenerator then some .asyncGenerator else some .asyncAwait
  | _ => none

/-- An access or a call that is part of an optional chain. -/
def IsChained : Node → Prop
  | .shape (.member link ..) | .shape (.computed link ..) | .shape (.call link ..) =>
    link.isChained = true
  | _ => False

/-- A link of an optional chain is counted up or down. -/
def StepsChain : Node → Prop
  | .shape (.update _ operand) | .shape (.unary .prefixIncrement operand)
  | .shape (.unary .prefixDecrement operand) => operand.isChained = true
  | _ => False

/-- The names in a statement that are not those of the module: names that it exports something under,
and names in lists that are written as strings. -/
def outerNames : Node → List String
  | .stmt (.exportNames (.all exportedAs) _) => exportedAs.toList
  | .stmt (.exportNames (.specific names) _) =>
    names.flatMap fun entry => entry.exportedAs :: entry.exportable.quoted
  | .stmt (.importNames _ (some (.specific names)) _) => names.flatMap (·.importable.quoted)
  | _ => []

/-- Code that waits for a promise. -/
def Waits : Node → Prop
  | .shape (.unary .await _) | .stmt (.forOf true ..) => True
  | _ => False

/-- Code that hands out a value of a generator. -/
def Yields : Node → Prop
  | .shape (.yield ..) => True
  | _ => False

end Node

namespace Site

/-- Whether the site is inside of a function or of an instance. -/
def isInside : Site → Bool
  | .inside _ => true
  | _ => false

/-- Whether code at the site can wait for a promise. -/
def canAwait : Site → Bool
  | .own _ | .inside (.body true _) => true
  | _ => false

/-- Whether code at the site can hand out values. -/
def canYield : Site → Bool
  | .inside (.body _ true) | .inside .standIn => true
  | _ => false

/-- The node can stand at the site: what waits belongs to the module or to an asynchronous function,
and what hands out values to a generator. -/
structure Allows (site : Site) (node : Node) : Prop where
  await : node.Waits → site.canAwait = true
  yield : node.Yields → site.canYield = true

/-- The node can stand at the site before it is lowered. A generator that is going to stand in for an
asynchronous function can still wait. -/
def Takes (site : Site) (node : Node) : Prop :=
  site = .inside .standIn ∨ site.Allows node

/-- Code can move from one site to another: it does not come to stand in the module from inside of
something, and whatever it can do where it was it can still do. -/
structure MovesTo (site other : Site) : Prop where
  notOwn : ∀ isDead, site ≠ .own isDead
  outside : other.isInside = false → site.isInside = false
  await : site.canAwait = true → other.canAwait = true
  yield : site.canYield = true → other.canYield = true

/-- Static code can move anywhere. -/
theorem static_movesTo (site : Site) : MovesTo .static site :=
  ⟨nofun, fun _ => rfl, nofun, nofun⟩

/-- Parameters and initializers of instances can move into any function. -/
theorem barred_movesTo (ground : Ground) : MovesTo (.inside .barred) (.inside ground) :=
  ⟨nofun, nofun, nofun, nofun⟩

/-- The body of a generator that stands in for an asynchronous function is that of a generator. -/
theorem standIn_movesTo : MovesTo (.inside .standIn) (.inside (.body false true)) :=
  ⟨nofun, nofun, nofun, fun _ => rfl⟩

/-- What neither waits nor hands out values can stand anywhere. -/
theorem allows_plain {site : Site} {node : Node} (noAwait : ¬node.Waits) (noYield : ¬node.Yields) :
    site.Allows node :=
  ⟨fun waits => absurd waits noAwait, fun yields => absurd yields noYield⟩

end Site

/-- An arrow that lowering writes itself: around the value of a parameter that needs a name, or
around the statements of a static block. -/
def Func.isHost : Func → Bool
  | ⟨_, true, false, false, [⟨_, false, .id .., none⟩], .value _⟩ => true
  | ⟨_, true, false, false, [], .block _⟩ => true
  | _ => false

/-- The rest parameter of an arrow that only passes its arguments on. -/
def Param.IsPlaceholder (param : Param) : Prop :=
  ∃ index, param.pattern.name? = some (Lowering.placeholderName index)

/-- The declarations of a class whose static code mentions `this`: of the class under a name that
nothing can change, and of the name that the source gave it. -/
def isClassAlias : DeclKeyword → List Declarator → Bool
  | .constDecl, [⟨.id .., some ⟨_, .classExpr (some _) ..⟩⟩] => true
  | .letDecl, [⟨.id .., some ⟨_, .id _⟩⟩] => true
  | _, _ => false

/-- What there is to know about a run of the lowering once it is over. -/
structure Ending where
  target : Target
  /-- The problems that were reported. -/
  reported : Problem → Prop
  /-- The source is one that was read. Of any other only little is known. -/
  isRead : Prop
  /-- The source counts a link of an optional chain up or down. -/
  stepsChain : Prop
  /-- The source waits in static code of a class. -/
  waitsInStatic : Prop
  /-- The source waits or yields where that cannot be. -/
  misplaced : Prop
  /-- The scopes of the source. -/
  scopes : ScopeTree
  /-- The source has the name for something outside of it. -/
  isOuter : String → Prop

namespace Ending

variable (ending : Ending)

/-- The target has the feature, or the user knows about the construct that needs it. -/
def Admits (feature : Feature) (construct : Construct) : Prop :=
  ending.target.supports feature = true ∨ ending.reported (.unsupported construct)

/-- A declaring keyword may remain. -/
def AdmitsKeyword (keyword : DeclKeyword) : Prop :=
  keyword ≠ .varDecl → ending.Admits .constAndLet (.lexicalDeclaration keyword)

/-- A pattern that declares may remain. -/
def AdmitsDeclared (pattern : Pattern) : Prop :=
  pattern.name? = none → ending.Admits .destructuring .destructuring

/-- A pattern that could be split may remain. -/
def AdmitsRests (pattern : Pattern) : Prop :=
  Lowering.hasObjectRest pattern = true → ending.Admits .objectRestSpread .nestedObjectRest

/-- A pattern that cannot be split may remain. -/
def AdmitsUnsplit (pattern : Pattern) : Prop :=
  Lowering.hasObjectRest pattern = true → ending.Admits .objectRestSpread .loopOrCatchObjectRest

/-- The pattern of a loop may remain; without a keyword it only assigns. -/
def AdmitsLoop (keyword : Option DeclKeyword) (pattern : Pattern) : Prop :=
  (∀ declaring ∈ keyword, ending.AdmitsKeyword declaring ∧ ending.AdmitsDeclared pattern)
    ∧ ending.AdmitsUnsplit pattern

/-- The parameter of a handler may remain. -/
def AdmitsHandler (param : Option Pattern) : Prop :=
  ∀ pattern ∈ param, ending.AdmitsDeclared pattern ∧ ending.AdmitsUnsplit pattern

/-- A function that is asynchronous or a generator may remain. -/
def AdmitsFunc (isAsync isGenerator : Bool) : Prop :=
  match isAsync, isGenerator with
  | false, false => True
  | false, true => ending.Admits .generator .generator
  | true, false => ending.Admits .asyncAwait .asyncFunction
  | true, true =>
    ending.target.supports .asyncGenerator = true
      ∨ if ending.target.supports .asyncAwait then ending.reported (.unsupported .generator)
        else ending.reported (.unsupported .asyncFunction)

/-- Waiting may remain at the site: it is only of the module where the site is its own one. Static
code may come to stand there. -/
def AdmitsAwait (site : Site) : Prop :=
  site.isInside = false →
    ending.target.supports .topLevelAwait = true ∨ ending.reported .topLevelAwait
      ∨ ending.waitsInStatic

/-- A loop over values may remain. One that never runs need not wait for its values. -/
def AdmitsForOf (site : Site) : Prop :=
  ending.Admits .forOf .forOfLoop
    ∨ site = .own true ∧ ending.target.supports .topLevelAwait = false

/-- A loop that waits may remain, at the site of the module also if that was reported. -/
def AdmitsForAwait (site : Site) : Prop :=
  (ending.Admits .forAwait .forAwaitLoop
      ∨ (∃ isDead, site = .own isDead) ∧ ending.reported .topLevelAwait)
    ∧ ending.AdmitsAwait site

/-- Whatever may remain although there is no other way to write it. -/
def Announced (site : Site) : Node → Prop
  | .shape (.arrow func) => ending.target.supports .arrow = true ∨ func.isHost = true
  | .shape (.classExpr ..) | .stmt (.classDecl ..) => ending.Admits .classes .classes
  | .shape (.binary .assignment ⟨_, .objectPattern properties rest⟩ _) =>
    ∀ span, ending.AdmitsRests (.object span properties rest)
  | .shape (.unary .await _) => ending.AdmitsAwait site
  | .func func => ending.AdmitsFunc func.isAsync func.isGenerator
  | .param param =>
    (param.isRest = true → ending.Admits .restArgument .restArguments ∨ param.IsPlaceholder)
      ∧ (param.default.isSome = true → ending.Admits .defaultArgument .defaultArguments)
      ∧ ending.AdmitsDeclared param.pattern ∧ ending.AdmitsRests param.pattern
  | .declarator declarator =>
    ending.AdmitsDeclared declarator.pattern ∧ ending.AdmitsRests declarator.pattern
  | .stmt (.varDecl _ keyword declarators) =>
    ending.AdmitsKeyword keyword ∨ isClassAlias keyword declarators = true
  | .stmt (.forDecl _ keyword ..) => ending.AdmitsKeyword keyword
  | .stmt (.forIn keyword binding ..) => ending.AdmitsLoop keyword binding
  | .stmt (.forOf isAwait keyword binding ..) =>
    ending.AdmitsLoop keyword binding
      ∧ if isAwait then ending.AdmitsForAwait site else ending.AdmitsForOf site
  | .stmt (.tryCatch _ param _) | .stmt (.tryCatchFinally _ param ..) => ending.AdmitsHandler param
  | _ => True

/-- A node that lowering may leave behind. -/
structure Accounts (site : Site) (node : Node) : Prop where
  rewritten : ∀ feature ∈ node.rewritable?, ending.target.supports feature = true
  synchronous : ending.target.supports .generator = true →
    ∀ feature ∈ node.asynchronous?, ending.target.supports feature = true
  unchained : node.IsChained → ending.target.supports .optionalChain = true ∨ ending.stepsChain
  announced : ending.Announced site node
  /-- A place that a pattern writes is no pattern itself. -/
  placed : ∀ span place, node = .pattern (.target span place) → place.isObjectPattern = false
  allowed : site.Allows node ∨ ending.misplaced
  /-- Names outside of the module are those of the source, but for that of a default export. -/
  outside : ∀ name ∈ node.outerNames, name = "default" ∨ ending.isOuter name

/-- The source may wait at the site. -/
def TakesAwait (site : Site) : Prop :=
  site = .inside .standIn ∨ site.canAwait = true ∨ ending.misplaced

/-- The source may hand out values at the site. -/
def TakesYield (site : Site) : Prop :=
  site.canYield = true ∨ ending.misplaced

/-- Nodes of which nothing can wait or hand out values are allowed everywhere. -/
theorem allowed_plain {ending : Ending} {site : Site} {node : Node} (noAwait : ¬node.Waits)
    (noYield : ¬node.Yields) : site.Allows node ∨ ending.misplaced :=
  .inl (Site.allows_plain noAwait noYield)

end Ending

end Downlevel
