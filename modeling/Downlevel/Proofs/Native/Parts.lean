import Downlevel.Lowering.Walk
import Downlevel.Proofs.Native.Steps

/-! Lowering for a target that has every feature: each construct is put together again from parts that
stay, and so are functions and literals. -/

namespace Downlevel

open Lowering

mutual

/-- What stands in front of the first link of the chain that an expression is the last link of. -/
def Expr.chainBase? : Expr → Option Expr
  | ⟨_, shape⟩ => shape.chainBase?

/-- The same for a shape. -/
def Shape.chainBase? : Shape → Option Expr
  | .member link object _ => if link = .continues then object.chainBase? else some object
  | .computed link object _ => if link = .continues then object.chainBase? else some object
  | .call link _ callee _ => if link = .continues then callee.chainBase? else some callee
  | _ => none

end

namespace Native

variable {α β : Type} {scopes : ScopeTree}

/-- The forms of an expression that stays as it is. -/
structure StaysExpr (scopes : ScopeTree) (forms : ExprForms) (e : Expr) : Prop where
  source : forms.source = e
  value : Keeps scopes forms.value e
  target : Keeps scopes forms.target e
  natively : Keeps scopes forms.natively e
  base : forms.chain.base.map (·.source) = e.chainBase?

/-- No chain ends here, or one on a base that may be a value. -/
def MayRun (scopes : ScopeTree) (e : Expr) : Prop :=
  e.isChained = true → ∀ base ∈ e.chainBase?, isBareNullish (scopes.declares "undefined") base = false

/-- The forms of a pattern that stays. -/
structure StaysPattern (scopes : ScopeTree) (forms : PatternForms) (pattern : Pattern) : Prop where
  source : forms.source = pattern
  bound : Keeps scopes forms.bound pattern

/-- The forms of a key that stays. -/
inductive StaysKey (scopes : ScopeTree) : KeyForms → Key → Prop
  | direct (name : KeyName) : StaysKey scopes (.direct name) (.direct name)
  | computed {forms : ExprForms} {value : Expr} (stays : StaysExpr scopes forms value) :
    StaysKey scopes (.computed forms) (.computed value)

/-- The lowering of an expression that stays, if there is one. -/
inductive StaysOption (scopes : ScopeTree) : Option (Lower Expr) → Option Expr → Prop
  | none : StaysOption scopes none none
  | some {step : Lower Expr} {value : Expr} (keeps : Keeps scopes step value) :
    StaysOption scopes (some step) (some value)

/-- The forms of a member value that stays. -/
inductive StaysValue (scopes : ScopeTree) : MemberForms → MemberValue → Prop
  | getter {step : Lower Func} {func : Func} (keeps : Keeps scopes step func) :
    StaysValue scopes (.getter step) (.getter func)
  | setter {step : Lower Func} {func : Func} (keeps : Keeps scopes step func) :
    StaysValue scopes (.setter step) (.setter func)
  | method {step : Lower Func} {func : Func} (keeps : Keeps scopes step func) :
    StaysValue scopes (.method step) (.method func)
  | field {step : Option (Lower Expr)} {init : Option Expr} (stays : StaysOption scopes step init) :
    StaysValue scopes (.field step) (.field init)
  | accessor {step : Option (Lower Expr)} {init : Option Expr}
    (stays : StaysOption scopes step init) : StaysValue scopes (.accessor step) (.accessor init)
  | staticBlock {span : Span} {step : Lower (List Stmt)} {body : List Stmt}
    (keeps : Keeps scopes step body) :
    StaysValue scopes (.staticBlock span step) (.staticBlock ⟨span, body⟩)

/-- The forms of a class member that stays. -/
structure StaysMember (scopes : ScopeTree) (forms : ClassMemberForms) (member : ClassMember) :
    Prop where
  span : forms.span = member.span
  key : StaysKey scopes forms.key member.key
  isStatic : forms.isStatic = member.isStatic
  value : StaysValue scopes forms.value member.value

/-- The forms of a statement that stays one statement. -/
structure StaysStmt (scopes : ScopeTree) (forms : StmtForms) (stmt : Stmt) : Prop where
  stmts : Keeps scopes forms.stmts [stmt]

/-- A statement that stays is still one. -/
theorem StaysStmt.single {forms : StmtForms} {stmt : Stmt} (stays : StaysStmt scopes forms stmt) :
    Keeps scopes forms.single stmt :=
  stays.stmts.next (.pure rfl)

section Chains

variable {forms object key : ExprForms} {e : Expr}

/-- An expression that is lowered in one way only. -/
theorem staysPlain {source : Expr} {value : Lower Expr} (noChain : source.chainBase? = none)
    (keeps : Keeps scopes value source) : StaysExpr scopes (plainForms source value) source :=
  ⟨rfl, keeps, keeps, keeps, noChain.symm⟩

/-- A pattern on the left side of an assignment. -/
theorem staysAssigned {source : Expr} {target : Lower Expr} (noChain : source.chainBase? = none)
    (keeps : Keeps scopes target source) : StaysExpr scopes (assignedPattern source target) source :=
  ⟨rfl, keeps, keeps, keeps, noChain.symm⟩

/-- A chain whose base may be a value need not be lowered. -/
theorem keeps_needsLowering {chain : ChainForms}
    (base : ∀ base ∈ chain.base.map (·.source),
      isBareNullish (scopes.declares "undefined") base = false) :
    Keeps scopes (needsLowering chain) false := by
  have links : Keeps scopes (chain.links.anyM LinkForms.isLoweredPrivate) false := by
    refine .anyM fun link _ => ?_
    cases link with
    | member span name => exact (keeps_privateBinding? name).next (.pure rfl)
    | computed span key => exact .pure rfl
    | call span isPure args => exact .pure rfl
  unfold needsLowering
  refine links.next (.lacks ?_)
  intro setting before calm
  refine ⟨_, before, rfl, .refl _, ?_⟩
  -- What is left to ask is whether the base is nullish by its name.
  show chain.base.any (fun base => isBareNullish (setting.scopes.declares "undefined") base.source)
    = false
  rw [calm.scopes]
  cases found : chain.base with
  | none => rfl
  | some first => exact base first.source (by rw [found]; rfl)

/-- A chain that may run stays, and hands on no receiver. -/
theorem keeps_optionalChain {mode : ChainMode} (natively : Keeps scopes forms.natively e)
    (base : forms.chain.base.map (·.source) = e.chainBase?)
    (runs : ∀ base ∈ e.chainBase?, isBareNullish (scopes.declares "undefined") base = false) :
    Keeps scopes (optionalChain forms mode) (e, none) := by
  unfold optionalChain
  exact (keeps_needsLowering (base ▸ runs)).next (natively.next (.pure rfl))

/-- A link stays if its object and its own parts do. -/
theorem staysLink {link : ChainLink} {inner : ExprForms} (isLink : e.isChained = link.isChained)
    (runs : MayRun scopes e) (source : inner.source = e) (value : Keeps scopes inner.value e)
    (target : Keeps scopes inner.target e) (natively : Keeps scopes inner.natively e)
    (base : inner.chain.base.map (·.source) = e.chainBase?) :
    StaysExpr scopes (linkForms link inner) e := by
  unfold linkForms
  -- Only a chain asks whether it must be lowered; it stays since its base is no bare null or
  -- undefined.
  by_cases isChained : link.isChained = true
  · rw [if_pos isChained]
    refine ⟨source, ?_, target, natively, base⟩
    have whole : Keeps scopes (optionalChain inner .value) (e, none) :=
      keeps_optionalChain natively base (runs (isLink.trans isChained))
    exact .map (whole.weaken fun _ same => congrArg Prod.fst same)
  · rw [if_neg isChained]
    exact ⟨source, value, target, natively, base⟩

/-- The object of a link that stays. -/
theorem keeps_nativeObject {link : ChainLink} (stays : StaysExpr scopes object e) :
    Keeps scopes (nativeObject link object) e := by
  unfold nativeObject
  split
  · exact stays.natively
  · exact stays.value

/-- The base of a chain is that of its object, or the object where the chain begins. -/
theorem base_chainOn {link : ChainLink} {part : LinkForms} (stays : StaysExpr scopes object e) :
    (chainOn link object part).base.map (·.source)
      = if link = .continues then e.chainBase? else some e := by
  unfold chainOn
  by_cases continues : link = .continues
  · rw [if_pos continues, if_pos continues]
    exact stays.base
  · rw [if_neg continues, if_neg continues]
    exact congrArg some stays.source

/-- A place of which nothing is private is no private member. -/
theorem keeps_privateMember? (forms : ExprForms) : Keeps scopes (privateMember? forms) none := by
  unfold privateMember?
  split
  · exact (keeps_privateBinding? _).next (.pure rfl)
  · exact .pure rfl

/-- A callee or tag that stays needs no receiver. -/
theorem keeps_calledExpr (stays : StaysExpr scopes forms e) (runs : MayRun scopes e) :
    Keeps scopes (calledExpr forms) (e, none) := by
  unfold calledExpr
  rw [stays.source]
  split
  · exact keeps_optionalChain stays.natively stays.base (runs ‹_›)
  · exact (keeps_privateMember? forms).next (stays.value.next (.pure rfl))

end Chains

section Links

variable {object key callee : ExprForms} {objectExpr keyExpr : Expr} {origin : Origin}
  {link : ChainLink}

/-- A member access stays if its object does. -/
theorem staysMember {name : String} (inObject : StaysExpr scopes object objectExpr)
    (runs : MayRun scopes ⟨origin, .member link objectExpr name⟩) :
    StaysExpr scopes (memberForms origin link object name)
      ⟨origin, .member link objectExpr name⟩ := by
  -- Value, target and chain keep the object in their own way, and all of them put the same access
  -- on it.
  have kept {inner : Lower Expr} (keeps : Keeps scopes inner objectExpr) :
      Keeps scopes (do return ⟨origin, .member link (← inner) name⟩ : Lower Expr)
        ⟨origin, .member link objectExpr name⟩ :=
    keeps.next (.pure rfl)
  unfold memberForms
  refine staysLink rfl runs ?_ ?_ ?_ ?_ ?_
  · exact congrArg (fun e : Expr => (⟨origin, .member link e name⟩ : Expr)) inObject.source
  · exact (keeps_privateBinding? name).next (kept inObject.value)
  · exact (keeps_privateBinding? name).next (kept inObject.value)
  · exact kept (keeps_nativeObject inObject)
  · exact base_chainOn inObject

/-- A computed member access stays if its object and its key do. -/
theorem staysComputed (inObject : StaysExpr scopes object objectExpr)
    (inKey : StaysExpr scopes key keyExpr)
    (runs : MayRun scopes ⟨origin, .computed link objectExpr keyExpr⟩) :
    StaysExpr scopes (computedForms origin link object key)
      ⟨origin, .computed link objectExpr keyExpr⟩ := by
  -- The key is kept as a value in all forms; only the object differs between them.
  have kept {inner : Lower Expr} (keeps : Keeps scopes inner objectExpr) :
      Keeps scopes (do
          let object ← inner
          return ⟨origin, .computed link object (← key.value)⟩ : Lower Expr)
        ⟨origin, .computed link objectExpr keyExpr⟩ :=
    keeps.next (inKey.value.next (.pure rfl))
  unfold computedForms
  refine staysLink rfl runs ?_ ?_ ?_ ?_ ?_
  · show (⟨origin, .computed link object.source key.source⟩ : Expr) = _
    rw [inObject.source, inKey.source]
  · exact kept inObject.value
  · exact kept inObject.value
  · exact kept (keeps_nativeObject inObject)
  · exact base_chainOn inObject

/-- What is lowered as a value also where a place is asked for. -/
theorem staysAsValue {forms : ExprForms} {e : Expr} (stays : StaysExpr scopes forms e) :
    StaysExpr scopes { forms with target := forms.value } e :=
  ⟨stays.source, stays.value, stays.value, stays.natively, stays.base⟩

/-- A call stays if its callee and its arguments do. -/
theorem staysCall {isPure : Bool} {source : List Arg} {args : Lower (List Arg)}
    (inCallee : StaysExpr scopes callee objectExpr) (calleeRuns : MayRun scopes objectExpr)
    (inArgs : Keeps scopes args source)
    (runs : MayRun scopes ⟨origin, .call link isPure objectExpr source⟩) :
    StaysExpr scopes (callForms origin link isPure callee source args)
      ⟨origin, .call link isPure objectExpr source⟩ := by
  unfold callForms
  -- The callee is kept as a called expression, except inside the chain, where it is an object.
  refine staysAsValue (staysLink rfl runs ?_ ?_ ?_ ?_ ?_)
  · rw [inCallee.source]
  · exact (keeps_calledExpr inCallee calleeRuns).next (inArgs.next (.pure rfl))
  · exact (keeps_calledExpr inCallee calleeRuns).next (inArgs.next (.pure rfl))
  · exact (keeps_nativeObject inCallee).next (inArgs.next (.pure rfl))
  · exact base_chainOn inCallee

/-- A name stays. -/
theorem staysName (name : String) : StaysExpr scopes (nameForms origin name) ⟨origin, .id name⟩ := by
  have value : Keeps scopes (nameForms origin name).value ⟨origin, .id name⟩ := by
    unfold nameForms
    dsimp only
    split
    · exact .pure rfl
    · exact keeps_resolveArguments.next (.pure rfl)
  exact ⟨rfl, value, .pure rfl, value, rfl⟩

end Links

section Operations

variable {left right operand : ExprForms} {leftExpr rightExpr operandExpr : Expr} {origin : Origin}

/-- A plain assignment stays if both sides do. -/
theorem keeps_plainAssignment (inLeft : StaysExpr scopes left leftExpr)
    (inRight : StaysExpr scopes right rightExpr) :
    Keeps scopes (plainAssignment origin left right.value)
      ⟨origin, .binary .assignment leftExpr rightExpr⟩ := by
  unfold plainAssignment
  refine (keeps_privateMember? left).next (inLeft.target.next (inRight.value.next ?_))
  dsimp only
  split
  · exact .lacks (.pure rfl)
  · exact .pure rfl

/-- Any operator other than an assignment stays if both sides do. -/
theorem keeps_plainBinary {op : Operator} (inLeft : StaysExpr scopes left leftExpr)
    (inRight : StaysExpr scopes right rightExpr) :
    Keeps scopes (plainBinary origin op left right) ⟨origin, .binary op leftExpr rightExpr⟩ := by
  unfold plainBinary
  refine inLeft.value.next (inRight.value.next (.lacks (.otherwise ?_ (.lacks (.otherwise ?_ ?_)))))
  · exact fun lacked => nomatch lacked.2
  · exact fun lacked => nomatch lacked.2
  · exact .pure rfl

/-- A binary operator of any kind stays if both sides do. -/
theorem keeps_binary {op : Operator} (inLeft : StaysExpr scopes left leftExpr)
    (inRight : StaysExpr scopes right rightExpr) :
    Keeps scopes (binary origin op left right) ⟨origin, .binary op leftExpr rightExpr⟩ := by
  have assigned : Keeps scopes (do
      let target ← left.target
      return ⟨origin, .binary op target (← right.value)⟩ : Lower Expr)
      ⟨origin, .binary op leftExpr rightExpr⟩ :=
    inLeft.target.next (inRight.value.next (.pure rfl))
  unfold binary
  refine (keeps_privateMember? left).next ?_
  dsimp only [Option.isSome_none]
  -- An assignment keeps its target; every other operator keeps both operands as values.
  split
  · rename_i isPlain
    rw [isPlain]
    exact keeps_plainAssignment inLeft inRight
  · split
    · -- A compound assignment stays unless it is one that the target lacks.
      split
      · exact .lacks assigned
      · exact .lacks (.otherwise (by simp) assigned)
    · exact assigned
    · split
      · exact (keeps_privateBinding? _).next (keeps_plainBinary inLeft inRight)
      · exact keeps_plainBinary inLeft inRight

/-- An operator in front of its operand stays if the operand does. -/
theorem keeps_unary {op : Operator} (inOperand : StaysExpr scopes operand operandExpr)
    (runs : MayRun scopes operandExpr) :
    Keeps scopes (unary origin op operand) ⟨origin, .unary op operandExpr⟩ := by
  unfold unary
  split
  · -- Delete looks at the chain, the updates at the target, `await` at the function around it.
    rw [inOperand.source]
    split
    · rename_i isChained
      exact (keeps_needsLowering (inOperand.base ▸ runs isChained)).next
        (inOperand.natively.next (.pure rfl))
    · exact inOperand.value.next (.pure rfl)
  · exact inOperand.target.next (.pure rfl)
  · exact inOperand.target.next (.pure rfl)
  · refine inOperand.value.next (gives_here.bind fun owner native => .lacks ?_)
    refine .otherwise (fun waits => nomatch waits.2) ?_
    rw [if_pos native.awaitForm]
    exact .pure rfl
  · exact inOperand.value.next (.pure rfl)

end Operations

section Functions

/-- Where no name is made up, none has to be hosted by a parameter. -/
theorem keeps_hosted {span : Span} {step : Lower Expr} {e : Expr} (keeps : Keeps scopes step e) :
    Keeps scopes (hosted span step) e := by
  unfold hosted
  refine .getting fun progress => ?_
  -- The frame of the parameters closes without a declaration, so nothing is hosted.
  have outside : Keeps scopes
      (withReader (fun (setting : Setting) => { setting with inParams := false }) step) e :=
    keeps.inSetting _ fun _ _ calm => { calm with }
  have framed : Gives scopes (inFrame .params progress.temps.owner
      (withReader (fun (setting : Setting) => { setting with inParams := false }) step))
      fun found => found.1 = e ∧ found.2 = [] :=
    outside.inFrame
  refine framed.bind fun found shown => .pure ?_
  obtain ⟨value, declared⟩ := found
  obtain ⟨rfl, rfl⟩ := shown
  rfl

/-- A value at the root of a default or a key stays, in parameters or not. -/
theorem keeps_rooted {forms : ExprForms} {e : Expr} (keeps : Keeps scopes forms.value e) :
    Keeps scopes (rooted forms) e := by
  unfold rooted
  refine .reading fun setting => ?_
  split
  · exact keeps_hosted keeps
  · exact keeps

/-- A pattern that declares stays. -/
theorem keeps_declaredPattern {forms : PatternForms} {pattern : Pattern}
    (stays : StaysPattern scopes forms pattern) : Keeps scopes (declaredPattern forms) pattern := by
  unfold declaredPattern
  split
  · exact .require stays.bound
  · exact stays.bound

/-- A parameter stays if its pattern and its default do. -/
theorem keeps_lowerParam {source : Param} {pattern : PatternForms} {default : Option ExprForms}
    (inPattern : StaysPattern scopes pattern source.pattern)
    (inDefault : Keeps scopes (default.mapM rooted) source.default) :
    Keeps scopes (lowerParam source pattern default) source := by
  obtain ⟨span, isRest, sourcePattern, sourceDefault⟩ := source
  -- Each requirement is one the target has, whether it is asked for or not.
  have required {condition : Prop} [Decidable condition] {feature : Feature} {construct : Construct}
      {rest : Unit → Lower Param} {param : Param} (goesOn : Keeps scopes (rest ()) param) :
      Keeps scopes
        (if condition then Lowering.require feature span construct >>= rest else rest ()) param := by
    split
    · exact .require goesOn
    · exact goesOn
  unfold lowerParam
  exact required (required ((keeps_declaredPattern inPattern).next (inDefault.next (.pure rfl))))

/-- Every function is one of the target's own. -/
theorem keeps_funcMode {span : Span} {isAsync isGenerator : Bool} :
    Keeps scopes (funcMode span isAsync isGenerator) .native := by
  unfold funcMode
  refine .supports ?_
  cases isAsync <;> cases isGenerator
  · exact .pure rfl
  · exact .pure rfl
  · exact .supports (.pure rfl)
  · exact .supports (.pure rfl)

/-- A function stays if its parameters and its body do. -/
theorem keeps_lowerFunc {source : Func} {params : Lower (List Param)} {body : Lower Body}
    (inParams : Keeps scopes params source.params) (inBody : Keeps scopes body source.body) :
    Keeps scopes (lowerFunc source params body) source := by
  obtain ⟨span, isArrow, isAsync, isGenerator, sourceParams, sourceBody⟩ := source
  unfold lowerFunc
  refine keeps_funcMode.next (.reading fun setting => .lacks (.supports ?_))
  dsimp only
  -- The owner of the function is native, since arrows stay arrows and waiting stays waiting.
  have inside : Keeps scopes (do
      let params ← Lowering.inParams params
      let body ← body
      moveParamRests params body) (sourceParams, sourceBody) := by
    have lowered : Keeps scopes (Lowering.inParams params) sourceParams := inParams.inParams
    have moved : Keeps scopes (moveParamRests sourceParams sourceBody) (sourceParams, sourceBody) :=
      .supports (.pure rfl)
    exact lowered.next (inBody.next moved)
  refine .bind (.inFrame (.getting fun progress => .inOwner ⟨?_, ?_, ?_, rfl⟩ inside))
    fun found shown => ?_
  · cases isArrow <;> exact nofun
  · simp
  · simp
  · obtain ⟨⟨⟨params, body⟩, owner⟩, temps⟩ := found
    obtain ⟨⟨⟩, rfl⟩ := shown
    exact .pure rfl

end Functions

section Literals

/-- A key stays if what is computed does. -/
theorem keeps_lowerKey {forms : KeyForms} {key : Key} (stays : StaysKey scopes forms key) :
    Keeps scopes (lowerKey forms) key := by
  cases stays with
  | direct name =>
    unfold lowerKey
    exact .lacks (.otherwise (fun lacked => nomatch lacked.2) (.pure rfl))
  | computed stays =>
    unfold lowerKey
    exact (keeps_rooted stays.value).next (.pure rfl)

/-- A tagged template stays if the tag and the substitutions do. -/
theorem keeps_taggedTemplate {origin : Origin} {tag : ExprForms} {tagExpr : Expr} {head : String}
    {spans : Lower (List TemplateSpan)} {source : List TemplateSpan}
    (inTag : StaysExpr scopes tag tagExpr) (runs : MayRun scopes tagExpr)
    (inSpans : Keeps scopes spans source) :
    Keeps scopes (taggedTemplate origin tag head spans) ⟨origin, .tagged tagExpr head source⟩ := by
  unfold taggedTemplate
  exact (keeps_calledExpr inTag runs).next (inSpans.next (.supports (.pure rfl)))

/-- An object literal stays. -/
theorem keeps_objectLiteral {origin : Origin} {members : List ObjectMember} :
    Keeps scopes (objectLiteral origin members) ⟨origin, .object members⟩ := by
  unfold objectLiteral
  exact .lacks (.otherwise (fun lacked => nomatch lacked.2) (.pure rfl))

/-- A member that stands for itself stays. -/
theorem keeps_shorthandMember {span : Span} {name : String} :
    Keeps scopes (shorthandMember span name) (.shorthand span name) := by
  unfold shorthandMember
  split
  · exact keeps_resolveArguments.next (.pure rfl)
  · exact .pure rfl

/-- An operand of a delegating `yield` is not marked. -/
theorem keeps_delegated {span : Span} {operand : Expr} :
    Keeps scopes (delegated span operand) operand := by
  unfold delegated
  refine gives_here.bind fun owner native => .otherwise ?_ (.pure rfl)
  rw [native.awaitForm]
  exact nofun

end Literals

end Native

end Downlevel
