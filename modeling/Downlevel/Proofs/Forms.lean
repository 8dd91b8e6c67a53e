import Downlevel.Lowering.Chain
import Downlevel.Lowering.Walk

/-! The forms of a part of a program know what they are the forms of, and what is left of an
expression that is always nullish is made of its parts. -/

namespace Downlevel

namespace Lowering

/-- A call before anything is said about the chain that it is part of. -/
def callLink (origin : Origin) (link : ChainLink) (isPure : Bool) (callee : ExprForms)
    (source : List Arg) (args : Lower (List Arg)) : ExprForms where
  source := ⟨origin, .call link isPure callee.source source⟩
  value := do
    let (function, receiver) ← calledExpr callee
    let args ← args
    match receiver with
    | some receiver => return .callWithThis origin.span function receiver args
    | none => return ⟨origin, .call link isPure function args⟩
  natively := do
    let function ← nativeObject link callee
    return ⟨origin, .call link isPure function (← args)⟩
  chain := chainOn link callee (.call origin.span isPure args)

section Equations

variable (origin : Origin) (link : ChainLink) (e left right : Expr)

/-! What the forms of the kinds of expressions are, so that nothing else has to open them. -/

/-- The forms of a member access. -/
theorem exprForms_member (name : String) :
    exprForms ⟨origin, .member link e name⟩ = memberForms origin link (exprForms e) name :=
  rfl

/-- The forms of a computed access. -/
theorem exprForms_computed (key : Expr) :
    exprForms ⟨origin, .computed link e key⟩
      = computedForms origin link (exprForms e) (exprForms key) :=
  rfl

/-- The forms of a call. -/
theorem exprForms_call (isPure : Bool) (args : List Arg) :
    exprForms ⟨origin, .call link isPure e args⟩
      = callForms origin link isPure (exprForms e) args (argsStep args) :=
  rfl

/-- The forms of a name. -/
theorem exprForms_id (name : String) : exprForms ⟨origin, .id name⟩ = nameForms origin name :=
  rfl

/-- The forms of an operator between its operands. -/
theorem exprForms_binary (op : Operator) :
    exprForms ⟨origin, .binary op left right⟩
      = plainForms ⟨origin, .binary op left right⟩
        (binary origin op (exprForms left) (exprForms right)) :=
  rfl

/-- The forms of an operator in front of its operand. -/
theorem exprForms_unary (op : Operator) :
    exprForms ⟨origin, .unary op e⟩
      = plainForms ⟨origin, .unary op e⟩ (unary origin op (exprForms e)) :=
  rfl

end Equations

/-- A call is a link that is lowered as a value also where a place is asked for. -/
theorem callForms_eq {origin : Origin} {link : ChainLink} {isPure : Bool} {callee : ExprForms}
    {source : List Arg} {args : Lower (List Arg)} :
    callForms origin link isPure callee source args
      = { linkForms link (callLink origin link isPure callee source args) with
          target := (linkForms link (callLink origin link isPure callee source args)).value } :=
  rfl

/-- A link is the same whether its chain is lowered or not. -/
theorem linkForms_source {link : ChainLink} {forms : ExprForms} :
    (linkForms link forms).source = forms.source := by
  unfold linkForms
  split <;> rfl

mutual

/-- The forms of an expression are those of that expression. -/
theorem exprForms_source (e : Expr) : (exprForms e).source = e := by
  obtain ⟨origin, shape⟩ := e
  rw [exprForms, shapeForms_source]

/-- The same for a shape. -/
theorem shapeForms_source (origin : Origin) (shape : Shape) :
    (shapeForms origin shape).source = ⟨origin, shape⟩ := by
  -- Only links are wrapped, and the wrapping keeps the source.
  cases shape with
  | call link isPure callee args =>
    refine Eq.trans (@linkForms_source link _) ?_
    rw [exprForms_source]
  | computed link object key =>
    refine Eq.trans (@linkForms_source link _) ?_
    rw [exprForms_source, exprForms_source]
  | member link object name =>
    refine Eq.trans (@linkForms_source link _) ?_
    rw [exprForms_source]
  | _ => rfl

end

/-- The forms of a pattern are those of that pattern. -/
theorem patternForms_source (pattern : Pattern) : (patternForms pattern).source = pattern := by
  cases pattern <;> rfl

variable {holds : Expr → Prop} {e : Expr}

/-- What holds of a sequence holds of the parts that it is made of. -/
theorem forall_mem_commaParts (inWhole : holds e)
    (anywhere : ∀ {origin shape}, holds ⟨origin, shape⟩ → holds (.of origin.span shape))
    (comma : ∀ {origin left right}, holds ⟨origin, .binary .comma left right⟩ →
      holds left ∧ holds right) :
    ∀ part ∈ commaParts e, holds part := by
  fun_induction commaParts e with
  | case1 origin left right ihLeft ihRight =>
    obtain ⟨inLeft, inRight⟩ := comma inWhole
    exact List.forall_mem_append.mpr ⟨ihLeft inLeft, ihRight inRight⟩
  | case2 origin shape other => exact List.forall_mem_singleton.mpr (anywhere inWhole)

/-- What holds of a nullish expression holds of what it does besides. -/
theorem forall_mem_nullishEffects (inWhole : holds e)
    (anywhere : ∀ {origin shape}, holds ⟨origin, shape⟩ → holds (.of origin.span shape))
    (comma : ∀ {origin left right}, holds ⟨origin, .binary .comma left right⟩ →
      holds left ∧ holds right)
    (void : ∀ {origin operand}, holds ⟨origin, .unary .void operand⟩ → holds operand) :
    ∀ part ∈ nullishEffects e, holds part := by
  -- The cases are those of the function: commas and `void` are taken apart, all else is kept or
  -- dropped.
  fun_induction nullishEffects e with
  | case1 origin left right ih =>
    obtain ⟨inLeft, inRight⟩ := comma inWhole
    exact List.forall_mem_append.mpr ⟨forall_mem_commaParts inLeft anywhere comma, ih inRight⟩
  | case2 => exact List.forall_mem_nil _
  | case3 origin operand used => exact List.forall_mem_singleton.mpr (void inWhole)
  | case4 => exact List.forall_mem_nil _

end Lowering

end Downlevel
