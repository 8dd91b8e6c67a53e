import Downlevel.Proofs.Forms
import Downlevel.Proofs.Remaining.Statements

/-! The forms that are put together from those of the parts leave nothing but what may remain, if
those of the parts do. -/

namespace Downlevel

open Lowering

namespace Ending

variable {ending : Ending} {site : Site} {origin : Origin} {link : ChainLink}
  {object key callee : ExprForms}

/-- An expression that is no place and has only one form. -/
theorem leaves_plainForms {source : Expr} {value : Lower Expr} (noPlace : source.isPlace = false)
    (inValue : ending.LeavesExpr site value) :
    ending.LeavesForms site (plainForms source value) where
  value := inValue
  target := inValue.weaken fun _ keeps =>
    ⟨fun _ => keeps, fun isPlace => by simp [plainForms, noPlace] at isPlace⟩
  place := trivial
  natively := inValue.weaken fun _ keeps _ => keeps
  base := nofun
  links := nofun
  placed isPlace := by simp [plainForms, noPlace] at isPlace

/-- A pattern on the left side of an assignment. -/
theorem leaves_assignedPattern {source : Expr} {target : Lower Expr}
    (noPlace : source.isPlace = false) (inTarget : ending.LeavesExpr site target) :
    ending.LeavesForms site (assignedPattern source target) :=
  leaves_plainForms noPlace inTarget

/-- A name leaves nothing but what may remain. -/
theorem leaves_nameForms (name : String) :
    ending.LeavesForms site (nameForms origin name) := by
  have own : ending.Keeps site (exprNodes ⟨origin, .id name⟩) :=
    (keeps_plain rfl).mpr throughout_nil
  have inValue : ending.LeavesExpr site (nameForms origin name).value := by
    -- Outside `arguments` the name stays; `arguments` may become the name a lifted function holds.
    refine .ite (fun _ => .pure own) fun _ => leaves_resolveArguments.bind fun found => ?_
    cases found with
    | none => exact .pure fun _ => own
    | some other => exact .pure fun _ => keeps_id
  exact
    { value := inValue
      target := .pure ⟨fun _ => own, fun _ => rfl⟩
      place := trivial
      natively := inValue.weaken fun _ keeps _ => keeps
      base := nofun
      links := nofun
      placed := fun _ => nofun }

section Links

/-- A link of a chain stays where the target has them, or the source counts one up or down. -/
def AdmitsLink (ending : Ending) (link : ChainLink) : Prop :=
  link.isChained = true → ending.target.supports .optionalChain = true ∨ ending.stepsChain

/-- A member access may remain where its link may. -/
theorem keeps_memberLink {inner : Expr} {name : String} (admits : ending.AdmitsLink link)
    (inInner : ending.Keeps site (exprNodes inner)) :
    ending.Keeps site (exprNodes ⟨origin, .member link inner name⟩) :=
  keeps_expr.mpr ⟨⟨by simp [Node.rewritable?], by simp [Node.asynchronous?], admits, trivial,
    nofun, allowed_plain nofun nofun, nofun⟩, inInner⟩

/-- A computed access may remain where its link may. -/
theorem keeps_computedLink {inner index : Expr} (admits : ending.AdmitsLink link)
    (inInner : ending.Keeps site (exprNodes inner)) (inIndex : ending.Keeps site (exprNodes index)) :
    ending.Keeps site (exprNodes ⟨origin, .computed link inner index⟩) :=
  keeps_expr.mpr ⟨⟨by simp [Node.rewritable?], by simp [Node.asynchronous?], admits, trivial,
    nofun, allowed_plain nofun nofun, nofun⟩, throughout_append.mpr ⟨inInner, inIndex⟩⟩

/-- A call may remain where its link may. -/
theorem keeps_callLink {isPure : Bool} {function : Expr} {args : List Arg}
    (admits : ending.AdmitsLink link) (inFunction : ending.Keeps site (exprNodes function))
    (inArgs : ending.Keeps site (argsNodes args)) :
    ending.Keeps site (exprNodes ⟨origin, .call link isPure function args⟩) :=
  keeps_expr.mpr ⟨⟨by simp [Node.rewritable?], by simp [Node.asynchronous?], admits, trivial,
    nofun, allowed_plain nofun nofun, nofun⟩, throughout_append.mpr ⟨inFunction, inArgs⟩⟩

/-- The object of a link that stays. -/
theorem leaves_nativeObject (inObject : ending.LeavesForms site object) :
    ending.Leaves site (nativeObject link object) fun e =>
      ending.target.supports .optionalChain = true → ending.Keeps site (exprNodes e) :=
  .ite (fun _ => inObject.natively) fun _ => inObject.value.weaken fun _ keeps _ => keeps

/-- A chain that goes on, or starts, with one more link. -/
theorem leaves_chainOn {part : LinkForms} {forms : ExprForms}
    (isChain : forms.chain = chainOn link object part)
    (inObject : ending.LeavesForms site object) (inPart : ending.LeavesLink site part)
    (natively : ending.Leaves site forms.natively fun e =>
      ending.target.supports .optionalChain = true → ending.Keeps site (exprNodes e)) :
    ending.LeavesChain site forms := by
  refine ⟨natively, ?_, ?_⟩
  · rw [isChain, chainOn]
    split
    · -- The chain goes on with the object's links, or starts at the object.
      exact inObject.base
    · rintro base ⟨⟩
      exact ⟨inObject.value, leaves_splitCallee inObject⟩
  · rw [isChain, chainOn]
    split
    · intro other mem
      rcases List.mem_append.mp mem with before | isLast
      · exact inObject.links other before
      · obtain rfl := List.mem_singleton.mp isLast
        exact inPart
    · intro other mem
      obtain rfl := List.mem_singleton.mp mem
      exact inPart

/-- The value of a link is that of its chain if it is part of one. -/
theorem leaves_linkValue {forms : ExprForms} (inChain : ending.LeavesChain site forms)
    (inValue : link.isChained = false → ending.LeavesExpr site forms.value) :
    ending.LeavesExpr site (linkForms link forms).value := by
  unfold linkForms
  split
  · exact .map ((leaves_optionalChain inChain .value).weaken fun _ keeps => keeps.function)
  · exact inValue (Bool.eq_false_iff.mpr ‹_›)

/-- A link whose other forms are as they should be. -/
theorem leaves_linkForms {forms : ExprForms} (inChain : ending.LeavesChain site forms)
    (inValue : link.isChained = false → ending.LeavesExpr site forms.value)
    (target : ending.Leaves site forms.target fun e =>
      ((forms.source.isChained = true →
          ending.target.supports .optionalChain = true ∨ ending.stepsChain) →
        ending.Keeps site (exprNodes e))
      ∧ (forms.source.isPlace = true → e.isObjectPattern = false))
    (place : ending.LeavesPlace site forms.place)
    (placed : forms.source.isPlace = true → forms.place ≠ .other) :
    ending.LeavesForms site (linkForms link forms) := by
  have value := leaves_linkValue inChain inValue
  unfold linkForms at value ⊢
  -- A chained form is lowered with its chain, any other as its own value; the rest of the forms is
  -- the same for both.
  split
  · rw [if_pos ‹_›] at value
    exact ⟨⟨inChain.natively, inChain.base, inChain.links⟩, value, target, place, placed⟩
  · rw [if_neg ‹_›] at value
    exact ⟨inChain, value, target, place, placed⟩

/-- A place that stands for a private field is no pattern. -/
theorem noPattern_wrapper {binding : PrivateBinding} {span : Span} {inner : Expr} :
    (binding.wrapper span inner).isObjectPattern = false := by
  unfold PrivateBinding.wrapper
  split <;> rfl

/-- A member access leaves nothing but what may remain. -/
theorem leaves_memberForms (inObject : ending.LeavesForms site object) (name : String) :
    ending.LeavesForms site (memberForms origin link object name) := by
  refine leaves_linkForms (leaves_chainOn rfl inObject trivial ?_) (fun plain => ?_) ?_
    inObject.value fun _ => nofun
  · -- The three forms, in turn: the access as written, the value, and the target; a private name is
    -- read or written through its helper.
    refine (leaves_nativeObject inObject).bind fun inner => .pure fun keeps has => ?_
    exact keeps_memberLink (fun _ => .inl has) (keeps has)
  · refine (leaves_privateBinding? name).bind fun binding => ?_
    cases binding with
    | some binding => exact inObject.value.bind fun inner => .pure fun keeps _ => keeps_read keeps
    | none =>
      refine inObject.value.bind fun inner => .pure fun keeps _ => ?_
      exact keeps_memberLink (by simp [AdmitsLink, plain]) keeps
  · refine (leaves_privateBinding? name).bind fun binding => ?_
    cases binding with
    | some binding =>
      refine inObject.value.bind fun inner => .pure fun keeps _ => ?_
      exact ⟨fun _ => keeps_wrapper keeps, fun _ => noPattern_wrapper⟩
    | none =>
      refine inObject.value.bind fun inner => .pure fun keeps _ => ?_
      exact ⟨fun admits => keeps_memberLink admits keeps, fun _ => rfl⟩

/-- A computed access leaves nothing but what may remain. -/
theorem leaves_computedForms (inObject : ending.LeavesForms site object)
    (inKey : ending.LeavesExpr site key.value) :
    ending.LeavesForms site (computedForms origin link object key) := by
  refine leaves_linkForms (leaves_chainOn rfl inObject inKey ?_) (fun plain => ?_) ?_
    ⟨inObject.value, inKey⟩ fun _ => nofun
  · refine (leaves_nativeObject inObject).bind fun inner => inKey.bind fun index => .pure ?_
    exact fun inIndex keeps has => keeps_computedLink (fun _ => .inl has) (keeps has) inIndex
  · refine inObject.value.bind fun inner => inKey.bind fun index => .pure fun inIndex keeps => ?_
    exact keeps_computedLink (by simp [AdmitsLink, plain]) keeps inIndex
  · refine inObject.value.bind fun inner => inKey.bind fun index => .pure fun inIndex keeps => ?_
    exact ⟨fun admits => keeps_computedLink admits keeps inIndex, fun _ => rfl⟩

/-- A call leaves nothing but what may remain. -/
theorem leaves_callForms (isPure : Bool) (source : List Arg) {args : Lower (List Arg)}
    (inCallee : ending.LeavesForms site callee)
    (inArgs : ending.Leaves site args fun args => ending.Keeps site (argsNodes args)) :
    ending.LeavesForms site (callForms origin link isPure callee source args) := by
  let forms := callLink origin link isPure callee source args
  -- The parts of the call serve all of its forms: the chain keeps it as written, the value passes a
  -- receiver where the callee has one.
  have inChain : ending.LeavesChain site forms := by
    refine leaves_chainOn rfl inCallee inArgs ?_
    refine (leaves_nativeObject inCallee).bind fun function => inArgs.bind fun args => .pure ?_
    exact fun inArgs keeps has => keeps_callLink (fun _ => .inl has) (keeps has) inArgs
  have inValue : ending.LeavesExpr site (linkForms link forms).value := by
    refine leaves_linkValue inChain fun plain => ?_
    refine (leaves_calledExpr inCallee).bind ?_
    rintro ⟨function, receiver⟩
    refine inArgs.bind fun args => ?_
    cases receiver with
    | some receiver =>
      refine .pure fun inArgs parts => ?_
      exact keeps_callWithThis.mpr ⟨parts.function, parts.receiver _ rfl, inArgs⟩
    | none =>
      refine .pure fun inArgs parts => ?_
      exact keeps_callLink (by simp [AdmitsLink, plain]) parts.function inArgs
  have same : callForms origin link isPure callee source args
      = linkForms link { forms with target := (linkForms link forms).value } := by
    rw [callForms_eq, linkForms, linkForms]
    split <;> rfl
  rw [same]
  refine leaves_linkForms ⟨inChain.natively, inChain.base, inChain.links⟩
    (fun plain => ?_) (inValue.weaken fun _ keeps => ⟨fun _ => keeps, ?_⟩) trivial ?_
  · rwa [linkForms, if_neg (by simp [plain])] at inValue
  · rintro ⟨⟩
  · rintro ⟨⟩

end Links

/-- What a delegating `yield` hands out may remain, marked or not. -/
theorem leaves_delegated (span : Span) (operand : Expr) :
    ending.Leaves site (delegated span operand) fun e =>
      ending.Keeps site (exprNodes operand) → ending.Keeps site (exprNodes e) := by
  refine leaves_here.bind fun owner => .ite (fun _ => .pure fun _ keeps => ?_) fun _ => ?_
  · simpa using keeps
  · exact .pure fun _ => id

end Ending

end Downlevel
