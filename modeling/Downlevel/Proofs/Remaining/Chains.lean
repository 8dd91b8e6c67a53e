import Downlevel.Proofs.Forms
import Downlevel.Proofs.Remaining.Frames

/-! Lowered chains hold no links of chains, and callees and private members are as good as their
parts. -/

namespace Downlevel

open Lowering

namespace Ending

variable {ending : Ending} {site : Site} {span : Span} {object value : Expr}

section Private

variable {binding : PrivateBinding}

/-- Reading a private field may remain if its object may. -/
theorem keeps_read (inObject : ending.Keeps site (exprNodes object)) :
    ending.Keeps site (exprNodes (binding.read span object)) := by
  unfold PrivateBinding.read
  split <;> simp [inObject]

/-- Writing a private field may remain if its object and its value may. -/
theorem keeps_write (inObject : ending.Keeps site (exprNodes object))
    (inValue : ending.Keeps site (exprNodes value)) :
    ending.Keeps site (exprNodes (binding.write span object value)) := by
  unfold PrivateBinding.write
  split <;> simp [inObject, inValue]

/-- Asking for a private field may remain if its object may. -/
theorem keeps_check (inObject : ending.Keeps site (exprNodes object)) :
    ending.Keeps site (exprNodes (binding.check span object)) := by
  simp [PrivateBinding.check, inObject]

/-- A place that stands for a private field may remain if its object may. -/
theorem keeps_wrapper (inObject : ending.Keeps site (exprNodes object)) :
    ending.Keeps site (exprNodes (binding.wrapper span object)) := by
  have inArg (function : Option String) :
      ending.Keeps site (exprNodes (PrivateBinding.accessorArg span function)) := by
    cases function <;> simp [PrivateBinding.accessorArg]
  unfold PrivateBinding.wrapper
  split <;> simp [inObject, inArg]

end Private

/-- A member access leaves nothing but what may remain, private or not. -/
theorem leaves_memberOrPrivate (span : Span) (object : Expr) (name : String) :
    ending.Leaves site (memberOrPrivate span object name) fun e =>
      ending.Keeps site (exprNodes object) → ending.Keeps site (exprNodes e) := by
  refine (leaves_privateBinding? name).bind fun binding => ?_
  cases binding with
  | none => exact .pure fun _ inObject => keeps_member.mpr inObject
  | some binding => exact .pure fun _ inObject => keeps_read inObject

/-- An assignment to a member leaves nothing but what may remain, private or not. -/
theorem leaves_assignMemberOrPrivate (span : Span) (object : Expr) (name : String) (value : Expr) :
    ending.Leaves site (assignMemberOrPrivate span object name value) fun e =>
      ending.Keeps site (exprNodes object) → ending.Keeps site (exprNodes value) →
        ending.Keeps site (exprNodes e) := by
  refine (leaves_privateBinding? name).bind fun binding => ?_
  cases binding with
  | none => exact .pure fun _ inObject inValue => (keeps_assign rfl).mpr ⟨keeps_member.mpr inObject, inValue⟩
  | some binding => exact .pure fun _ inObject inValue => keeps_write inObject inValue

/-- Going on once it is known whether an expression is a private member that cannot stay. -/
theorem Leaves.privateMember {β : Type} {forms : ExprForms}
    {rest : Option (PrivateBinding × Lower Expr) → Lower β} {final : β → Prop}
    (inPlace : ending.LeavesPlace site forms.place) (other : ending.Leaves site (rest none) final)
    (found : ∀ binding object, ending.LeavesExpr site object →
      ending.Leaves site (rest (some (binding, object))) final) :
    ending.Leaves site (privateMember? forms >>= rest) final := by
  unfold privateMember?
  -- Only a member access may be private, and only when its name is bound.
  cases place : forms.place with
  | member source value name =>
    rw [place] at inPlace
    simp only [bind_assoc, pure_bind]
    refine (leaves_privateBinding? name).bind fun binding => ?_
    cases binding with
    | none => exact other.weaken fun _ shown _ => shown
    | some binding => exact (found binding value inPlace).weaken fun _ shown _ => shown
  | identifier name => simpa using other
  | computed source value key => simpa using other
  | other => simpa using other

/-- Asking for a private member leaves nothing in the tree. -/
theorem leaves_privateMember? (forms : ExprForms) :
    ending.Leaves site (privateMember? forms) fun _ => True := by
  unfold privateMember?
  split
  · exact (leaves_privateBinding? _).bind fun _ => .pure fun _ => trivial
  · exact .pure trivial

/-- A private callee and its receiver may remain. -/
theorem leaves_privateCallee (span : Span) (binding : PrivateBinding) {object : Lower Expr}
    (inObject : ending.LeavesExpr site object) :
    ending.Leaves site (privateCallee span binding object) fun (function, receiver) =>
      ending.KeepsCallee site (function, some receiver) := by
  refine inObject.bind fun object => ?_
  refine (leaves_capture object).bind fun (first, again) => .pure fun captured keeps => ?_
  obtain ⟨once, later⟩ := captured keeps
  exact ⟨keeps_read once, by simpa using later⟩

/-- The parts of a link that is lowered may remain. -/
def KeepsLink (ending : Ending) (site : Site) : Link → Prop
  | .member .. => True
  | .computed _ key => ending.Keeps site (exprNodes key)
  | .call _ _ args => ending.Keeps site (argsNodes args)

/-- A link of a chain leaves nothing but what may remain. -/
theorem leaves_link {link : LinkForms} (inLink : ending.LeavesLink site link) :
    ending.Leaves site link.lower (ending.KeepsLink site) := by
  cases link with
  | member span name => exact .pure trivial
  | computed span key => exact inLink.bind fun _ => .pure id
  | call span isPure args => exact inLink.bind fun _ => .pure id

/-- Links that are followed one after the other give what may remain. -/
theorem leaves_followLinks (mode : ChainMode) (links : List Link) (current : Expr)
    (receiver : Option Expr) :
    ending.Leaves site (followLinks mode links current receiver) fun callee =>
      (∀ link ∈ links, ending.KeepsLink site link) → ending.Keeps site (exprNodes current) →
      (∀ value ∈ receiver, ending.Keeps site (exprNodes value)) →
      ending.KeepsCallee site callee := by
  -- Along the links, over what is built so far; the receiver that is pending must leave nothing
  -- either, since a call may use it.
  induction links generalizing current receiver with
  | nil => exact .pure fun _ inCurrent _ => ⟨inCurrent, nofun⟩
  | cons link rest ih =>
    cases link with
    | member span name =>
      unfold followLinks
      refine (leaves_privateBinding? name).bind fun binding => ?_
      -- The three cases of the lowering: a private access that is called, the last access of a
      -- callee, and any other access.
      refine .ite (fun _ => ?_) fun _ => .ite (fun _ => ?_) fun _ => ?_
      · refine (leaves_capture current).bind fun (object, again) => ?_
        refine (leaves_memberOrPrivate span object name).bind fun accessed => ?_
        refine (ih accessed (some again)).weaken fun callee shown => ?_
        intro inMember captured _ inLinks inCurrent _
        obtain ⟨once, used⟩ := captured inCurrent
        exact shown (List.forall_mem_cons.mp inLinks).2 (inMember once) (by simpa using used)
      · refine (leaves_capture current).bind fun (object, again) => ?_
        refine (leaves_memberOrPrivate span object name).bind fun accessed => .pure ?_
        intro inMember captured _ inLinks inCurrent _
        obtain ⟨once, used⟩ := captured inCurrent
        exact ⟨inMember once, by simpa using used⟩
      · refine (leaves_memberOrPrivate span current name).bind fun accessed => ?_
        refine (ih accessed receiver).weaken fun callee shown => ?_
        intro inMember _ inLinks inCurrent inReceiver
        exact shown (List.forall_mem_cons.mp inLinks).2 (inMember inCurrent) inReceiver
    | computed span key =>
      unfold followLinks
      refine .ite (fun _ => ?_) fun _ => ?_
      · refine (leaves_capture current).bind fun (object, again) => .pure ?_
        intro captured inLinks inCurrent _
        obtain ⟨inKey, -⟩ := List.forall_mem_cons.mp inLinks
        obtain ⟨once, used⟩ := captured inCurrent
        exact ⟨keeps_computed.mpr ⟨once, inKey⟩, by simpa using used⟩
      · refine (ih _ _).weaken fun callee shown inLinks inCurrent inReceiver => ?_
        obtain ⟨inKey, others⟩ := List.forall_mem_cons.mp inLinks
        exact shown others (keeps_computed.mpr ⟨inCurrent, inKey⟩) inReceiver
    | call span isPure args =>
      unfold followLinks
      refine (ih _ _).weaken fun callee shown inLinks inCurrent inReceiver => ?_
      obtain ⟨inArgs, others⟩ := List.forall_mem_cons.mp inLinks
      refine shown others ?_ nofun
      cases receiver with
      | none => exact keeps_plainCall.mpr ⟨inCurrent, inArgs⟩
      | some receiver => exact keeps_callWithThis.mpr ⟨inCurrent, inReceiver _ rfl, inArgs⟩

/-- What a nullish expression does besides may remain if it may. -/
theorem keeps_nullishEffects {e : Expr} (keeps : ending.Keeps site (exprNodes e)) :
    ∀ part ∈ nullishEffects e, ending.Keeps site (exprNodes part) := by
  refine forall_mem_nullishEffects keeps ?_ (fun keeps => ?_) fun keeps => ?_
  · exact fun {origin shape} keeps => @keeps_congr _ _ ⟨origin, shape⟩ _ rfl keeps
  · simpa [shapeNodes] using (keeps_expr.mp keeps).2
  · simpa [shapeNodes] using (keeps_expr.mp keeps).2

/-- The value of a chain that is cut short may remain. -/
theorem keeps_cutShort {mode : ChainMode} :
    ending.Keeps site (exprNodes (cutShort span mode)) := by
  unfold cutShort
  split <;> simp

/-- What remains of a chain whose base is always nullish may remain. -/
theorem keeps_collapse {mode : ChainMode} {base : Expr}
    (keeps : ending.Keeps site (exprNodes base)) :
    ending.Keeps site (exprNodes (collapse span mode base)) := by
  have effects := keeps_nullishEffects keeps
  unfold collapse
  -- Nothing is evaluated before the short outcome, or the effects of the base come first.
  split
  · exact keeps_congr (e := cutShort span mode) rfl keeps_cutShort
  · rename_i first rest found
    rw [found] at effects
    obtain ⟨inFirst, inRest⟩ := List.forall_mem_cons.mp effects
    refine keeps_congr (e := .sequence first (rest ++ [cutShort span mode])) rfl
      (keeps_sequence.mpr ⟨inFirst, fun item mem => ?_⟩)
    rcases List.mem_append.mp mem with inEffects | isLast
    · exact inRest item inEffects
    · obtain rfl := List.mem_singleton.mp isLast
      exact keeps_cutShort

/-- A lowered chain may remain, and so may the receiver that a call of it has to pass. -/
theorem leaves_lowerChain (span : Span) (mode : ChainMode) {chain : ChainForms}
    (inBase : ∀ base ∈ chain.base, ending.LeavesBase site base)
    (inLinks : ∀ link ∈ chain.links, ending.LeavesLink site link) :
    ending.Leaves site (lowerChain span mode chain) (ending.KeepsCallee site) := by
  unfold lowerChain
  cases isBase : chain.base with
  | none => exact .fault
  | some base =>
    obtain ⟨inValue, inCallee⟩ := inBase base (by simp [isBase])
    have lowered := Leaves.mapM fun link mem => leaves_link (inLinks link mem)
    refine leaves_bindsUndefined.bind fun bound => .ite (fun _ => ?_) fun _ => ?_
    · refine inValue.bind fun value => lowered.bind fun _ => .pure fun _ keeps _ => ?_
      exact ⟨keeps_collapse keeps, nofun⟩
    · extract_lets isCalled goOn
      -- The rest of the way is the same for a base and for a callee.
      have rest (callee : Expr × Option Expr) : ending.Leaves site (goOn callee) fun last =>
          ending.KeepsCallee site callee → True → ending.KeepsCallee site last := by
        obtain ⟨head, receiver⟩ := callee
        refine lowered.bind fun links => (leaves_capture head).bind fun (first, again) => ?_
        refine (leaves_followLinks mode links _ receiver).bind fun (result, last) => .pure ?_
        intro followed captured ⟨inLinks, _⟩ inHead _
        obtain ⟨once, used⟩ := captured inHead.function
        have inAgain (isEval : Bool) : ending.Keeps site
            (exprNodes (if isEval then (Expr.num span "0").andThen again else again)) := by
          split <;> simp [used]
        have keepsLinks : ∀ link ∈ links, ending.KeepsLink site link := fun link mem =>
          let ⟨_, _, keeps⟩ := inLinks link mem
          keeps
        obtain ⟨inResult, inReceiver⟩ := followed keepsLinks (inAgain _) inHead.receiver
        refine ⟨keeps_cond.mpr ⟨?_, keeps_cutShort, ?_⟩, inReceiver⟩
        · exact (keeps_binary rfl (by decide)).mpr ⟨once, keeps_null⟩
        · split
          · exact (keeps_unary (by decide)).mpr inResult
          · exact inResult
      refine .ite (fun _ => inCallee.bind rest) fun _ => ?_
      exact (Leaves.map (inValue.weaken fun _ keeps => ⟨keeps, nofun⟩)).bind rest

/-- A chain that stays is one that the target has. -/
theorem leaves_needsLowering (chain : ChainForms) :
    ending.Leaves site (needsLowering chain) fun isLowered =>
      isLowered = false → ending.target.supports .optionalChain = true := by
  have isPrivate : ending.Leaves site (chain.links.anyM LinkForms.isLoweredPrivate) fun _ => True :=
    .anyM fun link _ => by
      cases link with
      | member span name => exact (leaves_privateBinding? name).bind fun _ => .pure fun _ => trivial
      | computed span key => exact .pure trivial
      | call span isPure args => exact .pure trivial
  -- Where nothing has to be lowered the target was asked, and said that it has chains.
  refine isPrivate.bind fun isLowered => .ite (fun _ => .pure nofun) fun _ => ?_
  refine (leaves_lacks .optionalChain).bind fun isLacking => .ite (fun _ => .pure nofun) fun has => ?_
  refine leaves_bindsUndefined.bind fun bound => .pure fun _ known _ _ => ?_
  simpa [known] using has

/-- A chain may remain, whether it is lowered or not. -/
theorem leaves_optionalChain {forms : ExprForms} (inForms : ending.LeavesChain site forms)
    (mode : ChainMode) :
    ending.Leaves site (optionalChain forms mode) (ending.KeepsCallee site) := by
  refine (leaves_needsLowering forms.chain).bind fun isLowered => .ite (fun _ => ?_) fun stays => ?_
  · exact (leaves_lowerChain _ mode inForms.base inForms.links).weaken fun _ shown _ => shown
  · refine inForms.natively.bind fun e => .pure fun keeps isNative => ?_
    exact ⟨keeps (isNative (by simpa using stays)), nofun⟩

/-- A callee and its receiver may remain. -/
theorem leaves_calledExpr {forms : ExprForms} (inForms : ending.LeavesForms site forms) :
    ending.Leaves site (calledExpr forms) (ending.KeepsCallee site) := by
  refine .ite (fun _ => leaves_optionalChain inForms.toLeavesChain .callee) fun _ => ?_
  refine .privateMember inForms.place ?_ fun binding object inObject => ?_
  · exact inForms.value.bind fun e => .pure fun keeps => ⟨keeps, nofun⟩
  · refine (leaves_privateCallee _ binding inObject).bind fun (function, receiver) => .pure id

/-- The base of `super` is one that every target has. -/
theorem keeps_super (isSuper : isSuper object = true) :
    ending.Keeps site (exprNodes object) := by
  obtain ⟨origin, shape⟩ := object
  cases shape <;> simp [Lowering.isSuper] at isSuper
  exact (keeps_plain rfl).mpr throughout_nil

/-- A callee split from its receiver may remain. -/
theorem leaves_splitCallee {forms : ExprForms} (inForms : ending.LeavesForms site forms) :
    ending.Leaves site (splitCallee forms) (ending.KeepsCallee site) := by
  refine (leaves_privateMember? forms).bind fun found => ?_
  refine .ite (fun _ => (leaves_calledExpr inForms).weaken fun _ keeps _ => keeps) fun _ => ?_
  have inPlace := inForms.place
  dsimp only
  -- A member and a computed access keep their object for the receiver; on `super` the receiver is
  -- `this` itself.
  split
  · rename_i object value name place
    rw [place] at inPlace
    refine .ite (fun isSuper => ?_) fun _ => ?_
    · refine (leaves_thisValue _).bind fun receiver => .pure fun keeps _ => ?_
      exact ⟨keeps_member.mpr (keeps_super isSuper), by simpa using keeps⟩
    · refine inPlace.bind fun e => (leaves_capture e).bind fun (first, again) => .pure ?_
      intro captured keeps _
      obtain ⟨once, used⟩ := captured keeps
      exact ⟨keeps_member.mpr once, by simpa using used⟩
  · rename_i object value key place
    rw [place] at inPlace
    refine .ite (fun isSuper => ?_) fun _ => ?_
    · refine inPlace.2.bind fun key => (leaves_thisValue _).bind fun receiver => .pure ?_
      intro keeps inKey _
      exact ⟨keeps_computed.mpr ⟨keeps_super isSuper, inKey⟩, by simpa using keeps⟩
    · refine inPlace.1.bind fun e => (leaves_capture e).bind fun (first, again) => ?_
      refine inPlace.2.bind fun key => .pure fun inKey captured keeps _ => ?_
      obtain ⟨once, used⟩ := captured keeps
      exact ⟨keeps_computed.mpr ⟨once, inKey⟩, by simpa using used⟩
  · exact inForms.value.bind fun e => .pure fun keeps _ => ⟨keeps, nofun⟩
  · exact inForms.value.bind fun e => .pure fun keeps _ => ⟨keeps, nofun⟩

end Ending

end Downlevel
