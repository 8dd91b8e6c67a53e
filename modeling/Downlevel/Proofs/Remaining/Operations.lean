import Downlevel.Lowering.Operation
import Downlevel.Proofs.Remaining.Chains
import Downlevel.Proofs.Remaining.Rests

/-! Operators remain only where the target has them. -/

namespace Downlevel

open Lowering

namespace Ending

variable {ending : Ending} {site : Site} {origin : Origin} {span : Span} {left right value : Expr}

/-- An operation may remain if the target has its operator. -/
theorem keeps_operation {op : Operator}
    (has : ∀ feature ∈ op.rewritable?, ending.target.supports feature = true)
    (noAssign : op ≠ .assignment) (inLeft : ending.Keeps site (exprNodes left))
    (inRight : ending.Keeps site (exprNodes right)) :
    ending.Keeps site (exprNodes ⟨origin, .binary op left right⟩) := by
  refine keeps_expr.mpr ⟨⟨has, ?_, nofun, ?_, nofun, allowed_plain nofun nofun, nofun⟩, ?_⟩
  · simp [Node.asynchronous?]
  · exact announced_binary.mpr fun isAssign => absurd isAssign noAssign
  · simpa [shapeNodes] using ⟨inLeft, inRight⟩

/-- The parts of a place may remain. -/
def KeepsPlace (ending : Ending) (site : Site) : Lowering.Place → Prop
  | .identifier _ => True
  | .member object _ => ending.Keeps site (exprNodes object)
  | .computed object key => ending.Keeps site (exprNodes object) ∧ ending.Keeps site (exprNodes key)

/-- Reading a place leaves nothing but what may remain. -/
theorem leaves_readPlace (span : Span) (place : Lowering.Place) :
    ending.Leaves site (place.read span) fun e =>
      ending.KeepsPlace site place → ending.Keeps site (exprNodes e) := by
  cases place with
  | identifier name => exact .pure fun _ => keeps_id
  | member object name => exact leaves_memberOrPrivate span object name
  | computed object key => exact .pure fun inPlace => keeps_computed.mpr inPlace

/-- Writing a place leaves nothing but what may remain. -/
theorem leaves_writePlace (span : Span) (value : Expr) (place : Lowering.Place) :
    ending.Leaves site (place.write span value) fun e =>
      ending.KeepsPlace site place → ending.Keeps site (exprNodes value) →
        ending.Keeps site (exprNodes e) := by
  cases place with
  | identifier name => exact .pure fun _ inValue => keeps_assign_id.mpr inValue
  | member object name => exact leaves_assignMemberOrPrivate span object name value
  | computed object key =>
    exact .pure fun inPlace inValue =>
      (keeps_assign rfl).mpr ⟨keeps_computed.mpr inPlace, inValue⟩

/-- A place is split into parts that may remain. -/
theorem leaves_split {place : PlaceForms} {split : Lower (Lowering.Place × Lowering.Place)}
    (inPlace : ending.LeavesPlace site place) (isSplit : place.split? = some split) :
    ending.Leaves site split fun (first, again) =>
      ending.KeepsPlace site first ∧ ending.KeepsPlace site again := by
  -- Both spellings of the place name the captured object, so what the capture keeps is kept in
  -- both.
  cases place with
  | identifier name =>
    cases isSplit
    exact .pure ⟨trivial, trivial⟩
  | member source value name =>
    cases isSplit
    refine Leaves.bind inPlace fun object => (leaves_capture object).bind fun (first, again) => ?_
    exact .pure fun captured keeps => captured keeps
  | computed source value key =>
    cases isSplit
    obtain ⟨inValue, inKey⟩ := inPlace
    refine inValue.bind fun object => (leaves_capture object).bind fun (first, again) => ?_
    refine inKey.bind fun key => (leaves_capture key).bind fun (firstKey, againKey) => .pure ?_
    intro capturedKey keepsKey captured keeps
    obtain ⟨once, used⟩ := captured keeps
    obtain ⟨onceKey, usedKey⟩ := capturedKey keepsKey
    exact ⟨⟨once, onceKey⟩, used, usedKey⟩
  | other => cases isSplit

/-- A value that stands in for a nullish one leaves nothing but what may remain. -/
theorem leaves_nullishOr (span : Span) (left right : Expr) :
    ending.Leaves site (nullishOr span left right) fun e =>
      ending.Keeps site (exprNodes left) → ending.Keeps site (exprNodes right) →
        ending.Keeps site (exprNodes e) := by
  refine (leaves_capture left).bind fun (first, again) => .pure fun captured inLeft inRight => ?_
  obtain ⟨once, used⟩ := captured inLeft
  exact keeps_cond.mpr ⟨(keeps_binary rfl (by decide)).mpr ⟨once, keeps_null⟩, used, inRight⟩

/-- A logical assignment that is lowered may remain. -/
theorem leaves_logicalAssignment (span : Span) (op : Operator) {place : PlaceForms}
    {split : Lower (Lowering.Place × Lowering.Place)} {right : Lower Expr}
    (inPlace : ending.LeavesPlace site place) (isSplit : place.split? = some split)
    (inRight : ending.LeavesExpr site right) :
    ending.LeavesExpr site (logicalAssignment span op split right) := by
  refine (leaves_split inPlace isSplit).bind fun (first, again) => inRight.bind fun right => ?_
  refine (leaves_readPlace span first).bind fun read => ?_
  refine (leaves_writePlace span right again).bind fun write => ?_
  -- The value is read off the first spelling and written to the second, under the plain operator.
  split
  · refine .pure fun inWrite inRead keeps ⟨inFirst, inAgain⟩ => ?_
    exact (keeps_binary rfl (by decide)).mpr ⟨inRead inFirst, inWrite inAgain keeps⟩
  · refine .pure fun inWrite inRead keeps ⟨inFirst, inAgain⟩ => ?_
    exact (keeps_binary rfl (by decide)).mpr ⟨inRead inFirst, inWrite inAgain keeps⟩
  · refine (leaves_lacks .nullishCoalescing).bind fun isLacking => .ite (fun _ => ?_) fun has => ?_
    · refine (leaves_nullishOr span read write).weaken fun e shown => ?_
      exact fun _ inWrite inRead keeps ⟨inFirst, inAgain⟩ =>
        shown (inRead inFirst) (inWrite inAgain keeps)
    · refine .pure fun known inWrite inRead keeps ⟨inFirst, inAgain⟩ => ?_
      refine keeps_operation ?_ (by decide) (inRead inFirst) (inWrite inAgain keeps)
      simpa [Operator.rewritable?, known] using has
  · exact .fault

/-- A compound assignment that is lowered may remain. -/
theorem leaves_compoundAssignment (span : Span) {op : Operator} {place : PlaceForms}
    {split : Lower (Lowering.Place × Lowering.Place)} {right : Lower Expr}
    (plain : op.rewritable? = none ∨ op = .exponentiation) (noAssign : op ≠ .assignment)
    (inPlace : ending.LeavesPlace site place) (isSplit : place.split? = some split)
    (inRight : ending.LeavesExpr site right) :
    ending.LeavesExpr site (compoundAssignment span op split right) := by
  refine (leaves_split inPlace isSplit).bind fun (first, again) => inRight.bind fun right => ?_
  -- The place is read once through its second spelling; the first is written.
  refine (leaves_readPlace span again).bind fun read => ?_
  refine (leaves_lacks .exponentOperator).bind fun isLacking => ?_
  refine (leaves_writePlace span _ first).weaken fun e shown => ?_
  intro known inRead keeps ⟨inFirst, inAgain⟩
  refine shown inFirst ?_
  split
  · simpa using ⟨inRead inAgain, keeps⟩
  · rename_i has
    refine keeps_operation ?_ noAssign (inRead inAgain) keeps
    rcases plain with isPlain | rfl
    · simp [isPlain]
    · simpa [Operator.rewritable?, known] using has

/-- Places and patterns are no links of a chain. -/
theorem notChained_of_target {e : Expr} {op : Operator}
    (isTarget : e.isPlace = true ∨ op = .assignment ∧ e.isPattern = true) :
    e.isChained = false := by
  obtain ⟨origin, shape⟩ := e
  cases shape <;> simp_all [Expr.isPlace, Expr.isPattern, Expr.isChained, Expr.link,
    ChainLink.isChained]

/-- The left side of an assignment may remain. -/
theorem leaves_target {forms : ExprForms} (inForms : ending.LeavesForms site forms) {op : Operator}
    (isTarget : ending.isRead →
      forms.source.isPlace = true ∨ op = .assignment ∧ forms.source.isPattern = true) :
    ending.LeavesExpr site forms.target :=
  inForms.target.known.weaken fun _ ⟨isRead, keeps, _⟩ =>
    keeps fun isChained => by simp [notChained_of_target (isTarget isRead)] at isChained

/-- A plain assignment may remain. -/
theorem leaves_plainAssignment (origin : Origin) {left : ExprForms} {right : Lower Expr}
    (inLeft : ending.LeavesForms site left) (inRight : ending.LeavesExpr site right)
    (isTarget : ending.isRead → left.source.isPlace = true ∨ left.source.isPattern = true) :
    ending.LeavesExpr site (plainAssignment origin left right) := by
  refine .privateMember inLeft.place ?_ fun binding object inObject => ?_
  · refine (leaves_target inLeft fun isRead =>
      (isTarget isRead).imp id fun isPattern => ⟨rfl, isPattern⟩).bind fun target => inRight.bind fun value => ?_
    dsimp only
    split
    · rename_i properties rest isPattern
      refine (leaves_lacks .objectRestSpread).bind fun isLacking => ?_
      -- The pattern is split, or else its rests may remain.
      have inside (inTarget : ending.Keeps site (exprNodes target)) :
          ending.Keeps site (propertiesNodes properties)
            ∧ ending.Keeps site (patternOptionNodes rest) := by
        simpa [isPattern, shapeNodes] using (keeps_expr.mp inTarget).2
      have stays (rests : ∀ span, ending.AdmitsRests (.object span properties rest))
          (inValue : ending.Keeps site (exprNodes value))
          (inTarget : ending.Keeps site (exprNodes target)) :
          ending.Keeps site (exprNodes ⟨origin, .binary .assignment target value⟩) := by
        refine keeps_assignment inTarget inValue fun span _ _ same => ?_
        cases isPattern.symm.trans same
        exact rests span
      refine .ite (fun _ => ?_) fun has => .pure fun known => stays fun _ => ?_
      · refine (leaves_splitAssignedRest? _ _ _ _).bind fun split => ?_
        cases split with
        | none =>
          exact .pure fun shown _ inValue inTarget =>
            stays (shown (inside inTarget).1 (inside inTarget).2 inValue) inValue inTarget
        | some split =>
          exact .pure fun shown _ inValue inTarget =>
            shown (inside inTarget).1 (inside inTarget).2 inValue
      · exact admitsRests_of_supports (by simpa [known] using has)
    · rename_i noPattern
      refine .pure fun inValue inTarget => keeps_assignment inTarget inValue ?_
      exact fun _ properties rest isPattern => absurd isPattern (noPattern properties rest)
  · refine inObject.bind fun object => inRight.bind fun value => .pure fun inValue inObject => ?_
    exact keeps_write inObject inValue

/-- Of the operators that do not assign, every target has all but two. -/
theorem rewritable_of_plain {op : Operator} (noCompound : op.compound? = none)
    (noNullish : op ≠ .nullishCoalescing) (noPower : op ≠ .exponentiation) :
    op.rewritable? = none := by
  cases op <;> first | rfl | contradiction

/-- Any operator other than an assignment may remain. -/
theorem leaves_plainBinary (origin : Origin) {op : Operator} {left right : ExprForms}
    (noAssign : op ≠ .assignment) (noCompound : op.compound? = none)
    (inLeft : ending.LeavesExpr site left.value) (inRight : ending.LeavesExpr site right.value) :
    ending.LeavesExpr site (plainBinary origin op left right) := by
  refine inLeft.bind fun first => inRight.bind fun second => ?_
  -- Each replaced operator is asked of the target first, so an operator that is left is one the
  -- target has.
  refine (leaves_lacks .nullishCoalescing).bind fun lacksNullish => .ite (fun _ => ?_) fun noNullish => ?_
  · exact (leaves_nullishOr _ first second).weaken fun _ shown _ inSecond inFirst =>
      shown inFirst inSecond
  · refine (leaves_lacks .exponentOperator).bind fun lacksPower =>
      .ite (fun _ => .pure ?_) fun noPower => .pure ?_
    · intro _ _ inSecond inFirst
      simpa using ⟨inFirst, inSecond⟩
    · intro knownPower knownNullish inSecond inFirst
      refine keeps_operation ?_ noAssign inFirst inSecond
      by_cases isNullish : op = .nullishCoalescing
      · subst isNullish
        simpa [Operator.rewritable?, knownNullish] using noNullish
      by_cases isPower : op = .exponentiation
      · subst isPower
        simpa [Operator.rewritable?, knownPower] using noPower
      · simp [rewritable_of_plain noCompound isNullish isPower]

/-- The operator of a compound assignment is one that every target has, unless it is a power or the
assignment is a logical one. -/
theorem rewritable_of_compound {op plain : Operator} (isCompound : op.compound? = some plain)
    (notLogical : isLogicalAssignment op = false) :
    (plain.rewritable? = none ∨ plain = .exponentiation) ∧ plain ≠ .assignment
      ∧ (op.rewritable? = none ∨ op = .assignmentExponentiation) := by
  cases op <;> cases isCompound <;> simp_all [Operator.rewritable?, isLogicalAssignment]

/-- The logical assignments share one feature. -/
theorem rewritable_of_logical {op : Operator} (isLogical : isLogicalAssignment op = true) :
    op.rewritable? = some .logicalAssignment := by
  cases op <;> first | rfl | cases isLogical

/-- Any binary operator may remain, or what it was lowered to. -/
theorem leaves_binary (origin : Origin) {op : Operator} {left right : ExprForms}
    (inLeft : ending.LeavesForms site left) (inRight : ending.LeavesExpr site right.value)
    (isTarget : ending.isRead → op.isAssignment = true →
      left.source.isPlace = true ∨ op = .assignment ∧ left.source.isPattern = true) :
    ending.LeavesExpr site (binary origin op left right) := by
  refine (leaves_privateMember? left).bind fun found => ?_
  refine .ite (fun isPlain => ?_) fun noPlain => ?_
  · have isTarget (isRead : ending.isRead) :=
      isTarget isRead (by simp [isPlain, Operator.isAssignment])
    exact (leaves_plainAssignment origin inLeft inRight fun isRead =>
      (isTarget isRead).imp id (·.2)).weaken fun _ keeps _ => keeps
  cases isCompound : op.compound? with
  | none =>
    have plain := leaves_plainBinary origin noPlain isCompound inLeft.value inRight
    dsimp only
    split
    · refine (leaves_privateBinding? _).bind fun binding => ?_
      cases binding with
      | none => exact plain.weaken fun _ keeps _ _ => keeps
      | some binding => exact inRight.bind fun value => .pure fun keeps _ _ => keeps_check keeps
    · exact plain.weaken fun _ keeps _ => keeps
  | some plain =>
    have isTarget (isRead : ending.isRead) :=
      isTarget isRead (by simp [isCompound, Operator.isAssignment])
    cases isSplit : left.place.split? with
    | none =>
      -- Only what is no place cannot be split.
      refine (leaves_target inLeft isTarget).bind fun target => inRight.bind fun value =>
        .pureRead fun isRead => ?_
      have isPlace := inLeft.placed
        ((isTarget isRead).resolve_right fun plain => noPlain plain.1)
      cases place : left.place with
      | identifier | member | computed =>
        rw [place] at isSplit
        cases isSplit
      | other => exact absurd place isPlace
    | some split =>
      extract_lets keep
      -- An assignment that stays may remain if the target has its operator.
      have stays : ending.Leaves site (keep ()) fun e =>
          (∀ feature ∈ op.rewritable?, ending.target.supports feature = true) →
            ending.Keeps site (exprNodes e) := by
        refine (leaves_target inLeft isTarget).bind fun target => inRight.bind fun value => .pure ?_
        exact fun inValue inTarget has => keeps_operation has noPlain inTarget inValue
      refine .ite (fun isLogical => ?_) fun notLogical => ?_
      · refine (leaves_lacks _).bind fun isLacking => .ite (fun _ => ?_) fun has => ?_
        · exact (leaves_logicalAssignment _ op inLeft.place isSplit inRight).weaken
            fun _ keeps _ _ => keeps
        · refine stays.weaken fun _ keeps known _ => keeps ?_
          obtain ⟨-, supported⟩ : found = none
              ∧ ending.target.supports .logicalAssignment = true := by simpa [known] using has
          simpa [rewritable_of_logical isLogical] using supported
      · obtain ⟨isPlain, noAssign, isOwn⟩ :=
          rewritable_of_compound isCompound (by simpa using notLogical)
        refine (leaves_lacks _).bind fun isLacking => .ite (fun _ => ?_) fun has => ?_
        · exact (leaves_compoundAssignment _ isPlain noAssign inLeft.place isSplit inRight).weaken
            fun _ keeps _ _ => keeps
        · refine stays.weaken fun _ keeps known _ => keeps ?_
          rcases isOwn with isNone | rfl
          · simp [isNone]
          · obtain ⟨-, supported⟩ : found = none
                ∧ ending.target.supports .exponentOperator = true := by simpa [known] using has
            simpa [Operator.rewritable?] using supported

/-- Waiting may remain where it is admitted. -/
theorem keeps_await (admits : ending.AdmitsAwait site)
    (allowed : site.canAwait = true ∨ ending.misplaced)
    (inPromise : ending.Keeps site (exprNodes value)) :
    ending.Keeps site (exprNodes ⟨origin, .unary .await value⟩) := by
  refine keeps_expr.mpr ⟨⟨?_, ?_, ?_, admits, ?_, allowed.imp_left ?_, nofun⟩, inPromise⟩
  · simp [Node.rewritable?]
  · simp [Node.asynchronous?]
  · rintro ⟨⟩
  · rintro _ _ ⟨⟩
  · exact fun canAwait => ⟨fun _ => canAwait, by rintro ⟨⟩⟩

/-- Handing out a value may remain in a generator. -/
theorem keeps_yield {isDelegated : Bool} {operand : Option Expr} (allowed : ending.TakesYield site)
    (inOperand : ending.Keeps site (optionNodes operand)) :
    ending.Keeps site (exprNodes ⟨origin, .yield isDelegated operand⟩) := by
  refine keeps_expr.mpr ⟨⟨?_, ?_, ?_, trivial, ?_, allowed.imp_left ?_, nofun⟩, inOperand⟩
  · simp [Node.rewritable?]
  · simp [Node.asynchronous?]
  · rintro ⟨⟩
  · rintro _ _ ⟨⟩
  · exact fun canYield => ⟨by rintro ⟨⟩, fun _ => canYield⟩

/-- Where waiting is written as such, code can wait. -/
theorem canAwait_of_form {owner : Owner} (suits : site.Suits owner)
    (isAwait : owner.awaitForm = .await) (takes : ending.TakesAwait site) :
    site.canAwait = true ∨ ending.misplaced := by
  rcases takes with rfl | allowed
  · exact absurd isAwait suits.2
  · exact allowed

/-- Where waiting is written as handing out a promise, code can hand out values. -/
theorem canYield_of_form {owner : Owner} (suits : site.Suits owner)
    (noAwait : owner.awaitForm ≠ .await) (takes : ending.TakesAwait site) :
    ending.TakesYield site := by
  rcases takes with rfl | canAwait | misplaced
  · exact .inl rfl
  · unfold Site.canAwait at canAwait
    split at canAwait
    · exact absurd suits.2 noAwait
    · exact absurd suits.2 noAwait
    · cases canAwait
  · exact .inr misplaced

/-- What waits may remain, in whatever way it does so. -/
theorem leaves_awaited (span : Span) (promise : Expr) (takes : ending.TakesAwait site) :
    ending.Leaves site (awaited span promise) fun e =>
      ending.AdmitsAwait site → ending.Keeps site (exprNodes promise) →
        ending.Keeps site (exprNodes e) := by
  refine leaves_here.bind fun owner => ?_
  -- The form of the function around it says how it waits, and each of the forms is admitted where
  -- that function is.
  cases form : owner.awaitForm with
  | await =>
    refine .pure fun suits admits inPromise => keeps_await admits ?_ inPromise
    exact canAwait_of_form suits form takes
  | yield =>
    refine .pure fun suits _ inPromise => keeps_yield ?_ inPromise
    exact canYield_of_form suits (by simp [form]) takes
  | yieldAwait =>
    refine .pure fun suits _ inPromise => keeps_yield ?_ ?_
    · exact canYield_of_form suits (by simp [form]) takes
    · simpa [optionNodes] using inPromise

/-- Any operator in front of an operand may remain, if the operand may and the operator does not
wait. -/
theorem keeps_prefix {op : Operator} (noAwait : op ≠ .await)
    (inOperand : ending.Keeps site (exprNodes value)) :
    ending.Keeps site (exprNodes ⟨origin, .unary op value⟩) :=
  (keeps_plain (by simpa [Shape.isPlain] using noAwait)).mpr inOperand

/-- Any operator in front of an operand may remain, or what it was lowered to. -/
theorem leaves_unary (origin : Origin) {op : Operator} {operand : ExprForms}
    (inOperand : ending.LeavesForms site operand)
    (steps : op = .prefixIncrement ∨ op = .prefixDecrement → operand.source.isChained = true →
      ending.stepsChain)
    (waits : op = .await → site = .static → ending.waitsInStatic)
    (takes : op = .await → ending.TakesAwait site) :
    ending.LeavesExpr site (unary origin op operand) := by
  unfold unary
  split
  · refine .ite (fun _ => ?_) fun _ => ?_
    · refine (leaves_needsLowering _).bind fun isLowered => .ite (fun _ => ?_) fun stays => ?_
      · refine (leaves_lowerChain _ .delete inOperand.base inOperand.links).bind fun callee => ?_
        exact .pure fun keeps _ => keeps.function
      · refine inOperand.natively.bind fun e => .pure fun keeps isNative => ?_
        exact keeps_prefix (by decide) (keeps (isNative (by simpa using stays)))
    · exact inOperand.value.bind fun e => .pure fun keeps => keeps_prefix (by decide) keeps
  · refine inOperand.target.bind fun e => .pure fun ⟨keeps, _⟩ => keeps_prefix (by decide) ?_
    exact keeps fun isChained => .inr (steps (.inl rfl) isChained)
  · refine inOperand.target.bind fun e => .pure fun ⟨keeps, _⟩ => keeps_prefix (by decide) ?_
    exact keeps fun isChained => .inr (steps (.inr rfl) isChained)
  · refine inOperand.value.bind fun promise => leaves_here.bind fun owner => ?_
    refine (leaves_lacks .topLevelAwait).bind fun isLacking => ?_
    extract_lets goOn
    have rest : ending.Leaves site (goOn ()) fun e =>
        site.Suits owner → ending.AdmitsAwait site → ending.Keeps site (exprNodes promise) →
          ending.Keeps site (exprNodes e) := by
      refine .ite (fun isAwait => .pure fun suits admits => ?_) fun _ => ?_
      · exact keeps_await admits (canAwait_of_form suits isAwait (takes rfl))
      · exact (leaves_awaited _ promise (takes rfl)).weaken fun _ keeps _ => keeps
    refine .ite (fun _ => ?_) fun noReport => ?_
    · refine (leaves_report _ _).bind fun _ => rest.weaken fun e keeps reported _ suits inPromise => ?_
      exact keeps suits (fun _ => .inr (.inl reported)) inPromise
    · refine rest.weaken fun e keeps known suits inPromise => keeps suits (fun outside => ?_) inPromise
      -- Nothing was reported, so the target has it or the code is that of a class.
      cases site with
      | own isDead => exact .inl (by simpa [suits.1, known] using noReport)
      | static => exact .inr (.inr (waits rfl rfl))
      | inside => cases outside
  · rename_i noAwait
    exact inOperand.value.bind fun e => .pure fun keeps => keeps_prefix noAwait keeps

end Ending

end Downlevel
