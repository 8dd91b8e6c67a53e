import Downlevel.Lowering.Operation
import Downlevel.Proofs.Scoping.Rests

/-! Operators and assignments need what their operands do, whether they are lowered or not. -/

namespace Downlevel

open Lowering

namespace Realm

variable {realm : Realm} {mayBeParams : Bool} {origin : Origin} {span : Span}

/-- The parts of a place need no more than what is bound. -/
def MeetsPlace (realm : Realm) (world : World) : Lowering.Place → Prop
  | .identifier name => realm.given name
  | .member object _ => Meets realm.stem world (exprUses object)
  | .computed object key =>
    Meets realm.stem world (exprUses object) ∧ Meets realm.stem world (exprUses key)

/-- Reading a place works. -/
theorem works_readPlace (span : Span) (place : Lowering.Place) :
    realm.Works mayBeParams (place.read span) fun world e =>
      realm.MeetsPlace world place → Meets realm.stem world (exprUses e) := by
  -- A place is read as it is written: a name is one the file gives, a private name goes through its
  -- helper.
  cases place with
  | identifier name =>
    apply Works.pure
    intro world grounds isGiven
    simpa using grounds.given name isGiven
  | member object name => exact works_memberOrPrivate span object name
  | computed object key =>
    apply Works.pure
    rintro world _ ⟨inObject, inKey⟩
    simp [inObject, inKey]

/-- Writing a place works. -/
theorem works_writePlace (span : Span) (value : Expr) (place : Lowering.Place) :
    realm.Works mayBeParams (place.write span value) fun world e =>
      realm.MeetsPlace world place → Meets realm.stem world (exprUses value) →
        Meets realm.stem world (exprUses e) := by
  -- A name is written as it is, and everything else through what was captured of it.
  cases place with
  | identifier name =>
    apply Works.pure
    intro world grounds isGiven inValue
    simp [grounds.given name isGiven, inValue]
  | member object name => exact works_assignMemberOrPrivate span object name value
  | computed object key =>
    apply Works.pure
    rintro world _ ⟨inObject, inKey⟩ inValue
    simp [inObject, inKey, inValue]

/-- A place is split into parts that need what it does. -/
theorem works_split {place : PlaceForms} {split : Lower (Lowering.Place × Lowering.Place)}
    (inPlace : realm.WorksPlace place) (isSplit : place.split? = some split) :
    realm.Works false split fun world (first, again) =>
      realm.MeetsPlace world first ∧ realm.MeetsPlace world again := by
  -- Both spellings of the place use what the capture does.
  cases place with
  | identifier name =>
    cases isSplit
    exact .pure fun _ _ => ⟨inPlace, inPlace⟩
  | member source value name =>
    cases isSplit
    apply Works.bind inPlace
    intro object
    apply (works_capture object).bind
    rintro ⟨first, again⟩
    exact .pure fun _ _ captured meets => captured meets
  | computed source value key =>
    cases isSplit
    apply inPlace.1.bind
    intro object
    apply (works_capture object).bind
    rintro ⟨first, again⟩
    apply inPlace.2.bind
    intro key
    apply (works_capture key).bind
    rintro ⟨firstKey, againKey⟩
    apply Works.pure
    intro world _ capturedKey meetsKey captured meets
    obtain ⟨once, used⟩ := captured meets
    obtain ⟨onceKey, usedKey⟩ := capturedKey meetsKey
    exact ⟨⟨once, onceKey⟩, used, usedKey⟩
  | other => cases isSplit

/-- A value that stands in for a nullish one works. -/
theorem works_nullishOr (span : Span) (left right : Expr) :
    realm.Works false (nullishOr span left right) fun world e =>
      Meets realm.stem world (exprUses left) → Meets realm.stem world (exprUses right) →
        Meets realm.stem world (exprUses e) := by
  apply (works_capture left).bind
  rintro ⟨first, again⟩
  apply Works.pure
  intro world _ captured inLeft inRight
  obtain ⟨once, used⟩ := captured inLeft
  simp [once, used, inRight]

/-- Only logical assignments are lowered as such. -/
theorem works_logicalAssignment (span : Span) {op : Operator} {place : PlaceForms}
    {split : Lower (Lowering.Place × Lowering.Place)} {right : Lower Expr}
    (isLogical : isLogicalAssignment op = true) (inPlace : realm.WorksPlace place)
    (isSplit : place.split? = some split) (inRight : realm.WorksExpr right) :
    realm.WorksExpr (logicalAssignment span op split right) := by
  apply (works_split inPlace isSplit).bind
  rintro ⟨first, again⟩
  apply inRight.bind
  intro right
  apply (works_readPlace span first).bind
  intro read
  apply (works_writePlace span right again).bind
  intro write
  -- The value is read off the first spelling and written to the second, under the plain operator.
  split
  · apply Works.pure
    rintro world _ inWrite inRead meets ⟨inFirst, inAgain⟩
    simpa using ⟨inRead inFirst, inWrite inAgain meets⟩
  · apply Works.pure
    rintro world _ inWrite inRead meets ⟨inFirst, inAgain⟩
    simpa using ⟨inRead inFirst, inWrite inAgain meets⟩
  · apply (works_lacks .nullishCoalescing).andThen
    intro isLacking
    apply Works.ite
    · intro _
      apply (works_nullishOr span read write).weaken
      rintro world _ e shown inWrite inRead meets ⟨inFirst, inAgain⟩
      exact shown (inRead inFirst) (inWrite inAgain meets)
    · intro _
      apply Works.pure
      rintro world _ inWrite inRead meets ⟨inFirst, inAgain⟩
      simpa using ⟨inRead inFirst, inWrite inAgain meets⟩
  · rename_i noAnd noOr noNullish
    cases op <;> simp_all [isLogicalAssignment]

/-- A compound assignment works. -/
theorem works_compoundAssignment (span : Span) (op : Operator) {place : PlaceForms}
    {split : Lower (Lowering.Place × Lowering.Place)} {right : Lower Expr}
    (inPlace : realm.WorksPlace place) (isSplit : place.split? = some split)
    (inRight : realm.WorksExpr right) :
    realm.WorksExpr (compoundAssignment span op split right) := by
  apply (works_split inPlace isSplit).bind
  rintro ⟨first, again⟩
  apply inRight.bind
  intro right
  apply (works_readPlace span again).bind
  intro read
  apply (works_lacks .exponentOperator).andThen
  intro isLacking
  -- The place is read once through its second spelling; the first is written.
  apply (works_writePlace span _ first).weaken
  rintro world grounds e shown inRead meets ⟨inFirst, inAgain⟩
  refine shown inFirst ?_
  have pow := grounds.runtime "__pow" (by decide)
  have inRead := inRead inAgain
  split <;> simp [pow, inRead, meets]

/-- A plain assignment needs what both sides do, in a world that may bind more for the right one. -/
theorem works_plainAssignment (needs : World → Prop) (origin : Origin) {left : ExprForms}
    {right : Lower Expr} (inLeft : realm.WorksForms left)
    (inRight : realm.Works false right fun world e => ∀ wide : World,
      (∀ name, world name → wide name) → needs wide → Meets realm.stem wide (exprUses e)) :
    realm.Works false (plainAssignment origin left right) fun world e => ∀ wide : World,
      (∀ name, world name → wide name) → needs wide → Meets realm.stem wide (exprUses e) := by
  refine .privateMember inLeft.place ?_ fun binding object inObject => ?_
  · apply inLeft.target.bind
    intro target
    apply inRight.bind
    intro value
    -- An assignment that stays needs what its sides do.
    have stays {world wide : World} (grows : ∀ name, world name → wide name)
        (inTarget : Meets realm.stem world (exprUses target))
        (inValue : Meets realm.stem wide (exprUses value)) :
        Meets realm.stem wide (exprUses ⟨origin, .binary .assignment target value⟩) := by
      rw [exprUses, shapeUses, meets_append]
      exact ⟨inTarget.mono grows, inValue⟩
    dsimp only
    split
    · rename_i properties rest isPattern
      apply (works_lacks .objectRestSpread).andThen
      intro isLacking
      apply Works.ite
      · intro _
        apply (works_splitAssignedRest? _ _ _ _).bind
        intro split
        cases split with
        | none =>
          apply Works.pure
          intro world _ _ inValue inTarget wide grows needed
          exact stays grows inTarget (inValue wide grows needed)
        | some split =>
          apply Works.pure
          intro world _ shown inValue inTarget wide grows needed
          rw [exprUses_shape, isPattern, shapeUses, meets_append] at inTarget
          exact shown inTarget.1 inTarget.2 wide grows (inValue wide grows needed) split rfl
      · intro _
        apply Works.pure
        intro world _ inValue inTarget wide grows needed
        exact stays grows inTarget (inValue wide grows needed)
    · apply Works.pure
      intro world _ inValue inTarget wide grows needed
      exact stays grows inTarget (inValue wide grows needed)
  · apply inObject.bind
    intro object
    apply inRight.bind
    intro value
    apply Works.pure
    intro world grounds inValue inObject binds wide grows needed
    have grounds' : realm.Grounds wide :=
      ⟨fun name holds => grows name (grounds.given name holds),
        fun name mem => grows name (grounds.runtime name mem),
        fun name holds => grows name (grounds.known name holds)⟩
    exact meets_write grounds' (fun name isName => grows name (binds name isName))
      (inObject.mono grows) (inValue wide grows needed)

/-- Any operator other than an assignment works. -/
theorem works_plainBinary (origin : Origin) (op : Operator) {left right : ExprForms}
    (inLeft : realm.WorksExpr left.value) (inRight : realm.WorksExpr right.value) :
    realm.WorksExpr (plainBinary origin op left right) := by
  apply inLeft.bind
  intro first
  apply inRight.bind
  intro second
  apply (works_lacks .nullishCoalescing).andThen
  intro lacksNullish
  apply Works.ite
  · -- Whatever replaces the operator, both operands are used once.
    intro _
    apply (works_nullishOr _ first second).weaken
    exact fun _ _ _ shown inSecond inFirst => shown inFirst inSecond
  · intro _
    apply (works_lacks .exponentOperator).andThen
    intro lacksPower
    apply Works.ite
    · intro _
      apply Works.pure
      intro world grounds inSecond inFirst
      simp [grounds.runtime "__pow" (by decide), inFirst, inSecond]
    · intro _
      apply Works.pure
      intro world _ inSecond inFirst
      rw [exprUses, shapeUses, meets_append]
      exact ⟨inFirst, inSecond⟩

/-- Any binary operator needs what its operands do. -/
theorem works_binary (origin : Origin) (op : Operator) {left right : ExprForms}
    (inLeft : realm.WorksForms left) (inRight : realm.WorksExpr right.value) :
    realm.WorksExpr (binary origin op left right) := by
  apply (works_privateMember? left).andThen
  intro found
  apply Works.ite
  · intro _
    have plain := works_plainAssignment (fun _ => True) origin inLeft
      (inRight.weaken fun _ _ _ meets _ grows _ => meets.mono grows)
    exact plain.weaken fun world _ _ shown => shown world (fun _ => id) trivial
  intro noPlain
  -- An assignment that stays needs what its sides do.
  have stays : realm.WorksExpr (do
      let target ← left.target
      return ⟨origin, .binary op target (← right.value)⟩) := by
    apply inLeft.target.bind
    intro target
    apply inRight.bind
    intro value
    apply Works.pure
    intro world _ inValue inTarget
    rw [exprUses, shapeUses, meets_append]
    exact ⟨inTarget, inValue⟩
  cases isCompound : op.compound? with
  | none =>
    have plain := works_plainBinary origin op inLeft.value inRight
    dsimp only
    split
    · apply (works_privateBinding? _).bind
      intro binding
      cases binding with
      | none => exact plain.weaken fun _ _ _ meets _ => meets
      | some binding =>
        apply inRight.bind
        intro value
        exact .pure fun _ grounds inValue binds => meets_check grounds (binds binding rfl) inValue
    · exact plain
  | some plain =>
    cases isSplit : left.place.split? with
    | none => exact stays
    | some split =>
      apply Works.ite
      · intro isLogical
        apply (works_lacks _).andThen
        intro isLacking
        apply Works.ite
        · exact fun _ => works_logicalAssignment _ isLogical inLeft.place isSplit inRight
        · exact fun _ => stays
      · intro _
        apply (works_lacks _).andThen
        intro isLacking
        apply Works.ite
        · exact fun _ => works_compoundAssignment _ plain inLeft.place isSplit inRight
        · exact fun _ => stays

/-- What waits needs what the promise does. -/
theorem works_awaited (span : Span) (promise : Expr) :
    realm.Works mayBeParams (awaited span promise) fun world e =>
      ∀ wide : World, (∀ name, world name → wide name) → Meets realm.stem wide (exprUses promise) →
        Meets realm.stem wide (exprUses e) := by
  apply works_here.andThen
  intro owner
  -- Of the three ways to wait only one needs a function of the runtime.
  cases form : owner.awaitForm with
  | await => exact .pure fun _ _ wide _ inPromise => by simpa using inPromise
  | yield => exact .pure fun _ _ wide _ inPromise => by simpa [shapeUses, optionUses] using inPromise
  | yieldAwait =>
    apply Works.pure
    intro world grounds wide grows inPromise
    have wait := grows _ (grounds.runtime "__await" (by decide))
    simp [shapeUses, optionUses, wait, inPromise]

/-- Any operator in front of an operand needs what the operand does. -/
theorem works_unary (origin : Origin) (op : Operator) {operand : ExprForms}
    (inOperand : realm.WorksForms operand) : realm.WorksExpr (unary origin op operand) := by
  have same {world : World} {op : Operator} {e : Expr} (meets : Meets realm.stem world (exprUses e)) :
      Meets realm.stem world (exprUses ⟨origin, .unary op e⟩) := by
    rwa [exprUses, shapeUses]
  unfold unary
  -- Delete looks at the chain, the updates at the target, `await` at the function around it.
  split
  · apply Works.ite
    · intro isChained
      apply (works_needsLowering _).andThen
      intro isLowered
      apply Works.ite
      · intro _
        apply (works_lowerChain _ .delete inOperand.base inOperand.links
          fun isClean => inOperand.whole isClean isChained).bind
        exact fun _ => .pure fun _ _ meets => meets.function
      · exact fun _ => inOperand.natively.bind fun _ => .pure fun _ _ => same
    · exact fun _ => inOperand.value.bind fun _ => .pure fun _ _ => same
  · exact inOperand.target.bind fun _ => .pure fun _ _ => same
  · exact inOperand.target.bind fun _ => .pure fun _ _ => same
  · apply inOperand.value.bind
    intro promise
    apply works_here.andThen
    intro owner
    apply (works_lacks .topLevelAwait).andThen
    intro isLacking
    -- What is reported about the place does not change how the waiting is written.
    have rest : realm.Works false
        (if owner.awaitForm = .await then return ⟨origin, .unary .await promise⟩
        else awaited origin.span promise) fun world e =>
          Meets realm.stem world (exprUses promise) → Meets realm.stem world (exprUses e) := by
      apply Works.ite
      · exact fun _ => .pure fun _ _ => same
      · intro _
        apply (works_awaited _ promise).weaken
        exact fun world _ _ shown => shown world fun _ => id
    exact .when (works_report _ _) rest
  · exact inOperand.value.bind fun _ => .pure fun _ _ => same

end Realm

end Downlevel
