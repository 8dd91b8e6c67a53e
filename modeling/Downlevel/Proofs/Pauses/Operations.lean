import Downlevel.Lowering.Operation
import Downlevel.Lowering.Walk
import Downlevel.Proofs.Pauses.Chains

/-! The forms of an expression keep its pauses if those of the parts keep theirs, and so does every
operator, also one that waits. -/

namespace Downlevel

open Lowering

/-- The pauses of the parts of a place. -/
def Lowering.Place.pauses : Lowering.Place → List Pause
  | .identifier _ => []
  | .member object _ => exprPauses .all object
  | .computed object key => exprPauses .all object ++ exprPauses .all key

namespace Ending

variable {ending : Ending} {site : Site} {span : Span} {origin : Origin} {link : ChainLink}
  {object key callee left right : ExprForms}

/-- An expression that is part of no chain and has only one form. -/
theorem carries_plainForms {source : Expr} {value : Lower Expr}
    (notChained : source.isChained = false)
    (inValue : ending.CarriesExpr site (exprPauses · source) value) :
    ending.CarriesForms site (plainForms source value) where
  natively := inValue
  chain isChained := by simp [plainForms, notChained] at isChained
  value := inValue
  target := inValue
  place := trivial

/-- A pattern on the left side of an assignment. -/
theorem carries_assignedPattern {source : Expr} {target : Lower Expr}
    (notChained : source.isChained = false)
    (inTarget : ending.CarriesExpr site (exprPauses · source) target) :
    ending.CarriesForms site (assignedPattern source target) :=
  carries_plainForms notChained inTarget

/-- A name keeps its pauses, which are none. -/
theorem carries_nameForms (name : String) : ending.CarriesForms site (nameForms origin name) := by
  have own : ending.Carries site (exprPauses · ⟨origin, .id name⟩) [] := carries_nil rfl
  have inValue : ending.CarriesExpr site (exprPauses · ⟨origin, .id name⟩)
      (nameForms origin name).value := by
    -- Only `arguments` may become another name, and a name never pauses.
    refine .ite (fun _ => .pure own) fun _ => leaves_resolveArguments.bind fun found => ?_
    cases found with
    | none => exact .pure fun _ => own
    | some other => exact .pure fun _ => own
  exact
    { natively := inValue
      chain := nofun
      value := inValue
      target := .pure own
      place := fun _ => rfl }

section Links

/-- What the object of a link is like: a chain that goes on with it is one, and a base that is always
nullish does besides whatever pauses. -/
structure Links (link : ChainLink) (object : ExprForms) : Prop where
  goesOn : link = .continues → object.source.isChained = true ∨ object.chain.base = none
  covers : ∀ bound, isNullish bound object.source = true → Ensures object.value Covers

/-- The object of a link that stays. -/
theorem carries_nativeObject (inObject : ending.CarriesForms site object) :
    ending.CarriesExpr site (exprPauses · object.source) (nativeObject link object) :=
  .ite (fun _ => inObject.natively) fun _ => inObject.value

/-- A chain that goes on, or starts, with one more link. -/
theorem carries_chainOn {part : LinkForms} {forms : ExprForms} {own : Extent → List Pause}
    (inObject : ending.CarriesForms site object) (links : Links link object)
    (inPart : ending.CarriesLink site own part) (isChain : forms.chain = chainOn link object part)
    (based : forms.source.chainBase = link.base object.source)
    (same : forms.source.isChained = link.isChained)
    (whole : ∀ extent, exprPauses extent forms.source = exprPauses extent object.source
      ++ if extent.skipsLink link object.source then [] else own extent)
    (natively : ending.CarriesExpr site
      (fun extent => exprPauses extent object.source ++ own extent) forms.natively) :
    ending.CarriesLinks site forms := by
  refine ⟨natively.weaken fun _ carries => carries.weaken ?_ ?_, fun isChained base isBase => ?_⟩
  · rw [whole]
    split
    · simp
    · exact List.Subset.refl _
  · simp [whole]
  · rw [same] at isChained
    have skips (extent : Extent) (start : Expr) (isStart : start = link.base object.source) :
        extent.skipsLink link object.source = extent.skips start := by
      simp [Extent.skipsLink, isChained, isStart]
    rw [isChain, chainOn] at isBase ⊢
    split at isBase
    · -- The chain goes on with the links of the object.
      rename_i continues
      rw [if_pos continues]
      have isObject : object.source.isChained = true := by
        refine (links.goesOn continues).resolve_right fun none => ?_
        simp [none] at isBase
      obtain ⟨isStart, inBase, sources, each, wholeObject⟩ := inObject.chain isObject base isBase
      have start : base.source = link.base object.source := by
        rw [isStart, ChainLink.base, if_pos continues]
      refine ⟨start.trans based.symm, inBase, sources ++ [own],
        List.rel_append each (.cons inPart .nil), fun extent => ?_⟩
      rw [whole, skips extent _ start, wholeObject]
      split <;> simp
    · -- The chain starts at the object.
      rename_i starts
      obtain rfl := Option.some.inj isBase
      rw [if_neg starts]
      have start : object.source = link.base object.source := by
        rw [ChainLink.base, if_neg starts]
      refine ⟨start.trans based.symm,
        ⟨inObject.value, carries_splitCallee inObject, links.covers⟩, [own],
        .cons inPart .nil, fun extent => ?_⟩
      rw [whole, skips extent _ start]
      simp

/-- A link whose forms are those of its chain if it is part of one. -/
theorem carries_linkForms {forms : ExprForms} (inLinks : ending.CarriesLinks site forms)
    (same : forms.source.isChained = link.isChained)
    (inValue : link.isChained = false →
      ending.CarriesExpr site (exprPauses · forms.source) forms.value)
    (inTarget : ending.CarriesExpr site (exprPauses · forms.source) forms.target)
    (inPlace : ending.CarriesPlace site forms.source forms.place) :
    ending.CarriesForms site (linkForms link forms) := by
  -- A chained link is lowered with the whole chain, any other link on its own.
  unfold linkForms
  split
  · rename_i isChained
    refine ⟨⟨inLinks.natively, inLinks.chain⟩, ?_, inTarget, inPlace⟩
    exact .map ((carries_optionalChain inLinks (same.trans isChained) .value).weaken
      fun _ carries => carries.function)
  · exact ⟨inLinks, inValue (Bool.eq_false_iff.mpr ‹_›), inTarget, inPlace⟩

/-- A member access keeps the pauses of its object. -/
theorem carries_memberForms (inObject : ending.CarriesForms site object)
    (links : Links link object) (name : String) :
    ending.CarriesForms site (memberForms origin link object name) := by
  have whole (extent : Extent) :
      exprPauses extent ⟨origin, .member link object.source name⟩
        = exprPauses extent object.source := by
    simp
  have part : ending.CarriesLink site (fun _ => []) (.member origin.span name) := fun _ => rfl
  -- The chain, the value and the target of a member read the same object.
  refine carries_linkForms (carries_chainOn inObject links part rfl
    (by cases link <;> rfl) rfl (by simp) ?_) rfl (fun _ => ?_) ?_ ⟨whole, inObject.value⟩
  · exact (carries_nativeObject inObject).bind fun inner => .pure fun carries => by
      simpa using carries
  · refine (leaves_privateBinding? name).bind fun binding => ?_
    cases binding with
    | some binding =>
      exact inObject.value.bind fun inner => .pure fun carries _ => by simpa using carries
    | none => exact inObject.value.bind fun inner => .pure fun carries _ => by simpa using carries
  · refine (leaves_privateBinding? name).bind fun binding => ?_
    cases binding with
    | some binding =>
      exact inObject.value.bind fun inner => .pure fun carries _ => by simpa using carries
    | none => exact inObject.value.bind fun inner => .pure fun carries _ => by simpa using carries

/-- A computed access keeps the pauses of its object, and of its key unless its chain never runs. -/
theorem carries_computedForms (inObject : ending.CarriesForms site object)
    (links : Links link object)
    (inKey : ending.CarriesExpr site (exprPauses · key.source) key.value) :
    ending.CarriesForms site (computedForms origin link object key) := by
  let whole : Expr := ⟨origin, .computed link object.source key.source⟩
  have fewer : exprPauses ending.extent whole
      ⊆ exprPauses ending.extent object.source ++ exprPauses ending.extent key.source := by
    simp only [whole, exprPauses, shapePauses]
    split <;> simp
  have more : exprPauses .all object.source ++ exprPauses .all key.source
      ⊆ exprPauses .all whole := by
    simp [whole]
  -- The object and then the key, whatever stands for the object.
  have kept {inner : Lower Expr}
      (inInner : ending.CarriesExpr site (exprPauses · object.source) inner) :
      ending.CarriesExpr site
        (fun extent => exprPauses extent object.source ++ exprPauses extent key.source)
        (do
          let object ← inner
          return ⟨origin, .computed link object (← key.value)⟩) := by
    refine inInner.bind fun inner => inKey.bind fun index => .pure fun carriesKey carries => ?_
    simpa using carries.append carriesKey
  have asWhole {step : Lower Expr} (inStep : ending.CarriesExpr site
      (fun extent => exprPauses extent object.source ++ exprPauses extent key.source) step) :
      ending.CarriesExpr site (exprPauses · whole) step :=
    inStep.weaken fun _ carries => carries.weaken fewer more
  have part : ending.CarriesLink site (exprPauses · key.source) (.computed origin.span key.value) :=
    inKey
  exact carries_linkForms (carries_chainOn inObject links part rfl (by cases link <;> rfl) rfl
    (fun _ => rfl) (kept (carries_nativeObject inObject))) rfl
    (fun _ => asWhole (kept inObject.value)) (asWhole (kept inObject.value))
    ⟨_, fewer, more, inObject.value, inKey⟩

/-- A call keeps the pauses of its callee, and of its arguments unless its chain never runs. -/
theorem carries_callForms (isPure : Bool) {source : List Arg} {args : Lower (List Arg)}
    (inCallee : ending.CarriesForms site callee) (links : Links link callee)
    (inArgs : ending.Leaves site args fun args =>
      ending.Carries site (argsPauses · source) (argsPauses .all args)) :
    ending.CarriesForms site (callForms origin link isPure callee source args) := by
  let forms := callLink origin link isPure callee source args
  have part : ending.CarriesLink site (argsPauses · source) (.call origin.span isPure args) :=
    inArgs
  have inLinks : ending.CarriesLinks site forms := by
    refine carries_chainOn inCallee links part rfl (by cases link <;> rfl) rfl (fun _ => rfl) ?_
    refine (carries_nativeObject inCallee).bind fun function => inArgs.bind fun args => .pure ?_
    exact fun carriesArgs carries => by simpa using carries.append carriesArgs
  have inValue : ending.CarriesExpr site (exprPauses · forms.source) (linkForms link forms).value := by
    unfold linkForms
    split
    · rename_i isChained
      exact .map ((carries_optionalChain inLinks isChained .value).weaken
        fun _ carries => carries.function)
    · rename_i plain
      have whole (extent : Extent) : exprPauses extent forms.source
          = exprPauses extent callee.source ++ argsPauses extent source := by
        simp [forms, callLink, Extent.skipsLink, plain]
      simp only [whole]
      refine (carries_calledExpr inCallee).bind ?_
      rintro ⟨function, receiver⟩
      refine inArgs.bind fun args => ?_
      cases receiver with
      | some receiver =>
        refine .pure fun carriesArgs parts => ?_
        simpa [parts.receiver receiver rfl] using parts.function.append carriesArgs
      | none =>
        exact .pure fun carriesArgs parts => by simpa using parts.function.append carriesArgs
  -- A call is a link whose target is its value, which lets the general rule for links apply.
  have same : callForms origin link isPure callee source args
      = linkForms link { forms with target := (linkForms link forms).value } := by
    rw [callForms_eq, linkForms, linkForms]
    split <;> rfl
  rw [same]
  refine carries_linkForms ⟨inLinks.natively, inLinks.chain⟩ rfl (fun plain => ?_) inValue trivial
  rwa [linkForms, if_neg (by simp [plain])] at inValue

end Links

section Assignments

variable {whole : Expr} {place : PlaceForms} {split : Lower (Lowering.Place × Lowering.Place)}
  {value : Lower Expr} {source : Extent → List Pause}

/-- Reading a place pauses where its parts do. -/
theorem carries_readPlace (span : Span) (place : Lowering.Place) :
    ending.Leaves site (place.read span) fun e => exprPauses .all e = place.pauses := by
  cases place with
  | identifier name => exact .pure rfl
  | member object name => exact carries_memberOrPrivate span object name
  | computed object key => exact .pure (pauses_computed _)

/-- Writing a place pauses where its parts and the value do. -/
theorem carries_writePlace (span : Span) (value : Expr) (place : Lowering.Place) :
    ending.Leaves site (place.write span value) fun e =>
      exprPauses .all e = place.pauses ++ exprPauses .all value := by
  cases place with
  | identifier name => exact .pure rfl
  | member object name => exact carries_assignMemberOrPrivate span object name value
  | computed object key => exact .pure (by simp [Place.pauses])

/-- A place that is split pauses at its first access only. -/
theorem carries_split (inPlace : ending.CarriesPlace site whole place)
    (isSplit : place.split? = some split) :
    ending.Leaves site split fun (first, again) =>
      ending.Carries site (exprPauses · whole) first.pauses ∧ again.pauses = [] := by
  -- Capturing the object, and then the key, keeps the order of what a place evaluates.
  cases place with
  | identifier name =>
    cases isSplit
    exact .pure ⟨carries_nil (inPlace _), rfl⟩
  | member object value name =>
    cases isSplit
    obtain ⟨same, inObject⟩ := inPlace
    refine inObject.bind fun object => (carries_capture object).bind fun (first, again) => .pure ?_
    intro ⟨once, used⟩ carries
    refine ⟨?_, used⟩
    simp only [Place.pauses, once, same]
    exact carries
  | computed object value key =>
    cases isSplit
    obtain ⟨keySource, fewer, more, inObject, inKey⟩ := inPlace
    refine inObject.bind fun object => (carries_capture object).bind fun (first, again) => ?_
    refine inKey.bind fun key => (carries_capture key).bind fun (firstKey, againKey) => .pure ?_
    intro ⟨onceKey, usedKey⟩ carriesKey ⟨once, used⟩ carries
    refine ⟨?_, by simp [Place.pauses, used, usedKey]⟩
    simp only [Place.pauses, once, onceKey]
    exact (carries.append carriesKey).weaken fewer more
  | other => cases isSplit

/-- A value that stands in for a nullish one pauses where both do. -/
theorem carries_nullishOr (span : Span) (left right : Expr) :
    ending.Leaves site (nullishOr span left right) fun e =>
      exprPauses .all e = exprPauses .all left ++ exprPauses .all right := by
  refine (carries_capture left).bind fun (first, again) => .pure fun ⟨once, used⟩ => ?_
  simp [once, used]

/-- A logical assignment that is lowered keeps its pauses. -/
theorem carries_logicalAssignment (span : Span) (op : Operator)
    (inPlace : ending.CarriesPlace site whole place) (isSplit : place.split? = some split)
    (inValue : ending.CarriesExpr site source value) :
    ending.CarriesExpr site (fun extent => exprPauses extent whole ++ source extent)
      (logicalAssignment span op split value) := by
  refine (carries_split inPlace isSplit).bind fun (first, again) => inValue.bind fun value => ?_
  refine (carries_readPlace span first).bind fun read => ?_
  refine (carries_writePlace span value again).bind fun write => ?_
  -- Whatever the operator becomes, the one operand reads the place and the other writes it.
  have together (e : Expr)
      (parts : exprPauses .all e = exprPauses .all read ++ exprPauses .all write)
      (isWrite : exprPauses .all write = again.pauses ++ exprPauses .all value)
      (isRead : exprPauses .all read = first.pauses)
      (carries : ending.Carries site source (exprPauses .all value))
      (place : ending.Carries site (exprPauses · whole) first.pauses ∧ again.pauses = []) :
      ending.Carries site (fun extent => exprPauses extent whole ++ source extent)
        (exprPauses .all e) := by
    rw [parts, isRead, isWrite, place.2]
    exact place.1.append carries
  split
  · exact .pure (together _ (pauses_binary _))
  · exact .pure (together _ (pauses_binary _))
  · refine (leaves_lacks .nullishCoalescing).andThen fun isLacking => .ite (fun _ => ?_) fun _ => ?_
    · exact (carries_nullishOr span read write).weaken fun e parts => together e parts
    · exact .pure (together _ (pauses_binary _))
  · exact .fault

/-- A compound assignment that is lowered keeps its pauses. -/
theorem carries_compoundAssignment (span : Span) (op : Operator)
    (inPlace : ending.CarriesPlace site whole place) (isSplit : place.split? = some split)
    (inValue : ending.CarriesExpr site source value) :
    ending.CarriesExpr site (fun extent => exprPauses extent whole ++ source extent)
      (compoundAssignment span op split value) := by
  refine (carries_split inPlace isSplit).bind fun (first, again) => inValue.bind fun value => ?_
  refine (carries_readPlace span again).bind fun read => ?_
  refine (leaves_lacks .exponentOperator).andThen fun isLacking => ?_
  refine (carries_writePlace span _ first).weaken fun e isWrite isRead carries ⟨once, used⟩ => ?_
  -- The power operator becomes a helper call with the same operands in the same order.
  have operation : exprPauses .all
      (if op = .exponentiation ∧ isLacking = true then .helper span "__pow" [read, value]
        else .binary span op read value) = exprPauses .all value := by
    split <;> simp [isRead, used]
  rw [isWrite, operation]
  exact once.append carries

/-- A plain assignment keeps its pauses. -/
theorem carries_plainAssignment (origin : Origin) (inLeft : ending.CarriesForms site left)
    (inValue : ending.CarriesExpr site source value) :
    ending.CarriesExpr site (fun extent => exprPauses extent left.source ++ source extent)
      (plainAssignment origin left value) := by
  refine .ofPrivate ?_ fun binding object inObject name isPlace => ?_
  · refine inLeft.target.bind fun target => inValue.bind fun value => ?_
    have stays (carries : ending.Carries site source (exprPauses .all value))
        (carriesTarget : ending.Carries site (exprPauses · left.source) (exprPauses .all target)) :
        ending.Carries site (fun extent => exprPauses extent left.source ++ source extent)
          (exprPauses .all ⟨origin, .binary .assignment target value⟩) := by
      simpa using carriesTarget.append carries
    dsimp only
    split
    · rename_i properties rest isPattern
      refine (leaves_lacks .objectRestSpread).andThen fun isLacking => ?_
      refine .ite (fun _ => ?_) fun _ => .pure stays
      refine (carries_splitAssignedRest? _ _ _ _).bind fun split => ?_
      cases split with
      | none => exact .pure fun _ => stays
      | some split =>
        refine .pure fun same carries carriesTarget => (stays carries carriesTarget).congr ?_
        -- The pattern has the parts that were split.
        obtain ⟨targetOrigin, shape⟩ := target
        obtain rfl : shape = .objectPattern properties rest := isPattern
        intro pause
        rw [same split rfl pause]
        simp
    · exact .pure stays
  · have inPlace := inLeft.place
    rw [isPlace] at inPlace
    refine inPlace.2.bind fun object => inValue.bind fun value => .pure fun carries whole => ?_
    simp only [pauses_write, inPlace.1]
    exact whole.append carries

end Assignments

/-- Any operator other than an assignment keeps its pauses. -/
theorem carries_plainBinary (origin : Origin) (op : Operator)
    (inLeft : ending.CarriesExpr site (exprPauses · left.source) left.value)
    (inRight : ending.CarriesExpr site (exprPauses · right.source) right.value) :
    ending.CarriesExpr site
      (fun extent => exprPauses extent left.source ++ exprPauses extent right.source)
      (plainBinary origin op left right) := by
  refine inLeft.bind fun first => inRight.bind fun second => ?_
  -- Only the operators with a rewrite of their own leave the operands anywhere but side by side.
  refine (leaves_lacks .nullishCoalescing).andThen fun _ => .ite (fun _ => ?_) fun _ => ?_
  · refine (carries_nullishOr _ first second).weaken fun e same inSecond inFirst => ?_
    rw [same]
    exact inFirst.append inSecond
  · refine (leaves_lacks .exponentOperator).andThen fun _ => .ite (fun _ => .pure ?_) fun _ => .pure ?_
    · exact fun inSecond inFirst => by simpa using inFirst.append inSecond
    · exact fun inSecond inFirst => by simpa using inFirst.append inSecond

/-- Any binary operator keeps its pauses. -/
theorem carries_binary (origin : Origin) (op : Operator) (inLeft : ending.CarriesForms site left)
    (inRight : ending.CarriesExpr site (exprPauses · right.source) right.value) :
    ending.CarriesExpr site
      (fun extent => exprPauses extent left.source ++ exprPauses extent right.source)
      (binary origin op left right) := by
  refine (leaves_privateMember? left).andThen fun found => ?_
  refine .ite (fun _ => carries_plainAssignment origin inLeft inRight) fun _ => ?_
  -- An assignment that stays as it is.
  have stays : ending.CarriesExpr site
      (fun extent => exprPauses extent left.source ++ exprPauses extent right.source)
      (do
        let target ← left.target
        return ⟨origin, .binary op target (← right.value)⟩) := by
    refine inLeft.target.bind fun target => inRight.bind fun value => .pure ?_
    exact fun inValue inTarget => by simpa using inTarget.append inValue
  cases op.compound? with
  | none =>
    have plain := carries_plainBinary origin op inLeft.value inRight
    dsimp only
    split
    · rename_i name place _
      have noPause := inLeft.place
      rw [place] at noPause
      refine (leaves_privateBinding? _).andThen fun binding => ?_
      cases binding with
      | none => exact plain
      | some binding =>
        refine inRight.bind fun value => .pure fun carries => ?_
        simpa [noPause _] using carries
    · exact plain
  | some plain =>
    cases isSplit : left.place.split? with
    | none => exact stays
    | some split =>
      extract_lets keep
      refine .ite (fun _ => ?_) fun _ => ?_
      · refine (leaves_lacks _).andThen fun _ => .ite (fun _ => ?_) fun _ => stays
        exact carries_logicalAssignment _ op inLeft.place isSplit inRight
      · refine (leaves_lacks _).andThen fun _ => .ite (fun _ => ?_) fun _ => stays
        exact carries_compoundAssignment _ plain inLeft.place isSplit inRight

section Waiting

variable {operand : ExprForms}

/-- Waiting for a promise becomes what it has to at the site. -/
theorem carries_wait (span : Span) :
    ending.Carries site (fun _ => [⟨none, false, span⟩]) [⟨none, site.isLifted, span⟩] := by
  have isMoved : ending.moved site ⟨none, false, span⟩ = ⟨none, site.isLifted, span⟩ := by
    simp [moved, Pause.lowered]
  refine ⟨fun pause mem _ => ?_, fun pause mem => ?_⟩
  · obtain rfl := List.mem_singleton.mp mem
    exact List.mem_singleton.mpr isMoved
  · obtain rfl := List.mem_singleton.mp mem
    exact ⟨_, List.mem_singleton_self _, isMoved⟩

/-- Handing out a value stays such. -/
theorem carries_handOut (span : Span) :
    ending.Carries site (fun _ => [⟨none, true, span⟩]) [⟨none, true, span⟩] := by
  have isMoved : ending.moved site ⟨none, true, span⟩ = ⟨none, true, span⟩ := by
    simp [moved, Pause.lowered]
  refine ⟨fun pause mem _ => ?_, fun pause mem => ?_⟩
  · obtain rfl := List.mem_singleton.mp mem
    exact List.mem_singleton.mpr isMoved
  · obtain rfl := List.mem_singleton.mp mem
    exact ⟨_, List.mem_singleton_self _, isMoved⟩

/-- Where code can wait, it does so by handing out values if the function around moves into a
generator, and else as such. -/
theorem isLifted_of_suits {owner : Owner} (suits : site.Suits owner)
    (takes : site = .inside .standIn ∨ site.canAwait = true) :
    site.isLifted = !decide (owner.awaitForm = .await) := by
  rcases takes with rfl | canAwait
  · simpa [Site.isLifted] using suits.2
  · unfold Site.canAwait at canAwait
    split at canAwait
    · simpa [Site.isLifted] using suits.2
    · simpa [Site.isLifted] using suits.2
    · cases canAwait

/-- What waits for a promise pauses like the promise, and then for it. -/
theorem carries_awaited (span : Span) (promise : Expr)
    (takes : site = .inside .standIn ∨ site.canAwait = true) :
    ending.Leaves site (awaited span promise) fun e =>
      exprPauses .all e = exprPauses .all promise ++ [⟨none, site.isLifted, span⟩] := by
  refine leaves_here.bind fun owner => ?_
  cases form : owner.awaitForm with
  | await => exact .pure fun suits => by simp [isLifted_of_suits suits takes, form]
  | yield => exact .pure fun suits => by simp [isLifted_of_suits suits takes, form, Expr.of]
  | yieldAwait => exact .pure fun suits => by simp [isLifted_of_suits suits takes, form, Expr.of]

/-- Any operator in front of an operand keeps its pauses. -/
theorem carries_unary (origin : Origin) (op : Operator)
    (inOperand : ending.CarriesForms site operand)
    (takes : op = .await → site = .inside .standIn ∨ site.canAwait = true) :
    ending.CarriesExpr site (exprPauses · ⟨origin, .unary op operand.source⟩)
      (unary origin op operand) := by
  -- Any operator but `await` adds no pause of its own.
  have plain {op : Operator} (noAwait : op ≠ .await) {e : Expr}
      (carries : ending.Carries site (exprPauses · operand.source) (exprPauses .all e)) :
      ending.Carries site (exprPauses · ⟨origin, .unary op operand.source⟩)
        (exprPauses .all ⟨origin, .unary op e⟩) := by
    simpa [noAwait] using carries
  unfold unary
  split
  · refine .ite (fun isChained => ?_) fun _ => ?_
    · refine (carries_needsLowering _).andThen fun isLowered => .ite (fun _ => ?_) fun _ => ?_
      · refine (carries_lowerChain _ .delete fun base isBase =>
          (inOperand.chain isChained base isBase).2).bind fun callee => .pure fun carries => ?_
        simpa using carries.function
      · exact inOperand.natively.bind fun e => .pure fun carries => plain (by decide) carries
    · exact inOperand.value.bind fun e => .pure fun carries => plain (by decide) carries
  · exact inOperand.target.bind fun e => .pure fun carries => plain (by decide) carries
  · exact inOperand.target.bind fun e => .pure fun carries => plain (by decide) carries
  · refine inOperand.value.bind fun promise => leaves_here.bind fun owner => ?_
    refine (leaves_lacks .topLevelAwait).andThen fun isLacking => ?_
    extract_lets goOn
    have waits {e : Expr} (pauses : exprPauses .all e
          = exprPauses .all promise ++ [⟨none, site.isLifted, origin.span⟩])
        (carries : ending.Carries site (exprPauses · operand.source) (exprPauses .all promise)) :
        ending.Carries site (exprPauses · ⟨origin, .unary .await operand.source⟩)
          (exprPauses .all e) := by
      rw [pauses]
      simpa using carries.append (carries_wait origin.span)
    have rest : ending.Leaves site (goOn ()) fun e =>
        site.Suits owner →
          ending.Carries site (exprPauses · operand.source) (exprPauses .all promise) →
            ending.Carries site (exprPauses · ⟨origin, .unary .await operand.source⟩)
              (exprPauses .all e) := by
      refine .ite (fun isAwait => .pure fun suits => waits ?_) fun _ => ?_
      · simp [isLifted_of_suits suits (takes rfl), isAwait]
      · exact (carries_awaited _ promise (takes rfl)).weaken fun _ pauses _ => waits pauses
    refine .ite (fun _ => ?_) fun _ => rest
    exact (leaves_report _ _).andThen fun _ => rest
  · rename_i noAwait
    exact inOperand.value.bind fun e => .pure fun carries => plain noAwait carries

/-- What a delegating `yield` hands out keeps its pauses, marked or not. -/
theorem carries_delegated (span : Span) (operand : Expr) :
    ending.Leaves site (delegated span operand) fun e =>
      exprPauses .all e = exprPauses .all operand := by
  refine leaves_here.andThen fun owner => .ite (fun _ => .pure ?_) fun _ => .pure rfl
  simp

end Waiting

end Ending

end Downlevel
