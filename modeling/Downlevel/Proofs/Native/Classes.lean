import Downlevel.Proofs.Native.Parts

/-! Lowering for a target that has every feature: every member of a class stays where it is, and every
statement stays one, with the parts that it had. -/

namespace Downlevel

open Lowering

namespace Native

variable {scopes : ScopeTree}

section Privates

variable {forms : List ClassMemberForms}

/-- No private name is replaced. -/
def AreKept (privates : PrivateNames) : Prop :=
  ∀ entry ∈ privates, entry.2 = none

/-- A private name could stay. -/
theorem keeps_isSupported (entry : DeclaredPrivate) : Keeps scopes entry.isSupported true := by
  unfold DeclaredPrivate.isSupported
  refine .lacks (.otherwise nofun ?_)
  split
  · exact keeps_supports _
  · exact .pure rfl

/-- Of the entries that a step lets through, none is left if it lets through none. -/
theorem keeps_filterM {α : Type} {items : List α} {test : α → Lower Bool}
    (no : ∀ item ∈ items, Keeps scopes (test item) false) :
    Keeps scopes (items.filterM test) [] := by
  -- The filter runs with a result gathered so far; along the list it never grows.
  have filtered (found : List α) :
      Keeps scopes (items.filterAuxM test found) found := by
    induction items generalizing found with
    | nil => exact .pure rfl
    | cons item items ih =>
      rw [List.filterAuxM]
      refine (no item (by simp)).next ?_
      exact ih (fun item mem => no item (by simp [mem])) found
  unfold List.filterM
  exact (filtered []).next (.pure rfl)

/-- No private name is replaced, since the target lacks none of them. -/
theorem gives_declarePrivates {source : List ClassMember} :
    Gives scopes (declarePrivates source forms) AreKept := by
  unfold declarePrivates
  dsimp only
  by_cases isEmpty : (declaredPrivates forms).isEmpty = true
  · rw [if_pos isEmpty]
    exact .pure nofun
  · rw [if_neg isEmpty]
    refine .lacks ?_
    -- The target has every feature of a private name, so none of the entries is filtered out and
    -- none is bound.
    have unsupported : Keeps scopes
        ((declaredPrivates forms).filterM fun entry => return !(← entry.isSupported)) [] :=
      keeps_filterM fun entry _ => (keeps_isSupported entry).next (.pure rfl)
    refine unsupported.next ?_
    have stays (entry : DeclaredPrivate) : Keeps scopes (do
        if (false && Search.inClassMembers isBrandCheck source)
            || [].any (fun other : DeclaredPrivate => other.isStatic = entry.isStatic) then
          return (entry.name, some (← bindPrivate entry))
        else return (entry.name, none)) (entry.name, none) :=
      .otherwise (by simp) (.pure rfl)
    refine (Gives.mapM fun entry _ => stays entry).weaken ?_
    rintro _ rfl entry mem
    obtain ⟨declared, -, rfl⟩ := List.mem_map.mp mem
    rfl

/-- Fields with generated accessors stay fields. -/
theorem keeps_withoutAccessors : Keeps scopes (withoutAccessors forms) forms := by
  unfold withoutAccessors
  exact .supports (.pure rfl)

/-- No member moves out of a class. -/
structure KeepsAll (policy : ClassPolicy) : Prop where
  instanceFields : policy.instanceFields = false
  staticFields : policy.staticFields = false
  staticBlocks : policy.staticBlocks = false

/-- No private name that stays has a binding, static or not. -/
theorem AreKept.none_bound {privates : PrivateNames} (kept : AreKept privates) (isStatic : Bool) :
    (privates.any fun (_, binding) => binding.any (·.isStatic = isStatic)) = false := by
  rw [List.any_eq_false]
  rintro ⟨name, binding⟩ mem
  obtain rfl : binding = none := kept _ mem
  simp

/-- Where no private name is replaced, no member moves out of the class. -/
theorem gives_classPolicy {privates : PrivateNames} (kept : AreKept privates) :
    Gives scopes (classPolicy forms privates) KeepsAll := by
  unfold classPolicy
  refine .lacks (.supports (.lacks (.reading fun setting => .pure ?_)))
  simp only [kept.none_bound]
  exact ⟨rfl, rfl, by simp⟩

end Privates

section Slots

variable {span : Span} {key : Key} {isStatic : Bool} {policy : ClassPolicy} {className : String}

/-- A method or accessor stays. -/
theorem keeps_functionSlot {role : FunctionRole} {step : Lower Func} {func : Func}
    (keeps : Keeps scopes step func) :
    Keeps scopes (functionSlot span key isStatic role step)
      (.kept ⟨span, key, isStatic, role.value func⟩) := by
  unfold functionSlot
  refine keeps.next ?_
  split
  · exact .pure rfl
  · exact (keeps_privateBinding? _).next (.pure rfl)

/-- The owner of an initializer or a block that stays in its class is native. -/
theorem isNative_fieldInit {className : Option String} (frame : Nat) (stays : className = none) :
    Owner.IsNative {
      kind := if className.isSome then .staticInit else .fieldInit
      frame
      thisAlias := className } := by
  subst stays
  exact ⟨show OwnerKind.fieldInit ≠ .staticInit from nofun, rfl, rfl, rfl⟩

/-- An initializer that stays in its class does not name it. -/
theorem keeps_fieldInit {step : Option (Lower Expr)} {init : Option Expr}
    (stays : StaysOption scopes step init) : Keeps scopes (fieldInit step none) (init, false) := by
  unfold fieldInit
  cases stays with
  | none => exact .pure rfl
  | some keeps =>
    refine .getting fun progress => ?_
    refine (Gives.inOwner (isNative_fieldInit _ rfl) keeps).bind fun found same => ?_
    obtain ⟨value, owner⟩ := found
    obtain rfl := same
    exact .pure rfl

/-- A field stays. -/
theorem keeps_fieldSlot {step : Option (Lower Expr)} {init : Option Expr}
    (keepsAll : KeepsAll policy) (stays : StaysOption scopes step init) :
    Keeps scopes (fieldSlot policy className span key isStatic step)
      (.kept ⟨span, key, isStatic, .field init⟩, false) := by
  have notLeaving : (if isStatic then policy.staticFields else policy.instanceFields) = false := by
    split
    · exact keepsAll.staticFields
    · exact keepsAll.instanceFields
  unfold fieldSlot
  dsimp only
  rw [notLeaving]
  -- Private or not, the name has no binding that the field could move to.
  generalize key.privateName? = name
  cases name with
  | none =>
    have noBinding : Keeps scopes (pure (none : Option PrivateBinding)) none := .pure rfl
    exact noBinding.next ((keeps_fieldInit stays).next (.pure rfl))
  | some name => exact (keeps_privateBinding? name).next ((keeps_fieldInit stays).next (.pure rfl))

/-- A static block stays. -/
theorem keeps_blockSlot {step : Lower (List Stmt)} {body : List Stmt} {blockSpan : Span}
    {empty : MemberValue} (keepsAll : KeepsAll policy) (keeps : Keeps scopes step body) :
    Keeps scopes (blockSlot policy className ⟨span, key, isStatic, empty⟩ blockSpan step)
      (.kept ⟨span, key, isStatic, .staticBlock ⟨blockSpan, body⟩⟩, false) := by
  -- The block is a frame and an owner of its own; neither declares anything.
  have inBlock : Keeps scopes (staticBlock blockSpan step none) (body, [], false) := by
    unfold staticBlock
    refine .reading fun setting => .getting fun progress => ?_
    refine .bind (.inFrame (.getting fun progress => .inOwner (isNative_fieldInit _ rfl) keeps))
      fun found shown => ?_
    obtain ⟨⟨stmts, owner⟩, temps⟩ := found
    obtain ⟨rfl, rfl⟩ := shown
    exact .pure rfl
  unfold blockSlot
  rw [keepsAll.staticBlocks]
  exact inBlock.next (.pure rfl)

/-- Every member stays in the class. -/
theorem keeps_memberSlot {member : ClassMemberForms} {source : ClassMember}
    (keepsAll : KeepsAll policy) (stays : StaysMember scopes member source) :
    Keeps scopes (memberSlot policy className member) (.kept source, false) := by
  obtain ⟨span, key, isStatic, value⟩ := source
  obtain ⟨memberSpan, keyForms, isStatic, valueForms⟩ := member
  obtain ⟨⟨⟩, inKey, ⟨⟩, inValue⟩ := stays
  unfold memberSlot
  refine (keeps_lowerKey inKey).next ?_
  -- Each kind of member is a slot of its own, and each of them is kept.
  dsimp only at inValue ⊢
  cases inValue with
  | getter keeps => exact (keeps_functionSlot keeps).next (.pure rfl)
  | setter keeps => exact (keeps_functionSlot keeps).next (.pure rfl)
  | method keeps => exact (keeps_functionSlot keeps).next (.pure rfl)
  | field init => exact keeps_fieldSlot keepsAll init
  | accessor init => exact (keeps_fieldInit init).next (.pure rfl)
  | staticBlock keeps => exact keeps_blockSlot keepsAll keeps

end Slots

section Keys

/-- Nothing has to be taken out of the keys of members that stay. -/
theorem keeps_captureKeys (members : List ClassMember) :
    Keeps scopes (captureKeys (members.map .kept))
      (members.map fun member => { slot := .kept member }) := by
  -- The members are kept from the last on, and no key of theirs is captured.
  induction members with
  | nil => exact .pure rfl
  | cons member members ih =>
    have noCapture (last : Bool) :
        ¬(last && (members.map fun member => ({ slot := .kept member } : KeyedSlot)).any
          (·.capture.isSome)) = true := by
      simp
    rw [List.map_cons, captureKeys]
    refine ih.next (.otherwise (noCapture _) ?_)
    have captured : Keeps scopes (captureKey (.kept member)) { slot := .kept member } := .pure rfl
    exact captured.next (.pure rfl)

/-- Keys of which none was taken out are evaluated where they are. -/
theorem chainKeys_kept (members : List ClassMember) :
    chainKeys [] (members.map fun member => { slot := .kept member })
      = (members.map .kept, []) := by
  induction members with
  | nil => rfl
  | cons member members ih =>
    obtain ⟨span, key, isStatic, value⟩ := member
    rw [List.map_cons]
    cases key with
    | direct name => simp [chainKeys, Slot.keptKey?, ih]
    | computed key => simp [chainKeys, Slot.keptKey?, Slot.withKey, inSequence, ih]

/-- The keys of members that stay are evaluated where they are. -/
theorem keeps_chainComputedKeys (members : List ClassMember) :
    Keeps scopes (chainComputedKeys (members.map .kept)) (members.map .kept, []) := by
  unfold chainComputedKeys
  exact (keeps_captureKeys members).next (.pure (chainKeys_kept members))

end Keys

section Whole

variable {heritage : Option Expr} {step : Option (Lower Expr)} {members : List ClassMember}
  {forms : ClassMember → ClassMemberForms} {span : Span}

/-- Members that stay do nothing to an object from elsewhere. -/
theorem inits_kept (isStatic : Bool) (receiver : Span → Expr) :
    (members.map Slot.kept).flatMap (Slot.inits isStatic receiver) = [] := by
  simp [List.flatMap_map, Slot.inits]

/-- Names that are not replaced need no storage. -/
theorem makeStorage_kept (made : List String) : makeStorage made (members.map Slot.kept) = [] := by
  induction members with
  | nil => rfl
  | cons member members ih => exact ih

/-- Names that are not replaced do not mark objects. -/
theorem addBrands_kept {privates : PrivateNames} (kept : AreKept privates) (isStatic : Bool)
    (receiver : Expr) : addBrands span isStatic receiver privates = [] := by
  unfold addBrands
  refine List.filterMap_eq_nil_iff.mpr ?_
  rintro ⟨name, binding⟩ mem
  obtain rfl : binding = none := kept _ mem
  rfl

/-- All members that stay are there. -/
theorem keptMembers_kept : keptMembers (members.map Slot.kept) = members := by
  unfold keptMembers
  rw [List.filterMap_map]
  exact List.filterMap_some

/-- The base of a class stays. -/
theorem keeps_heritage (stays : StaysOption scopes step heritage) :
    Keeps scopes (step.mapM id) heritage := by
  cases stays with
  | none => exact .pure rfl
  | some keeps => exact .map (keeps.weaken fun _ same => congrArg some same)

/-- All members stay in the class. -/
theorem keeps_memberSlots {policy : ClassPolicy} {className : String} (keepsAll : KeepsAll policy)
    (stays : ∀ member ∈ members, StaysMember scopes (forms member) member) :
    Keeps scopes ((members.map forms).mapM (memberSlot policy className))
      (members.map fun member => (.kept member, false)) := by
  rw [List.mapM_map]
  exact .mapM fun member mem => keeps_memberSlot keepsAll (stays member mem)

/-- Members that stay are asked for no private name. -/
theorem keeps_requireOwn (privates : PrivateNames) (members : List ClassMember) :
    Keeps scopes ((members.map Slot.kept).forM (requireOwn privates)) () := by
  induction members with
  | nil => exact .pure rfl
  | cons member rest ih =>
    have own : Keeps scopes (requireOwn privates (.kept member)) () := .pure rfl
    exact own.next ih

/-- A class is put together again from the members that it had, and nothing runs around it. -/
theorem gives_lowerClass (inHeritage : StaysOption scopes step heritage)
    (inMembers : ∀ member ∈ members, StaysMember scopes (forms member) member) :
    Gives scopes (lowerClass span step members (members.map forms)) fun lowered =>
      lowered.heritage = heritage ∧ lowered.members = members ∧ lowered.before = []
        ∧ lowered.behind = [] := by
  unfold lowerClass
  refine .require ((keeps_heritage inHeritage).next (keeps_withoutAccessors.next ?_))
  refine gives_declarePrivates.bind fun privates kept => ?_
  refine (gives_classPolicy kept).bind fun policy keepsAll => .reading fun setting => ?_
  -- Inside of the class its private names are known, of which none is replaced.
  refine .next (.inSetting _ ?_ (keeps_memberSlots keepsAll inMembers)) ?_
  · exact fun setting progress calm =>
      { calm with kept := List.forall_mem_cons.mpr ⟨kept, calm.kept⟩ }
  have slots : (members.map fun member => (Slot.kept member, false)).map (·.1)
      = members.map .kept := by
    simp
  rw [slots]
  refine (keeps_chainComputedKeys members).next ((keeps_requireOwn privates members).next ?_)
  dsimp only
  rw [addBrands_kept kept, addBrands_kept kept, inits_kept, inits_kept, makeStorage_kept,
    keptMembers_kept]
  have unchanged : Keeps scopes (addToConstructor span heritage.isSome [] members) members :=
    .pure rfl
  exact unchanged.next (.pure ⟨rfl, rfl, rfl, rfl⟩)

/-- A class declaration stays. -/
theorem keeps_classDeclaration {exported : Exported} {name : Option String}
    (inHeritage : StaysOption scopes step heritage)
    (inMembers : ∀ member ∈ members, StaysMember scopes (forms member) member) :
    Keeps scopes (classDeclaration span exported name step members (members.map forms))
      [⟨span, .classDecl exported name heritage members⟩] := by
  unfold classDeclaration
  refine (gives_lowerClass inHeritage inMembers).bind fun lowered shown => ?_
  obtain ⟨heritage, members, before, behind, placeholder, usesThis⟩ := lowered
  obtain ⟨rfl, rfl, rfl, rfl⟩ := shown
  exact .pure rfl

/-- A class expression stays. -/
theorem keeps_classExpression {name : Option String}
    (inHeritage : StaysOption scopes step heritage)
    (inMembers : ∀ member ∈ members, StaysMember scopes (forms member) member) :
    Keeps scopes (classExpression span name step members (members.map forms))
      (.of span (.classExpr name heritage members)) := by
  unfold classExpression
  refine (gives_lowerClass inHeritage inMembers).bind fun lowered shown => ?_
  obtain ⟨heritage, members, before, behind, placeholder, usesThis⟩ := lowered
  obtain ⟨rfl, rfl, rfl, rfl⟩ := shown
  exact .pure rfl

end Whole

variable {span : Span}

section Declarations

/-- Nothing is required of a keyword. -/
theorem keeps_requireKeyword {keyword : DeclKeyword} :
    Keeps scopes (requireKeyword span keyword) () := by
  unfold requireKeyword
  split
  · exact .lacks (.pure rfl)
  · exact .pure rfl

/-- Declarators stay, with the rests of their patterns. -/
theorem keeps_varDeclarators {keyword : DeclKeyword} {step : Lower (List Declarator)}
    {declarators : List Declarator} (keeps : Keeps scopes step declarators) :
    Keeps scopes (varDeclarators span keyword step) declarators := by
  have finished : Keeps scopes (finishDeclarators declarators) declarators := .lacks (.pure rfl)
  unfold varDeclarators
  exact keeps_requireKeyword.next (keeps.next finished)

/-- The rest of an object needs no place to be split in. -/
theorem keeps_unsplittableRest {pattern : Pattern} : Keeps scopes (unsplittableRest pattern) () := by
  unfold unsplittableRest
  split
  · exact .lacks (.pure rfl)
  · exact .pure rfl

/-- The parameter of a handler stays, or stays away. -/
theorem keeps_handlerParam {param : Option Pattern} {forms : Pattern → PatternForms}
    (stays : ∀ pattern ∈ param, StaysPattern scopes (forms pattern) pattern) :
    Keeps scopes (handlerParam span (param.map forms)) param := by
  cases param with
  | none => exact .lacks (.pure rfl)
  | some pattern =>
    have declared := keeps_declaredPattern (stays pattern rfl)
    exact declared.next (keeps_unsplittableRest.next (.pure rfl))

end Declarations

section Loops

variable {binding : PatternForms} {pattern : Pattern} {keyword : Option DeclKeyword}
  {subject : Lower Expr} {subjectExpr : Expr} {body : StmtForms} {bodyStmt : Stmt}

/-- The pattern of a loop stays. -/
theorem keeps_loopBinding (inBinding : StaysPattern scopes binding pattern) :
    Keeps scopes (loopBinding keyword binding) pattern := by
  have checked : Keeps scopes (do
      unsplittableRest pattern
      return pattern : Lower Pattern) pattern :=
    keeps_unsplittableRest.next (.pure rfl)
  unfold loopBinding
  -- Without a keyword the binding is an assignment; with one it is declared, and `let` and `const`
  -- are asked for first.
  cases keyword with
  | none => exact inBinding.bound.next checked
  | some keyword =>
    have declared := keeps_declaredPattern inBinding
    dsimp only
    split
    · exact .require (declared.next checked)
    · exact declared.next checked

/-- A loop over a subject stays. -/
theorem keeps_nativeLoop {isAwait : Bool} (inBinding : StaysPattern scopes binding pattern)
    (inSubject : Keeps scopes subject subjectExpr) (inBody : StaysStmt scopes body bodyStmt) :
    Keeps scopes (nativeLoop span isAwait keyword binding subject body)
      ⟨span, .forOf isAwait keyword pattern subjectExpr bodyStmt⟩ := by
  unfold nativeLoop
  exact (keeps_loopBinding inBinding).next (inSubject.next (inBody.single.next (.pure rfl)))

/-- A loop that waits stays one wherever it is. -/
theorem keeps_forAwaitLoop (inBinding : StaysPattern scopes binding pattern)
    (inSubject : Keeps scopes subject subjectExpr) (inBody : StaysStmt scopes body bodyStmt) :
    Keeps scopes (forAwaitLoop span keyword binding subject body)
      ⟨span, .forOf true keyword pattern subjectExpr bodyStmt⟩ := by
  unfold forAwaitLoop
  refine gives_here.bind fun owner native => .supports (.lacks ?_)
  refine .otherwise (fun ⟨_, lacked⟩ => nomatch lacked) (.otherwise ?_ ?_)
  · rw [native.awaitForm]
    simp
  · exact keeps_nativeLoop inBinding inSubject inBody

end Loops

/-- A condition stays with its branches. -/
theorem keeps_ifStatement {test : Lower Expr} {testExpr : Expr} {consequent alternate : StmtForms}
    {consequentStmt alternateStmt : Stmt} (inTest : Keeps scopes test testExpr)
    (inConsequent : StaysStmt scopes consequent consequentStmt)
    (inAlternate : StaysStmt scopes alternate alternateStmt) :
    Keeps scopes (ifStatement span test consequent (some alternate))
      ⟨span, .ifElse testExpr consequentStmt alternateStmt⟩ := by
  unfold ifStatement
  exact inTest.next (inConsequent.single.inBranch.next (inAlternate.single.inBranch.next (.pure rfl)))

/-- A condition with one branch stays one. -/
theorem keeps_ifThenStatement {test : Lower Expr} {testExpr : Expr} {consequent : StmtForms}
    {consequentStmt : Stmt} (inTest : Keeps scopes test testExpr)
    (inConsequent : StaysStmt scopes consequent consequentStmt) :
    Keeps scopes (ifStatement span test consequent none) ⟨span, .ifThen testExpr consequentStmt⟩ := by
  unfold ifStatement
  exact inTest.next (inConsequent.single.inBranch.next (.pure rfl))

/-- An export of names stays, also that of a whole module. -/
theorem keeps_exportStatement {names : ExportNames} {module : Option String} :
    Keeps scopes (exportStatement span names module) [⟨span, .exportNames names module⟩] := by
  unfold exportStatement
  split
  · exact .lacks (.pure rfl)
  · exact .pure rfl

/-- The value of a statement stays unless it is what is left of a chain. -/
theorem exprStmt_of_not_collapsed {value : Expr} (whole : value.origin.collapsed = false) :
    exprStmt span value = [⟨span, .expr value⟩] := by
  simp [exprStmt, whole]

end Native

end Downlevel
