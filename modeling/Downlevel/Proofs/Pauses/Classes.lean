import Downlevel.Lowering.Class
import Downlevel.Proofs.Pauses.Functions
import Downlevel.Proofs.Remaining.Classes

/-! A class keeps the pauses of its keys and of its heritage. What its members hold pauses inside of
functions only, wherever it moves to. -/

namespace Downlevel

open Lowering

/-- The pauses of what a function is made of are all inside of it. -/
@[simp] theorem into_funcPauses {extent : Extent} {func : Func} (home : Home) :
    (funcPauses extent func).map (.into home) = funcPauses extent func := by
  obtain ⟨span, isArrow, isAsync, isGenerator, params, body⟩ := func
  simp [funcPauses]

/-- The pauses of the key of a member that are looked at. -/
def Lowering.ClassMemberForms.keyPauses (member : ClassMemberForms) (extent : Extent) :
    List Pause :=
  match extent, member.value, member.key with
  | .sure _, .staticBlock .., _ => []
  | .sure bound, .field none, .computed key =>
    if key.source.mayVanish then [] else exprPauses (.sure bound) key.source
  | _, _, _ => member.key.pauses extent

/-- The pauses that are looked at are some of those of the key. -/
theorem keyPauses_subset (member : ClassMemberForms) (extent : Extent) :
    member.keyPauses extent ⊆ member.key.pauses extent := by
  unfold ClassMemberForms.keyPauses
  split
  · exact List.nil_subset _
  · rename_i forms _ isKey
    rw [isKey]
    split
    · exact List.nil_subset _
    · exact List.Subset.refl _
  · exact List.Subset.refl _

namespace Lowering.Slot

/-- The pauses of the key of a member, wherever the member goes to. -/
def keyPauses : Slot → List Pause
  | .kept member => Downlevel.keyPauses .all member.key
  | .defined _ _ key _ | .assigned _ _ key _ | .dropped key => Downlevel.keyPauses .all key
  | .privateField .. | .privateFunction .. | .staticCode _ => []

/-- The pauses of the key that stays in the class. -/
def keptPauses : Slot → List Pause
  | .kept member => Downlevel.keyPauses .all member.key
  | _ => []

/-- The pauses of what a member holds, wherever it goes to. -/
def valuePauses : Slot → List Pause
  | .kept member => (memberValuePauses .all member.value).map (.into .barred)
  | .defined _ _ _ init | .privateField _ _ _ _ init => optionPauses .all init
  | .assigned _ _ _ init => exprPauses .all init
  | .dropped _ => []
  | .privateFunction _ _ _ _ func => funcPauses .all func
  | .staticCode code => code.flatMap (exprPauses .all)

/-- A key that is all that is evaluated of a member, if it has to be. -/
def soleKey? : Slot → Option Expr
  | .dropped (.computed key) => some key
  | _ => none

end Lowering.Slot

namespace Ending

variable (ending : Ending) (site : Site) (source : Extent → List Pause)

/-- A step inside of a member carries the pauses of the source, none of which belongs to the member
itself. -/
def CarriesInside {α : Type} (inner : Site) (step : Lower α) (pausesOf : α → List Pause) : Prop :=
  ∃ own, Calm inner (own .all)
    ∧ (ending.Leaves inner step fun result => ending.Carries inner own (pausesOf result))
    ∧ ∀ extent, source extent = (own extent).map (.into .barred)

/-- An initializer carries the pauses of the source. -/
def CarriesInit (isStatic : Bool) : Option (Lower Expr) → Prop
  | none => ∀ extent, source extent = []
  | some step => ending.CarriesInside source (fieldSite isStatic) step (exprPauses .all)

/-- What a member holds carries the pauses of the source. -/
def CarriesValue (isStatic : Bool) : MemberForms → Prop
  | .getter func | .setter func | .method func =>
    ending.Leaves site func fun func => ending.Carries site source (funcPauses .all func)
  | .field init | .accessor init => ending.CarriesInit source isStatic init
  | .staticBlock _ body => ending.CarriesInside source .static body (stmtsPauses .all)

/-- The key of a member and what it holds carry the pauses of the source. -/
structure CarriesMember (member : ClassMemberForms) : Prop where
  key : ending.CarriesKey site member.key
  value : ∃ valueSource, ending.CarriesValue site valueSource member.isStatic member.value
    ∧ ∀ extent, source extent = member.keyPauses extent ++ valueSource extent

/-- A member carries the pauses of the source where it goes to; a pause of what it holds is inside of a
function there. -/
structure CarriesSlot (slot : Slot) : Prop where
  carries : ending.Carries site source (slot.keyPauses ++ slot.valuePauses)
  closed : ∀ pause ∈ slot.valuePauses, pause.home ≠ none
  unsure : ∀ key ∈ slot.soleKey?, Purity.isRemovable key = true → source ending.extent = []

variable {ending site source} {span : Span} {extent : Extent}

/-- Steps one after the other have for each source what the step for it has. -/
theorem leaves_mapM₂ {α β γ : Type} {sources : List γ} {items : List α} {step : α → Lower β}
    {described : γ → β → Prop}
    (each : List.Forall₂ (fun source item => ending.Leaves site (step item) (described source))
      sources items) :
    ending.Leaves site (items.mapM step) fun results =>
      List.Forall₂ described sources results := by
  induction each with
  | nil => exact .pure .nil
  | cons first _ ih =>
    rw [List.mapM_cons]
    exact first.bind fun result => ih.bind fun results => .pure fun others own => .cons own others

section Accessors

/-- A getter or a setter that is made up does not pause. -/
theorem carries_noPause {func : Func} (none : funcPauses .all func = []) :
    ending.Carries site (fun _ => []) (funcPauses .all func) := by
  rw [none]
  exact carries_nil rfl

/-- A generated getter does not pause. -/
theorem carries_backingGetter (span : Span) (backing : String) :
    ending.Leaves site (backingGetter span backing) fun func => funcPauses .all func = [] := by
  refine (carries_memberOrPrivate span (.this span) backing).bind fun value => .pure fun same => ?_
  simp [funcPauses, same]

/-- A generated setter does not pause. -/
theorem carries_backingSetter (span : Span) (backing : String) :
    ending.Leaves site (backingSetter span backing) fun func => funcPauses .all func = [] := by
  refine (carries_assignMemberOrPrivate span (.this span) backing _).bind fun write => .pure ?_
  intro same
  simp [funcPauses, same]

/-- The keys of a getter and a setter pause as often as the one key does. -/
theorem carries_accessorKeys {other : Ending} {key : KeyForms}
    (inKey : ending.CarriesKey site key) :
    other.Leaves site (accessorKeys key) fun (_, getter, setter) =>
      (ending.CarriesKey site getter ∧ ∀ extent, getter.pauses extent = key.pauses extent)
        ∧ ending.CarriesKey site setter ∧ ∀ extent, setter.pauses extent = [] := by
  -- A computed key is evaluated once, in the getter's slot; the setter reads the temporary.
  cases key with
  | direct name => exact .pure ⟨⟨trivial, fun _ => rfl⟩, trivial, fun _ => rfl⟩
  | computed value =>
    refine leaves_alloc.bind fun name => .pure fun _ =>
      ⟨⟨⟨?_, ?_, ?_⟩, fun _ => ?_⟩, ⟨?_, ?_, ?_⟩, fun _ => rfl⟩
    · simpa using inKey.calm
    · exact inKey.value.bind fun e => .pure fun carries => by simpa using carries
    · exact .next fun e => .done fun removable => nomatch removable
    · simp [KeyForms.pauses]
    · exact calm_nil
    · exact .pure (carries_nil rfl)
    · exact .done fun removable => nomatch removable

/-- The members that take the place of fields with generated accessors have the same pauses. -/
theorem carries_expandAccessors {other : Ending} {taken : List String}
    {sources : List (Extent → List Pause)} {members : List ClassMemberForms}
    (inMembers : List.Forall₂ (ending.CarriesMember site) sources members) :
    other.Leaves site (expandAccessors taken members) fun expanded =>
      ∃ others, List.Forall₂ (ending.CarriesMember site) others expanded
        ∧ ∀ extent, SamePauses (others.flatMap (· extent)) (sources.flatMap (· extent)) := by
  -- Along the members: an accessor becomes three of them, of which the field takes the pauses of the
  -- value and the getter those of the key.
  induction inMembers generalizing taken with
  | nil => exact .pure ⟨[], .nil, fun _ => samePauses_refl _⟩
  | @cons source member sources members inMember _ ih =>
    obtain ⟨inKey, valueSource, inValue, whole⟩ := inMember
    unfold expandAccessors
    split
    · rename_i init isAccessor
      rw [isAccessor] at inValue
      have whole (extent : Extent) : source extent = member.key.pauses extent ++ valueSource extent := by
        simp [whole, ClassMemberForms.keyPauses, isAccessor]
      refine (carries_accessorKeys inKey).bind fun (base, getter, setter) => ?_
      refine ih.bind fun rest => .pure fun ⟨others, inOthers, same⟩ keys => ?_
      obtain ⟨⟨inGetter, getterSame⟩, inSetter, setterSame⟩ := keys
      refine ⟨valueSource :: getter.pauses :: (fun _ => []) :: others,
        .cons ⟨trivial, valueSource, inValue, fun extent => ?_⟩
          (.cons ⟨inGetter, fun _ => [], ?_, fun extent => ?_⟩
            (.cons ⟨inSetter, fun _ => [], ?_, fun extent => ?_⟩ inOthers)),
        fun extent pause => ?_⟩
      · unfold ClassMemberForms.keyPauses
        split
        · rfl
        · rename_i isKey
          cases isKey
        · rfl
      · exact (carries_backingGetter _ _).weaken fun _ => carries_noPause
      · simp [ClassMemberForms.keyPauses]
      · exact (carries_backingSetter _ _).weaken fun _ => carries_noPause
      · simp [ClassMemberForms.keyPauses, setterSame]
      · have own := same extent pause
        simp only [List.flatMap_cons, List.mem_append, own, whole, getterSame, List.not_mem_nil,
          false_or]
        grind
    · refine ih.bind fun rest => .pure fun ⟨others, inOthers, same⟩ => ?_
      refine ⟨source :: others, .cons ⟨inKey, valueSource, inValue, whole⟩ inOthers, ?_⟩
      intro extent pause
      simp [List.mem_append, same extent pause]

/-- Accessors that are written out keep their pauses in the fields behind them. -/
theorem carries_withoutAccessors {other : Ending} {sources : List (Extent → List Pause)}
    {members : List ClassMemberForms}
    (inMembers : List.Forall₂ (ending.CarriesMember site) sources members) :
    other.Leaves site (withoutAccessors members) fun expanded =>
      ∃ others, List.Forall₂ (ending.CarriesMember site) others expanded
        ∧ ∀ extent, SamePauses (others.flatMap (· extent)) (sources.flatMap (· extent)) := by
  refine (leaves_supports .decorator).andThen fun _ => .ite (fun _ => .pure ?_) fun _ => ?_
  · exact ⟨sources, inMembers, fun _ => samePauses_refl _⟩
  · exact carries_expandAccessors inMembers

end Accessors

section Slots

/-- What a step inside of a member leaves pauses only inside of functions. -/
theorem Carries.inside {inner : Site} {own : Extent → List Pause} {result : List Pause}
    (carries : ending.Carries inner own result) (calm : Calm inner (own .all))
    (barred : inner.isBarred = true)
    (whole : ∀ extent, source extent = (own extent).map (.into .barred)) :
    ending.Carries site source result ∧ ∀ pause ∈ result, pause.home ≠ none := by
  refine ⟨?_, (carries.calm calm).inside barred⟩
  rw [funext whole]
  exact carries.anywhere calm barred

/-- Nothing can pause in the value of a field. -/
theorem fieldSite_isBarred (isStatic : Bool) : (fieldSite isStatic).isBarred = true := by
  cases isStatic <;> rfl

/-- An initializer keeps its pauses, all of which are inside of functions. -/
theorem carries_fieldInit {init : Option (Lower Expr)} {isStatic : Bool}
    (inInit : ending.CarriesInit source isStatic init) (className : Option String) :
    ending.Leaves site (fieldInit init className) fun (lowered, _) =>
      ending.Carries site source (optionPauses .all lowered)
        ∧ (∀ pause ∈ optionPauses .all lowered, pause.home ≠ none)
        ∧ lowered.isSome = init.isSome := by
  cases init with
  | none =>
    exact .pure ⟨carries_nil (inInit _), nofun, rfl⟩
  | some step =>
    obtain ⟨own, calm, inStep, whole⟩ := inInit
    refine leaves_get.andThen fun progress => ?_
    extract_lets owner
    -- The value is inside a member, so its owner is never the module.
    have notModule : owner.kind ≠ .module := by
      simp only [owner]
      split <;> decide
    have suits : (fieldSite isStatic).Suits owner := by cases isStatic <;> exact notModule
    have enters : ending.Leaves site (inOwner owner step) fun entered =>
        ending.Carries (fieldSite isStatic) own (exprPauses .all entered.1) :=
      inStep.inOwner suits (fieldSite_ne_own isStatic)
    refine enters.bind fun _ => .pure fun carries => ?_
    obtain ⟨moved, closed⟩ := carries.inside calm (fieldSite_isBarred isStatic) whole
    exact ⟨moved, closed, rfl⟩

/-- A static block keeps its pauses, all of which are inside of functions. -/
theorem carries_staticBlock (span : Span) {body : Lower (List Stmt)}
    (inBody : ending.CarriesInside source .static body (stmtsPauses .all))
    (className : Option String) :
    ending.Leaves site (staticBlock span body className) fun (stmts, temps, _) =>
      ending.Carries site source (stmtsPauses .all stmts)
        ∧ (∀ pause ∈ stmtsPauses .all stmts, pause.home ≠ none)
        ∧ ∀ temp ∈ temps, temp.IsPlain := by
  obtain ⟨own, calm, inStep, whole⟩ := inBody
  unfold staticBlock
  refine leaves_read.andThen fun setting => leaves_get.andThen fun progress => ?_
  extract_lets scope inside
  have inInside : ending.Leaves site inside fun (stmts, _) =>
      ending.Carries .static own (stmtsPauses .all stmts) := by
    refine leaves_get.andThen fun progress => ?_
    extract_lets owner
    -- The block is inside a class, so its owner is never the module.
    have notModule : owner.kind ≠ .module := by
      simp only [owner]
      split <;> decide
    have suits : Site.Suits .static owner := notModule
    exact inStep.inOwner suits (by simp)
  refine inInside.inFrame.bind fun ((stmts, owner), temps) => .pure fun ⟨carries, plain⟩ => ?_
  obtain ⟨moved, closed⟩ := carries.inside calm rfl whole
  exact ⟨moved, closed, plain⟩

/-- Statements that are all expressions have the pauses of those. -/
theorem pauses_exprStmts? {stmts : List Stmt} {values : List Expr}
    (areValues : exprStmts? stmts = some values) :
    values.flatMap (exprPauses .all) = stmtsPauses .all stmts := by
  -- By induction on the statements: the list exists only if every one is an expression.
  induction stmts generalizing values with
  | nil =>
    obtain rfl : [] = values := by simpa [exprStmts?] using areValues
    rfl
  | cons stmt stmts ih =>
    obtain ⟨span, shape⟩ := stmt
    cases shape with
    | expr value =>
      obtain ⟨rest, areRest, rfl⟩ : ∃ rest, exprStmts? stmts = some rest ∧ value :: rest = values := by
        simpa [exprStmts?] using areValues
      simp [ih areRest]
    | _ => simp [exprStmts?] at areValues

/-- Statements with the made-up names that they need have the same pauses. -/
theorem pauses_declareIn {stmts : List Stmt} {temps : List Temp}
    (plain : ∀ temp ∈ temps, temp.IsPlain) :
    SamePauses (stmtsPauses .all (Temp.declareIn span temps stmts)) (stmtsPauses .all stmts) := by
  unfold Temp.declareIn
  split
  · exact samePauses_refl _
  · intro pause
    have same := pauses_inserted Temp.isPrologue stmts (Temp.declaration span temps) pause
    rwa [pauses_declaration plain, List.append_nil] at same

/-- A static block has the same pauses as expressions. -/
theorem pauses_staticCode {body : List Stmt} {temps : List Temp}
    (plain : ∀ temp ∈ temps, temp.IsPlain)
    (closed : ∀ pause ∈ stmtsPauses .all body, pause.home ≠ none) :
    SamePauses ((staticCode span body temps).flatMap (exprPauses .all)) (stmtsPauses .all body) := by
  unfold staticCode
  -- Expression statements are spliced in as they are; anything else needs a function around it.
  split
  · rename_i values areValues
    split at areValues
    · rw [pauses_exprStmts? areValues]
      exact samePauses_refl _
    · cases areValues
  · -- The function around the statements becomes the home of none of them.
    have declared : SamePauses (stmtsPauses .all (Temp.declareIn span temps body))
        (stmtsPauses .all body) := pauses_declareIn plain
    have same := declared.map (.body span false false)
    rw [map_into closed] at same
    simpa [Expr.of, funcPauses] using same

/-- The key of a method or accessor that gets a name of its own does not pause. -/
theorem pauses_privateKey {key : Key} {name : String} (isPrivate : key.privateName? = some name) :
    keyPauses .all key = [] := by
  cases key with
  | direct own => rfl
  | computed value => cases isPrivate

/-- A method or accessor keeps its pauses where it goes to. -/
theorem carries_functionSlot (span : Span) (key : Key) (isStatic : Bool) (role : FunctionRole)
    {keySource valueSource : Extent → List Pause} {func : Lower Func}
    (inFunc : ending.Leaves site func fun func =>
      ending.Carries site valueSource (funcPauses .all func)) :
    ending.Leaves site (functionSlot span key isStatic role func) fun slot =>
      ending.Carries site keySource (keyPauses .all key) →
        ending.CarriesSlot site (fun extent => keySource extent ++ valueSource extent) slot := by
  refine inFunc.bind fun func => ?_
  -- A function is the home of everything inside, so where its slot ends up does not matter.
  have inside (pause : Pause) (mem : pause ∈ funcPauses .all func) : pause.home ≠ none := by
    rw [← into_funcPauses .barred] at mem
    obtain ⟨own, -, rfl⟩ := List.mem_map.mp mem
    exact Pause.into_home_ne_none
  have stays (carries : ending.Carries site valueSource (funcPauses .all func))
      (inKey : ending.Carries site keySource (keyPauses .all key)) :
      ending.CarriesSlot site (fun extent => keySource extent ++ valueSource extent)
        (.kept ⟨span, key, isStatic, role.value func⟩) := by
    have same : Slot.valuePauses (.kept ⟨span, key, isStatic, role.value func⟩)
        = funcPauses .all func := by
      cases role <;> simp [Slot.valuePauses, FunctionRole.value]
    exact ⟨by simpa [same, Slot.keyPauses] using inKey.append carries, by rwa [same], nofun⟩
  -- A private method leaves the class only if its name is lowered.
  cases isPrivate : key.privateName? with
  | none => exact .pure stays
  | some name =>
    refine (leaves_privateBinding? name).andThen fun binding => ?_
    cases binding with
    | none => exact .pure stays
    | some binding =>
      dsimp only
      split
      · refine .pure fun carries inKey => ⟨?_, inside, nofun⟩
        rw [pauses_privateKey isPrivate] at inKey
        exact inKey.append carries
      · exact .fault

/-- A field keeps its pauses where it goes to, or none of its pauses is sure to remain. -/
theorem carries_fieldSlot (policy : ClassPolicy) (className : String) (span : Span) (key : Key)
    {isStatic : Bool} {init : Option (Lower Expr)} (keySource : Extent → List Pause)
    {valueSource : Extent → List Pause} (inInit : ending.CarriesInit valueSource isStatic init) :
    ending.Leaves site (fieldSlot policy className span key isStatic init) fun (slot, _) =>
      ending.Carries site keySource (keyPauses .all key) →
      (init.isSome = false → ∀ own, key = .computed own → Purity.isRemovable own = true →
        keySource ending.extent = []) →
        ending.CarriesSlot site (fun extent => keySource extent ++ valueSource extent) slot := by
  unfold fieldSlot
  extract_lets name leaves finish
  -- Whatever is known about the name, the rest is the same.
  have finishes (binding : Option PrivateBinding) :
      ending.Leaves site (finish binding) fun (slot, _) =>
        ending.Carries site keySource (keyPauses .all key) →
        (init.isSome = false → ∀ own, key = .computed own → Purity.isRemovable own = true →
          keySource ending.extent = []) →
          ending.CarriesSlot site (fun extent => keySource extent ++ valueSource extent) slot := by
    refine (carries_fieldInit inInit _).bind fun (lowered, usesThis) => .pure ?_
    intro ⟨carries, closed, sameInit⟩ inKey unsure
    have both := inKey.append carries
    split
    · rename_i isPrivate
      rw [pauses_privateKey isPrivate] at both
      exact ⟨both, closed, nofun⟩
    · have same : (optionPauses .all lowered).map (.into .barred) = optionPauses .all lowered :=
        map_into closed
      refine ⟨?_, ?_, nofun⟩
      · simpa [Slot.keyPauses, Slot.valuePauses, same] using both
      · simpa [Slot.valuePauses, same] using closed
    · split
      · exact ⟨both, closed, nofun⟩
      · split
        · exact ⟨both, closed, nofun⟩
        · refine ⟨both, nofun, fun own isOwn removable => ?_⟩
          have noInit : init.isSome = false := by simpa using sameInit.symm
          cases key with
          | direct name => cases isOwn
          | computed value =>
            obtain rfl : value = own := Option.mem_some.mp isOwn
            cases init with
            | none => simp [unsure noInit value rfl removable, inInit ending.extent]
            | some step => cases noInit
  cases name with
  | none => exact finishes none
  | some name => exact (leaves_privateBinding? name).andThen finishes

/-- A static block keeps its pauses in its class or behind it. -/
theorem carries_blockSlot (policy : ClassPolicy) (className : String) (member : ClassMember)
    (span : Span) {body : Lower (List Stmt)} (keySource : Extent → List Pause)
    {valueSource : Extent → List Pause}
    (inBody : ending.CarriesInside valueSource .static body (stmtsPauses .all)) :
    ending.Leaves site (blockSlot policy className member span body) fun (slot, _) =>
      ending.Carries site keySource (keyPauses .all member.key) →
      keySource ending.extent = [] →
        ending.CarriesSlot site (fun extent => keySource extent ++ valueSource extent) slot := by
  refine .ite (fun _ => ?_) fun _ => ?_
  · refine (carries_staticBlock span inBody _).bind fun (body, temps, usesThis) => .pure ?_
    intro ⟨carries, closed, plain⟩ inKey unsure
    have same : SamePauses ((staticCode span body temps).flatMap (exprPauses .all))
        (stmtsPauses .all body) := pauses_staticCode plain closed
    -- The key is none that is evaluated, so it is not among what is sure to remain.
    refine ⟨⟨fun pause mem outside => ?_, fun pause mem => ?_⟩, fun pause mem => ?_, nofun⟩
    · rw [unsure, List.nil_append] at mem
      exact List.mem_append_right _ ((same _).mpr (carries.kept pause mem outside))
    · obtain ⟨own, isOwn, moved⟩ := carries.found pause ((same pause).mp mem)
      exact ⟨own, List.mem_append_right _ isOwn, moved⟩
    · exact closed pause ((same _).mp mem)
  · refine (carries_staticBlock span inBody _).bind fun (body, temps, usesThis) => .pure ?_
    intro ⟨carries, closed, plain⟩ inKey unsure
    have declared : SamePauses (stmtsPauses .all (Temp.declareIn span temps body))
        (stmtsPauses .all body) := pauses_declareIn plain
    have same := declared.map .barred
    rw [map_into closed] at same
    refine ⟨(inKey.append carries).congr fun pause => ?_, fun pause mem => ?_, nofun⟩
    · have own := same pause
      simp only [Slot.keyPauses, Slot.valuePauses, memberValuePauses, blockPauses, List.mem_append,
        own]
    · exact closed pause ((same pause).mp mem)

/-- The key of a member keeps the pauses that are looked at. -/
theorem carries_memberKey {member : ClassMemberForms} (inKey : ending.CarriesKey site member.key) :
    ending.Leaves site (lowerKey member.key) fun lowered =>
      ending.Carries site member.keyPauses (keyPauses .all lowered)
        ∧ KeyVanishes member.key lowered :=
  (carries_lowerKey inKey).weaken fun _ ⟨carries, vanishes⟩ =>
    ⟨carries.weaken (keyPauses_subset member _) (List.Subset.refl _), vanishes⟩

/-- A member keeps its pauses wherever it goes to. -/
theorem carries_memberSlot (policy : ClassPolicy) (className : String) {member : ClassMemberForms}
    (inMember : ending.CarriesMember site source member) :
    ending.Leaves site (memberSlot policy className member) fun (slot, _) =>
      ending.CarriesSlot site source slot := by
  obtain ⟨span, keyForms, isStatic, value⟩ := member
  obtain ⟨inKey, valueSource, inValue, whole⟩ := inMember
  obtain rfl : source = fun extent => _ := funext whole
  refine (carries_memberKey inKey).bind fun key => ?_
  cases value with
  | method func =>
    exact (carries_functionSlot span key isStatic .method inValue).bind fun _ => .pure
      fun shown ⟨inKey, _⟩ => shown inKey
  | getter func =>
    exact (carries_functionSlot span key isStatic .getter inValue).bind fun _ => .pure
      fun shown ⟨inKey, _⟩ => shown inKey
  | setter func =>
    exact (carries_functionSlot span key isStatic .setter inValue).bind fun _ => .pure
      fun shown ⟨inKey, _⟩ => shown inKey
  | field init =>
    have inInit : ending.CarriesInit valueSource isStatic init := inValue
    let member : ClassMemberForms := ⟨span, keyForms, isStatic, .field init⟩
    refine (carries_fieldSlot policy className span key member.keyPauses inInit).weaken ?_
    intro slot shown ⟨inKey, vanishes⟩
    refine shown inKey fun noInit own isOwn removable => ?_
    -- Only a field without a value loses its key, and only one that may be left out.
    obtain ⟨forms, rfl, mayVanish⟩ := vanishes own isOwn removable
    cases init with
    | none => exact if_pos mayVanish
    | some step => cases noInit
  | staticBlock blockSpan body =>
    let member : ClassMemberForms := ⟨span, keyForms, isStatic, .staticBlock blockSpan body⟩
    refine (carries_blockSlot policy className _ blockSpan member.keyPauses inValue).weaken ?_
    intro slot shown ⟨inKey, _⟩
    exact shown inKey rfl
  | accessor init =>
    refine (carries_fieldInit inValue none).bind fun (lowered, _) => .pure ?_
    intro ⟨carries, closed, _⟩ ⟨inKey, _⟩
    have same : (optionPauses .all lowered).map (.into .barred) = optionPauses .all lowered :=
      map_into closed
    refine ⟨?_, ?_, nofun⟩
    · simpa [Slot.keyPauses, Slot.valuePauses, same, ClassMemberForms.keyPauses] using
        inKey.append carries
    · simpa [Slot.valuePauses, same] using closed

end Slots

section Keys

/-- The key of a member that has moved does not pause. -/
def IsSettled : Slot → Prop
  | .defined _ _ key _ | .assigned _ _ key _ => keyPauses .all key = []
  | _ => True

variable (ending site source) in
/-- A member, with what is evaluated in place of its key, carries the pauses of the source. -/
structure CarriesKeyed (keyed : KeyedSlot) : Prop where
  carries : ending.Carries site source
    (optionPauses .all keyed.capture ++ keyed.slot.keptPauses ++ keyed.slot.valuePauses)
  closed : ∀ pause ∈ keyed.slot.valuePauses, pause.home ≠ none
  settled : IsSettled keyed.slot

/-- Literal keys do not pause. -/
theorem pauses_literalKey {key : Expr} (isLiteral : isLiteralKey key = true) :
    exprPauses extent key = [] := by
  obtain ⟨origin, shape⟩ := key
  cases shape <;> first | rfl | cases isLiteral

/-- A member whose key is not evaluated or stays carries the same pauses. -/
theorem CarriesSlot.keyed {slot : Slot} (inSlot : ending.CarriesSlot site source slot)
    (same : slot.keptPauses = slot.keyPauses) (settled : IsSettled slot) (keptAs : Option String) :
    ending.CarriesKeyed site source { slot, keptAs } :=
  ⟨by simpa [same] using inSlot.carries, inSlot.closed, settled⟩

/-- A key that is taken out of a member pauses where it is evaluated. -/
theorem carries_captureKey (slot : Slot) :
    ending.Leaves site (captureKey slot) fun keyed => ∀ source,
      ending.CarriesSlot site source slot → ending.CarriesKeyed site source keyed := by
  -- A key is either a literal or gets a name, and its member is otherwise as it was.
  have intoName (key : Expr) (rebuild : Key → Slot) (same : slot = rebuild (.computed key))
      (keeps : ∀ key, (rebuild key).keptPauses = [] ∧ (rebuild key).keyPauses = keyPauses .all key
        ∧ (rebuild key).valuePauses = slot.valuePauses
        ∧ (IsSettled (rebuild key) ↔ keyPauses .all key = [])) :
      ending.Leaves site
        (if isLiteralKey key then return { slot }
        else do
          let name ← alloc
          return {
            slot := rebuild (.computed (.id key.span name))
            capture := some (.assign key.span (.id key.span name) key) }) fun keyed => ∀ source,
        ending.CarriesSlot site source slot → ending.CarriesKeyed site source keyed := by
    obtain ⟨notKept, inKey, -, isSettled⟩ := keeps (.computed key)
    refine .ite (fun isLiteral => .pure fun source inSlot => ?_) fun _ => ?_
    · have noPause : keyPauses .all (.computed key) = [] := pauses_literalKey isLiteral
      refine inSlot.keyed ?_ ?_ none
      · rw [same, notKept, inKey, noPause]
      · rw [same]
        exact isSettled.mpr noPause
    · refine leaves_alloc.andThen fun name => .pure fun source inSlot => ?_
      obtain ⟨notKept, -, sameValue, isSettled⟩ := keeps (.computed (.id key.span name))
      refine ⟨?_, by simpa only [sameValue] using inSlot.closed, isSettled.mpr rfl⟩
      have carries := inSlot.carries
      rw [show slot.keyPauses = exprPauses .all key from same ▸ inKey] at carries
      simpa [notKept, sameValue] using carries
  -- A key that is written down is not evaluated at all.
  have stays (same : slot.keptPauses = slot.keyPauses) (settled : IsSettled slot) :
      ending.Leaves site (pure { slot }) fun keyed => ∀ source,
        ending.CarriesSlot site source slot → ending.CarriesKeyed site source keyed :=
    .pure fun source inSlot => inSlot.keyed same settled none
  cases slot with
  | defined span isStatic key init =>
    cases key with
    | direct name => exact stays rfl rfl
    | computed key =>
      exact intoName key (.defined span isStatic · init) rfl fun key => ⟨rfl, rfl, rfl, .rfl⟩
  | assigned span isStatic key init =>
    cases key with
    | direct name => exact stays rfl rfl
    | computed key =>
      exact intoName key (.assigned span isStatic · init) rfl fun key => ⟨rfl, rfl, rfl, .rfl⟩
  | dropped key =>
    cases key with
    | direct name => exact stays rfl trivial
    | computed key =>
      refine .pure fun source inSlot => ⟨?_, nofun, trivial⟩
      dsimp only
      split
      · rename_i removable
        exact carries_nil (inSlot.unsure key rfl removable)
      · simpa [Slot.keptPauses, Slot.keyPauses, Slot.valuePauses] using inSlot.carries
  | _ => exact stays rfl trivial

/-- All keys that have to be evaluated pause when they are taken out. -/
theorem carries_captureKeys (slots : List Slot) :
    ending.Leaves site (captureKeys slots) fun keyed => ∀ sources,
      List.Forall₂ (ending.CarriesSlot site) sources slots →
        List.Forall₂ (ending.CarriesKeyed site) sources keyed := by
  induction slots with
  | nil => exact .pure fun sources inSlots => by cases inSlots; exact .nil
  | cons slot slots ih =>
    refine ih.bind fun rest => ?_
    extract_lets isLastKept
    refine .ite (fun isNamed => ?_) fun _ => ?_
    · refine leaves_alloc.andThen fun name => .pure fun inRest sources inSlots => ?_
      cases inSlots with
      | cons inSlot inSlots =>
        refine .cons ?_ (inRest _ inSlots)
        -- Only a key that stays gets a name.
        cases slot with
        | kept member => exact inSlot.keyed rfl trivial _
        | _ => simp [isLastKept, Slot.keptKey?] at isNamed
    · refine (carries_captureKey slot).bind fun keyed => .pure ?_
      intro inKeyed inRest sources inSlots
      cases inSlots with
      | cons inSlot inSlots => exact .cons (inKeyed _ inSlot) (inRest _ inSlots)

/-- Members together carry what each of them does. -/
theorem carries_keyedSlots {sources : List (Extent → List Pause)} {keyed : List KeyedSlot}
    (inKeyed : List.Forall₂ (ending.CarriesKeyed site) sources keyed) :
    ending.Carries site (fun extent => sources.flatMap (· extent)) (keyed.flatMap fun own =>
      optionPauses .all own.capture ++ own.slot.keptPauses ++ own.slot.valuePauses) := by
  induction inKeyed with
  | nil => exact carries_nil rfl
  | cons first _ ih => simpa using first.carries.append ih

/-- Expressions one after the other have the pauses of all of them. -/
@[simp] theorem pauses_inSequence {exprs : List Expr} {last : Expr} :
    exprPauses extent (inSequence exprs last)
      = exprs.flatMap (exprPauses extent) ++ exprPauses extent last := by
  cases exprs <;> simp [inSequence]

/-- A member that gets another key has the pauses of that key instead of its own. -/
theorem pauses_withKey {slot : Slot} {key : Expr} (isKept : slot.keptKey? = some key)
    (other : Expr) :
    slot.keptPauses = exprPauses .all key
      ∧ (slot.withKey other).keptPauses = exprPauses .all other
      ∧ (slot.withKey other).valuePauses = slot.valuePauses ∧ IsSettled (slot.withKey other) := by
  cases slot with
  | kept member =>
    obtain ⟨span, memberKey, isStatic, value⟩ := member
    cases memberKey with
    | direct name => cases isKept
    | computed own =>
      obtain rfl : own = key := by simpa [Slot.keptKey?] using isKept
      exact ⟨rfl, rfl, rfl, trivial⟩
  | _ => cases isKept

/-- What can be relied on for a member whose key is settled. -/
structure IsPlaced (slot : Slot) : Prop where
  closed : ∀ pause ∈ slot.valuePauses, pause.home ≠ none
  settled : IsSettled slot

/-- Keys that are chained pause where they are evaluated. -/
theorem pauses_chainKeys {pending : List Expr} {keyed : List KeyedSlot}
    (placed : ∀ own ∈ keyed, IsPlaced own.slot) :
    (∀ slot ∈ (chainKeys pending keyed).1, IsPlaced slot)
      ∧ SamePauses
        ((chainKeys pending keyed).1.flatMap (fun slot => slot.keptPauses ++ slot.valuePauses)
          ++ (chainKeys pending keyed).2.flatMap (exprPauses .all))
        (pending.flatMap (exprPauses .all) ++ keyed.flatMap fun own =>
          optionPauses .all own.capture ++ own.slot.keptPauses ++ own.slot.valuePauses) := by
  -- Along the members: a captured key waits for the next key that stays, and that key takes all the
  -- waiting ones in front of it.
  induction keyed generalizing pending with
  | nil => exact ⟨nofun, by simpa [chainKeys] using samePauses_refl _⟩
  | cons own rest ih =>
    obtain ⟨isOwn, others⟩ := List.forall_mem_cons.mp placed
    obtain ⟨slot, capture, keptAs⟩ := own
    cases capture with
    | some key =>
      obtain ⟨inSlots, same⟩ := @ih (pending ++ [key]) others
      refine ⟨List.forall_mem_cons.mpr ⟨isOwn, inSlots⟩, fun pause => ?_⟩
      have same := same pause
      simp only [chainKeys, List.flatMap_append, List.flatMap_cons, List.flatMap_nil,
        List.append_nil, List.mem_append, optionPauses] at same ⊢
      grind
    | none =>
      cases isKept : slot.keptKey? with
      | none =>
        obtain ⟨inSlots, same⟩ := @ih pending others
        simp only [chainKeys, isKept]
        refine ⟨List.forall_mem_cons.mpr ⟨isOwn, inSlots⟩, fun pause => ?_⟩
        have same := same pause
        simp only [List.flatMap_cons, List.mem_append, optionPauses, List.not_mem_nil, false_or]
          at same ⊢
        grind
      | some key =>
        obtain ⟨inSlots, same⟩ := @ih [] others
        cases keptAs with
        | none =>
          obtain ⟨kept, rebuilt, value, settled⟩ := pauses_withKey isKept (inSequence pending key)
          simp only [chainKeys, isKept]
          refine ⟨List.forall_mem_cons.mpr ⟨⟨by rw [value]; exact isOwn.closed, settled⟩, inSlots⟩,
            fun pause => ?_⟩
          have same := same pause
          simp only [List.flatMap_cons, List.flatMap_nil, List.mem_append, optionPauses,
            List.not_mem_nil, false_or, kept, rebuilt, value, pauses_inSequence] at same ⊢
          grind
        | some name =>
          obtain ⟨kept, rebuilt, value, settled⟩ := pauses_withKey isKept
            (inSequence (pending ++ .assign key.span (.id key.span name) key
              :: (chainKeys [] rest).2) (.id ⟨0, 0⟩ name))
          simp only [chainKeys, isKept]
          refine ⟨List.forall_mem_cons.mpr ⟨⟨by rw [value]; exact isOwn.closed, settled⟩, inSlots⟩,
            fun pause => ?_⟩
          have same := same pause
          simp only [List.flatMap_cons, List.flatMap_append, List.flatMap_nil, List.mem_append,
            optionPauses, List.not_mem_nil, false_or, or_false, kept, rebuilt, value,
            pauses_inSequence, pauses_assign, pauses_id] at same ⊢
          grind

end Keys

section Initializers

/-- The key of a field as a value has the pauses of the key. -/
@[simp] theorem pauses_fieldKey {key : Key} :
    exprPauses extent (fieldKey key) = keyPauses extent key := by
  cases key with
  | computed value => rfl
  | direct name =>
    rw [fieldKey]
    split <;> simp

/-- The place of a field pauses where its receiver and its key do. -/
@[simp] theorem pauses_fieldPlace {receiver : Expr} {key : Key} :
    exprPauses extent (fieldPlace span receiver key)
      = exprPauses extent receiver ++ keyPauses extent key := by
  unfold fieldPlace
  split <;> simp

/-- Marks on objects do not pause. -/
theorem pauses_addBrands {isStatic : Bool} {receiver : Expr} {privates : PrivateNames}
    (noPause : exprPauses extent receiver = []) :
    (addBrands span isStatic receiver privates).flatMap (exprPauses extent) = [] := by
  refine List.flatMap_eq_nil_iff.mpr fun value mem => ?_
  obtain ⟨⟨name, binding⟩, -, isBrand⟩ := List.mem_filterMap.mp mem
  dsimp only at isBrand
  split at isBrand
  · cases isBrand
  · split at isBrand
    · obtain rfl := Option.some.inj isBrand
      simp [noPause]
    · cases isBrand

/-- The pauses of an initial value that may be absent. -/
theorem pauses_toList {init : Option Expr} :
    init.toList.flatMap (exprPauses extent) = optionPauses extent init := by
  cases init <;> simp

/-- What runs when an object is made pauses only inside of functions. -/
theorem inside_inits {slots : List Slot} (placed : ∀ slot ∈ slots, IsPlaced slot)
    {isStatic : Bool} {receiver : Span → Expr}
    (noPause : ∀ span, exprPauses .all (receiver span) = []) :
    ∀ pause ∈ (slots.flatMap (Slot.inits isStatic receiver)).flatMap (exprPauses .all),
      pause.home ≠ none := by
  intro pause mem
  obtain ⟨value, isValue, inValue⟩ := List.mem_flatMap.mp mem
  obtain ⟨slot, isSlot, isInit⟩ := List.mem_flatMap.mp isValue
  obtain ⟨closed, settled⟩ := placed slot isSlot
  refine closed pause ?_
  -- Each slot contributes its own value and nothing else: the receiver holds no pause.
  cases slot with
  | kept | dropped | privateFunction => cases isInit
  | defined span ofClass key init =>
    have noKey : keyPauses .all key = [] := settled
    simp only [Slot.inits] at isInit
    split at isInit
    · obtain rfl := List.mem_singleton.mp isInit
      simpa [Slot.valuePauses, noPause, noKey, pauses_toList] using inValue
    · cases isInit
  | assigned span ofClass key init =>
    have noKey : keyPauses .all key = [] := settled
    simp only [Slot.inits] at isInit
    split at isInit
    · obtain rfl := List.mem_singleton.mp isInit
      simpa [Slot.valuePauses, noPause, noKey] using inValue
    · cases isInit
  | privateField span ofClass name binding init =>
    simp only [Slot.inits] at isInit
    split at isInit
    · obtain rfl := List.mem_singleton.mp isInit
      simpa [Slot.valuePauses, noPause, pauses_toList] using inValue
    · cases isInit
  | staticCode code =>
    simp only [Slot.inits] at isInit
    split at isInit
    · exact List.mem_flatMap.mpr ⟨value, isInit, inValue⟩
    · cases isInit

/-- What the members of a class pause for is in the class, in what runs when an object is made, or in
what runs behind the class. -/
theorem pauses_spread {slots : List Slot} (placed : ∀ slot ∈ slots, IsPlaced slot)
    {own : Span → Expr} {named : Span → Expr}
    (noPause : ∀ span, exprPauses .all (own span) = [] ∧ exprPauses .all (named span) = [])
    (made : List String) :
    SamePauses
      (classMembersPauses .all (keptMembers slots)
        ++ (slots.flatMap (Slot.inits false own)).flatMap (exprPauses .all)
        ++ (makeStorage made slots).flatMap (exprPauses .all)
        ++ (slots.flatMap (Slot.inits true named)).flatMap (exprPauses .all))
      (slots.flatMap fun slot => slot.keptPauses ++ slot.valuePauses) := by
  induction slots generalizing made with
  | nil => exact samePauses_refl _
  | cons slot slots ih =>
    obtain ⟨isPlaced, others⟩ := List.forall_mem_cons.mp placed
    have settled := isPlaced.settled
    have storage (span : Span) (name : String) (binding : PrivateBinding) (kind : String) :
        (if made.contains name then []
          else [Expr.assign span (.id span binding.storage) (.new span kind [])]).flatMap
            (exprPauses .all) = [] := by
      split <;> simp
    intro pause
    -- Each kind of member adds its pauses to one of the four.
    cases slot with
    | kept member =>
      have same := ih others made pause
      obtain ⟨span, key, isStatic, value⟩ := member
      simp only [keptMembers, List.filterMap_cons, List.flatMap_cons, Slot.inits, makeStorage,
        classMembersPauses, classMemberPauses, Slot.keptPauses, Slot.valuePauses,
        Extent.skipsKey_all, List.nil_append, List.mem_append, Bool.false_eq_true, if_false]
        at same ⊢
      grind
    | dropped key => exact ih others made pause
    | defined span isStatic key init =>
      have same := ih others made pause
      have noKey : keyPauses .all key = [] := settled
      cases isStatic
      all_goals
        simp only [keptMembers, List.filterMap_cons, List.flatMap_cons, Slot.inits, makeStorage,
          Slot.keptPauses, Slot.valuePauses, List.nil_append, List.mem_append, if_true,
          Bool.false_eq_true, if_false, pauses_helper, pauses_fieldKey, noKey, noPause,
          pauses_toList, List.flatMap_append, List.flatMap_nil, List.append_nil, reduceCtorEq]
          at same ⊢
        grind
    | assigned span isStatic key init =>
      have same := ih others made pause
      have noKey : keyPauses .all key = [] := settled
      cases isStatic
      all_goals
        simp only [keptMembers, List.filterMap_cons, List.flatMap_cons, Slot.inits, makeStorage,
          Slot.keptPauses, Slot.valuePauses, List.nil_append, List.mem_append, if_true,
          Bool.false_eq_true, if_false, pauses_assign, pauses_fieldPlace, noKey, noPause,
          List.flatMap_append, List.flatMap_nil, List.append_nil, reduceCtorEq] at same ⊢
        grind
    | privateField span isStatic name binding init =>
      have same := ih others (name :: made) pause
      cases isStatic
      all_goals
        simp only [keptMembers, List.filterMap_cons, List.flatMap_cons, Slot.inits, makeStorage,
          Slot.keptPauses, Slot.valuePauses, List.nil_append, List.mem_append, if_true,
          Bool.false_eq_true, if_false, pauses_helper, pauses_id, noPause, storage,
          pauses_toList, List.flatMap_append, List.flatMap_nil, List.append_nil, reduceCtorEq]
          at same ⊢
        grind
    | privateFunction span name binding function func =>
      have same := ih others (name :: made) pause
      simp only [keptMembers, List.filterMap_cons, List.flatMap_cons, Slot.inits, makeStorage,
        Slot.keptPauses, Slot.valuePauses, List.nil_append, List.mem_append, storage,
        List.flatMap_append, pauses_assign, pauses_id, Expr.of, exprPauses, shapePauses] at same ⊢
      grind
    | staticCode code =>
      have same := ih others made pause
      simp only [keptMembers, List.filterMap_cons, List.flatMap_cons, Slot.inits, makeStorage,
        Slot.keptPauses, Slot.valuePauses, List.nil_append, List.mem_append, if_true,
        Bool.false_eq_true, if_false, List.flatMap_append] at same ⊢
      grind

end Initializers

section Constructor

/-- Statements behind the call of the base constructor add their pauses. -/
theorem pauses_insertBehindSuper? {inits body found : List Stmt}
    (isFound : insertBehindSuper? inits body = some found) :
    SamePauses (stmtsPauses .all found) (stmtsPauses .all body ++ stmtsPauses .all inits) := by
  -- Along the body: they stand behind the first such call, in this list or in a later one.
  induction body generalizing found with
  | nil => cases isFound
  | cons first rest ih =>
    rw [insertBehindSuper?] at isFound
    split at isFound
    · obtain rfl := Option.some.inj isFound
      intro pause
      simp only [List.cons_append, stmtsPauses, pauses_append, List.mem_append]
      grind
    · obtain ⟨inner, isInner, rfl⟩ := Option.map_eq_some_iff.mp isFound
      intro pause
      have same := ih isInner pause
      simp only [stmtsPauses, List.mem_append] at same ⊢
      grind

/-- Statements behind the directives of a body add their pauses. -/
theorem pauses_insertBehindPrologue (inits body : List Stmt) :
    SamePauses (stmtsPauses .all (insertBehindPrologue inits body))
      (stmtsPauses .all body ++ stmtsPauses .all inits) := by
  intro pause
  conv_rhs => rw [← List.takeWhile_append_dropWhile (p := Temp.isPrologue) (l := body)]
  simp only [insertBehindPrologue, pauses_append, List.mem_append]
  grind

/-- A body with initializers in it has the pauses of both. -/
theorem carries_initializedBody (span : Span) (isDerived : Bool) (inits body : List Stmt) :
    ending.Leaves site (initializedBody span isDerived inits body) fun stmts =>
      SamePauses (stmtsPauses .all stmts) (stmtsPauses .all body ++ stmtsPauses .all inits) := by
  refine .ite (fun _ => .pure (pauses_insertBehindPrologue inits body)) fun _ => ?_
  cases found : insertBehindSuper? inits body with
  | some stmts => exact .pure (pauses_insertBehindSuper? found)
  | none =>
    exact (leaves_unsupported span _).andThen fun _ => .pure (pauses_insertBehindPrologue inits body)

/-- A constructor that only calls the one of the base class does not pause. -/
theorem pauses_plainConstructor (isDerived : Bool) :
    classMemberPauses .all (plainConstructor span isDerived) = [] := by
  cases isDerived <;> simp [plainConstructor, classMemberPauses, funcPauses, Expr.of]

/-- The constructor and the other members have the pauses of all members. -/
theorem pauses_constructor (isDerived : Bool) (members : List ClassMember) :
    SamePauses
      (classMemberPauses .all ((members.find? isConstructor).getD (plainConstructor span isDerived))
        ++ classMembersPauses .all (members.eraseP isConstructor))
      (classMembersPauses .all members) := by
  -- The constructor is taken out of the list and put in front, so the pauses are only reordered.
  cases isThere : members.find? isConstructor with
  | none =>
    have others := List.find?_eq_none.mp isThere
    rw [Option.getD_none, pauses_plainConstructor, List.eraseP_of_forall_not others]
    exact samePauses_refl _
  | some member =>
    obtain ⟨isConstructor, before, behind, rfl, others⟩ := List.find?_eq_some_iff_append.mp isThere
    intro pause
    rw [List.eraseP_append_right _ fun other mem => by simpa using others other mem,
      List.eraseP_cons_of_pos isConstructor]
    simp only [Option.getD_some, classMembersPauses_eq, List.flatMap_append, List.flatMap_cons,
      List.mem_append]
    grind

/-- A method has the pauses of its key and of its function. -/
theorem pauses_method {key : Key} {isStatic : Bool} {func : Func} :
    classMemberPauses .all ⟨span, key, isStatic, .method func⟩
      = keyPauses .all key ++ funcPauses .all func := by
  simp [classMemberPauses]

/-- Initializers in the constructor add their pauses, which are inside of functions. -/
theorem carries_addToConstructor (span : Span) (isDerived : Bool) (inits : List Expr)
    (members : List ClassMember) :
    ending.Leaves site (addToConstructor span isDerived inits members) fun initialized =>
      (∀ pause ∈ inits.flatMap (exprPauses .all), pause.home ≠ none) →
        SamePauses (classMembersPauses .all initialized)
          (classMembersPauses .all members ++ inits.flatMap (exprPauses .all)) := by
  -- Nothing to initialize leaves the members alone; otherwise the constructor's body grows.
  refine .ite (fun isEmpty => .pure fun _ => ?_) fun _ => ?_
  · simpa [List.isEmpty_iff.mp isEmpty] using samePauses_refl _
  have parts := @pauses_constructor span isDerived members
  generalize (members.find? isConstructor).getD (plainConstructor span isDerived) = found at *
  obtain ⟨memberSpan, key, isStatic, value⟩ := found
  dsimp only
  split
  · rename_i funcSpan isArrow isAsync isGenerator params stmts
    refine (carries_initializedBody _ isDerived _ _).bind fun body => .pure fun same closed pause => ?_
    -- The constructor is the home of the initializers, whose pauses already had one.
    have own := parts pause
    have inBody := same.map (.body funcSpan isAsync isGenerator) pause
    rw [List.map_append, pauses_exprStmts, map_into closed] at inBody
    rw [List.mem_append] at inBody
    simp only [classMembersPauses, pauses_method, funcPauses, bodyPauses, List.mem_append, inBody]
      at own ⊢
    grind
  · exact .fault

end Constructor

section Parts

variable (ending site source) in
/-- The parts of a class carry the pauses of the source. -/
def CarriesClass (lowered : LoweredClass) : Prop :=
  ending.Carries site source
    (optionPauses .all lowered.heritage ++ classMembersPauses .all lowered.members
      ++ lowered.before.flatMap (exprPauses .all) ++ lowered.behind.flatMap (exprPauses .all))

/-- What goes into a constructor pauses only inside of functions. -/
theorem inside_initializers {slots : List Slot} {privates : PrivateNames}
    (placed : ∀ slot ∈ slots, IsPlaced slot) :
    ∀ pause ∈ (addBrands span false (.this span) privates
      ++ slots.flatMap (Slot.inits false .this)).flatMap (exprPauses .all), pause.home ≠ none := by
  rw [List.flatMap_append, pauses_addBrands (pauses_this _), List.nil_append]
  exact inside_inits placed fun _ => pauses_this _

/-- The members of a class with the initializers in them and what runs behind the class have the
pauses of all members. -/
theorem pauses_classParts {slots : List Slot} {privates : PrivateNames} {placeholder : String}
    {members : List ClassMember} (placed : ∀ slot ∈ slots, IsPlaced slot)
    (initialized : SamePauses (classMembersPauses .all members)
      (classMembersPauses .all (keptMembers slots) ++ (addBrands span false (.this span) privates
        ++ slots.flatMap (Slot.inits false .this)).flatMap (exprPauses .all))) :
    SamePauses
      (classMembersPauses .all members
        ++ (makeStorage [] slots ++ (addBrands span true (.id span placeholder) privates
          ++ slots.flatMap (Slot.inits true fun _ => .id span placeholder))).flatMap
            (exprPauses .all))
      (slots.flatMap fun slot => slot.keptPauses ++ slot.valuePauses) := by
  -- Storage and brands are made of names, so all pauses are in the keys and the values of the
  -- slots.
  have spread := @pauses_spread slots placed .this (fun _ => .id span placeholder)
    (fun _ => ⟨pauses_this _, pauses_id _⟩) []
  have noBrand (isStatic : Bool) {e : Expr} (noPause : exprPauses .all e = []) :
      (addBrands span isStatic e privates).flatMap (exprPauses .all) = [] := pauses_addBrands noPause
  intro pause
  have inMembers := initialized pause
  rw [List.flatMap_append, noBrand false (pauses_this _), List.nil_append, List.mem_append] at inMembers
  rw [← spread pause, List.flatMap_append, List.flatMap_append, noBrand true (pauses_id _),
    List.nil_append]
  simp only [List.mem_append, inMembers]
  grind

/-- A class carries the pauses of its heritage and of its members. -/
theorem carries_lowerClass (span : Span) {heritage : Option (Lower Expr)}
    (own : List ClassMember) {forms : List ClassMemberForms}
    {sources : List (Extent → List Pause)}
    (inHeritage : ending.Leaves site (heritage.mapM id) fun lowered =>
      ending.Carries site source (optionPauses .all lowered))
    (inForms : List.Forall₂ (ending.CarriesMember site) sources forms) :
    ending.Leaves site (lowerClass span heritage own forms)
      (ending.CarriesClass site fun extent => source extent ++ sources.flatMap (· extent)) := by
  -- The steps of the lowering in their order; only the visit of the members and the keys move
  -- anything.
  unfold lowerClass
  refine (leaves_require _ _ _).andThen fun _ => inHeritage.bind fun heritage => ?_
  refine .bindAlways (fun _ => carries_withoutAccessors inForms) ?_
  rintro forms ⟨others, inForms, same⟩
  refine (leaves_declarePrivates _ _).andThen fun privates => ?_
  refine (leaves_classPolicy _ _).andThen fun policy => leaves_read.andThen fun setting => ?_
  extract_lets placeholder inside className
  have inInside : ending.Leaves site inside fun visited =>
      List.Forall₂ (ending.CarriesSlot site) others (visited.map (·.1)) := by
    refine (leaves_mapM₂ (inForms.imp fun _ _ inMember =>
      carries_memberSlot policy placeholder inMember)).weaken fun visited shown => ?_
    exact List.forall₂_map_right_iff.mpr shown
  have inClass : ending.Leaves site
      (withReader (fun setting => { setting with classes := privates :: setting.classes }) inside)
      fun visited => List.Forall₂ (ending.CarriesSlot site) others (visited.map (·.1)) :=
    inInside.withReader fun _ _ fits =>
      ⟨fits.target, fits.scopes, fits.suits, fits.dead, fits.params, fits.temps⟩
  refine inClass.bind fun visited => ?_
  -- Moving the keys in front keeps every pause, and leaves slots whose values are all placed.
  have chained : ending.Leaves site (chainComputedKeys (visited.map (·.1))) fun chained =>
      List.Forall₂ (ending.CarriesSlot site) others (visited.map (·.1)) →
        (∀ slot ∈ chained.1, IsPlaced slot)
          ∧ ending.Carries site (fun extent => others.flatMap (· extent))
            (chained.1.flatMap (fun slot => slot.keptPauses ++ slot.valuePauses)
              ++ chained.2.flatMap (exprPauses .all)) := by
    refine (carries_captureKeys _).bind fun keyed => .pure fun shown inSlots => ?_
    have inKeyed := shown _ inSlots
    have placed (own : KeyedSlot) (mem : own ∈ keyed) : IsPlaced own.slot := by
      obtain ⟨index, bound, rfl⟩ := List.mem_iff_getElem.mp mem
      have inOwn := inKeyed.get (inKeyed.length_eq ▸ bound) bound
      exact ⟨inOwn.closed, inOwn.settled⟩
    obtain ⟨inChained, same⟩ := @pauses_chainKeys [] keyed placed
    exact ⟨inChained, (carries_keyedSlots inKeyed).congr same⟩
  refine chained.bind ?_
  rintro ⟨slots, before⟩
  refine (Leaves.forM fun slot _ => leaves_requireOwn privates slot).andThen fun _ => ?_
  refine (carries_addToConstructor _ _ _ _).bind fun members => .pure ?_
  intro inMembers shown inVisited inHeritage
  obtain ⟨placed, carries⟩ := shown inVisited
  have inClass := @pauses_classParts _ _ _ placeholder _ placed (inMembers (inside_initializers placed))
  refine (inHeritage.append (carries.congrSource fun extent pause =>
    (same extent pause).symm)).congr fun pause => ?_
  have inClass := inClass pause
  rw [List.mem_append] at inClass
  simp only [List.mem_append, ← inClass]
  grind

end Parts

section Named

variable {old new : String}

/-- Expressions pause alike with a name replaced. -/
@[simp] theorem pauses_renameInExprs {values : List Expr} :
    (renameInExprs old new values).flatMap (exprPauses .all)
      = values.flatMap (exprPauses .all) := by
  rw [renameInExprs, List.flatMap_map]
  exact List.flatMap_congr fun value _ => exprPauses_rename _ value

/-- Members pause alike with a name replaced. -/
@[simp] theorem pauses_renameInMembers {members : List ClassMember} :
    classMembersPauses .all (renameInMembers old new members) = classMembersPauses .all members :=
  classMembersPauses_rename _ members

/-- Expressions as one statement pause one after another. -/
@[simp] theorem pauses_sequenceStmt {values : List Expr} :
    stmtsPauses extent (sequenceStmt values) = values.flatMap (exprPauses extent) := by
  cases values <;> simp [sequenceStmt]

/-- A declared name pauses where its value does. -/
@[simp] theorem pauses_declareName {isExported : Bool} {keyword : DeclKeyword} {name : String}
    {value : Expr} :
    stmtPauses extent (declareName span isExported keyword name value) = exprPauses extent value := by
  simp [declareName]

variable {heritage : Option (Lower Expr)} {forms : List ClassMemberForms}
  {sources : List (Extent → List Pause)}

/-- A class declaration keeps its pauses, whatever statements it is lowered to. -/
theorem carries_classDeclaration (span : Span) (exported : Exported) (name : Option String)
    (own : List ClassMember)
    (inHeritage : ending.Leaves site (heritage.mapM id) fun lowered =>
      ending.Carries site source (optionPauses .all lowered))
    (inForms : List.Forall₂ (ending.CarriesMember site) sources forms) :
    ending.Leaves site (classDeclaration span exported name heritage own forms) fun stmts =>
      ending.Carries site (fun extent => source extent ++ sources.flatMap (· extent))
        (stmtsPauses .all stmts) := by
  refine (carries_lowerClass span own inHeritage inForms).bind fun lowered => ?_
  refine .ite (fun isEmpty => .pure fun parts => parts.congr fun pause => ?_) fun _ => ?_
  · simp only [pauses_append, pauses_sequenceStmt, stmtsPauses, stmtPauses, stmtShapePauses,
      List.isEmpty_iff.mp isEmpty, List.flatMap_nil, List.append_nil, List.mem_append]
    grind
  · extract_lets goOn
    -- Whatever the class is called, the rest is the same.
    have inRest (name : String) : ending.Leaves site (goOn name) fun stmts =>
        ending.CarriesClass site (fun extent => source extent ++ sources.flatMap (· extent)) lowered →
          ending.Carries site (fun extent => source extent ++ sources.flatMap (· extent))
            (stmtsPauses .all stmts) := by
      refine .ite (fun _ => .pure fun parts => parts.congr fun pause => ?_) fun _ => ?_
      · simp only [pauses_append, pauses_sequenceStmt, stmtsPauses, stmtPauses, stmtShapePauses,
          pauses_exprStmts, pauses_renameInExprs, List.mem_append]
        grind
      · refine (leaves_allocNamedBound _).andThen fun inner => .pure fun parts => ?_
        refine parts.congr fun pause => ?_
        have noExport : stmtsPauses .all
            (if exported = .asDefault then [exportAsDefault span name] else []) = [] := by
          split <;> rfl
        simp only [pauses_append, pauses_sequenceStmt, stmtsPauses, pauses_declareName,
          pauses_exprStmts, pauses_renameInExprs, pauses_renameInMembers, Expr.of, exprPauses,
          shapePauses, pauses_id, noExport, List.append_nil, List.mem_append]
        grind
    cases name with
    | some name => exact inRest name
    | none =>
      exact leaves_read.andThen fun _ => (leaves_allocNamedBound _).andThen inRest

/-- A class expression keeps its pauses, whatever expressions it is lowered to. -/
theorem carries_classExpression (span : Span) (name : Option String) (own : List ClassMember)
    (inHeritage : ending.Leaves site (heritage.mapM id) fun lowered =>
      ending.Carries site source (optionPauses .all lowered))
    (inForms : List.Forall₂ (ending.CarriesMember site) sources forms) :
    ending.CarriesExpr site (fun extent => source extent ++ sources.flatMap (· extent))
      (classExpression span name heritage own forms) := by
  refine (carries_lowerClass span own inHeritage inForms).bind fun lowered => ?_
  -- Without anything to run before or after it the class stays an expression of its own.
  refine .ite (fun isEmpty => .pure fun parts => parts.congr fun pause => ?_) fun _ => ?_
  · simp only [pauses_inSequence, Expr.of, exprPauses, shapePauses, List.isEmpty_iff.mp isEmpty,
      List.flatMap_nil, List.append_nil, List.mem_append]
    grind
  · refine leaves_alloc.andThen fun temp => ?_
    cases name with
    | some name =>
      refine .pure fun parts => parts.congr fun pause => ?_
      simp only [pauses_inSequence, Expr.of, exprPauses, shapePauses, pauses_assign, pauses_id,
        pauses_renameInExprs, pauses_renameInMembers, List.flatMap_append, List.flatMap_cons,
        List.nil_append, List.append_nil, List.mem_append]
      grind
    | none =>
      refine .pure fun parts => parts.congr fun pause => ?_
      simp only [pauses_inSequence, Expr.of, exprPauses, shapePauses, pauses_assign, pauses_id,
        pauses_renameInExprs, List.flatMap_append, List.flatMap_cons,
        List.nil_append, List.append_nil, List.mem_append]
      grind

end Named

end Ending

end Downlevel
