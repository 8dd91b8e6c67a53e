import Downlevel.Lowering.Class.Body
import Downlevel.Proofs.StateSteps

/-! The storage of private names is made once, and static code that moves out of a class comes
behind it. Where a private name of the class itself is replaced, all static code moves. -/

namespace Downlevel.Lowering

section Storage

/-- The private name that a member needs storage for, and the assignment that makes it. -/
def Slot.storage? : Slot → Option (String × Expr)
  | .privateField span _ name binding _ =>
    some (name, .assign span (.id span binding.storage) (.new span "WeakMap" []))
  | .privateFunction span name binding .. =>
    some (name, .assign span (.id span binding.storage) (.new span "WeakSet" []))
  | _ => none

/-- The assignment of the function that stands in for a private method or accessor. -/
def Slot.standIn? : Slot → Option Expr
  | .privateFunction span _ _ function func =>
    some (.assign span (.id span function) (.of span (.function none func)))
  | _ => none

/-- What is stored holds every name that is wanted once, apart from those that were made before. -/
structure StoresOnce (made : List String) (wanted stored : List (String × Expr)) : Prop where
  sublist : stored.Sublist wanted
  nodup : (stored.map Prod.fst).Nodup
  fresh : ∀ pair ∈ stored, pair.1 ∉ made
  covers : ∀ pair ∈ wanted, pair.1 ∈ made ∨ pair.1 ∈ stored.map Prod.fst

/-- One more name is stored unless it was made before. -/
theorem StoresOnce.cons {made : List String} {wanted stored : List (String × Expr)} {name : String}
    (value : Expr) (once : StoresOnce (name :: made) wanted stored) :
    StoresOnce made ((name, value) :: wanted)
      (if made.contains name then stored else (name, value) :: stored) := by
  have later : ∀ pair ∈ stored, pair.1 ∉ made := fun pair member isMade =>
    once.fresh pair member (List.mem_cons_of_mem _ isMade)
  have others : name ∉ stored.map Prod.fst := by
    rw [List.mem_map]
    rintro ⟨pair, member, rfl⟩
    exact once.fresh pair member List.mem_cons_self
  -- A name that was made already adds nothing, and a new one goes in front.
  by_cases isMade : name ∈ made
  · rw [if_pos (by simpa using isMade)]
    refine ⟨once.sublist.cons _, once.nodup, later, fun pair member => ?_⟩
    rcases List.mem_cons.mp member with rfl | member
    · exact .inl isMade
    · rcases once.covers pair member with known | isStored
      · rcases List.mem_cons.mp known with same | known
        · exact .inl (same ▸ isMade)
        · exact .inl known
      · exact .inr isStored
  · rw [if_neg (by simpa using isMade)]
    refine ⟨once.sublist.cons_cons _, List.nodup_cons.mpr ⟨others, once.nodup⟩, ?_, ?_⟩
    · rintro pair member
      rcases List.mem_cons.mp member with rfl | member
      · exact isMade
      · exact later pair member
    · rintro pair member
      rcases List.mem_cons.mp member with rfl | member
      · exact .inr List.mem_cons_self
      · rcases once.covers pair member with known | isStored
        · rcases List.mem_cons.mp known with same | known
          · exact .inr (by simp [same])
          · exact .inl known
        · exact .inr (List.mem_cons_of_mem _ isStored)

/-- The storage of each private name is made exactly once, and so is the function of each private
method and accessor. -/
theorem makeStorage_once (made : List String) (slots : List Slot) :
    ∃ stored, StoresOnce made (slots.filterMap Slot.storage?) stored
      ∧ (makeStorage made slots).Perm (stored.map Prod.snd ++ slots.filterMap Slot.standIn?) := by
  -- By induction on the slots, with the names that have their storage written in front.
  induction slots generalizing made with
  | nil => exact ⟨[], ⟨.slnil, .nil, List.forall_mem_nil _, List.forall_mem_nil _⟩, .nil⟩
  | cons slot rest ih =>
    -- Only fields and functions that were replaced ask for storage.
    cases slot with
    | privateField span isStatic name binding init =>
      obtain ⟨stored, once, same⟩ := ih (name :: made)
      refine ⟨_, once.cons _, ?_⟩
      by_cases isMade : name ∈ made
      · simpa [makeStorage, isMade, List.filterMap_cons, Slot.standIn?] using same
      · simpa [makeStorage, isMade, List.filterMap_cons, Slot.standIn?] using
          same.cons (.assign span (.id span binding.storage) (.new span "WeakMap" []))
    | privateFunction span name binding function func =>
      obtain ⟨stored, once, same⟩ := ih (name :: made)
      refine ⟨_, once.cons _, ?_⟩
      have inside := (same.cons (.assign span (.id span function) (.of span (.function none func)))
        ).trans List.perm_middle.symm
      by_cases isMade : name ∈ made
      · simpa [makeStorage, isMade, Slot.standIn?] using inside
      · simpa [makeStorage, isMade, Slot.standIn?] using
          inside.cons (.assign span (.id span binding.storage) (.new span "WeakSet" []))
    | _ => exact ih made

end Storage

section Sides

/-- What is handed out for a private name belongs to the side that the name is declared on. -/
theorem ensures_bindPrivate (entry : DeclaredPrivate) :
    Ensures (bindPrivate entry) fun binding => binding.isStatic = entry.isStatic := by
  refine .next fun storage => ?_
  cases entry.kind with
  | field => exact .next fun role => .done rfl
  | method => exact .next fun role => .done rfl
  | accessor =>
    cases entry.hasGetter <;> cases entry.hasSetter <;>
      exact .next fun getter => .next fun setter => .next fun role => .done rfl

/-- A private name as the class declares it, and what becomes of it, when whole sides are
replaced. -/
structure Becomes (isReplaced : Bool → Bool) (entry : DeclaredPrivate)
    (pair : String × Option PrivateBinding) : Prop where
  name : pair.1 = entry.name
  replaced : pair.2.isSome = isReplaced entry.isStatic
  side : ∀ binding ∈ pair.2, binding.isStatic = entry.isStatic

/-- Of the private names on one side either all are replaced or none. -/
theorem ensures_declarePrivates (source : List ClassMember) (members : List ClassMemberForms) :
    Ensures (declarePrivates source members) fun privates => ∃ isReplaced,
      List.Forall₂ (Becomes isReplaced) (declaredPrivates members) privates := by
  unfold declarePrivates
  dsimp only
  split
  · rename_i isEmpty
    rw [List.isEmpty_iff.mp isEmpty]
    exact .done ⟨fun _ => false, .nil⟩
  · refine .next fun lacksChecks => .next fun unsupported => ?_
    -- The static and the other names are replaced as a whole, or not at all.
    let isReplaced (isStatic : Bool) : Bool :=
      lacksChecks && Search.inClassMembers isBrandCheck source
        || unsupported.any (·.isStatic = isStatic)
    have each (entry : DeclaredPrivate) : Ensures (do
        if isReplaced entry.isStatic then return (entry.name, some (← bindPrivate entry))
        else return (entry.name, none)) (Becomes isReplaced entry) := by
      split
      · rename_i isIn
        exact .bind (ensures_bindPrivate entry) fun binding same =>
          .done ⟨rfl, isIn.symm, by rintro _ ⟨⟩; exact same⟩
      · rename_i stays
        exact .done ⟨rfl, by simpa using stays, nofun⟩
    exact (Ensures.mapM each _).imp fun privates related => ⟨isReplaced, related⟩

end Sides

section StaticCode

/-- Whether a member with a public name, or a block, runs code while the class is defined. -/
def runsStatically : ClassMember → Bool
  | ⟨_, _, _, .staticBlock _⟩ => true
  | ⟨_, key, isStatic, .field _⟩ => isStatic && key.privateName?.isNone
  | _ => false

/-- Whether a member stays in the class and runs code while that is defined. -/
def Slot.runsInClass : Slot → Bool
  | .kept member => runsStatically member
  | _ => false

variable {policy : ClassPolicy} {className : String} {span : Span}

/-- A private name of the class itself that is replaced makes all static code move. -/
theorem ensures_classPolicy {members : List ClassMemberForms} {privates : PrivateNames}
    (replaces : ∃ pair ∈ privates, ∃ binding ∈ pair.2, binding.isStatic = true) :
    Ensures (classPolicy members privates) fun policy => policy.staticFields = true
      ∧ policy.staticBlocks = members.any (·.isStaticBlock) := by
  obtain ⟨pair, member, binding, isBinding, isStatic⟩ := replaces
  refine .next fun lacksStatic => .next fun blocksStay => .next fun lacksField => ?_
  refine .next fun setting => .done ?_
  -- One static private name that is lowered moves all static fields and blocks out.
  have lowers : privates.any (fun pair => pair.2.any (·.isStatic = true)) = true :=
    List.any_eq_true.mpr ⟨pair, member, by simpa [Option.mem_def.mp isBinding] using isStatic⟩
  have fields : (lacksStatic || privates.any fun pair => pair.2.any (·.isStatic = true)) = true :=
    Bool.or_eq_true_iff.mpr (.inr lowers)
  have blocks : (!blocksStay || (lacksStatic
      || privates.any fun pair => pair.2.any (·.isStatic = true))) = true := by
    rw [fields, Bool.or_true]
  exact ⟨fields, (congrArg (members.any (·.isStaticBlock) && ·) blocks).trans (Bool.and_true _)⟩

/-- A method that moves out of its class does not run in it. -/
theorem ensures_functionSlot (key : Key) (isStatic : Bool) (role : FunctionRole)
    (func : Lower Func) :
    Ensures (functionSlot span key isStatic role func) fun slot => slot.runsInClass = false := by
  -- A function never runs while the class is made.
  have stays : ∀ own, (Slot.kept ⟨span, key, isStatic, role.value own⟩).runsInClass = false := by
    cases role <;> exact fun _ => rfl
  refine .next fun own => ?_
  split
  · exact .done (stays own)
  · refine .next fun binding => ?_
    split
    · exact .done (stays own)
    · split
      · exact .done rfl
      · exact .fails

/-- Where static fields leave a class, those with public names do. -/
theorem ensures_fieldSlot (leave : policy.staticFields = true) (key : Key) (isStatic : Bool)
    (init : Option (Lower Expr)) :
    Ensures (fieldSlot policy className span key isStatic init) fun pair =>
      pair.1.runsInClass = false := by
  unfold fieldSlot
  -- A private name that stays is no public one, and a public one stays only where it may.
  cases named : key.privateName? with
  | some name =>
    refine .next fun binding => .next fun lowered => .done ?_
    cases binding with
    | some binding => rfl
    | none => simp [Slot.runsInClass, runsStatically, named]
  | none =>
    refine .next fun binding => .next fun lowered => .done ?_
    dsimp only
    split
    · rfl
    · rename_i stays
      cases isStatic with
      | false => rfl
      | true => simp [leave] at stays
    · split
      · rfl
      · split <;> rfl

/-- Where static fields and blocks leave a class, no member stays that runs code. -/
theorem ensures_memberSlot (member : ClassMemberForms) (fields : policy.staticFields = true)
    (blocks : member.isStaticBlock = true → policy.staticBlocks = true) :
    Ensures (memberSlot policy className member) fun pair => pair.1.runsInClass = false := by
  obtain ⟨span, key, isStatic, value⟩ := member
  unfold memberSlot
  refine .next fun key => ?_
  -- Of the members only fields and blocks run in the class, and both have moved.
  cases value with
  | method func => exact .bind (ensures_functionSlot _ _ _ func) fun _ stays => .done stays
  | getter func => exact .bind (ensures_functionSlot _ _ _ func) fun _ stays => .done stays
  | setter func => exact .bind (ensures_functionSlot _ _ _ func) fun _ stays => .done stays
  | field init => exact ensures_fieldSlot fields key isStatic init
  | accessor init => exact .next fun _ => .done rfl
  | staticBlock blockSpan body =>
    dsimp only
    unfold blockSlot
    rw [if_pos (blocks rfl)]
    exact .next fun _ => .done rfl

/-- Another computed key makes no difference. -/
theorem runsInClass_withKey (key : Expr) {slot : Slot} (isKept : slot.keptKey?.isSome = true) :
    (slot.withKey key).runsInClass = slot.runsInClass := by
  cases slot with
  | kept member =>
    obtain ⟨span, own, isStatic, value⟩ := member
    cases own with
    | direct name => cases isKept
    | computed own => cases value <;> rfl
  | _ => rfl

/-- Taking the key out of a member that moves leaves those that stay alone. -/
theorem ensures_captureKey (slot : Slot) :
    Ensures (captureKey slot) fun keyed => keyed.slot.runsInClass = slot.runsInClass := by
  unfold captureKey
  dsimp only
  split
  · split
    · exact .done rfl
    · exact .next fun name => .done rfl
  · split
    · exact .done rfl
    · exact .next fun name => .done rfl
  · exact .done rfl
  · exact .done rfl

/-- Capturing keys leaves the slots that run in the class out of it. -/
theorem ensures_captureKeys {slots : List Slot}
    (noneRuns : ∀ slot ∈ slots, slot.runsInClass = false) :
    Ensures (captureKeys slots) fun keyed => ∀ member ∈ keyed, member.slot.runsInClass = false := by
  -- The keys are captured from the back, and a slot keeps its kind.
  induction slots with
  | nil => exact .done (List.forall_mem_nil _)
  | cons slot rest ih =>
    have ⟨first, others⟩ := List.forall_mem_cons.mp noneRuns
    unfold captureKeys
    refine .bind (ih others) fun keyed hold => ?_
    dsimp only
    split
    · exact .next fun name => .done (List.forall_mem_cons.mpr ⟨first, hold⟩)
    · exact .bind (ensures_captureKey slot) fun own same =>
        .done (List.forall_mem_cons.mpr ⟨same.trans first, hold⟩)

/-- Chaining the keys changes nothing else. -/
theorem runsInClass_chainKeys (pending : List Expr) (keyed : List KeyedSlot)
    (noneRuns : ∀ member ∈ keyed, member.slot.runsInClass = false) :
    ∀ slot ∈ (chainKeys pending keyed).1, slot.runsInClass = false := by
  -- A chained key changes what a member is called, not when it runs.
  fun_induction chainKeys pending keyed with
  | case1 pending => exact List.forall_mem_nil _
  | case2 pending keyed rest key captured slots left chained ih =>
    have ⟨first, others⟩ := List.forall_mem_cons.mp noneRuns
    rw [chained] at ih
    exact List.forall_mem_cons.mpr ⟨first, ih others⟩
  | case3 pending keyed rest captured moves slots left chained ih =>
    have ⟨first, others⟩ := List.forall_mem_cons.mp noneRuns
    rw [chained] at ih
    exact List.forall_mem_cons.mpr ⟨first, ih others⟩
  | case4 pending keyed rest key unnamed kept captured slots left chained ih =>
    have ⟨first, others⟩ := List.forall_mem_cons.mp noneRuns
    rw [chained] at ih
    have isKept : keyed.slot.keptKey?.isSome = true := by simp [kept]
    exact List.forall_mem_cons.mpr ⟨(runsInClass_withKey _ isKept).trans first, ih others⟩
  | case5 pending keyed rest key name named kept captured slots left chained assigned whole ih =>
    have ⟨first, others⟩ := List.forall_mem_cons.mp noneRuns
    rw [chained] at ih
    have isKept : keyed.slot.keptKey?.isSome = true := by simp [kept]
    exact List.forall_mem_cons.mpr ⟨(runsInClass_withKey _ isKept).trans first, ih others⟩

/-- Static code that left its class has not come back. -/
theorem ensures_chainComputedKeys {slots : List Slot}
    (noneRuns : ∀ slot ∈ slots, slot.runsInClass = false) :
    Ensures (chainComputedKeys slots) fun pair => ∀ slot ∈ pair.1, slot.runsInClass = false := by
  exact .bind (ensures_captureKeys noneRuns) fun keyed hold =>
    .done (runsInClass_chainKeys [] keyed hold)

/-- What stays in the class does not run there. -/
theorem forall_keptMembers {slots : List Slot}
    (noneRuns : ∀ slot ∈ slots, slot.runsInClass = false) :
    ∀ member ∈ keptMembers slots, runsStatically member = false := by
  intro member isKept
  obtain ⟨slot, isIn, stays⟩ := List.mem_filterMap.mp isKept
  cases slot with
  | kept own =>
    cases stays
    exact noneRuns _ isIn
  | _ => cases stays

/-- The constructor runs nothing while the class is defined. -/
theorem ensures_addToConstructor {isDerived : Bool} {inits : List Expr} {members : List ClassMember}
    (noneRuns : ∀ member ∈ members, runsStatically member = false) :
    Ensures (addToConstructor span isDerived inits members) fun result =>
      ∀ member ∈ result, runsStatically member = false := by
  unfold addToConstructor
  split
  · exact .done noneRuns
  · dsimp only
    split
    · refine .next fun body => .done (List.forall_mem_cons.mpr ⟨rfl, fun member isIn => ?_⟩)
      exact noneRuns member (List.mem_of_mem_eraseP isIn)
    · exact .fails

/-- A private name of a member has to have been declared. -/
theorem ensures_requireOwn (privates : PrivateNames) (slot : Slot) :
    Ensures (requireOwn privates slot) fun _ =>
      ∀ name ∈ slot.privateName?, (privates.lookup name).join.isSome = true := by
  unfold requireOwn
  -- A private name without a replacement is a fault, so a run that goes on has one.
  split
  · rename_i own isOwn
    split
    · exact .fails
    · rename_i isReplaced
      refine .done fun name isName => ?_
      obtain rfl : own = name := Option.some.inj (isOwn.symm.trans isName)
      simpa [Option.isSome_iff_ne_none] using isReplaced
  · rename_i isPublic
    exact .done fun name isName => absurd isName (isPublic name)

/-- Storage is made for no private names but those that the class replaces. -/
theorem ensures_forM_requireOwn (privates : PrivateNames) (slots : List Slot) :
    Ensures (slots.forM (requireOwn privates)) fun _ => ∀ slot ∈ slots,
      ∀ name ∈ slot.privateName?, (privates.lookup name).join.isSome = true := by
  induction slots with
  | nil => exact .done (List.forall_mem_nil _)
  | cons slot rest ih =>
    exact .bind (ensures_requireOwn privates slot) fun _ first => ih.imp fun _ others =>
      List.forall_mem_cons.mpr ⟨first, others⟩

/-- What comes behind a class begins with the storage of private names that it replaces, then follow
the static brands and the static code. If a private name of the class itself is replaced, no static
block and no static field with a public name stays in the class, to run before that. -/
theorem ensures_lowerClass (span : Span) (heritage : Option (Lower Expr))
    (source : List ClassMember) (forms : List ClassMemberForms) :
    Ensures (lowerClass span heritage source forms) fun lowered => ∃ privates slots,
      lowered.behind = makeStorage [] slots
          ++ (addBrands span true (.id span lowered.placeholder) privates
            ++ slots.flatMap (Slot.inits true fun _ => .id span lowered.placeholder))
        ∧ (∀ slot ∈ slots, ∀ name ∈ slot.privateName?, (privates.lookup name).join.isSome = true)
        ∧ ((∃ pair ∈ privates, ∃ binding ∈ pair.2, binding.isStatic = true) →
          ∀ member ∈ lowered.members, runsStatically member = false) := by
  refine .next fun _ => .next fun heritage => .next fun forms => .next fun privates => ?_
  -- Without a static name to replace the statement asks for nothing of the members.
  by_cases replaces : ∃ pair ∈ privates, ∃ binding ∈ pair.2, binding.isStatic = true
  · refine .bind (ensures_classPolicy replaces) fun policy moves => .next fun setting => ?_
    have slots (className : String) : Ensures (forms.mapM (memberSlot policy className))
        fun visited => ∀ pair ∈ visited, pair.1.runsInClass = false := by
      refine .forall_mapM fun member isIn => ensures_memberSlot member moves.1 fun isBlock => ?_
      exact moves.2.trans (List.any_eq_true.mpr ⟨member, isIn, isBlock⟩)
    refine .bind (.withReader (slots _)) fun visited hold => ?_
    have moved : ∀ slot ∈ visited.map (·.1), slot.runsInClass = false :=
      List.forall_mem_map.mpr hold
    refine .bind (ensures_chainComputedKeys moved) fun ⟨slots, before⟩ hold => ?_
    refine .bind (ensures_forM_requireOwn privates slots) fun _ own => ?_
    exact .bind (ensures_addToConstructor (forall_keptMembers hold)) fun members hold =>
      .done ⟨privates, slots, rfl, own, fun _ => hold⟩
  · refine .next fun policy => .next fun setting => .next fun visited => ?_
    refine .next fun ⟨slots, before⟩ => ?_
    exact .bind (ensures_forM_requireOwn privates slots) fun _ own => .next fun members =>
      .done ⟨privates, slots, rfl, own, fun some => absurd some replaces⟩

end StaticCode

end Downlevel.Lowering
