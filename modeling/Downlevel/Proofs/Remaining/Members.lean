import Downlevel.Lowering.Class.Keys
import Downlevel.Proofs.Remaining.Functions

/-! The members of a class hold nothing but what may remain, in the class and behind it. -/

namespace Downlevel

open Lowering

/-- Where the initializer of a field runs. -/
def fieldSite (isStatic : Bool) : Site :=
  if isStatic then .static else .inside .barred

namespace Ending

variable {ending : Ending} {site : Site} {span : Span}

/-- The value of a field is not where a function has its own code. -/
theorem fieldSite_ne_own (isStatic isDead : Bool) : fieldSite isStatic ≠ .own isDead := by
  cases isStatic <;> simp [fieldSite]

/-- All forms of a class member leave what may remain. -/
structure LeavesMember (ending : Ending) (site : Site) (member : ClassMemberForms) : Prop where
  key : ending.LeavesKey site member.key
  value : match member.value with
    | .getter func | .setter func | .method func =>
      ending.Leaves site func fun func => ending.Keeps site (funcNodes func)
    | .field init | .accessor init =>
      ∀ step ∈ init, ending.LeavesExpr (fieldSite member.isStatic) step
    | .staticBlock _ body =>
      ending.Leaves .static body fun stmts => ending.Keeps .static (stmtsNodes stmts)

section Accessors

/-- A function made up of one statement may remain if the statement may. -/
theorem keeps_accessor {params : List Param} {stmt : Stmt}
    (inParams : ending.Keeps (.inside .barred) (paramsNodes params))
    (inStmt : ending.Keeps (.inside (.body false false)) (stmtNodes stmt)) :
    ending.Keeps site (funcNodes ⟨span, false, false, false, params, .block [stmt]⟩) := by
  refine keeps_func.mpr ⟨admitsKind_plain, inParams, keeps_stmts.mpr fun other mem => ?_⟩
  obtain rfl := List.mem_singleton.mp mem
  exact inStmt

/-- A generated getter may remain. -/
theorem leaves_backingGetter (span : Span) (backing : String) :
    ending.Leaves site (backingGetter span backing) fun func =>
      ending.Keeps site (funcNodes func) := by
  unfold backingGetter memberOrPrivate
  rw [bind_assoc]
  -- The getter reads the backing field, through the helper where its name is bound.
  refine (leaves_privateBinding? backing).bind fun binding => ?_
  cases binding with
  | none =>
    refine .pure fun _ => keeps_accessor throughout_nil (keeps_returns.mpr ?_)
    exact keeps_member.mpr keeps_this
  | some binding =>
    refine .pure fun _ => keeps_accessor throughout_nil (keeps_returns.mpr ?_)
    exact keeps_read keeps_this

/-- A generated setter may remain. -/
theorem leaves_backingSetter (span : Span) (backing : String) :
    ending.Leaves site (backingSetter span backing) fun func =>
      ending.Keeps site (funcNodes func) := by
  have inParams : ending.Keeps (.inside .barred) (paramsNodes [.ofName span "_"]) := by simp [paramsNodes]
  unfold backingSetter assignMemberOrPrivate
  rw [bind_assoc]
  -- The setter writes the backing field, through the helper where its name is bound.
  refine (leaves_privateBinding? backing).bind fun binding => ?_
  cases binding with
  | none =>
    refine .pure fun _ => keeps_accessor inParams (keeps_exprStmt.mpr ?_)
    exact (keeps_assign rfl).mpr ⟨keeps_member.mpr keeps_this, keeps_id⟩
  | some binding =>
    refine .pure fun _ => keeps_accessor inParams (keeps_exprStmt.mpr ?_)
    exact keeps_write keeps_this keeps_id

/-- The keys of a getter and a setter leave what may remain. -/
theorem leaves_accessorKeys {other : Ending} {key : KeyForms} (inKey : ending.LeavesKey site key) :
    other.Leaves site (accessorKeys key) fun (_, getter, setter) =>
      ending.LeavesKey site getter ∧ ending.LeavesKey site setter := by
  cases key with
  | direct name => exact .pure ⟨trivial, trivial⟩
  | computed value =>
    refine leaves_alloc.bind fun name => .pure fun _ => ⟨?_, ?_⟩
    · exact inKey.bind fun e => .pure fun keeps => keeps_assign_id.mpr keeps
    · exact .pure keeps_id

/-- The members that take the place of fields with generated accessors leave what may remain. -/
theorem leaves_expandAccessors {other : Ending} {taken : List String}
    {members : List ClassMemberForms}
    (inMembers : ∀ member ∈ members, ending.LeavesMember site member) :
    other.Leaves site (expandAccessors taken members) fun expanded =>
      ∀ member ∈ expanded, ending.LeavesMember site member := by
  -- Along the members: an accessor becomes three of them, the field behind it and the two
  -- functions.
  induction members generalizing taken with
  | nil => exact .pure (List.forall_mem_nil _)
  | cons member members ih =>
    obtain ⟨inKey, inValue⟩ := inMembers member (by simp)
    have inOthers : ∀ member ∈ members, ending.LeavesMember site member :=
      fun other mem => inMembers other (by simp [mem])
    unfold expandAccessors
    split
    · rename_i init isAccessor
      rw [isAccessor] at inValue
      refine (leaves_accessorKeys inKey).bind fun (base, getter, setter) => ?_
      refine (ih inOthers).bind fun rest => .pure fun inRest ⟨inGetter, inSetter⟩ => ?_
      simp only [List.mem_cons, forall_eq_or_imp]
      exact ⟨⟨trivial, inValue⟩, ⟨inGetter, leaves_backingGetter _ _⟩,
        ⟨inSetter, leaves_backingSetter _ _⟩, inRest⟩
    · refine (ih inOthers).bind fun rest => .pure fun inRest => ?_
      simp only [List.mem_cons, forall_eq_or_imp]
      exact ⟨⟨inKey, inValue⟩, inRest⟩

/-- Accessors that are written out leave nothing but what may remain. -/
theorem leaves_withoutAccessors {other : Ending} {members : List ClassMemberForms}
    (inMembers : ∀ member ∈ members, ending.LeavesMember site member) :
    other.Leaves site (withoutAccessors members) fun expanded =>
      ∀ member ∈ expanded, ending.LeavesMember site member := by
  refine (leaves_supports .decorator).bind fun _ => .ite (fun _ => .pure fun _ => inMembers) fun _ => ?_
  exact (leaves_expandAccessors inMembers).weaken fun _ shown _ => shown

end Accessors

section Privates

/-- Asking whether a private name can stay leaves nothing in the tree. -/
theorem leaves_isSupported (entry : DeclaredPrivate) :
    ending.Leaves site entry.isSupported fun _ => True := by
  refine (leaves_lacks _).bind fun _ => .ite (fun _ => .pure fun _ => trivial) fun _ => ?_
  refine .ite (fun _ => ?_) fun _ => .pure fun _ => trivial
  exact (leaves_supports _).weaken fun _ _ _ => trivial

/-- Binding a private name leaves nothing in the tree. -/
theorem leaves_bindPrivate (entry : DeclaredPrivate) :
    ending.Leaves site (bindPrivate entry) fun _ => True := by
  -- A name that is made up, whatever it is packed into.
  have named {α : Type} (pack : String → α) (base : String) :
      ending.Leaves site (pack <$> allocNamed base) fun _ => True :=
    .map ((leaves_allocNamed base).weaken fun _ _ => trivial)
  unfold bindPrivate
  extract_lets base
  refine (leaves_allocNamed _).andThen fun storage => ?_
  extract_lets finish
  cases entry.kind with
  | field => exact .pure trivial
  | method => exact (named _ _).andThen fun _ => .pure trivial
  | accessor =>
    -- A function is named only if the class has it, and then the next step follows.
    have whether (base : String) (asked : Bool) {rest : Option String → Lower PrivateBinding}
        (inRest : ∀ name, ending.Leaves site (rest name) fun _ => True) :
        ending.Leaves site
          (if asked then some <$> allocNamed base >>= rest else pure none >>= rest) fun _ => True :=
      .ite (fun _ => (named _ _).andThen inRest) fun _ => inRest none
    exact whether _ _ fun getter => whether _ _ fun setter => .pure trivial

/-- Declaring private names leaves nothing in the tree. -/
theorem leaves_declarePrivates (source : List ClassMember) (members : List ClassMemberForms) :
    ending.Leaves site (declarePrivates source members) fun _ => True := by
  unfold declarePrivates
  -- Declaring only asks the target and binds names; nothing of the class itself is made here.
  refine .ite (fun _ => .pure trivial) fun _ => (leaves_lacks _).andThen fun _ => ?_
  have asks (entry : DeclaredPrivate) :
      ending.Leaves site (do return !(← entry.isSupported)) fun _ => True :=
    (leaves_isSupported entry).andThen fun _ => .pure trivial
  refine (Leaves.filterM fun entry _ => asks entry).andThen fun unsupported => ?_
  extract_lets isLowered
  have binds (entry : DeclaredPrivate) : ending.Leaves site
      (if isLowered entry.isStatic then do return (entry.name, some (← bindPrivate entry))
        else return (entry.name, none)) fun _ => True :=
    .ite (fun _ => (leaves_bindPrivate entry).andThen fun _ => .pure trivial)
      fun _ => .pure trivial
  exact (Leaves.mapM fun entry _ => binds entry).weaken fun _ _ => trivial

/-- Deciding what stays in a class leaves nothing in the tree. -/
theorem leaves_classPolicy (members : List ClassMemberForms) (privates : PrivateNames) :
    ending.Leaves site (classPolicy members privates) fun _ => True := by
  unfold classPolicy
  extract_lets lowersPrivate
  refine (leaves_lacks _).andThen fun _ => (leaves_supports _).andThen fun _ => ?_
  exact (leaves_lacks _).andThen fun _ => leaves_read.andThen fun _ => .pure trivial

end Privates

section Slots

/-- The parts of a member may remain where it goes to. -/
def KeepsSlot (ending : Ending) (site : Site) : Slot → Prop
  | .kept member => ending.Keeps site (classMemberNodes member)
  | .defined _ isStatic key init =>
    ending.Keeps site (keyNodes key) ∧ ending.Keeps (fieldSite isStatic) (optionNodes init)
  | .assigned _ isStatic key init =>
    ending.Keeps site (keyNodes key) ∧ ending.Keeps (fieldSite isStatic) (exprNodes init)
  | .dropped key => ending.Keeps site (keyNodes key)
  | .privateField _ isStatic _ _ init => ending.Keeps (fieldSite isStatic) (optionNodes init)
  | .privateFunction _ _ _ _ func => ending.Keeps site (funcNodes func)
  | .staticCode code => ∀ value ∈ code, ending.Keeps .static (exprNodes value)

/-- A member of a class may remain if its key may, and its value where that runs. -/
theorem keeps_classMember {key : Key} {isStatic : Bool} {value : MemberValue} :
    ending.Keeps site (classMemberNodes ⟨span, key, isStatic, value⟩)
      ↔ ending.Keeps site (keyNodes key)
        ∧ ending.Keeps (site.into (memberSite isStatic value)) (memberValueNodes value) := by
  simp only [classMemberNodes, throughout_append, throughout_into]

/-- The value of a field belongs to the field wherever the class stands. -/
theorem into_fieldSite (isStatic : Bool) : site.into (fieldSite isStatic) = fieldSite isStatic := by
  cases isStatic <;> rfl

/-- A function may remain anywhere if it may somewhere. -/
theorem keeps_funcAnywhere {other : Site} {func : Func}
    (keeps : ending.Keeps other (funcNodes func)) : ending.Keeps site (funcNodes func) :=
  keeps_func.mpr (keeps_func.mp keeps)

/-- An initializer may remain where it runs. -/
theorem leaves_fieldInit {init : Option (Lower Expr)} {isStatic : Bool}
    (inInit : ∀ step ∈ init, ending.LeavesExpr (fieldSite isStatic) step)
    (className : Option String) :
    ending.Leaves site (fieldInit init className) fun (init, _) =>
      ending.Keeps (fieldSite isStatic) (optionNodes init) := by
  cases init with
  | none => exact .pure throughout_nil
  | some step =>
    refine leaves_get.andThen fun progress => ?_
    extract_lets owner
    -- The value is inside a member, so its owner is never the module.
    have notModule : owner.kind ≠ .module := by
      simp only [owner]
      split <;> decide
    have suits : (fieldSite isStatic).Suits owner := by cases isStatic <;> exact notModule
    have enters : ending.Leaves site (inOwner owner step) fun entered =>
        ending.Keeps (fieldSite isStatic) (exprNodes entered.1) :=
      (inInit step rfl).inOwner suits (fieldSite_ne_own isStatic)
    exact enters.bind fun _ => .pure id

/-- The statements of a static block may remain, and so may the names that they need. -/
theorem leaves_staticBlock (span : Span) {body : Lower (List Stmt)}
    (inBody : ending.Leaves .static body fun stmts => ending.Keeps .static (stmtsNodes stmts))
    (className : Option String) :
    ending.Leaves site (staticBlock span body className) fun (stmts, temps, _) =>
      ending.Keeps .static (stmtsNodes stmts) ∧ ∀ temp ∈ temps, temp.IsPlain := by
  unfold staticBlock
  refine leaves_read.andThen fun setting => leaves_get.andThen fun progress => ?_
  extract_lets scope inside
  have inInside : ending.Leaves site inside fun (stmts, _) =>
      ending.Keeps .static (stmtsNodes stmts) := by
    refine leaves_get.andThen fun progress => ?_
    extract_lets owner
    -- The block is inside a class, so its owner is never the module.
    have notModule : owner.kind ≠ .module := by
      simp only [owner]
      split <;> decide
    have suits : Site.Suits .static owner := notModule
    exact inBody.inOwner suits (by simp)
  exact inInside.inFrame.bind fun ((stmts, owner), temps) => .pure id

/-- Statements that are all expressions may remain as those. -/
theorem keeps_exprStmts? {stmts : List Stmt} {values : List Expr}
    (inStmts : ending.Keeps site (stmtsNodes stmts)) (areValues : exprStmts? stmts = some values) :
    ∀ value ∈ values, ending.Keeps site (exprNodes value) := by
  -- The statements are all expressions, so each node of theirs is a node of the value.
  induction stmts generalizing values with
  | nil =>
    obtain rfl : [] = values := by simpa [exprStmts?] using areValues
    exact nofun
  | cons stmt stmts ih =>
    obtain ⟨span, shape⟩ := stmt
    rw [keeps_stmts] at inStmts
    cases shape with
    | expr value =>
      obtain ⟨rest, areRest, rfl⟩ : ∃ rest, exprStmts? stmts = some rest ∧ value :: rest = values := by
        simpa [exprStmts?] using areValues
      simp only [List.mem_cons, forall_eq_or_imp]
      refine ⟨keeps_exprStmt.mp (inStmts ⟨span, .expr value⟩ (by simp)), ih (keeps_stmts.mpr ?_) areRest⟩
      exact fun stmt mem => inStmts stmt (by simp [mem])
    | _ => simp [exprStmts?] at areValues

/-- A static block may remain as expressions. -/
theorem keeps_staticCode {body : List Stmt} {temps : List Temp}
    (inBody : ending.Keeps .static (stmtsNodes body)) (plain : ∀ temp ∈ temps, temp.IsPlain) :
    ∀ value ∈ staticCode span body temps, ending.Keeps .static (exprNodes value) := by
  unfold staticCode
  split
  · rename_i values areValues
    split at areValues
    · exact keeps_exprStmts? inBody areValues
    · cases areValues
  · intro value mem
    obtain rfl := List.mem_singleton.mp mem
    refine keeps_plainCall.mpr ⟨?_, throughout_nil⟩
    -- The arrow around the statements is one that lowering writes itself.
    have inFunc : ending.Keeps .static
        (funcNodes ⟨span, true, false, false, [], .block (Temp.declareIn span temps body)⟩) :=
      keeps_func.mpr ⟨admitsKind_plain, throughout_nil,
        keeps_declareIn plain (keeps_moved inBody (Site.static_movesTo _))⟩
    refine keeps_of.mpr ⟨⟨?_, ?_, nofun, .inr rfl, nofun, allowed_plain nofun nofun, nofun⟩, inFunc⟩
    · simp [Node.rewritable?]
    · simp [Node.asynchronous?]

/-- A method or accessor may remain where it goes to. -/
theorem leaves_functionSlot (span : Span) (key : Key) (isStatic : Bool) (role : FunctionRole)
    {func : Lower Func}
    (inFunc : ending.Leaves site func fun func => ending.Keeps site (funcNodes func)) :
    ending.Leaves site (functionSlot span key isStatic role func) fun slot =>
      ending.Keeps site (keyNodes key) → ending.KeepsSlot site slot := by
  refine inFunc.bind fun func => ?_
  have stays (inFunc : ending.Keeps site (funcNodes func)) (inKey : ending.Keeps site (keyNodes key)) :
      ending.KeepsSlot site (.kept ⟨span, key, isStatic, role.value func⟩) := by
    refine keeps_classMember.mpr ⟨inKey, ?_⟩
    cases role <;> exact keeps_funcAnywhere inFunc
  -- A function under a private name leaves the class; it is kept as a value, and its key is
  -- dropped.
  cases key.privateName? with
  | none => exact .pure stays
  | some name =>
    refine (leaves_privateBinding? name).andThen fun binding => ?_
    cases binding with
    | none => exact .pure stays
    | some binding =>
      dsimp only
      split
      · exact .pure fun inFunc _ => inFunc
      · exact .fault

/-- A field may remain where it goes to. -/
theorem leaves_fieldSlot (policy : ClassPolicy) (className : String) (span : Span) (key : Key)
    {isStatic : Bool} {init : Option (Lower Expr)}
    (inInit : ∀ step ∈ init, ending.LeavesExpr (fieldSite isStatic) step) :
    ending.Leaves site (fieldSlot policy className span key isStatic init) fun (slot, _) =>
      ending.Keeps site (keyNodes key) → ending.KeepsSlot site slot := by
  unfold fieldSlot
  extract_lets name leaves finish
  -- Whatever is known about the name, the rest is the same.
  have finishes (binding : Option PrivateBinding) :
      ending.Leaves site (finish binding) fun (slot, _) =>
        ending.Keeps site (keyNodes key) → ending.KeepsSlot site slot := by
    refine (leaves_fieldInit inInit _).bind fun (init, usesThis) => .pure fun inInit inKey => ?_
    dsimp only at inInit ⊢
    split
    · exact inInit
    · refine keeps_classMember.mpr ⟨inKey, ?_⟩
      rw [show memberSite isStatic (.field init) = fieldSite isStatic from rfl, into_fieldSite]
      exact inInit
    · split
      · exact ⟨inKey, inInit⟩
      · split
        · exact ⟨inKey, inInit⟩
        · exact inKey
  cases name with
  | none => exact finishes none
  | some name => exact (leaves_privateBinding? name).andThen finishes

/-- A static block may remain in its class or behind it. -/
theorem leaves_blockSlot (policy : ClassPolicy) (className : String) (member : ClassMember)
    (span : Span) {body : Lower (List Stmt)}
    (inBody : ending.Leaves .static body fun stmts => ending.Keeps .static (stmtsNodes stmts)) :
    ending.Leaves site (blockSlot policy className member span body) fun (slot, _) =>
      ending.Keeps site (keyNodes member.key) → ending.KeepsSlot site slot := by
  refine .ite (fun _ => ?_) fun _ => ?_
  · refine (leaves_staticBlock span inBody _).bind fun (body, temps, usesThis) => .pure ?_
    exact fun ⟨inBody, plain⟩ _ => keeps_staticCode inBody plain
  · refine (leaves_staticBlock span inBody _).bind fun (body, temps, usesThis) => .pure ?_
    exact fun ⟨inBody, plain⟩ inKey => keeps_classMember.mpr ⟨inKey, keeps_declareIn plain inBody⟩

/-- A member may remain wherever it goes to. -/
theorem leaves_memberSlot (policy : ClassPolicy) (className : String) {member : ClassMemberForms}
    (inMember : ending.LeavesMember site member) :
    ending.Leaves site (memberSlot policy className member) fun (slot, _) =>
      ending.KeepsSlot site slot := by
  obtain ⟨span, keyForms, isStatic, value⟩ := member
  obtain ⟨inKey, inValue⟩ := inMember
  refine (leaves_key inKey).bind fun key => ?_
  -- The functions under their roles; the fields and the blocks by what the policy makes of them.
  cases value with
  | method func =>
    exact (leaves_functionSlot span key isStatic .method inValue).bind fun _ => .pure id
  | getter func =>
    exact (leaves_functionSlot span key isStatic .getter inValue).bind fun _ => .pure id
  | setter func =>
    exact (leaves_functionSlot span key isStatic .setter inValue).bind fun _ => .pure id
  | field init => exact leaves_fieldSlot policy className span key inValue
  | staticBlock blockSpan body => exact leaves_blockSlot policy className _ blockSpan inValue
  | accessor init =>
    refine (leaves_fieldInit inValue none).bind fun (init, _) => .pure fun inInit inKey => ?_
    refine keeps_classMember.mpr ⟨inKey, ?_⟩
    rw [show memberSite isStatic (.accessor init) = fieldSite isStatic from rfl, into_fieldSite]
    exact inInit

end Slots

section Keys

/-- The key of a member that has moved can be evaluated anywhere. -/
def SettlesKey (ending : Ending) : Slot → Prop
  | .defined _ _ key _ | .assigned _ _ key _ => ∀ site, ending.Keeps site (keyNodes key)
  | _ => True

/-- A member, what has to be evaluated in place of its key, and the name that its key gets. -/
structure KeepsKeyed (ending : Ending) (site : Site) (keyed : KeyedSlot) : Prop where
  slot : ending.KeepsSlot site keyed.slot
  settled : ending.SettlesKey keyed.slot
  capture : ∀ key ∈ keyed.capture, ending.Keeps site (exprNodes key)

/-- Literal keys can be evaluated anywhere. -/
theorem keeps_literalKey {key : Expr} (isLiteral : isLiteralKey key = true) (site : Site) :
    ending.Keeps site (exprNodes key) := by
  obtain ⟨origin, shape⟩ := key
  cases shape with
  | str value => exact (keeps_plain rfl).mpr throughout_nil
  | num text => exact (keeps_plain rfl).mpr throughout_nil
  | _ => cases isLiteral

/-- A key is taken out of a member that moves. -/
theorem leaves_captureKey (slot : Slot) :
    ending.Leaves site (captureKey slot) fun keyed =>
      ending.KeepsSlot site slot → ending.KeepsKeyed site keyed := by
  -- A key is either a literal or gets a name.
  have intoName (key : Expr) (rebuild : Key → Slot) (same : slot = rebuild (.computed key))
      (settles : ∀ key, (∀ site, ending.Keeps site (keyNodes key)) → ending.SettlesKey (rebuild key))
      (keeps : ∀ key, ending.KeepsSlot site (rebuild key) → ending.Keeps site (keyNodes key)
        ∧ ∀ other, ending.Keeps site (keyNodes other) → ending.KeepsSlot site (rebuild other)) :
      ending.Leaves site
        (if isLiteralKey key then return { slot }
        else do
          let name ← alloc
          return {
            slot := rebuild (.computed (.id key.span name))
            capture := some (.assign key.span (.id key.span name) key) }) fun keyed =>
        ending.KeepsSlot site slot → ending.KeepsKeyed site keyed := by
    refine .ite (fun isLiteral => .pure fun inSlot => ?_) fun _ => ?_
    · exact ⟨inSlot, same ▸ settles _ fun _ => keeps_literalKey isLiteral _, nofun⟩
    · refine leaves_alloc.andThen fun name => .pure fun inSlot => ?_
      obtain ⟨inKey, rebuilds⟩ := keeps _ (same ▸ inSlot)
      have named (site : Site) : ending.Keeps site (keyNodes (.computed (.id key.span name))) :=
        @keeps_id ending site key.span name
      refine ⟨rebuilds _ (named site), settles _ named, fun _ isKey => ?_⟩
      obtain rfl := Option.mem_some.mp isKey
      exact keeps_assign_id.mpr inKey
  -- A key that is written down is not evaluated at all.
  have stays (settled : ending.SettlesKey slot) :
      ending.Leaves site (pure { slot }) fun keyed =>
        ending.KeepsSlot site slot → ending.KeepsKeyed site keyed :=
    .pure fun inSlot => ⟨inSlot, settled, nofun⟩
  cases slot with
  | defined span isStatic key init =>
    cases key with
    | direct name => exact stays fun _ => throughout_nil
    | computed key =>
      refine intoName key (.defined span isStatic · init) rfl (fun _ settles => settles) ?_
      exact fun _ ⟨inKey, inInit⟩ => ⟨inKey, fun _ inOther => ⟨inOther, inInit⟩⟩
  | assigned span isStatic key init =>
    cases key with
    | direct name => exact stays fun _ => throughout_nil
    | computed key =>
      refine intoName key (.assigned span isStatic · init) rfl (fun _ settles => settles) ?_
      exact fun _ ⟨inKey, inInit⟩ => ⟨inKey, fun _ inOther => ⟨inOther, inInit⟩⟩
  | dropped key =>
    cases key with
    | direct name => exact stays trivial
    | computed key =>
      refine .pure fun inSlot => ⟨inSlot, trivial, fun _ isKey => ?_⟩
      dsimp only at isKey
      split at isKey
      · cases isKey
      · obtain rfl := Option.mem_some.mp isKey
        exact inSlot
  | _ => exact stays trivial

/-- All keys that have to be evaluated may remain when they are taken out. -/
theorem leaves_captureKeys (slots : List Slot) :
    ending.Leaves site (captureKeys slots) fun keyed =>
      (∀ slot ∈ slots, ending.KeepsSlot site slot) → ∀ own ∈ keyed, ending.KeepsKeyed site own := by
  induction slots with
  | nil => exact .pure fun _ => List.forall_mem_nil _
  | cons slot slots ih =>
    refine ih.bind fun rest => ?_
    extract_lets isLastKept
    refine .ite (fun isNamed => ?_) fun _ => ?_
    · refine leaves_alloc.andThen fun name => .pure fun inRest inSlots => ?_
      simp only [List.mem_cons, forall_eq_or_imp] at inSlots ⊢
      refine ⟨⟨inSlots.1, ?_, nofun⟩, inRest inSlots.2⟩
      -- Only a key that stays gets a name.
      cases slot with
      | kept member => exact trivial
      | _ => simp [isLastKept, Slot.keptKey?] at isNamed
    · refine (leaves_captureKey slot).bind fun keyed => .pure fun inKeyed inRest inSlots => ?_
      simp only [List.mem_cons, forall_eq_or_imp] at inSlots ⊢
      exact ⟨inKeyed inSlots.1, inRest inSlots.2⟩

/-- Expressions one after the other may remain if all of them may. -/
theorem keeps_inSequence {exprs : List Expr} {last : Expr}
    (inExprs : ∀ e ∈ exprs, ending.Keeps site (exprNodes e))
    (inLast : ending.Keeps site (exprNodes last)) :
    ending.Keeps site (exprNodes (inSequence exprs last)) := by
  cases exprs with
  | nil => exact inLast
  -- The expressions before the last are evaluated first; without any there is only the last.
  | cons first rest =>
    simp only [inSequence, keeps_sequence, List.mem_append, List.mem_singleton]
    refine ⟨inExprs first (by simp), ?_⟩
    rintro e (mem | rfl)
    · exact inExprs e (by simp [mem])
    · exact inLast

/-- A member with another key may remain if that key may. -/
theorem keeps_withKey {slot : Slot} {key other : Expr} (isKept : slot.keptKey? = some key)
    (inSlot : ending.KeepsSlot site slot) :
    ending.Keeps site (exprNodes key)
      ∧ (ending.Keeps site (exprNodes other) → ending.KeepsSlot site (slot.withKey other))
      ∧ ending.SettlesKey (slot.withKey other) := by
  -- Only a kept member has a key of its own that can be replaced.
  cases slot with
  | kept member =>
    obtain ⟨span, memberKey, isStatic, value⟩ := member
    cases memberKey with
    | direct name => cases isKept
    | computed own =>
      obtain rfl : own = key := by simpa [Slot.keptKey?] using isKept
      obtain ⟨inKey, inValue⟩ := keeps_classMember.mp inSlot
      exact ⟨inKey, fun inOther => keeps_classMember.mpr ⟨inOther, inValue⟩, trivial⟩
  | _ => cases isKept

/-- Members whose keys are chained may remain, and so may what is left to evaluate. -/
theorem keeps_chainKeys {pending : List Expr} {keyed : List KeyedSlot}
    (inPending : ∀ e ∈ pending, ending.Keeps site (exprNodes e))
    (inKeyed : ∀ own ∈ keyed, ending.KeepsKeyed site own) :
    (∀ slot ∈ (chainKeys pending keyed).1, ending.KeepsSlot site slot ∧ ending.SettlesKey slot)
      ∧ ∀ e ∈ (chainKeys pending keyed).2, ending.Keeps site (exprNodes e) := by
  -- Along the members: a captured key waits for the next key that stays, and that key takes all the
  -- waiting ones in front of it.
  induction keyed generalizing pending with
  | nil => exact ⟨nofun, inPending⟩
  | cons own rest ih =>
    obtain ⟨inSlot, settled, inCapture⟩ := inKeyed own (by simp)
    have inRest : ∀ own ∈ rest, ending.KeepsKeyed site own :=
      fun other mem => inKeyed other (by simp [mem])
    obtain ⟨slot, capture, keptAs⟩ := own
    cases capture with
    | some key =>
      have inMore : ∀ e ∈ pending ++ [key], ending.Keeps site (exprNodes e) := by
        intro e mem
        rcases List.mem_append.mp mem with before | isKey
        · exact inPending e before
        · obtain rfl := List.mem_singleton.mp isKey
          exact inCapture e rfl
      obtain ⟨inSlots, inLeft⟩ := ih inMore inRest
      exact ⟨List.forall_mem_cons.mpr ⟨⟨inSlot, settled⟩, inSlots⟩, inLeft⟩
    | none =>
      cases isKept : slot.keptKey? with
      | none =>
        obtain ⟨inSlots, inLeft⟩ := ih inPending inRest
        simp only [chainKeys, isKept]
        exact ⟨List.forall_mem_cons.mpr ⟨⟨inSlot, settled⟩, inSlots⟩, inLeft⟩
      | some key =>
        obtain ⟨inSlots, inLeft⟩ := @ih [] nofun inRest
        cases keptAs with
        | none =>
          obtain ⟨inKey, rebuilds, settles⟩ := keeps_withKey isKept inSlot
          have inChain := keeps_inSequence inPending inKey
          simp only [chainKeys, isKept]
          exact ⟨List.forall_mem_cons.mpr ⟨⟨rebuilds inChain, settles⟩, inSlots⟩, inLeft⟩
        | some name =>
          obtain ⟨inKey, rebuilds, settles⟩ := keeps_withKey isKept inSlot
          have inBefore : ∀ e ∈ pending ++ .assign key.span (.id key.span name) key
              :: (chainKeys [] rest).2, ending.Keeps site (exprNodes e) := by
            simp only [List.mem_append, List.mem_cons]
            rintro e (before | rfl | left)
            · exact inPending e before
            · exact keeps_assign_id.mpr inKey
            · exact inLeft e left
          simp only [chainKeys, isKept]
          refine ⟨List.forall_mem_cons.mpr ⟨⟨rebuilds ?_, settles⟩, inSlots⟩, nofun⟩
          exact keeps_inSequence inBefore keeps_id

/-- Members whose keys are chained may remain, and so may what is evaluated in front of them. -/
theorem leaves_chainComputedKeys (slots : List Slot) :
    ending.Leaves site (chainComputedKeys slots) fun (chained, before) =>
      (∀ slot ∈ slots, ending.KeepsSlot site slot) →
        (∀ slot ∈ chained, ending.KeepsSlot site slot ∧ ending.SettlesKey slot)
          ∧ ∀ e ∈ before, ending.Keeps site (exprNodes e) :=
  (leaves_captureKeys slots).bind fun _ => .pure fun inKeyed inSlots =>
    keeps_chainKeys nofun (inKeyed inSlots)

end Keys

end Ending

end Downlevel
