import Downlevel.Lowering.Class
import Downlevel.Proofs.Remaining.Members
import Downlevel.Proofs.Remaining.Trees

/-! A class that is put together again holds nothing but what may remain, and neither does the code
that has moved out of it. -/

namespace Downlevel

open Lowering

namespace Ending

variable {ending : Ending} {site : Site} {span : Span}

section Initializers

/-- The key of a field as a value may remain wherever the key may. -/
theorem keeps_fieldKey {key : Key} (inKey : ending.Keeps site (keyNodes key)) :
    ending.Keeps site (exprNodes (fieldKey key)) := by
  cases key with
  | computed value => exact inKey
  | direct name =>
    rw [fieldKey]
    split
    · exact keeps_num
    · exact keeps_str
    · exact keeps_str

/-- A field may remain as a place if its key and what it belongs to may. -/
theorem keeps_fieldPlace {receiver : Expr} {key : Key}
    (inReceiver : ending.Keeps site (exprNodes receiver))
    (inKey : ending.Keeps site (keyNodes key)) :
    (fieldPlace span receiver key).isObjectPattern = false
      ∧ ending.Keeps site (exprNodes (fieldPlace span receiver key)) := by
  unfold fieldPlace
  split
  · exact ⟨rfl, keeps_member.mpr inReceiver⟩
  · exact ⟨rfl, keeps_computed.mpr ⟨inReceiver, keeps_fieldKey inKey⟩⟩

/-- A value that may be absent may remain as a list. -/
theorem keeps_optionList {init : Option Expr} (inInit : ending.Keeps site (optionNodes init)) :
    ∀ value ∈ init.toList, ending.Keeps site (exprNodes value) := by
  cases init with
  | none => nofun
  | some value => simpa [optionNodes] using inInit

/-- What a member does to an object may remain where the initializers of such members run. -/
theorem keeps_inits {isStatic : Bool} {receiver : Span → Expr} {slot : Slot}
    (inReceiver : ∀ span, ending.Keeps (fieldSite isStatic) (exprNodes (receiver span)))
    (inSlot : ending.KeepsSlot site slot) (settled : ending.SettlesKey slot) :
    ∀ value ∈ slot.inits isStatic receiver,
      ending.Keeps (fieldSite isStatic) (exprNodes value) := by
  intro value mem
  -- Each slot that has an initial value writes it in its own way; the kept ones write none.
  cases slot with
  | defined span ofClass key init =>
    simp only [Slot.inits] at mem
    split at mem
    · rename_i same
      subst same
      obtain rfl := List.mem_singleton.mp mem
      simp only [keeps_helper, List.mem_cons, forall_eq_or_imp]
      exact ⟨inReceiver span, keeps_fieldKey (settled _), keeps_optionList inSlot.2⟩
    · cases mem
  | assigned span ofClass key init =>
    simp only [Slot.inits] at mem
    split at mem
    · rename_i same
      subst same
      obtain rfl := List.mem_singleton.mp mem
      have inPlace := @keeps_fieldPlace ending _ span _ _ (inReceiver span) (settled _)
      exact (keeps_assign inPlace.1).mpr ⟨inPlace.2, inSlot.2⟩
    · cases mem
  | privateField span ofClass name binding init =>
    simp only [Slot.inits] at mem
    split at mem
    · rename_i same
      subst same
      obtain rfl := List.mem_singleton.mp mem
      simp only [keeps_helper, List.mem_cons, forall_eq_or_imp]
      exact ⟨inReceiver span, keeps_id, keeps_optionList inSlot⟩
    · cases mem
  | staticCode code =>
    simp only [Slot.inits] at mem
    split at mem
    · rename_i isStatic
      subst isStatic
      exact inSlot value mem
    · cases mem
  | kept member => cases mem
  | dropped key => cases mem
  | privateFunction span name binding function func => cases mem

/-- Marks on objects may remain if the objects may. -/
theorem keeps_addBrands {isStatic : Bool} {receiver : Expr} {privates : PrivateNames}
    (inReceiver : ending.Keeps site (exprNodes receiver)) :
    ∀ value ∈ addBrands span isStatic receiver privates, ending.Keeps site (exprNodes value) := by
  intro value mem
  -- A brand is only added for a private function whose side matches.
  obtain ⟨⟨name, binding⟩, -, isBrand⟩ := List.mem_filterMap.mp mem
  dsimp only at isBrand
  split at isBrand
  · cases isBrand
  · split at isBrand
    · obtain rfl := Option.some.inj isBrand
      simpa using inReceiver
    · cases isBrand

/-- The storage of private names may remain, and so may the functions that stand in for methods and
accessors. -/
theorem keeps_makeStorage {slots : List Slot} (made : List String)
    (inSlots : ∀ slot ∈ slots, ending.KeepsSlot site slot) :
    ∀ value ∈ makeStorage made slots, ending.Keeps site (exprNodes value) := by
  induction slots generalizing made with
  | nil => nofun
  | cons slot rest ih =>
    have inRest := fun made => ih made fun slot mem => inSlots slot (List.mem_cons_of_mem _ mem)
    have inSlot := inSlots slot (List.mem_cons_self ..)
    -- A name has its storage made once.
    have inStorage (span : Span) (name : String) (binding : PrivateBinding) (kind : String) :
        ∀ value ∈ (if made.contains name then []
          else [Expr.assign span (.id span binding.storage) (.new span kind [])]),
          ending.Keeps site (exprNodes value) := by
      split
      · nofun
      · simp
    cases slot with
    | privateField span isStatic name binding init =>
      simp only [makeStorage, List.mem_append]
      rintro value (isStorage | isLater)
      · exact inStorage _ _ _ _ value isStorage
      · exact inRest _ value isLater
    | privateFunction span name binding function func =>
      simp only [makeStorage, List.mem_append, List.mem_cons]
      rintro value (isStorage | rfl | isLater)
      · exact inStorage _ _ _ _ value isStorage
      · exact keeps_assign_id.mpr (keeps_function.mpr inSlot)
      · exact inRest _ value isLater
    | _ => exact inRest made

end Initializers

section Constructor

/-- Expressions as statements may remain. -/
theorem keeps_asStmts {values : List Expr}
    (inValues : ∀ value ∈ values, ending.Keeps site (exprNodes value)) :
    ∀ stmt ∈ values.map Stmt.expr, ending.Keeps site (stmtNodes stmt) := by
  intro stmt mem
  obtain ⟨value, isValue, rfl⟩ := List.mem_map.mp mem
  exact keeps_exprStmt.mpr (inValues value isValue)

/-- Statements behind the call of the base constructor are those of the body and the new ones. -/
theorem mem_insertBehindSuper? {inits body found : List Stmt}
    (isFound : insertBehindSuper? inits body = some found) :
    ∀ stmt ∈ found, stmt ∈ inits ∨ stmt ∈ body := by
  -- Along the body: the values stand behind the first call of `super`, which is a statement of this
  -- list or of a later one.
  induction body generalizing found with
  | nil => cases isFound
  | cons first rest ih =>
    rw [insertBehindSuper?] at isFound
    split at isFound
    · obtain rfl := Option.some.inj isFound
      intro stmt mem
      simp only [List.cons_append, List.mem_cons, List.mem_append] at mem ⊢
      rcases mem with isFirst | isInit | isRest
      · exact .inr (.inl isFirst)
      · exact .inl isInit
      · exact .inr (.inr isRest)
    · obtain ⟨inner, isInner, rfl⟩ := Option.map_eq_some_iff.mp isFound
      intro stmt mem
      rcases List.mem_cons.mp mem with isFirst | isLater
      · exact .inr (List.mem_cons.mpr (.inl isFirst))
      · exact (ih isInner stmt isLater).imp_right (List.mem_cons_of_mem _)

/-- Statements behind the directives of a body are those of the body and the new ones. -/
theorem mem_insertBehindPrologue {inits body : List Stmt} {stmt : Stmt}
    (mem : stmt ∈ insertBehindPrologue inits body) : stmt ∈ inits ∨ stmt ∈ body := by
  simp only [insertBehindPrologue, List.mem_append] at mem
  rcases mem with (isFirst | isInit) | isLater
  · exact .inr (List.takeWhile_subset _ isFirst)
  · exact .inl isInit
  · exact .inr (List.dropWhile_subset _ isLater)

/-- A body with initializers in it holds nothing but the statements of both. -/
theorem leaves_initializedBody (span : Span) (isDerived : Bool) (inits body : List Stmt) :
    ending.Leaves site (initializedBody span isDerived inits body) fun stmts =>
      ∀ stmt ∈ stmts, stmt ∈ inits ∨ stmt ∈ body := by
  have behind : ∀ stmt ∈ insertBehindPrologue inits body, stmt ∈ inits ∨ stmt ∈ body :=
    fun stmt => mem_insertBehindPrologue
  refine .ite (fun _ => .pure behind) fun _ => ?_
  cases found : insertBehindSuper? inits body with
  | some stmts => exact .pure (mem_insertBehindSuper? found)
  | none => exact (leaves_unsupported span _).andThen fun _ => .pure behind

/-- The members of a class may remain if each may. -/
theorem keeps_classMembers {members : List ClassMember} :
    ending.Keeps site (classMembersNodes members)
      ↔ ∀ member ∈ members, ending.Keeps site (classMemberNodes member) := by
  rw [classMembersNodes_eq]
  exact throughout_flatMap

/-- A constructor that only calls the one of the base class may always remain. -/
theorem keeps_plainConstructor (isDerived : Bool) :
    ending.Keeps site (classMemberNodes (plainConstructor span isDerived)) := by
  refine keeps_classMember.mpr ⟨throughout_nil, keeps_func.mpr ⟨admitsKind_plain, throughout_nil, ?_⟩⟩
  refine keeps_stmts.mpr fun stmt mem => ?_
  split at mem
  · obtain rfl := List.mem_singleton.mp mem
    refine keeps_exprStmt.mpr (keeps_plainCall.mpr ⟨(keeps_plain rfl).mpr throughout_nil, ?_⟩)
    simp [argsNodes, argNodes]
  · cases mem

/-- Members may remain when initializers go into the constructor. -/
theorem leaves_addToConstructor (span : Span) (isDerived : Bool) (inits : List Expr)
    (members : List ClassMember) :
    ending.Leaves site (addToConstructor span isDerived inits members) fun initialized =>
      (∀ value ∈ inits, ending.Keeps (.inside .barred) (exprNodes value)) →
      (∀ member ∈ members, ending.Keeps site (classMemberNodes member)) →
        ending.Keeps site (classMembersNodes initialized) := by
  refine .ite (fun _ => .pure fun _ => keeps_classMembers.mpr) fun _ => ?_
  -- The constructor is one of the members, or the plain one that is made up.
  have isFound (inMembers : ∀ member ∈ members, ending.Keeps site (classMemberNodes member)) :
      ending.Keeps site (classMemberNodes
        ((members.find? isConstructor).getD (plainConstructor span isDerived))) := by
    cases isThere : members.find? isConstructor with
    | none => exact keeps_plainConstructor isDerived
    | some member => exact inMembers member (List.mem_of_find?_eq_some isThere)
  generalize (members.find? isConstructor).getD (plainConstructor span isDerived) = found at *
  obtain ⟨memberSpan, key, isStatic, value⟩ := found
  dsimp only
  split
  · rename_i funcSpan isArrow isAsync isGenerator params stmts
    refine (leaves_initializedBody _ isDerived _ _).bind fun body => .pure ?_
    intro parts inInits inMembers
    obtain ⟨inKey, inFunc⟩ := keeps_classMember.mp (isFound inMembers)
    obtain ⟨kind, inParams, inBody⟩ := keeps_func.mp inFunc
    have inStmts : ∀ stmt ∈ inits.map Stmt.expr,
        -- What initializes the fields was barred from the surroundings, so it may move into the
        -- body.
        ending.Keeps (.inside (.body isAsync isGenerator)) (stmtNodes stmt) :=
      keeps_asStmts fun value mem => keeps_moved (inInits value mem) (Site.barred_movesTo _)
    have inSource := keeps_stmts.mp inBody
    have inBoth : ending.Keeps (.inside (.body isAsync isGenerator)) (stmtsNodes body) :=
      keeps_stmts.mpr fun stmt mem => (parts stmt mem).elim (inStmts stmt) (inSource stmt)
    refine keeps_classMembers.mpr fun member mem => ?_
    rcases List.mem_cons.mp mem with rfl | isOther
    · exact keeps_classMember.mpr ⟨inKey, keeps_func.mpr ⟨kind, inParams, inBoth⟩⟩
    · exact inMembers member (List.mem_of_mem_eraseP isOther)
  · exact .fault

end Constructor

section Parts

/-- All parts of a class that is lowered may remain. -/
structure KeepsClass (ending : Ending) (site : Site) (lowered : LoweredClass) : Prop where
  admits : ending.Admits .classes .classes
  heritage : ending.Keeps site (optionNodes lowered.heritage)
  members : ending.Keeps site (classMembersNodes lowered.members)
  before : ∀ value ∈ lowered.before, ending.Keeps site (exprNodes value)
  behind : ∀ value ∈ lowered.behind, ending.Keeps site (exprNodes value)

/-- Asking whether a private name belongs to the class gives nothing. -/
theorem leaves_requireOwn (privates : PrivateNames) (slot : Slot) :
    ending.Leaves site (requireOwn privates slot) fun _ => True := by
  unfold requireOwn
  split
  · exact .ite (fun _ => .fault) fun _ => .pure trivial
  · exact .pure trivial

/-- The heritage of a class may remain if it has one. -/
theorem leaves_heritage {heritage : Option (Lower Expr)}
    (inHeritage : ∀ step ∈ heritage, ending.LeavesExpr site step) :
    ending.Leaves site (heritage.mapM id) fun heritage =>
      ending.Keeps site (optionNodes heritage) := by
  cases heritage with
  | none => exact .pure throughout_nil
  | some step => exact Leaves.map (inHeritage step rfl)

/-- Members that stay may remain. -/
theorem keeps_keptMembers {slots : List Slot}
    (inSlots : ∀ slot ∈ slots, ending.KeepsSlot site slot) :
    ∀ member ∈ keptMembers slots, ending.Keeps site (classMemberNodes member) := by
  intro member mem
  obtain ⟨slot, isSlot, isKept⟩ := List.mem_filterMap.mp mem
  cases slot <;> simp only [Option.some.injEq, reduceCtorEq] at isKept
  subst isKept
  exact inSlots _ isSlot

/-- A class may remain in parts. -/
theorem leaves_lowerClass (span : Span) {heritage : Option (Lower Expr)}
    (source : List ClassMember) {forms : List ClassMemberForms}
    (inHeritage : ∀ step ∈ heritage, ending.LeavesExpr site step)
    (inForms : ∀ member ∈ forms, ending.LeavesMember site member) :
    ending.Leaves site (lowerClass span heritage source forms) (ending.KeepsClass site) := by
  unfold lowerClass
  refine (leaves_require _ _ _).bind fun _ => (leaves_heritage inHeritage).bind fun heritage => ?_
  -- The members are lowered first, and the computed keys are put in order after them; what is left
  -- is to find each part of the class in one of the two.
  refine .bindAlways (fun _ => leaves_withoutAccessors inForms) fun forms inForms => ?_
  refine (leaves_declarePrivates _ _).andThen fun privates => ?_
  refine (leaves_classPolicy _ _).andThen fun policy => leaves_read.andThen fun setting => ?_
  extract_lets placeholder inside className
  have inInside : ending.Leaves site inside fun visited =>
      ∀ slot ∈ visited.map (·.1), ending.KeepsSlot site slot := by
    refine (Leaves.mapM fun member mem =>
      leaves_memberSlot policy placeholder (inForms member mem)).weaken fun visited shown slot mem => ?_
    obtain ⟨own, isOwn, rfl⟩ := List.mem_map.mp mem
    obtain ⟨member, -, inSlot⟩ := shown.1 own isOwn
    exact inSlot
  have inClass : ending.Leaves site
      (withReader (fun setting => { setting with classes := privates :: setting.classes }) inside)
      fun visited => ∀ slot ∈ visited.map (·.1), ending.KeepsSlot site slot :=
    inInside.withReader fun _ _ fits =>
      ⟨fits.target, fits.scopes, fits.suits, fits.dead, fits.params, fits.temps⟩
  refine inClass.bind fun visited => (leaves_chainComputedKeys _).bind fun (slots, before) => ?_
  refine (Leaves.forM fun slot _ => leaves_requireOwn privates slot).andThen fun _ => ?_
  refine (leaves_addToConstructor _ _ _ _).bind fun members => .pure ?_
  intro inMembers chained inVisited inHeritage admits
  obtain ⟨inSlots, inBefore⟩ := chained inVisited
  refine ⟨admits, inHeritage, ?_, inBefore, ?_⟩
  · -- The kept members: the constructor takes the brands and the values of the fields that are not
    -- static.
    refine inMembers (fun value mem => ?_) (keeps_keptMembers fun slot mem => (inSlots slot mem).1)
    rcases List.mem_append.mp mem with isBrand | isInit
    · exact keeps_addBrands keeps_this value isBrand
    · obtain ⟨slot, isSlot, isOwn⟩ := List.mem_flatMap.mp isInit
      obtain ⟨inSlot, settled⟩ := inSlots slot isSlot
      exact @keeps_inits ending site false _ _ (fun _ => keeps_this) inSlot settled value isOwn
  · intro value mem
    simp only [List.mem_append] at mem
    rcases mem with isStorage | isBrand | isInit
    · exact keeps_makeStorage [] (fun slot mem => (inSlots slot mem).1) value isStorage
    · exact keeps_addBrands keeps_id value isBrand
    · -- Static code moves to where the class is.
      obtain ⟨slot, isSlot, isOwn⟩ := List.mem_flatMap.mp isInit
      obtain ⟨inSlot, settled⟩ := inSlots slot isSlot
      refine keeps_moved ?_ (Site.static_movesTo site)
      exact @keeps_inits ending site true _ _ (fun _ => keeps_id) inSlot settled value isOwn

end Parts

section Named

/-- Expressions may remain with a name replaced. -/
theorem keeps_renameInExprs {old new : String} {values : List Expr}
    (inValues : ∀ value ∈ values, ending.Keeps site (exprNodes value)) :
    ∀ value ∈ renameInExprs old new values, ending.Keeps site (exprNodes value) := by
  intro value mem
  obtain ⟨original, isOriginal, rfl⟩ := List.mem_map.mp mem
  rw [exprNodes_rename]
  exact keeps_rename _ (inValues original isOriginal)

/-- Members may remain with a name replaced. -/
theorem keeps_renameInMembers {old new : String} {members : List ClassMember}
    (inMembers : ending.Keeps site (classMembersNodes members)) :
    ending.Keeps site (classMembersNodes (renameInMembers old new members)) := by
  rw [renameInMembers, classMembersNodes_rename]
  exact keeps_rename _ inMembers

/-- A class may remain as a declaration. -/
theorem keeps_classDecl {exported : Exported} {name : Option String} {heritage : Option Expr}
    {members : List ClassMember} (admits : ending.Admits .classes .classes)
    (inHeritage : ending.Keeps site (optionNodes heritage))
    (inMembers : ending.Keeps site (classMembersNodes members)) :
    ending.Keeps site (stmtNodes ⟨span, .classDecl exported name heritage members⟩) := by
  refine keeps_stmt.mpr ⟨accounts_stmt rfl nofun admits nofun, ?_⟩
  simpa [stmtShapeNodes] using ⟨inHeritage, inMembers⟩

/-- A class may remain as an expression. -/
theorem keeps_classExpr {name : Option String} {heritage : Option Expr}
    {members : List ClassMember} (admits : ending.Admits .classes .classes)
    (inHeritage : ending.Keeps site (optionNodes heritage))
    (inMembers : ending.Keeps site (classMembersNodes members)) :
    ending.Keeps site (exprNodes (.of span (.classExpr name heritage members))) := by
  refine keeps_of.mpr ⟨⟨?_, ?_, nofun, admits, nofun, allowed_plain nofun nofun, nofun⟩, ?_⟩
  · simp [Node.rewritable?]
  · simp [Node.asynchronous?]
  · simpa [shapeNodes] using ⟨inHeritage, inMembers⟩

/-- What is evaluated in front of a class may remain as a statement. -/
theorem keeps_sequenceStmt {values : List Expr}
    (inValues : ∀ value ∈ values, ending.Keeps site (exprNodes value)) :
    ∀ stmt ∈ sequenceStmt values, ending.Keeps site (stmtNodes stmt) := by
  cases values with
  | nil => nofun
  | cons first rest =>
    intro stmt mem
    obtain rfl := List.mem_singleton.mp mem
    exact keeps_exprStmt.mpr (keeps_sequence.mpr
      ⟨inValues first (by simp), fun value mem => inValues value (by simp [mem])⟩)

/-- The names of a class may be declared in any way that lowering declares them. -/
theorem keeps_classAlias {isExported : Bool} {keyword : DeclKeyword} {name : String} {value : Expr}
    (isAlias : isClassAlias keyword [.ofName span name (some value)] = true)
    (inValue : ending.Keeps site (exprNodes value)) :
    ending.Keeps site (stmtNodes (declareName span isExported keyword name value)) := by
  refine keeps_stmt.mpr ⟨accounts_stmt rfl nofun (.inr isAlias) nofun, ?_⟩
  have inDeclarator : ending.Keeps site (declaratorNodes (.ofName span name (some value))) := by
    refine keeps_declarator.mpr ⟨⟨nofun, keeps_idPattern, ?_⟩, nofun⟩
    exact inValue
  simpa [declareName, stmtShapeNodes, declaratorsNodes] using inDeclarator

/-- A default export of a name may remain. -/
theorem keeps_exportAsDefault {name : String} :
    ending.Keeps site (stmtNodes (exportAsDefault span name)) :=
  (@keeps_plainStmt _ _ (exportAsDefault span name) rfl nofun trivial
    (by simp [exportAsDefault, Node.outerNames, ModuleName.quoted])).mpr throughout_nil

/-- A class declaration may remain, or the statements that it was lowered to. -/
theorem leaves_classDeclaration (span : Span) (exported : Exported) (name : Option String)
    {heritage : Option (Lower Expr)} (source : List ClassMember) {forms : List ClassMemberForms}
    (inHeritage : ∀ step ∈ heritage, ending.LeavesExpr site step)
    (inForms : ∀ member ∈ forms, ending.LeavesMember site member) :
    ending.Leaves site (classDeclaration span exported name heritage source forms) fun stmts =>
      ending.Keeps site (stmtsNodes stmts) := by
  refine (leaves_lowerClass span source inHeritage inForms).bind fun lowered => ?_
  refine .ite (fun _ => .pure fun parts => ?_) fun _ => ?_
  · refine keeps_stmts.mpr (List.forall_mem_append.mpr ⟨keeps_sequenceStmt parts.before, ?_⟩)
    exact List.forall_mem_singleton.mpr (keeps_classDecl parts.admits parts.heritage parts.members)
  · extract_lets goOn
    -- Whatever the class is called, the rest is the same.
    have inRest (name : String) : ending.Leaves site (goOn name) fun stmts =>
        ending.KeepsClass site lowered → ending.Keeps site (stmtsNodes stmts) := by
      refine .ite (fun _ => .pure fun parts => ?_) fun _ => ?_
      · refine keeps_stmts.mpr (List.forall_mem_append.mpr ⟨keeps_sequenceStmt parts.before, ?_⟩)
        refine List.forall_mem_cons.mpr
          ⟨keeps_classDecl parts.admits parts.heritage parts.members, keeps_asStmts ?_⟩
        exact keeps_renameInExprs parts.behind
      · refine (leaves_allocNamedBound _).andThen fun inner => .pure fun parts => ?_
        refine keeps_stmts.mpr (List.forall_mem_append.mpr
          ⟨List.forall_mem_append.mpr ⟨keeps_sequenceStmt parts.before, ?_⟩, ?_⟩)
        · refine List.forall_mem_cons.mpr ⟨keeps_classAlias rfl ?_, keeps_asStmts ?_⟩
          · exact keeps_classExpr parts.admits parts.heritage (keeps_renameInMembers parts.members)
          · exact keeps_renameInExprs (keeps_renameInExprs parts.behind)
        · refine List.forall_mem_cons.mpr ⟨keeps_classAlias rfl keeps_id, fun stmt mem => ?_⟩
          split at mem
          · obtain rfl := List.mem_singleton.mp mem
            exact keeps_exportAsDefault
          · cases mem
    cases name with
    | some name => exact inRest name
    | none =>
      exact leaves_read.andThen fun _ => (leaves_allocNamedBound _).andThen inRest

/-- A class expression may remain, or the expressions that it was lowered to. -/
theorem leaves_classExpression (span : Span) (name : Option String)
    {heritage : Option (Lower Expr)} (source : List ClassMember) {forms : List ClassMemberForms}
    (inHeritage : ∀ step ∈ heritage, ending.LeavesExpr site step)
    (inForms : ∀ member ∈ forms, ending.LeavesMember site member) :
    ending.LeavesExpr site (classExpression span name heritage source forms) := by
  refine (leaves_lowerClass span source inHeritage inForms).bind fun lowered => ?_
  refine .ite (fun _ => .pure fun parts => ?_) fun _ => ?_
  · exact keeps_inSequence parts.before
      (keeps_classExpr parts.admits parts.heritage parts.members)
  · refine leaves_alloc.andThen fun temp => ?_
    -- Whether the class has a name of its own or not, its parts are renamed alike.
    have inRest {members : List ClassMember} {behind : List Expr}
        (inMembers : ending.KeepsClass site lowered →
          ending.Keeps site (classMembersNodes members)
            ∧ ∀ value ∈ behind, ending.Keeps site (exprNodes value)) :
        ending.Leaves site
          (do
            let behind := renameInExprs lowered.placeholder temp behind
            let made := .assign span (.id span temp)
              (.of span (.classExpr none lowered.heritage members))
            return inSequence (lowered.before ++ made :: behind) (.id span temp)) fun e =>
          ending.KeepsClass site lowered → ending.Keeps site (exprNodes e) := by
      refine .pure fun parts => keeps_inSequence ?_ keeps_id
      obtain ⟨inMembers, inBehind⟩ := inMembers parts
      refine List.forall_mem_append.mpr ⟨parts.before, List.forall_mem_cons.mpr ⟨?_, ?_⟩⟩
      · exact keeps_assign_id.mpr (keeps_classExpr parts.admits parts.heritage inMembers)
      · exact keeps_renameInExprs inBehind
    cases name with
    | some name =>
      exact inRest fun parts =>
        ⟨keeps_renameInMembers parts.members, keeps_renameInExprs parts.behind⟩
    | none => exact inRest fun parts => ⟨parts.members, parts.behind⟩

end Named

end Ending

end Downlevel
