import Downlevel.Proofs.Remaining.Rules
import Downlevel.Proofs.Renaming

/-! The trees that lowering builds hold nothing but what may remain, and whatever may remain in a tree
may remain in the tree with a name replaced. -/

namespace Downlevel

/-- Whether a shape is of a kind that every target has. -/
def Shape.isPlain : Shape → Bool
  | .arrow _ | .classExpr .. | .tagged .. | .template .. | .bigint _ | .yield .. => false
  | .binary op left _ => op.rewritable?.isNone && (op != .assignment || !left.isObjectPattern)
  | .call link .. | .computed link .. | .member link .. => !link.isChained
  | .unary op _ => op != .await
  | _ => true

namespace Ending

/-- Everything among the nodes of a tree at the site may remain. -/
abbrev Keeps (ending : Ending) (site : Site) (nodes : List Occurrence) : Prop :=
  Throughout ending.Accounts site nodes

variable {ending : Ending} {site : Site}

/-- Where an expression comes from makes no difference. -/
@[simp] theorem accounts_origin {origin : Origin} : ending.Accounts site (.origin origin) :=
  ⟨by simp [Node.rewritable?], by simp [Node.asynchronous?], nofun, trivial, nofun,
    allowed_plain nofun nofun, nofun⟩

/-- An expression is accounted for by its shape and what is inside. -/
theorem keeps_expr {e : Expr} :
    ending.Keeps site (exprNodes e)
      ↔ ending.Accounts site (.shape e.shape) ∧ ending.Keeps site (shapeNodes e.shape) := by
  obtain ⟨origin, shape⟩ := e
  simp [exprNodes]

/-- Whether an expression may remain does not depend on what it replaces. -/
theorem keeps_congr {e other : Expr} (same : other.shape = e.shape)
    (keeps : ending.Keeps site (exprNodes e)) : ending.Keeps site (exprNodes other) := by
  rw [keeps_expr] at keeps ⊢
  rwa [same]

/-- What may remain of an expression is its shape and what that is made of. -/
theorem keeps_of {span : Span} {shape : Shape} :
    ending.Keeps site (exprNodes (.of span shape))
      ↔ ending.Accounts site (.shape shape) ∧ ending.Keeps site (shapeNodes shape) :=
  keeps_expr

/-- Of the operators between two operands only the plain assignment can be announced, where the left
one is a pattern. -/
theorem announced_binary {op : Operator} {left right : Expr} :
    ending.Announced site (.shape (.binary op left right)) ↔
      (op = .assignment → ∀ properties rest, left.shape = .objectPattern properties rest →
        ∀ span, ending.AdmitsRests (.object span properties rest)) := by
  by_cases isAssign : op = .assignment
  · subst isAssign
    obtain ⟨origin, shape⟩ := left
    cases shape with
    | objectPattern properties rest =>
      refine ⟨fun announced _ _ _ same => ?_, fun admits => admits rfl _ _ rfl⟩
      cases same
      exact announced
    | _ => exact iff_of_true True.intro nofun
  · refine iff_of_true ?_ fun same => absurd same isAssign
    cases op with
    | assignment => exact absurd rfl isAssign
    | _ => exact True.intro

/-- Of the operators in front of an operand only the one that waits can be announced. -/
theorem announced_unary {op : Operator} {operand : Expr} :
    ending.Announced site (.shape (.unary op operand)) ↔ (op = .await → ending.AdmitsAwait site) := by
  cases op with
  | await => exact ⟨fun announced _ => announced, fun admits => admits rfl⟩
  | _ => exact iff_of_true True.intro nofun

/-- Of the kinds that every target has, only operators can be announced, and these are not. -/
theorem announced_plain {shape : Shape} (plain : shape.isPlain = true) :
    ending.Announced site (.shape shape) := by
  cases shape with
  | arrow | classExpr => cases plain
  | unary op =>
    refine announced_unary.mpr fun isAwait => ?_
    subst isAwait
    cases plain
  | binary op left =>
    refine announced_binary.mpr fun isAssign properties rest isPattern => ?_
    simp [Shape.isPlain, Expr.isObjectPattern, isAssign, isPattern] at plain
  | _ => exact True.intro

/-- A shape of a kind that every target has may remain. -/
theorem accounts_plain {shape : Shape} (plain : shape.isPlain = true) :
    ending.Accounts site (.shape shape) := by
  -- None of the six parts asks anything of a plain form.
  refine ⟨?_, by simp [Node.asynchronous?], ?_, announced_plain plain, nofun, allowed_plain ?_ ?_,
    nofun⟩
  · cases shape <;> simp_all [Shape.isPlain, Node.rewritable?]
  · cases shape <;> simp_all [Shape.isPlain, Node.IsChained]
  · unfold Node.Waits
    split <;> simp_all [Shape.isPlain]
  · unfold Node.Yields
    split <;> simp_all [Shape.isPlain]

/-- Of an expression of a kind that every target has, only the parts matter. -/
theorem keeps_plain {e : Expr} (plain : e.shape.isPlain = true) :
    ending.Keeps site (exprNodes e) ↔ ending.Keeps site (shapeNodes e.shape) := by
  rw [keeps_expr]
  exact and_iff_right (accounts_plain plain)

section Built

variable {span : Span} {e left right object key test consequent alternate : Expr}

/-- A name may remain. -/
@[simp] theorem keeps_id {name : String} : ending.Keeps site (exprNodes (.id span name)) :=
  (keeps_plain rfl).mpr throughout_nil

/-- A `this` may remain. -/
@[simp] theorem keeps_this : ending.Keeps site (exprNodes (.this span)) :=
  (keeps_plain rfl).mpr throughout_nil

/-- A `null` may remain. -/
@[simp] theorem keeps_null : ending.Keeps site (exprNodes (.null span)) :=
  (keeps_plain rfl).mpr throughout_nil

/-- A truth value may remain. -/
@[simp] theorem keeps_bool {value : Bool} : ending.Keeps site (exprNodes (.bool span value)) :=
  (keeps_plain rfl).mpr throughout_nil

/-- A number may remain. -/
@[simp] theorem keeps_num {text : String} : ending.Keeps site (exprNodes (.num span text)) :=
  (keeps_plain rfl).mpr throughout_nil

/-- A string may remain. -/
@[simp] theorem keeps_str {value : String} : ending.Keeps site (exprNodes (.str span value)) :=
  (keeps_plain rfl).mpr throughout_nil

/-- Any operator in front of an operand, except for one that waits. -/
theorem keeps_unary {op : Operator} (noAwait : op ≠ .await) :
    ending.Keeps site (exprNodes (.unary span op e)) ↔ ending.Keeps site (exprNodes e) :=
  keeps_plain (by simpa [Expr.unary, Expr.of, Shape.isPlain] using noAwait)

/-- The value `undefined`, as it is written, may remain. -/
@[simp] theorem keeps_undefined : ending.Keeps site (exprNodes (.undefined span)) :=
  (keeps_unary (show Operator.void ≠ .await from nofun)).mpr keeps_num

/-- Operators that every target has. -/
theorem keeps_binary {op : Operator} (everywhere : op.rewritable? = none)
    (noAssign : op ≠ .assignment) :
    ending.Keeps site (exprNodes (.binary span op left right))
      ↔ ending.Keeps site (exprNodes left) ∧ ending.Keeps site (exprNodes right) := by
  rw [Expr.binary, keeps_plain (by simp [Expr.of, Shape.isPlain, everywhere, noAssign])]
  simp [Expr.of, shapeNodes]

/-- Assignments to anything but an object pattern. -/
theorem keeps_assign (noPattern : left.isObjectPattern = false) :
    ending.Keeps site (exprNodes (.assign span left right))
      ↔ ending.Keeps site (exprNodes left) ∧ ending.Keeps site (exprNodes right) := by
  rw [Expr.assign, Expr.binary,
    keeps_plain (by simp [Expr.of, Shape.isPlain, noPattern, Operator.rewritable?])]
  simp [Expr.of, shapeNodes]

/-- An assignment to a name may remain if its value may. -/
@[simp] theorem keeps_assign_id {name : String} :
    ending.Keeps site (exprNodes (.assign span (.id span name) right))
      ↔ ending.Keeps site (exprNodes right) := by
  simp [keeps_assign (show (Expr.id span name).isObjectPattern = false from rfl)]

/-- A comma may remain if its operands may. -/
@[simp] theorem keeps_andThen :
    ending.Keeps site (exprNodes (.andThen left right))
      ↔ ending.Keeps site (exprNodes left) ∧ ending.Keeps site (exprNodes right) :=
  keeps_binary rfl nofun

/-- A sequence may remain if its expressions may. -/
@[simp] theorem keeps_sequence {rest : List Expr} :
    ending.Keeps site (exprNodes (.sequence e rest))
      ↔ ending.Keeps site (exprNodes e) ∧ ∀ item ∈ rest, ending.Keeps site (exprNodes item) := by
  induction rest generalizing e with
  | nil => simp [Expr.sequence]
  | cons first rest ih =>
    have step : Expr.sequence e (first :: rest) = Expr.sequence (e.andThen first) rest := rfl
    simp [step, ih, and_assoc]

/-- A conditional may remain if its three parts may. -/
@[simp] theorem keeps_cond :
    ending.Keeps site (exprNodes (.cond span test consequent alternate))
      ↔ ending.Keeps site (exprNodes test) ∧ ending.Keeps site (exprNodes consequent)
        ∧ ending.Keeps site (exprNodes alternate) := by
  rw [Expr.cond, keeps_plain rfl]
  simp [Expr.of, shapeNodes]

/-- A member access may remain if its object may. -/
@[simp] theorem keeps_member {name : String} :
    ending.Keeps site (exprNodes (.member span object name))
      ↔ ending.Keeps site (exprNodes object) :=
  keeps_plain rfl

/-- A computed access may remain if its object and its key may. -/
@[simp] theorem keeps_computed :
    ending.Keeps site (exprNodes (.computed span object key))
      ↔ ending.Keeps site (exprNodes object) ∧ ending.Keeps site (exprNodes key) := by
  rw [Expr.computed, keeps_plain rfl]
  simp [Expr.of, shapeNodes]

/-- A call outside any chain. -/
@[simp] theorem keeps_plainCall {isPure : Bool} {args : List Arg} :
    ending.Keeps site (exprNodes (.of span (.call .plain isPure e args)))
      ↔ ending.Keeps site (exprNodes e) ∧ ending.Keeps site (argsNodes args) := by
  rw [keeps_plain rfl]
  simp [Expr.of, shapeNodes]

/-- Arguments without spreads. -/
@[simp] theorem keeps_plainArgs {args : List Expr} :
    ending.Keeps site (argsNodes (args.map (⟨false, ·⟩)))
      ↔ ∀ arg ∈ args, ending.Keeps site (exprNodes arg) := by
  simp [argsNodes_eq, argNodes]

/-- A call may remain if its callee and its arguments may. -/
@[simp] theorem keeps_call {args : List Expr} :
    ending.Keeps site (exprNodes (.call span e args))
      ↔ ending.Keeps site (exprNodes e) ∧ ∀ arg ∈ args, ending.Keeps site (exprNodes arg) := by
  simp [Expr.call]

/-- The call of a helper may remain if its arguments may. -/
@[simp] theorem keeps_helper {name : String} {args : List Expr} :
    ending.Keeps site (exprNodes (.helper span name args))
      ↔ ∀ arg ∈ args, ending.Keeps site (exprNodes arg) := by
  simp [Expr.helper]

/-- An array literal may remain if its elements may. -/
@[simp] theorem keeps_array {items : List Expr} :
    ending.Keeps site (exprNodes (.array span items))
      ↔ ∀ item ∈ items, ending.Keeps site (exprNodes item) := by
  rw [Expr.array, keeps_plain rfl]
  simp [Expr.of, shapeNodes, itemsNodes_eq, itemNodes]

/-- The call of a constructor with a name may remain if its arguments may. -/
@[simp] theorem keeps_new {name : String} {args : List Expr} :
    ending.Keeps site (exprNodes (.new span name args))
      ↔ ∀ arg ∈ args, ending.Keeps site (exprNodes arg) := by
  rw [Expr.new, keeps_plain rfl]
  simp [Expr.of, shapeNodes]

/-- A call with a receiver may remain if its callee, the receiver and its arguments may. -/
@[simp] theorem keeps_callWithThis {receiver : Expr} {args : List Arg} :
    ending.Keeps site (exprNodes (.callWithThis span e receiver args))
      ↔ ending.Keeps site (exprNodes e) ∧ ending.Keeps site (exprNodes receiver)
        ∧ ending.Keeps site (argsNodes args) := by
  simp [Expr.callWithThis, argsNodes, argNodes]

end Built

/-- A statement is accounted for by its shape and what is inside. -/
theorem keeps_stmt {stmt : Stmt} :
    ending.Keeps site (stmtNodes stmt)
      ↔ ending.Accounts site (.stmt stmt.shape) ∧ ending.Keeps site (stmtShapeNodes stmt.shape) := by
  obtain ⟨span, shape⟩ := stmt
  simp [stmtNodes]

/-- Of a statement that does not wait, only what is announced matters, unless a part of it can be
left out. -/
theorem accounts_stmt {shape : StmtShape} (complete : (Node.stmt shape).rewritable? = none)
    (noAwait : ¬(Node.stmt shape).Waits) (announced : ending.Announced site (.stmt shape))
    (outside : ∀ name ∈ (Node.stmt shape).outerNames, name = "default" ∨ ending.isOuter name) :
    ending.Accounts site (.stmt shape) :=
  ⟨by simp [complete], by simp [Node.asynchronous?], nofun, announced, nofun,
    allowed_plain noAwait nofun, outside⟩

/-- A statement that every target has may remain if its parts may. -/
theorem keeps_plainStmt {stmt : Stmt} (complete : (Node.stmt stmt.shape).rewritable? = none)
    (noAwait : ¬(Node.stmt stmt.shape).Waits)
    (announced : ending.Announced site (.stmt stmt.shape))
    (outside : ∀ name ∈ (Node.stmt stmt.shape).outerNames,
      name = "default" ∨ ending.isOuter name) :
    ending.Keeps site (stmtNodes stmt) ↔ ending.Keeps site (stmtShapeNodes stmt.shape) := by
  rw [keeps_stmt]
  exact and_iff_right (accounts_stmt complete noAwait announced outside)

/-- An expression as a statement may remain if the expression may. -/
@[simp] theorem keeps_exprStmt {span : Span} {value : Expr} :
    ending.Keeps site (stmtNodes ⟨span, .expr value⟩) ↔ ending.Keeps site (exprNodes value) :=
  keeps_plainStmt rfl nofun trivial nofun

/-- A block may remain if its statements may. -/
@[simp] theorem keeps_blockStmt {span : Span} {body : List Stmt} :
    ending.Keeps site (stmtNodes (.block span body)) ↔ ending.Keeps site (stmtsNodes body) :=
  keeps_plainStmt rfl nofun trivial nofun

/-- An empty statement may remain. -/
@[simp] theorem keeps_emptyStmt {span : Span} : ending.Keeps site (stmtNodes (.empty span)) :=
  (@keeps_plainStmt _ _ (.empty span) rfl nofun trivial nofun).mpr throughout_nil

/-- A `return` may remain if its value may. -/
@[simp] theorem keeps_returns {span : Span} {value : Expr} :
    ending.Keeps site (stmtNodes (.returns span value)) ↔ ending.Keeps site (exprNodes value) :=
  keeps_plainStmt rfl nofun trivial nofun

/-- Variables that belong to a whole function can be declared for every target. -/
theorem keeps_varStmt {span : Span} {isExported : Bool} {declarators : List Declarator} :
    ending.Keeps site (stmtNodes ⟨span, .varDecl isExported .varDecl declarators⟩)
      ↔ ∀ declarator ∈ declarators, ending.Keeps site (declaratorNodes declarator) := by
  have plain : ending.Announced site (.stmt (.varDecl isExported .varDecl declarators)) :=
    .inl (absurd rfl)
  rw [keeps_plainStmt rfl id plain (List.forall_mem_nil _)]
  simp [stmtShapeNodes, declaratorsNodes_eq]

section Moves

variable {other : Site}

/-- What may remain at one site may do so at another one that it can move to. -/
theorem Accounts.moved {node : Node} (accounts : ending.Accounts site node)
    (moves : site.MovesTo other) : ending.Accounts other node := by
  refine { accounts with announced := ?_, allowed := ?_ }
  · have announced := accounts.announced
    -- Only what waits, or loops over values, depends on the site.
    have waits (admits : ending.AdmitsAwait site) : ending.AdmitsAwait other :=
      fun outside => admits (moves.outside outside)
    unfold Announced at announced ⊢
    split at announced
    all_goals try exact announced
    · exact waits announced
    · obtain ⟨loop, admits⟩ := announced
      refine ⟨loop, ?_⟩
      split
      · rw [if_pos ‹_›] at admits
        refine ⟨?_, waits admits.2⟩
        obtain admitted | ⟨⟨isDead, isOwn⟩, -⟩ := admits.1
        · exact .inl admitted
        · exact absurd isOwn (moves.notOwn isDead)
      · rw [if_neg ‹_›] at admits
        obtain admitted | ⟨isOwn, -⟩ := admits
        · exact .inl admitted
        · exact absurd isOwn (moves.notOwn true)
  · refine accounts.allowed.imp_left fun allows => ⟨fun waits => ?_, fun yields => ?_⟩
    · exact moves.await (allows.await waits)
    · exact moves.yield (allows.yield yields)

/-- A whole tree may remain at a site that it can move to. -/
theorem keeps_moved {nodes : List Occurrence} (keeps : ending.Keeps site nodes)
    (moves : site.MovesTo other) : ending.Keeps other nodes := by
  refine keeps.imp fun inner node accounts => ?_
  -- Only the nodes in the surroundings' own ground look at where they stand; the others are inside
  -- a function of their own.
  cases inner with
  | own isDead =>
    have unchanged : site.into (.own isDead) = site := by
      cases site with
      | own around => exact absurd rfl (moves.notOwn around)
      | static => rfl
      | inside => rfl
    rw [unchanged] at accounts
    refine accounts.moved { notOwn := moves.notOwn, outside := ?_, await := ?_, yield := ?_ }
    · cases other <;> exact moves.outside
    · cases other <;> exact moves.await
    · cases other <;> exact moves.yield
  | static => exact accounts
  | inside => exact accounts

end Moves

end Ending

open Lowering Rename

variable (r : Renaming)

/-- A name that is bound stays as it is. -/
theorem name?_rename (pattern : Pattern) : (renamePattern r pattern).name? = pattern.name? := by
  cases pattern <;> rfl

/-- Renaming makes no object pattern of anything else. -/
theorem isObjectPattern_rename (e : Expr) :
    (renameExpr r e).isObjectPattern = e.isObjectPattern := by
  obtain ⟨origin, shape⟩ := e
  cases shape <;> rfl

/-- Both sides of a disjunction may be replaced. -/
theorem or_eq_or {left left' right right' : Bool} (same : left = left') (same' : right = right') :
    (left || right) = (left' || right') := by
  rw [same, same']

mutual

/-- Renaming leaves a pattern the rests that it takes. -/
theorem hasObjectRest_rename :
    ∀ pattern : Pattern, hasObjectRest (renamePattern r pattern) = hasObjectRest pattern
  | .id .. => rfl
  | .array _ slots rest => or_eq_or (slotsHaveRest_rename slots) (optionHasRest_rename rest)
  | .object _ properties none => congrArg (Bool.or · false) (propertiesHaveRest_rename properties)
  | .object _ _ (some _) => rfl
  | .target .. => rfl

/-- The same for a pattern that may be absent. -/
theorem optionHasRest_rename :
    ∀ pattern : Option Pattern,
      optionHasRest (renamePatternOption r pattern) = optionHasRest pattern
  | none => rfl
  | some pattern => hasObjectRest_rename pattern

/-- The same for an element of an array pattern. -/
theorem slotHasRest_rename :
    ∀ slot : PatternSlot, slotHasRest (renameSlot r slot) = slotHasRest slot
  | .hole => rfl
  | .slot target _ => hasObjectRest_rename target

/-- The same for the elements of an array pattern. -/
theorem slotsHaveRest_rename :
    ∀ slots : List PatternSlot, slotsHaveRest (renameSlots r slots) = slotsHaveRest slots
  | [] => rfl
  | slot :: rest => or_eq_or (slotHasRest_rename slot) (slotsHaveRest_rename rest)

/-- The same for a property of an object pattern. -/
theorem propertyHasRest_rename :
    ∀ property : PatternProperty,
      propertyHasRest (renameProperty r property) = propertyHasRest property
  | ⟨_, _, target, _, _⟩ => hasObjectRest_rename target

/-- The same for the properties of an object pattern. -/
theorem propertiesHaveRest_rename :
    ∀ properties : List PatternProperty,
      propertiesHaveRest (renameProperties r properties) = propertiesHaveRest properties
  | [] => rfl
  | property :: rest => or_eq_or (propertyHasRest_rename property) (propertiesHaveRest_rename rest)

end

namespace Ending

variable {ending : Ending} {site : Site} {node : Node}

/-- An arrow that lowering writes itself is still one. -/
theorem isHost_rename (func : Func) : (renameFunc r func).isHost = func.isHost := by
  obtain ⟨span, isArrow, isAsync, isGenerator, params, body⟩ := func
  -- Only plain arrows are looked at more closely.
  cases isArrow
  case false => rfl
  cases isAsync
  case true => rfl
  cases isGenerator
  case true => rfl
  match params with
  | [] => cases body <;> rfl
  | [⟨_, true, _, _⟩] => cases body <;> rfl
  | [⟨_, false, pattern, default⟩] =>
    cases pattern with
    | id => cases default <;> cases body <;> rfl
    | _ => rfl
  | _ :: _ :: _ => simp [renameFunc, renameParams, Func.isHost]

/-- The declarations of a class under names that stay are still such. -/
theorem isClassAlias_rename (keyword : DeclKeyword) (declarators : List Declarator) :
    isClassAlias keyword (renameDeclarators r declarators) = isClassAlias keyword declarators := by
  -- A class alias is one declarator of a nameless class; renaming touches none of that.
  match declarators with
  | [] => rfl
  | [⟨pattern, none⟩] => cases keyword <;> cases pattern <;> rfl
  | [⟨pattern, some ⟨_, shape⟩⟩] =>
    cases pattern with
    | id =>
      cases shape with
      | classExpr name => cases keyword <;> cases name <;> rfl
      | _ => cases keyword <;> rfl
    | _ => cases keyword <;> rfl
  | _ :: _ :: _ => simp [renameDeclarators, isClassAlias]

/-- A declared pattern admits the same rests under other names. -/
theorem admitsDeclared_rename {pattern : Pattern} :
    ending.AdmitsDeclared (renamePattern r pattern) ↔ ending.AdmitsDeclared pattern := by
  simp only [AdmitsDeclared, name?_rename]

/-- The rests of a pattern are the same under other names. -/
theorem admitsRests_rename {pattern : Pattern} :
    ending.AdmitsRests (renamePattern r pattern) ↔ ending.AdmitsRests pattern := by
  simp only [AdmitsRests, hasObjectRest_rename]

/-- The binding of a loop admits the same rests under other names. -/
theorem admitsLoop_rename {keyword : Option DeclKeyword} {pattern : Pattern} :
    ending.AdmitsLoop keyword (renamePattern r pattern) ↔ ending.AdmitsLoop keyword pattern := by
  simp only [AdmitsLoop, AdmitsUnsplit, admitsDeclared_rename, hasObjectRest_rename]

/-- The parameter of a handler admits the same rests under other names. -/
theorem admitsHandler_rename {param : Option Pattern} :
    ending.AdmitsHandler (renamePatternOption r param) ↔ ending.AdmitsHandler param := by
  cases param <;>
    simp [AdmitsHandler, AdmitsUnsplit, renamePatternOption, admitsDeclared_rename,
      hasObjectRest_rename]

/-- Whatever is announced is announced under another name. -/
theorem Announced.rename (announced : ending.Announced site node) :
    ending.Announced site (node.rename r) := by
  -- Renaming keeps the constructor of every node, so each of them is announced as before.
  cases node with
  | shape shape =>
    cases shape with
    | binary op left right =>
      refine announced_binary.mpr fun isAssign => ?_
      have admits := announced_binary.mp announced isAssign
      obtain ⟨origin, shape⟩ := left
      intro properties rest same span hasRest
      cases shape with
      | objectPattern =>
        cases same
        exact admits _ _ rfl span ((hasObjectRest_rename r (.object span _ _)) ▸ hasRest)
      | _ => cases same
    | unary op operand => exact announced_unary.mpr (announced_unary.mp announced)
    | arrow func => exact announced.imp id fun isHost => (isHost_rename r func).trans isHost
    | _ => exact announced
  | func func =>
    obtain ⟨span, isArrow, isAsync, isGenerator, params, body⟩ := func
    exact announced
  | param param =>
    obtain ⟨span, isRest, pattern, default⟩ := param
    obtain ⟨rest, hasDefault, declared, rests⟩ := announced
    refine ⟨fun isRest => (rest isRest).imp id ?_, fun isSome => hasDefault ?_,
      (admitsDeclared_rename r).mpr declared, (admitsRests_rename r).mpr rests⟩
    · rintro ⟨index, named⟩
      exact ⟨index, (name?_rename r pattern).trans named⟩
    · cases default
      · simp [renameParam, renameOption] at isSome
      · rfl
  | declarator declarator =>
    obtain ⟨pattern, init⟩ := declarator
    exact announced.imp (admitsDeclared_rename r).mpr (admitsRests_rename r).mpr
  | stmt shape =>
    cases shape with
    | forIn keyword => exact (admitsLoop_rename r).mpr announced
    | forOf isAwait keyword => exact announced.imp (admitsLoop_rename r).mpr id
    | tryCatch body param handler => exact (admitsHandler_rename r).mpr announced
    | tryCatchFinally body param handler finalizer => exact (admitsHandler_rename r).mpr announced
    | varDecl isExported keyword declarators =>
      exact announced.imp id (isClassAlias_rename r keyword declarators).trans
    | _ => exact announced
  | _ => exact announced

/-- Renaming leaves a node what can be written in another way. -/
theorem rewritable?_rename (node : Node) : (node.rename r).rewritable? = node.rewritable? := by
  cases node with
  | stmt shape =>
    cases shape with
    | tryCatch body param => cases param <;> rfl
    | tryCatchFinally body param => cases param <;> rfl
    | _ => rfl
  | objectMember member => cases member <;> rfl
  | shape shape => cases shape <;> rfl
  | _ => rfl

/-- Renaming leaves a node as asynchronous as it was. -/
theorem asynchronous?_rename (node : Node) :
    (node.rename r).asynchronous? = node.asynchronous? := by
  cases node with
  | func func => cases func; rfl
  | _ => rfl

/-- Renaming leaves a node in its chain. -/
theorem isChainedNode_rename (node : Node) : (node.rename r).IsChained ↔ node.IsChained := by
  cases node with
  | shape shape => cases shape <;> exact Iff.rfl
  | _ => exact Iff.rfl

/-- Renaming leaves a node what it waits for. -/
theorem waits_rename (node : Node) : (node.rename r).Waits ↔ node.Waits := by
  cases node with
  | shape shape =>
    cases shape with
    | unary op => cases op <;> exact Iff.rfl
    | _ => exact Iff.rfl
  | stmt shape =>
    cases shape with
    | forOf isAwait => cases isAwait <;> exact Iff.rfl
    | _ => exact Iff.rfl
  | _ => exact Iff.rfl

/-- Renaming leaves a node what it hands out. -/
theorem yields_rename (node : Node) : (node.rename r).Yields ↔ node.Yields := by
  cases node with
  | shape shape => cases shape <;> exact Iff.rfl
  | _ => exact Iff.rfl

/-- Only names of the module are replaced. -/
theorem outerNames_rename (node : Node) : (node.rename r).outerNames = node.outerNames := by
  cases node with
  | stmt shape => cases shape <;> rfl
  | _ => rfl

/-- Whatever may remain may remain under another name. -/
theorem Accounts.rename (accounts : ending.Accounts site node) :
    ending.Accounts site (node.rename r) where
  rewritten := by simpa only [rewritable?_rename] using accounts.rewritten
  synchronous := by simpa only [asynchronous?_rename] using accounts.synchronous
  unchained := by simpa only [isChainedNode_rename] using accounts.unchained
  announced := accounts.announced.rename r
  placed := by
    -- A target that is a pattern stays one under renaming, and no other place becomes one.
    intro span place isTarget
    cases node with
    | pattern pattern =>
      cases pattern with
      | target span' place' =>
        simp only [Node.rename, renamePattern, Node.pattern.injEq, Pattern.target.injEq] at isTarget
        obtain ⟨-, rfl⟩ := isTarget
        rw [isObjectPattern_rename]
        exact accounts.placed span' place' rfl
      | _ => simp [Node.rename, renamePattern] at isTarget
    | _ => simp [Node.rename] at isTarget
  allowed := accounts.allowed.imp_left fun allows =>
    ⟨fun waits => allows.await ((waits_rename r node).mp waits),
      fun yields => allows.yield ((yields_rename r node).mp yields)⟩
  outside := by simpa only [outerNames_rename] using accounts.outside

/-- Whatever may remain in a tree may remain in the tree with a name replaced. -/
theorem keeps_rename {nodes : List Occurrence} (keeps : ending.Keeps site nodes) :
    ending.Keeps site (renameNodes r nodes) := by
  intro found mem
  obtain ⟨original, isOriginal, rfl⟩ := List.mem_map.mp mem
  exact (keeps original isOriginal).rename r

end Ending

end Downlevel
