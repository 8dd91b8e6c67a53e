import Downlevel.Lowering.Function
import Downlevel.Proofs.Scoping.Worlds

/-! What the trees that lowering builds need around them. -/

namespace Downlevel

open Lowering

section Expressions

variable {span : Span} {e left right object key test consequent alternate receiver : Expr}
  {shape : Shape} {name text : String} {op : Operator} {args items rest : List Expr}

/-- Where an expression comes from makes no difference. -/
theorem exprUses_shape : exprUses e = shapeUses e.shape := by
  obtain ⟨origin, shape⟩ := e
  rw [exprUses]

/-- An expression uses what its shape does. -/
@[simp] theorem exprUses_of : exprUses (.of span shape) = shapeUses shape :=
  exprUses_shape

/-- A name is used as it is. -/
@[simp] theorem exprUses_id : exprUses (.id span name) = [.free name] := by
  rw [Expr.id, exprUses_of, shapeUses]

/-- A `this` uses no name. -/
@[simp] theorem exprUses_this : exprUses (.this span) = [] := by
  rw [Expr.this, exprUses_of, shapeUses]

/-- A `null` uses no name. -/
@[simp] theorem exprUses_null : exprUses (.null span) = [] := by
  rw [Expr.null, exprUses_of, shapeUses]

/-- A truth value uses no name. -/
@[simp] theorem exprUses_bool {value : Bool} : exprUses (.bool span value) = [] := by
  rw [Expr.bool, exprUses_of, shapeUses]

/-- A number uses no name. -/
@[simp] theorem exprUses_num : exprUses (.num span text) = [] := by
  rw [Expr.num, exprUses_of, shapeUses]

/-- A string uses no name. -/
@[simp] theorem exprUses_str : exprUses (.str span text) = [] := by
  rw [Expr.str, exprUses_of, shapeUses]

/-- An operator uses what its operand does. -/
@[simp] theorem exprUses_unary : exprUses (.unary span op e) = exprUses e := by
  rw [Expr.unary, exprUses_of, shapeUses]

/-- The value `undefined`, as it is written, uses no name. -/
@[simp] theorem exprUses_undefined : exprUses (.undefined span) = [] := by
  rw [Expr.undefined, exprUses_unary, exprUses_num]

/-- An operator between operands uses what both do. -/
@[simp] theorem exprUses_binary :
    exprUses (.binary span op left right) = exprUses left ++ exprUses right := by
  rw [Expr.binary, exprUses_of, shapeUses]

/-- An assignment uses what its sides do. -/
@[simp] theorem exprUses_assign :
    exprUses (.assign span left right) = exprUses left ++ exprUses right := by
  rw [Expr.assign, exprUses_binary]

/-- A comma uses what its operands do. -/
@[simp] theorem exprUses_andThen :
    exprUses (.andThen left right) = exprUses left ++ exprUses right := by
  rw [Expr.andThen, exprUses_binary]

/-- A sequence uses what its expressions do. -/
@[simp] theorem exprUses_sequence :
    exprUses (.sequence e rest) = exprUses e ++ rest.flatMap exprUses := by
  induction rest generalizing e with
  | nil => simp [Expr.sequence]
  | cons first rest ih =>
    have step : Expr.sequence e (first :: rest) = Expr.sequence (e.andThen first) rest := rfl
    simp [step, ih]

/-- A conditional uses what its three parts do. -/
@[simp] theorem exprUses_cond :
    exprUses (.cond span test consequent alternate)
      = exprUses test ++ (exprUses consequent ++ exprUses alternate) := by
  rw [Expr.cond, exprUses_of, shapeUses]

/-- A member access uses what its object does. -/
@[simp] theorem exprUses_member : exprUses (.member span object name) = exprUses object := by
  rw [Expr.member, exprUses_of, shapeUses]

/-- A computed access uses what its object and its key do. -/
@[simp] theorem exprUses_computed :
    exprUses (.computed span object key) = exprUses object ++ exprUses key := by
  rw [Expr.computed, exprUses_of, shapeUses]

/-- Arguments that are not spread use what the values do. -/
@[simp] theorem argsUses_plain : argsUses (args.map (⟨false, ·⟩)) = args.flatMap exprUses := by
  simp [argsUses_eq, argUses, List.flatMap_map]

/-- A call uses what its callee and its arguments do. -/
@[simp] theorem exprUses_call :
    exprUses (.call span e args) = exprUses e ++ args.flatMap exprUses := by
  rw [Expr.call, exprUses_of, shapeUses, argsUses_plain]

/-- The call of a helper uses the helper, too. -/
@[simp] theorem exprUses_helper :
    exprUses (.helper span name args) = .free name :: args.flatMap exprUses := by
  rw [Expr.helper, exprUses_call, exprUses_id, List.singleton_append]

/-- An array literal uses what its elements do. -/
@[simp] theorem exprUses_array : exprUses (.array span items) = items.flatMap exprUses := by
  simp [Expr.array, shapeUses, itemsUses_eq, itemUses, List.flatMap_map]

/-- The call of a constructor with a name uses that name, too. -/
@[simp] theorem exprUses_new :
    exprUses (.new span name args) = .free name :: args.flatMap exprUses := by
  rw [Expr.new, exprUses_of, shapeUses, argsUses_plain, exprUses_id, List.singleton_append]

/-- A call with a receiver uses what the callee, the receiver and the arguments do. -/
@[simp] theorem exprUses_callWithThis {args : List Arg} :
    exprUses (.callWithThis span e receiver args)
      = exprUses e ++ (exprUses receiver ++ argsUses args) := by
  simp [Expr.callWithThis, shapeUses, argsUses, argUses]

end Expressions

section Patterns

variable {stem : String} {world : World}

mutual

/-- A declared pattern needs no more than one that is assigned. -/
theorem meets_binding :
    ∀ pattern : Pattern, Meets stem world (patternUses false pattern) →
      Meets stem world (patternUses true pattern)
  | .id .., meets => by simp_all [patternUses]
  | .array _ slots rest, meets => by
    simp only [patternUses, meets_append] at meets ⊢
    exact ⟨meets_slotsBinding slots meets.1, meets_optionBinding rest meets.2⟩
  | .object _ properties rest, meets => by
    simp only [patternUses, meets_append] at meets ⊢
    exact ⟨meets_propertiesBinding properties meets.1, meets_optionBinding rest meets.2⟩
  | .target .., meets => by simpa [patternUses] using meets

/-- The same for a pattern that may be absent. -/
theorem meets_optionBinding :
    ∀ pattern : Option Pattern, Meets stem world (patternOptionUses false pattern) →
      Meets stem world (patternOptionUses true pattern)
  | none, meets => meets
  | some pattern, meets => meets_binding pattern meets

/-- The same for an element of an array pattern. -/
theorem meets_slotBinding :
    ∀ slot : PatternSlot, Meets stem world (slotUses false slot) →
      Meets stem world (slotUses true slot)
  | .hole, meets => meets
  | .slot target default, meets => by
    simp only [slotUses, meets_append] at meets ⊢
    exact ⟨meets_binding target meets.1, meets.2⟩

/-- The same for the elements of an array pattern. -/
theorem meets_slotsBinding :
    ∀ slots : List PatternSlot, Meets stem world (slotsUses false slots) →
      Meets stem world (slotsUses true slots)
  | [], meets => meets
  | slot :: rest, meets => by
    simp only [slotsUses, meets_append] at meets ⊢
    exact ⟨meets_slotBinding slot meets.1, meets_slotsBinding rest meets.2⟩

/-- The same for a property of an object pattern. -/
theorem meets_propertyBinding :
    ∀ property : PatternProperty, Meets stem world (propertyUses false property) →
      Meets stem world (propertyUses true property)
  | ⟨_, key, target, _, default⟩, meets => by
    simp only [propertyUses, meets_append] at meets ⊢
    exact ⟨meets.1, meets_binding target meets.2.1, meets.2.2⟩

/-- The same for the properties of an object pattern. -/
theorem meets_propertiesBinding :
    ∀ properties : List PatternProperty, Meets stem world (propertiesUses false properties) →
      Meets stem world (propertiesUses true properties)
  | [], meets => meets
  | property :: rest, meets => by
    simp only [propertiesUses, meets_append] at meets ⊢
    exact ⟨meets_propertyBinding property meets.1, meets_propertiesBinding rest meets.2⟩

end

/-- A pattern on the left side of an assignment needs what it needs by itself. -/
theorem exprUses_toExpr {pattern : Pattern}
    (meets : Meets stem world (patternUses false pattern)) :
    Meets stem world (exprUses pattern.toExpr) := by
  cases pattern <;> simp_all [Pattern.toExpr, patternUses, shapeUses]

end Patterns

section Statements

variable {span : Span} {e : Expr} {name : String} {stmts : List Stmt} {binds isNested : Bool}

/-- A pattern that is just a name uses that name as it is. -/
@[simp] theorem patternUses_name : patternUses true (.id span name) = [.fixed name] := by
  rw [patternUses, if_pos rfl]

/-- A pattern that is just a name binds that name. -/
@[simp] theorem patternNames_name : patternNames (.id span name) = [name] := by
  rw [patternNames]

/-- The declarator of a name uses the name and what its value does. -/
@[simp] theorem declaratorUses_ofName {init : Option Expr} :
    declaratorUses (.ofName span name init) = .fixed name :: optionUses init := by
  simp [Declarator.ofName, declaratorUses]

/-- The declarator of a name binds that name. -/
@[simp] theorem declaratorNames_ofName {init : Option Expr} :
    patternNames (Declarator.ofName span name init).pattern = [name] :=
  patternNames_name

/-- A parameter that is just a name uses that name as it is. -/
@[simp] theorem paramUses_ofName : paramUses (.ofName span name) = [.fixed name] := by
  simp [Param.ofName, paramUses, optionUses]

/-- A parameter that is just a name binds that name. -/
@[simp] theorem paramNames_ofName : patternNames (Param.ofName span name).pattern = [name] :=
  patternNames_name

/-- Where a statement comes from makes no difference. -/
theorem stmtUses_shape {stmt : Stmt} : stmtUses stmt = stmtShapeUses stmt.shape := by
  obtain ⟨span, shape⟩ := stmt
  rw [stmtUses]

/-- A statement binds what its shape does. -/
theorem stmtNames_shape {stmt : Stmt} :
    stmtNames isNested stmt = stmtShapeNames isNested stmt.shape := by
  obtain ⟨span, shape⟩ := stmt
  rw [stmtNames]

/-- A statement uses what its shape does, wherever it stands. -/
@[simp] theorem stmtUses_mk {shape : StmtShape} : stmtUses ⟨span, shape⟩ = stmtShapeUses shape :=
  stmtUses_shape

/-- A statement binds what its shape does, wherever it stands. -/
@[simp] theorem stmtNames_mk {shape : StmtShape} :
    stmtNames isNested ⟨span, shape⟩ = stmtShapeNames isNested shape :=
  stmtNames_shape

/-- An expression as a statement uses what the expression does. -/
@[simp] theorem stmtUses_expr : stmtUses (.expr e) = exprUses e :=
  rfl

/-- An expression as a statement binds nothing. -/
@[simp] theorem stmtNames_expr : stmtNames isNested (.expr e) = [] :=
  rfl

/-- What is used in a block may be bound there. -/
@[simp] theorem stmtUses_block :
    stmtUses (.block span stmts) = enclosed (stmtsNames false stmts) (stmtsUses stmts) :=
  rfl

/-- A block binds what its statements bind for the function around. -/
@[simp] theorem stmtNames_block :
    stmtNames isNested (.block span stmts) = stmtsNames true stmts :=
  rfl

/-- An empty statement uses no name. -/
@[simp] theorem stmtUses_empty : stmtUses (.empty span) = [] :=
  rfl

/-- An empty statement binds nothing. -/
@[simp] theorem stmtNames_empty : stmtNames isNested (.empty span) = [] :=
  rfl

/-- A `return` uses what its value does. -/
@[simp] theorem stmtUses_returns : stmtUses (.returns span e) = exprUses e :=
  rfl

/-- A `return` binds nothing. -/
@[simp] theorem stmtNames_returns : stmtNames isNested (.returns span e) = [] :=
  rfl

/-- No statements use no name. -/
@[simp] theorem stmtsUses_nil : stmtsUses [] = [] := by
  rw [stmtsUses]

/-- The first statement uses its names in front of the others. -/
@[simp] theorem stmtsUses_cons {stmt : Stmt} :
    stmtsUses (stmt :: stmts) = stmtUses stmt ++ stmtsUses stmts := by
  rw [stmtsUses]

/-- Statements one behind the other use what both lists do. -/
@[simp] theorem stmtsUses_append {more : List Stmt} :
    stmtsUses (stmts ++ more) = stmtsUses stmts ++ stmtsUses more := by
  simp [stmtsUses_eq]

/-- Expressions as statements bind nothing. -/
@[simp] theorem stmtsNames_exprs {values : List Expr} :
    stmtsNames isNested (values.map .expr) = [] := by
  simp [stmtsNames_eq, List.flatMap_map]

/-- Expressions as statements use what the expressions do. -/
@[simp] theorem stmtsUses_exprs {values : List Expr} :
    stmtsUses (values.map .expr) = values.flatMap exprUses := by
  simp [stmtsUses_eq, List.flatMap_map]

/-- The statements of a body bind what the body does. -/
@[simp] theorem bodyNames_stmts {body : Body} : stmtsNames false body.stmts = bodyNames body := by
  cases body <;> simp [Body.stmts, bodyNames]

/-- The statements of a body use what the body does. -/
@[simp] theorem bodyUses_stmts {body : Body} : stmtsUses body.stmts = bodyUses body := by
  cases body <;> simp [Body.stmts, bodyUses]

/-- What is put behind the directives of a body is part of it, wherever that is. -/
theorem meets_splice {stem : String} {world : World} {own : List Stmt} {test : Stmt → Bool} :
    Meets stem world (stmtsUses (stmts.takeWhile test ++ own ++ stmts.dropWhile test))
      ↔ Meets stem world (stmtsUses own) ∧ Meets stem world (stmtsUses stmts) := by
  have whole : stmtsUses stmts
      = stmtsUses (stmts.takeWhile test) ++ stmtsUses (stmts.dropWhile test) := by
    rw [← stmtsUses_append, List.takeWhile_append_dropWhile]
  simp only [whole, stmtsUses_append, meets_append]
  grind

/-- What is put behind the directives of a body adds its names to it. -/
theorem mem_names_splice {own : List Stmt} {test : Stmt → Bool} :
    name ∈ stmtsNames isNested (stmts.takeWhile test ++ own ++ stmts.dropWhile test)
      ↔ name ∈ stmtsNames isNested own ∨ name ∈ stmtsNames isNested stmts := by
  -- The two halves that a list is cut into hold its names between them.
  have whole : stmtsNames isNested stmts
      = stmtsNames isNested (stmts.takeWhile test)
        ++ stmtsNames isNested (stmts.dropWhile test) := by
    rw [← stmtsNames_append, List.takeWhile_append_dropWhile]
  simp only [whole, stmtsNames_append, List.mem_append]
  grind

end Statements

end Downlevel
