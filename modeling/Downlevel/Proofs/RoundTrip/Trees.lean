import Downlevel.Proofs.RoundTrip.Guesses

/-! Every operation is read again from its tokens. -/

namespace Downlevel.Parser

open Grammar Lexeme Printer

variable {tape : Tape} {e : Expr} {op : Operator}

/-- An expression is read again wherever it may stand. -/
structure IsReread (tape : Tape) (e : Expr) : Prop where
  isOperation : e.IsOperation
  bare : RereadsBare tape e
  callee : RereadsCallee tape e
  tries : TriesBare tape e
  params : TriesParams tape e

namespace IsReread

variable (again : IsReread tape e)

include again

/-- What is reread stands in parentheses. -/
theorem group : RereadsGroup tape e :=
  rereadsGroup again.isOperation again.bare again.params

/-- What is reread is read as a whole expression. -/
theorem whole : Rereads tape e Precedence.comma Precedence.comma :=
  rereads again.isOperation again.bare again.group fun _ => again.isOperation.fitsAt_comma

/-- What is reread is read on the right side of an assignment. -/
theorem assigned : Rereads tape e Precedence.assignment Precedence.assignment :=
  rereads again.isOperation again.bare again.group fun tight => e.fitsAt tight (.inl rfl)

/-- What is reread is read behind an operator. -/
theorem operand : Rereads tape e Precedence.unary Precedence.unary :=
  rereads again.isOperation again.bare again.group fun tight => e.fitsAt tight (.inr rfl)

/-- What is reread is read as the right operand of an operator. -/
theorem right (isInfix : op.IsInfix) : Rereads tape e (rightOperandLevel op e) (rightLevel op) :=
  rereads again.isOperation again.bare again.group isInfix.fitsAt_right

/-- What is reread is read between commas. -/
theorem element : RereadsElement tape e where
  opens := again.isOperation.opens.level _
  rereads := rereads again.isOperation again.bare again.group fun tight =>
    e.fitsAt (again.isOperation.level_of_yielding tight) (.inl rfl)

end IsReread

/-- An expression that is no comma is tried as a single parameter. -/
theorem IsReread.of_element (isOperation : e.IsOperation) (bare : RereadsBare tape e)
    (callee : RereadsCallee tape e) (tries : TriesBare tape e)
    (tight : Precedence.yielding ≤ e.shape.level) : IsReread tape e where
  isOperation := isOperation
  bare := bare
  callee := callee
  tries := tries
  params := tries.params isOperation tight

/-- An expression that is read by the rule for operands is read again. -/
theorem IsReread.of_operand (isOperation : e.IsOperation)
    (operand : RereadsOperand tape e (shapeLexemes e.shape)) (noLogical : isLogical e = false)
    (noChain : e.isChained = false) (tries : TriesBare tape e)
    (tight : Precedence.yielding ≤ e.shape.level) : IsReread tape e :=
  .of_element isOperation (operand.bare noLogical noChain) operand.callee tries tight

/-- An expression that holds together less tightly than a callee is none. -/
theorem rereadsCallee_of_loose (loose : e.shape.level < Precedence.construction) :
    RereadsCallee tape e :=
  fun _ _ _ _ isCallee _ => absurd isCallee.tight (Nat.not_le_of_lt loose)

/-- An array literal is reread if its elements are. -/
theorem isReread_array {origin : Origin} {items : List ArrayItem}
    (singles : ∀ value, .single value ∈ items → IsReread tape value)
    (spreads : ∀ value, .spread value ∈ items → IsReread tape value) :
    IsReread tape ⟨origin, .array items⟩ := by
  have isOperation : Expr.IsOperation ⟨origin, .array items⟩ :=
    .array (fun value mem => (singles value mem).isOperation)
      fun value mem => (spreads value mem).isOperation
  -- An item is read back, and tried as a slot of a pattern, through its own expression; a hole is
  -- read as such.
  have areItems : ∀ item ∈ items, RereadsItem tape item := by
    intro item mem
    cases item with
    | single value => exact (singles value mem).element
    | spread value => exact (spreads value mem).element
    | hole => trivial
  have areSlots : ∀ item ∈ items, TriesItem tape item := by
    intro item mem
    cases item with
    | single value => exact ⟨(singles value mem).element.opens, (singles value mem).tries⟩
    | spread value => exact ⟨(spreads value mem).element.opens, (spreads value mem).tries⟩
    | hole => trivial
  exact .of_operand isOperation (operand_array areItems) rfl rfl (tries_array areSlots)
    (Nat.le_of_ble_eq_true rfl)

/-- An operator is reread if its operands are. -/
theorem isReread_binary {origin : Origin} {left right : Expr} (isInfix : op.IsInfix)
    (noAssign : op.isAssignment = false) (isLeft : IsReread tape left)
    (isRight : IsReread tape right) : IsReread tape ⟨origin, .binary op left right⟩ := by
  have isOperation : Expr.IsOperation ⟨origin, .binary op left right⟩ :=
    .binary isInfix noAssign isLeft.isOperation isRight.isOperation
  have bare : RereadsBare tape ⟨origin, .binary op left right⟩ :=
    bare_binary isInfix noAssign isLeft.isOperation isLeft.bare isLeft.group (isRight.right isInfix)
  have tries : TriesBare tape ⟨origin, .binary op left right⟩ :=
    tries_binary isInfix noAssign isLeft.tries
  have loose : op.precedence < Precedence.construction := isInfix.precedence.2.1.trans (by decide)
  -- The comma is the one operator below an element's level, so it is also read as a parameter list.
  by_cases isComma : op = .comma
  · subst isComma
    exact ⟨isOperation, bare, rereadsCallee_of_loose loose, tries,
      params_comma isLeft.isOperation isRight.isOperation isLeft.params isRight.tries⟩
  · exact .of_element isOperation bare (rereadsCallee_of_loose loose) tries
      (isInfix.yielding_le isComma)

/-- An assignment is reread if its sides are. -/
theorem isReread_assign {origin : Origin} {left right : Expr} (assigns : op.isAssignment = true)
    (isPlace : left.isPlace = true) (isLeft : IsReread tape left) (isRight : IsReread tape right) :
    IsReread tape ⟨origin, .binary op left right⟩ := by
  have isInfix := Operator.isInfix_of_isAssignment assigns
  -- The operand level of an assignment's right side is the level the printer prints it at.
  have value := isRight.right isInfix
  rw [Operator.rightLevel_of_isAssignment assigns] at value
  have noComma : op ≠ .comma := by
    rintro rfl
    cases assigns
  have loose : op.precedence < Precedence.construction := isInfix.precedence.2.1.trans (by decide)
  exact .of_element (.assign assigns isPlace isLeft.isOperation isRight.isOperation)
    (bare_assign assigns isPlace isLeft.isOperation isLeft.bare isLeft.group value)
    (rereadsCallee_of_loose loose) (tries_assign assigns isLeft.tries value)
    (isInfix.yielding_le noComma)

/-- Every operation is read again. -/
theorem isReread (isOperation : e.IsOperation) : IsReread tape e := by
  induction isOperation with
  -- One constructor of the operations at a time: how it is read bare, as a callee, and when tried
  -- as a parameter.
  | id named =>
    exact .of_operand (.id named) (operand_id named) rfl rfl (tries_id named)
      (Nat.le_of_ble_eq_true rfl)
  | this =>
    exact .of_operand .this operand_this rfl rfl
      (tries_opening rfl (by simp [ofKeyword]) (by simp [ofKeyword]) rfl)
      (Nat.le_of_ble_eq_true rfl)
  | str =>
    exact .of_operand .str operand_str rfl rfl (tries_opening rfl (by simp) (by simp) rfl)
      (Nat.le_of_ble_eq_true rfl)
  | num nonempty decimal =>
    exact .of_operand (.num nonempty decimal) operand_num rfl rfl
      (tries_opening rfl (by simp) (by simp) rfl) (Nat.le_of_ble_eq_true rfl)
  | array _ _ singles spreads => exact isReread_array singles spreads
  | binary isInfix noAssign _ _ left right => exact isReread_binary isInfix noAssign left right
  | assign assigns isPlace _ _ left right => exact isReread_assign assigns isPlace left right
  | unary isLeading isOperand operand =>
    have level := isLeading.precedence
    exact .of_element (.unary isLeading isOperand) (bare_unary isLeading operand.operand)
      (rereadsCallee_of_loose (level.le.trans_lt (by decide))) (tries_unary isLeading isOperand)
      (Nat.le_trans (by decide) level.ge)
  | update isTrailing isOperand operand =>
    have level := isTrailing.precedence
    exact .of_element (.update isTrailing isOperand)
      (bare_update isTrailing isOperand operand.bare operand.group)
      (rereadsCallee_of_loose (level.le.trans_lt (by decide))) (tries_update isTrailing operand.tries)
      (Nat.le_trans (by decide) level.ge)
  | cond isTest isConsequent isAlternate test consequent alternate =>
    exact .of_element (.cond isTest isConsequent isAlternate)
      (bare_cond isTest test.bare test.group consequent.assigned alternate.assigned)
      (rereadsCallee_of_loose (Nat.le_of_ble_eq_true rfl)) (tries_cond test.tries)
      (Nat.le_of_ble_eq_true rfl)
  | member named linked isObject object =>
    exact .of_element (.member named linked isObject)
      (bare_member isObject object.bare object.group named linked)
      (callee_member object.callee object.group named) (tries_member object.tries)
      (Nat.le_of_ble_eq_true rfl)
  | computed linked isObject isKey object key =>
    exact .of_element (.computed linked isObject isKey)
      (bare_computed isObject object.bare object.group key.whole linked)
      (callee_computed object.callee object.group key.whole) (tries_computed object.tries)
      (Nat.le_of_ble_eq_true rfl)
  | call linked isCallee areArgs callee args =>
    exact .of_element (.call linked isCallee areArgs)
      (bare_call isCallee callee.bare callee.group (fun arg mem => (args arg mem).element) linked)
      (fun _ _ _ _ isCallee _ => absurd isCallee.noCall (by simp [callsOnSpine, shapeCallsOnSpine]))
      (tries_call callee.tries) (Nat.le_of_ble_eq_true rfl)
  | new isCallee areArgs callee args =>
    exact .of_operand (.new isCallee areArgs)
      (operand_new isCallee callee.callee callee.group fun arg mem => (args arg mem).element) rfl rfl
      (tries_opening rfl (by simp [ofKeyword]) (by simp [ofKeyword]) rfl)
      (Nat.le_of_ble_eq_true rfl)

end Downlevel.Parser
