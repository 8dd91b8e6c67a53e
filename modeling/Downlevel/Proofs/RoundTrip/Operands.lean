import Downlevel.Proofs.RoundTrip.Rereading

/-! Operands are read again: names, literals, operators in front of operands, and constructor calls. -/

namespace Downlevel.Parser

open Grammar Lexeme Printer

variable {tape : Tape} {e : Expr} {origin : Origin} {level depth : Nat} {stops : List TokenKind}
  {lexeme : Lexeme} {ahead after middle : List Lexeme} {described : Expr → Prop}

/-- An operand without an operator in front is read from its first token on. -/
theorem reads_operand (noSlash : lexeme.IsReadIn .regex)
    (noOperator : Operator.ofLeadingToken? lexeme.kind = none)
    (primary : ∀ start token, start.Marks tape (lexeme :: ahead) → lexeme.Matches token →
      Reads tape ((grammar depth).primary {} stops start token) ahead after described) :
    Reads tape ((grammar depth).operandRule {} stops) (lexeme :: ahead) after described := by
  refine Reads.checkpoint.bind fun start marks => (Reads.takeIn noSlash).bind fun token own => ?_
  rw [own.kind, noOperator]
  dsimp only
  rw [if_neg fun yields => Bool.false_ne_true yields.2]
  exact primary start token marks own

/-- A name is read as an operand. -/
theorem operand_id {name : String} (named : IsIdentifier name) :
    RereadsOperand tape ⟨origin, .id name⟩ (shapeLexemes (.id name)) := by
  intro stops ahead depth nonempty _
  have kind : (ofName name).kind = .identifier := (kind_ofName name).trans named.1
  refine reads_operand ⟨by simp [kind], by simp [kind]⟩ (by rw [kind]; rfl) fun start token _ own => ?_
  obtain ⟨next, rest, rfl⟩ := List.exists_cons_of_ne_nil nonempty
  unfold primary
  rw [own.kind, kind]
  -- Another expression could still follow as the body of an arrow, but there is no arrow on the
  -- tape.
  refine .of_ahead fun there _ => Reads.peek.bind fun token isNext => ?_
  have noArrow := tape.arrowless next (there next List.mem_cons_self)
  rw [if_neg fun arrow => noArrow (isNext.kind.symm.trans arrow.1)]
  refine .pure (.of_shape ?_)
  simp only [Expr.id, Expr.of, own.text, ofName]

/-- A `this` is read as an operand. -/
theorem operand_this : RereadsOperand tape ⟨origin, .this⟩ (shapeLexemes .this) := by
  intro stops ahead depth _ _
  refine reads_operand ⟨by simp [ofKeyword], by simp [ofKeyword]⟩ rfl fun start token _ own => ?_
  unfold primary
  rw [own.kind]
  exact .pure rfl

/-- A number is read as an operand. -/
theorem operand_num {text : String} :
    RereadsOperand tape ⟨origin, .num text⟩ (shapeLexemes (.num text)) := by
  intro stops ahead depth _ _
  refine reads_operand ⟨by simp, by simp⟩ rfl fun start token _ own => ?_
  unfold primary
  rw [own.kind]
  refine .pure (.of_shape ?_)
  simp only [Expr.num, Expr.of, own.text]

/-- A string is read as an operand. -/
theorem operand_str {value : String} :
    RereadsOperand tape ⟨origin, .str value⟩ (shapeLexemes (.str value)) := by
  intro stops ahead depth _ _
  refine reads_operand ⟨by simp, by simp⟩ rfl fun start token _ own => ?_
  unfold primary
  rw [own.kind]
  -- What was quoted decodes to what it was.
  have cooked : stringValue token = pure value := by
    obtain ⟨inside, cut, decoded⟩ := Text.cook?_quote value
    unfold stringValue contents
    rw [own.text, cut, pure_bind, Text.cook_eq_ok, decoded]
  have contents : Reads tape (stringValue token) ahead ahead (· = value) := by
    rw [cooked]
    exact .pure rfl
  refine contents.bind fun found same => .pure (.of_shape ?_)
  simp only [Expr.str, Expr.of, same]

/-- An array literal is read as an operand if its elements are read. -/
theorem operand_array {items : List ArrayItem} (areItems : ∀ item ∈ items, RereadsItem tape item) :
    RereadsOperand tape ⟨origin, .array items⟩ (shapeLexemes (.array items)) := by
  intro stops ahead depth _ enough
  have shape : shapeLexemes (.array items) ++ ahead
      = ofSymbol .bracketOpen :: (itemsLexemes items ++ ofSymbol .bracketClose :: ahead) := by
    simp [shapeLexemes_array]
  rw [shape] at enough ⊢
  refine reads_operand ⟨by simp [ofSymbol], by simp [ofSymbol]⟩ rfl fun start token marks own => ?_
  unfold primary
  rw [own.kind]
  -- The bracket is given back, and the literal is read as a whole.
  refine (Reads.restore marks (Nat.le_succ _)).bind fun _ _ => ?_
  exact rereads_arrayExpr areItems enough

/-- An operator in front of an operand is read again. -/
theorem bare_unary {op : Operator} {operand : Expr} (isLeading : op.IsLeading)
    (isOperand : Rereads tape operand Precedence.unary Precedence.unary) :
    RereadsBare tape ⟨origin, .unary op operand⟩ := by
  intro level stops ahead goal nonempty fits admits closed follows depth enough
  have ends : Ends Precedence.unary ahead := closed _ rfl
  have inner := isOperand stops ahead (admits.mono fits.bound) ends
  -- No unary operator is a slash, so it does not matter how the token is read.
  have noSlash : (ofOperator op).IsReadIn .regex := by
    constructor
    all_goals
      intro same
      have kind := isLeading.kind
      rw [same] at kind
      cases kind
  have operator : Reads tape ((grammar depth).operandRule {} stops)
      (ofOperator op :: (exprLexemes Precedence.unary operand ++ ahead)) ahead
      (Expr.IsSame ⟨origin, .unary op operand⟩) := by
    refine Reads.checkpoint.bind fun start _ => (Reads.takeIn noSlash).bind fun token own => ?_
    rw [own.kind, isLeading.kind]
    refine (inner.inner enough).bind fun found same => .pure (.of_shape ?_)
    simp only [Expr.unary, Expr.of, Shape.unlocated_unary, same.eq]
  -- The operand is read behind the operator, and then the suffixes of the operation go on.
  refine operator.bind fun found same => Reaches.loop ?_
  refine follows.goesOn rfl same depth ?_
  rw [List.length_append] at enough
  omega

section Callees

/-- A round over the accesses and tags that belong to the callee of a constructor call. -/
def calleeRound (grammar : Grammar) (callee : Expr) : Parser (Round Expr Expr) := do
  let token ← peek
  match token.kind with
  | .symbol .dot =>
    let _ ← take
    return .again (← memberAccess callee .plain)
  | .symbol .bracketOpen =>
    let _ ← take
    return .again (← grammar.computedAccess {} callee .plain)
  | .templatePart | .templateEnd =>
    let _ ← take
    return .again (← grammar.taggedTemplate {} callee token)
  | _ => return .done callee

/-- Behind a callee the parser goes on if the depth suffices for the tokens ahead. -/
def CalleeGoesOn (tape : Tape) (callee : Expr) (ahead after : List Lexeme)
    (described : Expr → Prop) : Prop :=
  ∀ depth, ahead.length ≤ depth →
    Runs tape (calleeRound (grammar depth)) callee ahead (Lands tape after described)

/-- The tokens are read as a callee: an operand and accesses behind it. -/
def ReadsCallee (tape : Tape) (ahead after : List Lexeme) (described : Expr → Prop) : Prop :=
  ∃ middle known, middle.length ≤ ahead.length
    ∧ (∀ depth, ahead.length ≤ depth →
      Reads tape ((grammar depth).operandRule {} []) ahead middle known)
    ∧ ∀ found, known found → CalleeGoesOn tape found middle after described

/-- The expression can be the callee of a constructor call as it is. -/
structure IsCallee (e : Expr) : Prop where
  noCall : callsOnSpine e = false
  noChain : e.isChained = false
  tight : Precedence.construction ≤ e.shape.level

/-- The expression is read again where it is the callee of a constructor call. -/
def RereadsCallee (tape : Tape) (e : Expr) : Prop :=
  ∀ ahead after described, ahead ≠ [] → IsCallee e →
    (∀ found, e.IsSame found → CalleeGoesOn tape found ahead after described) →
    ReadsCallee tape (shapeLexemes e.shape ++ ahead) after described

/-- An operand is read as a callee, with the accesses behind it. -/
theorem RereadsOperand.readsCallee {lexemes : List Lexeme} (operand : RereadsOperand tape e lexemes)
    (nonempty : ahead ≠ [])
    (goesOn : ∀ found, e.IsSame found → CalleeGoesOn tape found ahead after described) :
    ReadsCallee tape (lexemes ++ ahead) after described :=
  ⟨ahead, e.IsSame, by simp, fun depth => operand [] ahead depth nonempty, goesOn⟩

/-- An operand that opens with itself is read as a callee. -/
theorem RereadsOperand.callee (operand : RereadsOperand tape e (shapeLexemes e.shape)) :
    RereadsCallee tape e :=
  fun _ _ _ nonempty _ goesOn => operand.readsCallee nonempty goesOn

/-- A callee is read as it was printed. -/
theorem readsCallee_printed {printed : Nat} (callee : RereadsCallee tape e)
    (group : RereadsGroup tape e) (nonempty : ahead ≠ [])
    (whenBare : printed ≤ e.shape.level → IsCallee e)
    (goesOn : ∀ found, e.IsSame found → CalleeGoesOn tape found ahead after described) :
    ReadsCallee tape (exprLexemes printed e ++ ahead) after described := by
  obtain ⟨origin, shape⟩ := e
  rw [exprLexemes]
  split
  · exact group.readsCallee nonempty goesOn
  · rename_i tight
    exact callee ahead after described nonempty (whenBare (Nat.le_of_not_lt tight)) goesOn

/-- A round over what belongs to a callee, with others behind it. -/
theorem CalleeGoesOn.again {callee : Expr} {known : Expr → Prop}
    (round : ∀ depth, ahead.length ≤ depth →
      Reads tape (calleeRound (grammar depth) callee) ahead middle
        (Round.Holds known fun _ => False))
    (shorter : middle.length < ahead.length)
    (later : ∀ found, known found → CalleeGoesOn tape found middle after described) :
    CalleeGoesOn tape callee ahead after described :=
  fun depth enough => .again (round depth enough) shorter fun found shown =>
    later found shown depth (by omega)

variable {link : ChainLink} {object : Expr} {dotFollows : Bool}

/-- An object that is printed bare outside of any chain belongs to a callee if its access does. -/
theorem isCallee_object (noCall : callsOnSpine object = false)
    (bare : targetLevel .plain dotFollows object ≤ object.shape.level) : IsCallee object := by
  unfold targetLevel at bare
  split at bare
  · exact absurd bare (Nat.not_le_of_lt (level_lt_always _))
  · rename_i noParens
    refine ⟨noCall, ?_, bare⟩
    simp only [Bool.or_eq_true, not_or, Bool.and_eq_true, not_and, Bool.not_eq_true] at noParens
    exact noParens.1 rfl

/-- A member access is read as a callee if its object is. -/
theorem callee_member {name : String} (callee : RereadsCallee tape object)
    (group : RereadsGroup tape object) (named : IsMemberName name) :
    RereadsCallee tape ⟨origin, .member link object name⟩ := by
  intro ahead after described nonempty isCallee goesOn
  -- A callee has no chain of its own.
  obtain rfl : link = .plain := by
    have noChain : link.isChained = false := isCallee.noChain
    cases link <;> first | rfl | cases noChain
  rw [shapeLexemes_member, List.append_assoc]
  refine readsCallee_printed callee group (List.cons_ne_nil _ _) (isCallee_object isCallee.noCall)
    fun found same => ?_
  -- The dot starts another round, behind which the callee goes on.
  refine .again (fun depth _ => Reads.peek.bind fun token own => ?_)
    (by rw [List.length_append]; exact Nat.lt_add_of_pos_left Nat.two_pos) goesOn
  rw [own.kind]
  exact Reads.take.bind fun _ _ => (reads_memberAccess named same).bind fun _ shown => .pure shown

/-- A computed access is read as a callee if its object is. -/
theorem callee_computed {key : Expr} (callee : RereadsCallee tape object)
    (group : RereadsGroup tape object)
    (isKey : Rereads tape key Precedence.comma Precedence.comma) :
    RereadsCallee tape ⟨origin, .computed link object key⟩ := by
  intro ahead after described nonempty isCallee goesOn
  obtain rfl : link = .plain := by
    have noChain : link.isChained = false := isCallee.noChain
    cases link <;> first | rfl | cases noChain
  rw [shapeLexemes_computed, List.append_assoc, List.cons_append, List.append_assoc]
  refine readsCallee_printed callee group (List.cons_ne_nil _ _) (isCallee_object isCallee.noCall)
    fun found same => ?_
  -- The bracket starts another round, behind which the callee goes on.
  refine .again (fun depth enough => Reads.peek.bind fun token own => ?_) (by simp; omega) goesOn
  have inner := isKey [.symbol .bracketClose] (ofSymbol .bracketClose :: ahead) (by decide)
    ⟨_, _, rfl, rfl⟩
  rw [own.kind]
  exact Reads.take.bind fun _ _ => (rereads_computedAccess same (inner.inner enough)).bind
    fun _ shown => .pure shown

/-- The arguments end a callee. -/
theorem CalleeGoesOn.done {found : Expr} (holds : described found) :
    CalleeGoesOn tape found (ofSymbol .parenthesisOpen :: ahead)
      (ofSymbol .parenthesisOpen :: ahead) described := by
  refine fun depth _ => .done (Reads.peek.bind fun token own => ?_)
  rw [own.kind]
  exact .pure holds

/-- A constructor call is read again. -/
theorem operand_new {args : List Arg} {callee : Expr} (isOperation : callee.IsOperation)
    (rereads : RereadsCallee tape callee) (group : RereadsGroup tape callee)
    (areArgs : ∀ arg ∈ args, RereadsElement tape arg.value) :
    RereadsOperand tape ⟨origin, .new callee args⟩ (shapeLexemes (.new callee args)) := by
  intro stops ahead depth nonempty enough
  have shape : shapeLexemes (.new callee args) ++ ahead
      = ofKeyword .newKw :: (exprLexemes (calleeLevel callee) callee
        ++ ofSymbol .parenthesisOpen :: (argsLexemes args ++ ofSymbol .parenthesisClose :: ahead)) := by
    simp [shapeLexemes_new]
  rw [shape] at enough ⊢
  -- A callee without parentheses has neither a call nor a chain in it.
  have whenBare (bare : calleeLevel callee ≤ callee.shape.level) : IsCallee callee := by
    unfold calleeLevel at bare
    split at bare
    · exact absurd bare (Nat.not_le_of_lt (level_lt_always _))
    · rename_i noParens
      simp only [Bool.or_eq_true, not_or, Bool.not_eq_true] at noParens
      exact ⟨noParens.1, noParens.2, bare⟩
  have reads : ReadsCallee tape (exprLexemes (calleeLevel callee) callee
      ++ ofSymbol .parenthesisOpen :: (argsLexemes args ++ ofSymbol .parenthesisClose :: ahead))
      (ofSymbol .parenthesisOpen :: (argsLexemes args ++ ofSymbol .parenthesisClose :: ahead))
      callee.IsSame :=
    readsCallee_printed rereads group (List.cons_ne_nil _ _) whenBare fun found same => .done same
  obtain ⟨middle, known, passed, operand, goesOn⟩ := reads
  refine reads_operand ⟨by simp [ofKeyword], by simp [ofKeyword]⟩ rfl fun start token marks own => ?_
  unfold primary
  rw [own.kind]
  refine (Reads.restore marks (Nat.le_succ _)).bind fun _ _ => ?_
  refine Reaches.bind (Reads.require rfl) fun word _ => ?_
  -- No dot comes behind the keyword, since the callee opens an operand.
  refine (refuse_operand ((isOperation.opens.level _).append _) rfl).bind fun _ is => ?_
  subst is
  -- There is depth for the callee; behind it its accesses are read, and then the arguments.
  cases depth with
  | zero => exact absurd enough (Nat.not_succ_le_zero _)
  | succ depth =>
    have inner := Nat.le_of_succ_le_succ enough
    refine (operand depth inner).bind fun found isKnown => ?_
    refine (Reaches.loop (goesOn found isKnown (depth + 1) (by omega))).bind fun callee same => ?_
    refine Reads.acceptSymbol.bind fun _ is => ?_
    subst is
    have fewer : (argsLexemes args ++ ofSymbol .parenthesisClose :: ahead).length < depth + 1 := by
      rw [List.length_append, List.length_cons] at inner
      omega
    refine (rereads_arguments areArgs (depth + 1) fewer).bind fun args sameArgs => ?_
    refine Reads.lastEnd.bind fun stop _ => .pure (.of_shape ?_)
    simp only [Expr.of, Shape.unlocated_new, same.eq, sameArgs]

end Callees

end Downlevel.Parser
