import Downlevel.Proofs.Reading.SettledParts

/-! Expressions come to an end. -/

namespace Downlevel

/-- A literal that is read again as a pattern gives one that a literal can be. -/
theorem Expr.isStructured_toPattern {e : Expr} {pattern : Pattern}
    (literal : (∃ items, e.shape = .array items) ∨ ∃ members, e.shape = .object members)
    (read : e.toPattern = .ok pattern) : pattern.isStructured = true := by
  obtain ⟨origin, shape⟩ := e
  -- Either kind of literal fails in its parts, or gives a pattern of its own kind.
  obtain ⟨items, rfl⟩ | ⟨members, rfl⟩ := literal
  · rw [Expr.toPattern] at read
    cases found : slotsOfItems origin.span items with
    | error error =>
      rw [found] at read
      cases read
    | ok found =>
      rw [‹slotsOfItems _ _ = _›] at read
      cases read
      rfl
  · rw [Expr.toPattern] at read
    cases found : propertiesOfMembers members with
    | error error =>
      rw [found] at read
      cases read
    | ok found =>
      rw [‹propertiesOfMembers _ = _›] at read
      cases read
      rfl

/-- A literal that can be read as a pattern is a structured one, so it never breaks as a target. -/
theorem Expr.literalTarget_ne_broken {op : Operator} {origin : Origin} {shape : Shape}
    (isLiteral : (∃ items, shape = .array items) ∨ ∃ members, shape = .object members) :
    (if op = .assignment then
      match (Expr.mk origin shape).toPattern with
      | .ok pattern => if pattern.isStructured then pure pattern.toExpr else throw .broken
      | .error error => throw (.malformed error)
    else throw (.malformed (invalidTarget origin.span)) : Except ParseFailure Expr)
      ≠ .error .broken := by
  -- Only the assignment operator reads a literal again, and a malformed one has an error to tell.
  split
  · split
    · rename_i pattern read
      rw [if_pos (isStructured_toPattern isLiteral read)]
      rintro ⟨⟩
    · rintro ⟨⟩
  · rintro ⟨⟩

/-- So the target of an assignment is there, or it is malformed. -/
theorem Expr.toTarget_ne_broken (op : Operator) (e : Expr) : e.toTarget op ≠ .error .broken := by
  obtain ⟨origin, shape⟩ := e
  -- Literals are read again; of all else it is known at once whether it is a target.
  cases shape with
  | array items => exact literalTarget_ne_broken (.inl ⟨items, rfl⟩)
  | object members => exact literalTarget_ne_broken (.inr ⟨members, rfl⟩)
  | id name => rintro ⟨⟩
  | member link object name =>
    simp only [Expr.toTarget]
    split <;> rintro ⟨⟩
  | computed link object key =>
    simp only [Expr.toTarget]
    split <;> rintro ⟨⟩
  | _ => rintro ⟨⟩

namespace Parser

open Lexer

variable {short : Prop} {extra room : Nat} {grammar other : Grammar} {base : Reader}
variable {here place : Cursor} {context : Context} {stops : List TokenKind} {token : Token}

/-- Reading the access of a named member takes some text, and more depth changes nothing. -/
theorem takes_memberAccess {object : Expr} {link : ChainLink} :
    Takes short extra base here (memberAccess object link) (memberAccess object link) := by
  refine .take <| .check fun isName => .pure ?_
  refine step_left_lt nofun fun ends => isName ?_
  rw [ends]
  rfl

/-- Reading the word behind a keyword and a dot, which has to be the given one takes some text, and
more depth changes nothing. -/
theorem takes_metaWord {word : String} :
    Takes short extra base here (metaWord word) (metaWord word) := by
  refine (Settles.require (by nofun)).bind fun token behind shows => ?_
  exact .ite (fun _ => .pure shows.2.2) fun _ => .fail

variable (parts : grammar.Settles short extra room other)
include parts

section Operands

/-- Reading the access of a computed member takes some text, and more depth changes nothing. -/
theorem takes_computedAccess (inside : here.left < room) {object : Expr} {link : ChainLink} :
    Takes short extra base here (grammar.computedAccess context object link)
      (other.computedAccess context object link) := by
  refine (parts.expr (by omega)).bind fun key stop less₁ => ?_
  refine (Settles.require (by nofun)).bind fun close behind shows => ?_
  exact .pure (by omega)

/-- Reading a yield behind its keyword gives no text back, and more depth changes nothing. -/
theorem lasts_yieldExpr (inside : here.left < room) {word : Token} :
    Lasts short extra base here (grammar.yieldExpr context stops word)
      (other.yieldExpr context stops word) := by
  refine (Settles.accept (by nofun)).bind fun isDelegated start shows => ?_
  refine .peekIn <| .ite (fun _ => ?_) fun _ => .pure shows.1
  refine (parts.expr (by omega)).bind fun operand behind less => ?_
  exact .pure (by omega)

/-- A round over the accesses of a callee goes on only if it took some text. -/
theorem rounds_callee (inside : here.left < room) {callee : Expr} :
    Rounds short extra base here (grammar.calleeRound context callee)
      (other.calleeRound context callee) := by
  refine .peek ?_
  -- Any token that goes on takes something, since it is not the end of the file.
  have less (goesOn : (step .standard here).token.kind ≠ .eof) :
      (step .standard here).next.left < here.left :=
    step_left_lt nofun goesOn
  split
  case h_1 kind =>
    have less := less (by rw [kind]; nofun)
    refine .take <| takes_memberAccess.bind fun access behind further => ?_
    exact .pure (show behind.left < here.left by omega)
  case h_2 kind =>
    have less := less (by rw [kind]; nofun)
    refine .take <| (takes_computedAccess parts (by omega)).bind fun access behind further => ?_
    exact .pure (show behind.left < here.left by omega)
  case h_3 kind =>
    have less := less (by rw [kind]; nofun)
    refine .take <| (lasts_taggedTemplate parts (by omega) .standard rfl (by nofun)).bind
      fun tagged behind further => ?_
    exact .pure (show behind.left < here.left by omega)
  case h_4 kind =>
    have less := less (by rw [kind]; nofun)
    refine .take <| (lasts_taggedTemplate parts (by omega) .standard rfl (by nofun)).bind
      fun tagged behind further => ?_
    exact .pure (show behind.left < here.left by omega)
  case h_5 => exact .pure (Nat.le_refl _)

/-- Reading a constructor call, or the target of one takes some text, and more depth changes
nothing. -/
theorem takes_newExpr (first : here.left ≤ room) :
    Takes short extra base here (grammar.newExpr context) (other.newExpr context) := by
  refine (Settles.require (by nofun)).bind fun word second less₁ => ?_
  refine (Settles.accept (by nofun)).bind fun isMeta third dot => ?_
  refine .ite (fun _ => ?_) fun _ => ?_
  · refine takes_metaWord.bind fun name behind less₂ => ?_
    exact .pure (by omega)
  refine (parts.operand (by omega)).bind fun operand fourth less₂ => ?_
  -- The accesses of the callee are a loop, each round of which takes something.
  have callee : Lasts short extra base fourth (grammar.calleeAccesses context operand)
      (other.calleeAccesses context operand) :=
    .loop fun callee place no_more => rounds_callee parts (by omega)
  refine callee.bind fun callee fifth no_more => ?_
  refine (Settles.accept (by nofun)).bind fun hasArgs sixth args => ?_
  refine .ite (fun _ => ?_) fun _ => .pure (by omega)
  refine (takes_arguments parts (by omega)).bind fun args behind less₃ => ?_
  exact .lastEnd fun _ => .pure (by omega)

/-- Reading a dynamic import or the metadata of the module, behind the keyword gives no text back,
and more depth changes nothing. -/
theorem lasts_importExpr (inside : here.left < room) {word : Token} :
    Lasts short extra base here (grammar.importExpr context word)
      (other.importExpr context word) := by
  refine (Settles.accept (by nofun)).bind fun isMeta second dot => ?_
  refine .ite (fun _ => ?_) fun _ => ?_
  · refine takes_metaWord.bind fun name behind less => ?_
    exact .pure (by omega)
  refine Settles.symbol.bind fun _ third less₁ => ?_
  refine (parts.expr (by omega)).bind fun module fourth less₂ => ?_
  refine (Settles.require (by nofun)).bind fun close behind shows => ?_
  exact .pure (by omega)

/-- An operand that starts with a parenthesis. -/
theorem takes_parenthesized (first : here.left ≤ room) :
    Takes short extra base here (grammar.parenthesized context stops)
      (other.parenthesized context stops) := by
  refine (settles_arrowExpr? parts first).bind fun result behind shows => ?_
  cases result with
  | some arrow => exact .pure shows
  | none =>
    obtain rfl : behind = here := shows
    exact takes_grouping parts first

/-- An operand whose first token, which is no mark of the end, was taken behind the base. -/
theorem settles_asyncExpr (first : base.place.left ≤ room) (taken : here.left < base.place.left)
    (goesOn : (step .standard base.place).token.kind ≠ .eof) :
    Settles short extra base here
      (grammar.asyncExpr context stops ⟨base.next, base.reports.length⟩ token)
      (other.asyncExpr context stops ⟨base.next, base.reports.length⟩ token)
      fun _ place => place.left < base.place.left := by
  refine .peek <| .ite (fun _ => .pure taken) fun _ => .ite (fun _ => .restore ?_) fun _ => ?_
  · exact takes_functionExpr parts first
  refine .ite (fun _ => .restore ?_) fun _ => .ite (fun _ => .restore ?_) fun _ => .pure taken
  · exact takes_arrowExpr parts first
  refine (settles_arrowExpr? parts first).bind fun result behind shows => ?_
  cases result with
  | some arrow => exact .pure shows
  | none =>
    -- The word is taken as a name after all.
    obtain rfl : behind = base.place := shows
    exact .take <| .pure (step_left_lt nofun goesOn)

/-- Reading an operand that starts with a name may go back to that name, and more depth changes
nothing. -/
theorem settles_nameExpr (first : base.place.left ≤ room) (taken : here.left < base.place.left) :
    Settles short extra base here
      (grammar.nameExpr context stops ⟨base.next, base.reports.length⟩ token)
      (other.nameExpr context stops ⟨base.next, base.reports.length⟩ token)
      fun _ place => place.left < base.place.left := by
  refine .peek <| .ite (fun _ => .restore ?_) fun _ => .pure taken
  exact takes_arrowExpr parts first

/-- An operand that no operator stands in front of, with its first token taken. -/
theorem settles_primary (first : base.place.left ≤ room)
    (read : token = (step .regex base.place).token) :
    Settles short extra base (step .regex base.place).next
      (grammar.primary context stops ⟨base.next, base.reports.length⟩ token)
      (other.primary context stops ⟨base.next, base.reports.length⟩ token)
      fun _ place => place.left < base.place.left := by
  -- The token in front is taken, so what comes behind it is shorter.
  have less (goesOn : token.kind ≠ .eof) : (step .regex base.place).next.left < base.place.left :=
    step_left_lt nofun (read ▸ goesOn)
  unfold Grammar.primary
  -- One case for each token: some are given back to be read as a whole, some are all there is.
  split
  case h_1 => exact .restore (takes_newExpr parts first)
  case h_2 kind =>
    have goesOn : (step .standard base.place).token.kind ≠ .eof := fun ends => by
      rw [← step_eof_modes, ← read, kind] at ends
      cases ends
    exact settles_asyncExpr parts first (less (by rw [kind]; nofun)) goesOn
  case h_3 => exact .restore (takes_parenthesized parts first)
  case h_4 => exact .restore (takes_arrayExpr parts first)
  case h_5 => exact .restore (takes_objectExpr parts first)
  case h_6 => exact .restore (takes_functionExpr parts first)
  case h_7 => exact .restore (takes_classExpr parts first)
  case h_8 kind => exact .pure (less (by rw [kind]; nofun))
  case h_9 kind => exact .pure (less (by rw [kind]; nofun))
  case h_10 kind =>
    have less := less (by rw [kind]; nofun)
    exact (lasts_importExpr parts (by omega)).weaken fun _ _ no_more => by omega
  case h_11 kind => exact .pure (less (by rw [kind]; nofun))
  case h_12 kind => exact .pure (less (by rw [kind]; nofun))
  case h_13 kind => exact .pure (less (by rw [kind]; nofun))
  case h_14 kind => exact .pure (less (by rw [kind]; nofun))
  case h_15 kind =>
    have less := less (by rw [kind]; nofun)
    exact (settles_bigintDigits read kind).bind fun _ _ same => .pure (same ▸ less)
  case h_16 kind =>
    have less := less (by rw [kind]; nofun)
    exact (settles_stringValue read kind).bind fun _ _ same => .pure (same ▸ less)
  case h_17 kind => exact .pure (less (by rw [kind]; nofun))
  case h_18 kind =>
    have less := less (by rw [kind]; nofun)
    exact (lasts_templateExpr parts (by omega) .regex read (by nofun)).weaken fun _ _ no_more => by omega
  case h_19 kind =>
    have less := less (by rw [kind]; nofun)
    exact (lasts_templateExpr parts (by omega) .regex read (by nofun)).weaken fun _ _ no_more => by omega
  case h_20 kind => exact .pure (less (by rw [kind]; nofun))
  case h_21 => exact .fail
  -- A word that can be a name is one, or the parameter of an arrow.
  case h_22 =>
    refine .ite (fun bindable => ?_) fun _ => .fail
    have goesOn : token.kind ≠ .eof := fun ends => by
      rw [ends] at bindable
      cases bindable
    exact settles_nameExpr parts first (less goesOn)

/-- An operand with the operators in front of it. -/
theorem takes_operandRule (first : here.left ≤ room) :
    Takes short extra base here (grammar.operandRule context stops)
      (other.operandRule context stops) := by
  refine .checkpoint fun saved stands => .takeIn ?_
  subst stands
  -- An operator, a `yield` or a primary expression: the token in front is taken in each case.
  have less (goesOn : (step .regex saved.place).token.kind ≠ .eof) :
      (step .regex saved.place).next.left < saved.place.left :=
    step_left_lt nofun goesOn
  cases leading : Operator.ofLeadingToken? (step .regex saved.place).token.kind with
  | some op =>
    have less := less fun ends => by
      rw [ends] at leading
      cases leading
    refine (parts.expr (by omega)).bind fun operand behind further => ?_
    exact .pure (by omega)
  | none =>
    refine .ite (fun isYield => ?_) fun _ => settles_primary parts first rfl
    have less := less (by rw [isYield.1]; nofun)
    exact (lasts_yieldExpr parts (by omega)).weaken fun _ _ no_more => by omega

end Operands

section Suffixes

/-- Reading a call behind its opening parenthesis takes some text, and more depth changes
nothing. -/
theorem takes_callSuffix (inside : here.left < room) {callee : Expr} {link : ChainLink} :
    Takes short extra base here (grammar.callSuffix context callee link)
      (other.callSuffix context callee link) := by
  refine .reading fun reader => ?_
  refine (takes_arguments parts inside).bind fun args behind less => ?_
  exact .lastEnd fun _ => .pure less

/-- Reading a conditional behind its question mark takes some text, and more depth changes
nothing. -/
theorem takes_condSuffix (inside : here.left < room) {test : Expr} :
    Takes short extra base here (grammar.condSuffix context test stops)
      (other.condSuffix context test stops) := by
  refine (parts.expr (by omega)).bind fun consequent second less₁ => ?_
  refine Settles.symbol.bind fun _ third less₂ => ?_
  refine (parts.expr (by omega)).bind fun alternate behind less₃ => ?_
  exact .pure (by omega)

/-- Reading an assignment behind its operator takes some text, and more depth changes nothing. -/
theorem takes_assignSuffix (inside : here.left < room) {left : Expr} {op : Operator} :
    Takes short extra base here (grammar.assignSuffix context left op stops)
      (other.assignSuffix context left op stops) := by
  unfold Grammar.assignSuffix
  -- An expression that is no target is malformed, and so it is on both sides.
  cases found : left.toTarget op with
  | error failure =>
    cases failure with
    | malformed error => exact .fail
    | exhausted => exact absurd found (left.toTarget_ne_broken op)
  | ok target =>
    refine (parts.expr inside).bind fun right behind less => ?_
    exact .pure less

/-- Reading a binary operation behind its operator takes some text, and more depth changes
nothing. -/
theorem takes_binarySuffix (inside : here.left < room) {left : Expr} {op : Operator} {level : Nat} :
    Takes short extra base here (grammar.binarySuffix context left op token level stops)
      (other.binarySuffix context left op token level stops) := by
  -- The right operand and, for a logical operator, what binds more tightly behind it.
  have rest : Takes short extra base here
      (do
        let isLogical := op == .logicalAnd || op == .logicalOr
        let rightLevel := if op.associativity = .left then op.precedence + 1 else op.precedence
        let right ← grammar.expr context rightLevel stops
        let joined := Expr.binary (left.span.cover right.span) op left right
        if isLogical && level ≤ Precedence.nullish then
          let joined ← grammar.suffix context joined (Precedence.logicalOr + 1) stops
          let next ← peek
          if next.kind = .symbol .questionQuestion then
            reportAmbiguous next.span .nullishCoalescing op
          return joined
        return joined)
      (do
        let isLogical := op == .logicalAnd || op == .logicalOr
        let rightLevel := if op.associativity = .left then op.precedence + 1 else op.precedence
        let right ← other.expr context rightLevel stops
        let joined := Expr.binary (left.span.cover right.span) op left right
        if isLogical && level ≤ Precedence.nullish then
          let joined ← other.suffix context joined (Precedence.logicalOr + 1) stops
          let next ← peek
          if next.kind = .symbol .questionQuestion then
            reportAmbiguous next.span .nullishCoalescing op
          return joined
        return joined) := by
    refine (parts.expr inside).bind fun right second less => ?_
    refine .ite (fun _ => ?_) fun _ => .pure less
    refine (parts.suffix (by omega)).bind fun joined behind no_more => ?_
    refine .peek <| .ite (fun _ => ?_) fun _ => .pure (by omega)
    refine Settles.report.bind ?_
    rintro _ _ rfl
    exact .pure (by omega)
  refine .ite (fun _ => ?_) fun _ => rest
  refine Settles.report.bind ?_
  rintro _ _ rfl
  exact rest

/-- A round over operators goes on only if it took some text. -/
theorem rounds_infix (first : here.left ≤ room) {soFar : Grammar.Partial} {level : Nat}
    (read : token = (step .standard here).token) :
    Rounds short extra base here (grammar.infixRound context soFar level stops token)
      (other.infixRound context soFar level stops token) := by
  unfold Grammar.infixRound
  cases isInfix : Operator.ofInfixToken? token.kind with
  | none => exact .pure (Nat.le_refl _)
  | some op =>
    -- An operator is a token, so taking it leaves less.
    have less : (step .standard here).next.left < here.left := by
      refine step_left_lt nofun fun ends => ?_
      rw [read, ends] at isInfix
      cases isInfix
    refine .ite (fun _ => .pure (Nat.le_refl _)) fun _ => .take ?_
    refine .ite (fun _ => ?_) fun _ => ?_
    · refine (takes_assignSuffix parts (by omega)).bind fun joined behind further => ?_
      exact .pure (show behind.left < here.left by omega)
    · refine (takes_binarySuffix parts (by omega)).bind fun joined behind further => ?_
      exact .pure (show behind.left < here.left by omega)

/-- A round over what stands behind an operand goes on only if it took some text. -/
theorem rounds_suffix (first : here.left ≤ room) {soFar : Grammar.Partial} {level : Nat} :
    Rounds short extra base here (grammar.suffixRound context level stops soFar)
      (other.suffixRound context level stops soFar) := by
  refine .peek <| .ite (fun _ => .pure (Nat.le_refl _)) fun _ => ?_
  have less (goesOn : (step .standard here).token.kind ≠ .eof) :
      (step .standard here).next.left < here.left :=
    step_left_lt nofun goesOn
  -- What comes behind the token only has to leave no more text than the token does.
  have again {α : Type} {inner outer : Parser α} {pack : α → Grammar.Partial}
      (goesOn : (step .standard here).token.kind ≠ .eof)
      (rest : (step .standard here).next.left < room →
        Lasts short extra base (step .standard here).next inner outer) :
      Settles short extra base (step .standard here).next (do return .again (pack (← inner)))
        (do return (.again (pack (← outer)) : Round Grammar.Partial Expr))
        (Round.Shortens here) := by
    have less := less goesOn
    refine (rest (by omega)).bind fun result behind no_more => .pure ?_
    exact (show behind.left < here.left by omega)
  split
  case h_1 kind => exact .take <| again (by rw [kind]; nofun) fun _ => takes_memberAccess.lasts
  case h_2 kind =>
    refine .take <| .peek <| .check fun _ => ?_
    exact again (by rw [kind]; nofun) fun _ => takes_memberAccess.lasts
  case h_3 kind =>
    exact .take <| again (by rw [kind]; nofun) fun inside => (takes_computedAccess parts inside).lasts
  case h_4 kind =>
    exact .take <| again (by rw [kind]; nofun) fun inside => (takes_computedAccess parts inside).lasts
  case h_5 kind =>
    exact .take <| again (by rw [kind]; nofun) fun inside => (takes_callSuffix parts inside).lasts
  case h_6 kind =>
    exact .take <| again (by rw [kind]; nofun) fun inside => (takes_callSuffix parts inside).lasts
  case h_7 kind =>
    exact .take <| again (by rw [kind]; nofun) fun inside =>
      lasts_taggedTemplate parts inside .standard rfl (by nofun)
  case h_8 kind =>
    exact .take <| again (by rw [kind]; nofun) fun inside =>
      lasts_taggedTemplate parts inside .standard rfl (by nofun)
  case h_9 kind =>
    refine .ite (fun _ => .pure (Nat.le_refl _)) fun _ => .take ?_
    exact again (by rw [kind]; nofun) fun inside => (takes_condSuffix parts inside).lasts
  case h_10 kind =>
    refine .ite (fun _ => .pure (Nat.le_refl _)) fun _ => .take <| .pure ?_
    exact less (by rw [kind]; nofun)
  case h_11 kind =>
    refine .ite (fun _ => .pure (Nat.le_refl _)) fun _ => .take <| .pure ?_
    exact less (by rw [kind]; nofun)
  case h_12 =>
    exact .ite (fun _ => .pure (Nat.le_refl _)) fun _ => rounds_infix parts first rfl
  case h_13 => exact rounds_infix parts first rfl

/-- Reading everything behind an operand gives no text back, and more depth changes nothing. -/
theorem lasts_suffixRule (first : here.left ≤ room) {left : Expr} {level : Nat} :
    Lasts short extra base here (grammar.suffixRule context left level stops)
      (other.suffixRule context left level stops) :=
  .loop fun soFar place no_more => rounds_suffix parts (by omega)

/-- An expression. -/
theorem takes_exprRule (first : here.left ≤ room) {level : Nat} :
    Takes short extra base here (grammar.exprRule context level stops)
      (other.exprRule context level stops) := by
  refine (takes_operandRule parts first).bind fun operand start less => ?_
  exact (lasts_suffixRule parts (by omega)).weaken fun _ _ no_more => by omega

end Suffixes

end Parser

end Downlevel
