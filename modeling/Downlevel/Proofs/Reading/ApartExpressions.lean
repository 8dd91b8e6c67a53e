import Downlevel.Proofs.Reading.ApartParts
import Downlevel.Proofs.Reading.SettledExpressions

/-! The regions of expressions start apart from one another in the text that was taken for them. -/

namespace Downlevel.Parser

open Lexer

variable {grammar : Grammar} {base : Reader} {here place : Cursor} {context : Context}
variable {stops : List TokenKind} {token : Token} {first : Nat}

/-- The regions of an expression that has been read since the given offset start apart from one
another. -/
abbrev ReadSince (first : Nat) (e : Expr) (place : Cursor) : Prop :=
  Apart first place.offset (exprRegions e)

/-- The scopes of the access of a named member lie apart in the text that was taken for it. -/
theorem arrives_memberAccess {object : Expr} {link : ChainLink}
    (soFar : ReadSince first object here) :
    Arrives base here (memberAccess object link) (ReadSince first) :=
  .take <| .check fun _ => .pure (soFar.upTo (before_step .standard here).offset_le)

variable (parts : grammar.Lays)
include parts

section Operands

/-- The scopes of the access of a computed member lie apart in the text that was taken for it. -/
theorem arrives_computedAccess {object : Expr} {link : ChainLink}
    (soFar : ReadSince first object here) :
    Arrives base here (grammar.computedAccess context object link) (ReadSince first) := by
  refine parts.expr.bind fun key stop apart => ?_
  refine (Settles.past (by nofun)).bind fun close behind later => ?_
  have front := offset_le_startOf stop
  exact .pure (soFar.append (apart.upTo (by omega)))

/-- The scopes of a yield behind its keyword lie apart in the text that was taken for it. -/
theorem lays_yieldExpr {word : Token} :
    Lays exprRegions base here (grammar.yieldExpr context stops word) := by
  refine (Settles.accept_past (by nofun)).bind fun isDelegated start later => ?_
  refine .peekIn <| .ite (fun _ => ?_) fun _ => .pure (.none later.1)
  exact parts.expr.bind fun operand behind apart => .pure (apart.since later.1)

/-- A round over the accesses of a callee adds scopes behind those before. -/
theorem rounds_calleeAccesses {callee : Expr} (soFar : ReadSince first callee here) :
    Arrives base here (grammar.calleeRound context callee)
      (Round.Known (ReadSince first) (ReadSince first)) := by
  have taken : ReadSince first callee (step .standard here).next :=
    soFar.upTo (before_step .standard here).offset_le
  refine .peek ?_
  -- Each round reads one access, or ends where there is none.
  split
  case h_1 => exact .take <| (arrives_memberAccess taken).bind fun _ _ apart => .pure apart
  case h_2 => exact .take <| (arrives_computedAccess parts taken).bind fun _ _ apart => .pure apart
  case h_3 =>
    exact .take <| (arrives_taggedTemplate parts .standard rfl nofun taken).bind
      fun _ _ apart => .pure apart
  case h_4 =>
    exact .take <| (arrives_taggedTemplate parts .standard rfl nofun taken).bind
      fun _ _ apart => .pure apart
  case h_5 => exact .pure soFar

/-- The scopes of a constructor call, or the target of one lie apart in the text that was taken for
it. -/
theorem lays_newExpr : Lays exprRegions base here (grammar.newExpr context) := by
  refine (Settles.past (by nofun)).bind fun word second later₁ => ?_
  have front := offset_le_startOf here
  refine (Settles.accept_past (by nofun)).bind fun isMeta third later₂ => ?_
  -- The meta property has no operand; anything else has a callee and may have arguments.
  refine .ite (fun _ => ?_) fun _ => ?_
  · exact takes_metaWord.further.bind fun name behind later₃ => .pure (.none (by omega))
  refine parts.operand.bind fun operand fourth apart => ?_
  have operand : ReadSince here.offset operand fourth := apart.since (by omega)
  have callee : Arrives base fourth (grammar.calleeAccesses context _) (ReadSince here.offset) :=
    .cycle _ operand fun callee place soFar => rounds_calleeAccesses parts soFar
  refine callee.bind fun callee fifth soFar => ?_
  refine (Settles.accept_past (by nofun)).bind fun hasArgs sixth later₃ => ?_
  refine .ite (fun _ => ?_) fun _ => .pure (soFar.append (.none later₃.1))
  refine (lays_arguments parts).bind fun args behind apart => ?_
  exact .lastEnd fun _ => .pure (soFar.append (apart.since later₃.1))

/-- The scopes of a dynamic import or the metadata of the module, behind the keyword lie apart in
the text that was taken for it. -/
theorem lays_importExpr {word : Token} :
    Lays exprRegions base here (grammar.importExpr context word) := by
  refine (Settles.accept_past (by nofun)).bind fun isMeta second later₁ => ?_
  refine .ite (fun _ => ?_) fun _ => ?_
  · exact takes_metaWord.further.bind fun name behind later₂ => .pure (.none (by omega))
  refine Settles.symbol.further.bind fun _ third later₂ => ?_
  refine parts.expr.bind fun module fourth apart => ?_
  refine (Settles.past (by nofun)).bind fun close behind later₃ => ?_
  have front := offset_le_startOf fourth
  exact .pure (apart.within (by omega) (by omega))

/-- An operand that starts with a parenthesis. -/
theorem lays_parenthesized : Lays exprRegions base here (grammar.parenthesized context stops) := by
  refine (arrives_arrowExpr? parts).bind fun result behind shows => ?_
  cases result with
  | some arrow => exact .pure shows
  | none =>
    obtain rfl : behind = here := shows
    exact lays_grouping parts

/-- An operand whose first token was taken behind the base. -/
theorem arrives_asyncExpr (taken : base.place.offset ≤ here.offset) :
    Arrives base here (grammar.asyncExpr context stops ⟨base.next, base.reports.length⟩ token)
      (ReadSince base.place.offset) := by
  refine .peek <| .ite (fun _ => .pure (.none taken)) fun _ =>
    .ite (fun _ => .restore ?_) fun _ => ?_
  · exact lays_functionExpr parts
  refine .ite (fun _ => .restore ?_) fun _ => .ite (fun _ => .restore ?_) fun _ =>
    .pure (.none taken)
  · exact lays_arrowExpr parts
  refine (arrives_arrowExpr? parts).bind fun result behind shows => ?_
  cases result with
  | some arrow => exact .pure shows
  | none =>
    -- The word is taken as a name after all.
    obtain rfl : behind = base.place := shows
    exact .take <| .pure (.none (before_step .standard _).offset_le)

/-- The scopes of an operand that starts with a name lie apart in the text that was taken for it. -/
theorem arrives_nameExpr (taken : base.place.offset ≤ here.offset) :
    Arrives base here (grammar.nameExpr context stops ⟨base.next, base.reports.length⟩ token)
      (ReadSince base.place.offset) := by
  refine .peek <| .ite (fun _ => .restore ?_) fun _ => .pure (.none taken)
  exact lays_arrowExpr parts

/-- An operand that no operator stands in front of, with its first token taken. -/
theorem arrives_primary (read : token = (step .regex base.place).token) :
    Arrives base (step .regex base.place).next
      (grammar.primary context stops ⟨base.next, base.reports.length⟩ token)
      (ReadSince base.place.offset) := by
  have taken := (before_step .regex base.place).offset_le
  unfold Grammar.primary
  -- One case for each token: some are given back to be read as a whole, some are all there is.
  split
  case h_1 => exact .restore (lays_newExpr parts)
  case h_2 => exact arrives_asyncExpr parts taken
  case h_3 => exact .restore (lays_parenthesized parts)
  case h_4 => exact .restore (lays_arrayExpr parts)
  case h_5 => exact .restore (lays_objectExpr parts)
  case h_6 => exact .restore (lays_functionExpr parts)
  case h_7 => exact .restore (lays_classExpr parts)
  case h_10 => exact (lays_importExpr parts).weaken fun _ _ apart => apart.since taken
  case h_15 kind =>
    refine (settles_bigintDigits read kind).bind ?_
    rintro _ _ rfl
    exact .pure (.none taken)
  case h_16 kind =>
    refine (settles_stringValue read kind).bind ?_
    rintro _ _ rfl
    exact .pure (.none taken)
  case h_18 =>
    exact (lays_templateExpr parts .regex read nofun).weaken fun _ _ apart => apart.since taken
  case h_19 =>
    exact (lays_templateExpr parts .regex read nofun).weaken fun _ _ apart => apart.since taken
  case h_21 => exact .fail
  case h_22 => exact .ite (fun _ => arrives_nameExpr parts taken) fun _ => .fail
  all_goals exact .pure (.none taken)

/-- An operand with the operators in front of it. -/
theorem lays_operandRule : Lays exprRegions base here (grammar.operandRule context stops) := by
  refine .checkpoint fun saved stands => .takeIn ?_
  subst stands
  have taken := (before_step .regex saved.place).offset_le
  cases Operator.ofLeadingToken? (step .regex saved.place).token.kind with
  | some op => exact parts.expr.bind fun operand behind apart => .pure (apart.since taken)
  | none =>
    refine .ite (fun _ => ?_) fun _ => arrives_primary parts rfl
    exact (lays_yieldExpr parts).weaken fun _ _ apart => apart.since taken

end Operands

section Suffixes

/-! What stands behind an operand goes on with its text. -/

/-- The scopes of a call behind its opening parenthesis lie apart in the text that was taken for
it. -/
theorem arrives_callSuffix {callee : Expr} {link : ChainLink}
    (soFar : ReadSince first callee here) :
    Arrives base here (grammar.callSuffix context callee link) (ReadSince first) := by
  refine .reading fun reader => ?_
  refine (lays_arguments parts).bind fun args behind apart => ?_
  exact .lastEnd fun _ => .pure (soFar.append apart)

/-- The scopes of a conditional behind its question mark lie apart in the text that was taken for
it. -/
theorem arrives_condSuffix {test : Expr} (soFar : ReadSince first test here) :
    Arrives base here (grammar.condSuffix context test stops) (ReadSince first) := by
  refine parts.expr.bind fun consequent second inConsequent => ?_
  refine Settles.symbol.further.bind fun _ third later => ?_
  refine parts.expr.bind fun alternate behind inAlternate => ?_
  exact .pure (soFar.append (inConsequent.append (inAlternate.since (by omega))))

/-- The scopes of an assignment behind its operator lie apart in the text that was taken for it. -/
theorem arrives_assignSuffix {left : Expr} {op : Operator} (soFar : ReadSince first left here) :
    Arrives base here (grammar.assignSuffix context left op stops) (ReadSince first) := by
  unfold Grammar.assignSuffix
  -- An expression that is no target is malformed, and a target has the regions of the expression.
  cases found : left.toTarget op with
  | error failure =>
    cases failure with
    | malformed error => exact .fail
    | exhausted => exact absurd found (left.toTarget_ne_broken op)
  | ok target =>
    have soFar : ReadSince first target here := by
      rw [ReadSince, regions_toTarget found]
      exact soFar
    exact parts.expr.bind fun right behind apart => .pure (soFar.append apart)

/-- The scopes of a binary operation behind its operator lie apart in the text that was taken for
it. -/
theorem arrives_binarySuffix {left : Expr} {op : Operator} {level : Nat}
    (soFar : ReadSince first left here) :
    Arrives base here (grammar.binarySuffix context left op token level stops)
      (ReadSince first) := by
  -- The right operand and, for a logical operator, what binds more tightly behind it.
  have rest : Arrives base here (do
      let isLogical := op == .logicalAnd || op == .logicalOr
      let rightLevel := if op.associativity = .left then op.precedence + 1 else op.precedence
      let right ← grammar.expr context rightLevel stops
      let joined := Expr.binary (left.span.cover right.span) op left right
      if isLogical && level ≤ Precedence.nullish then
        let joined ← grammar.suffix context joined (Precedence.logicalOr + 1) stops
        let next ← peek
        if next.kind = .symbol .questionQuestion then
          reportAmbiguous next.span .nullishCoalescing op
        return joined
      return joined) (ReadSince first) := by
    refine parts.expr.bind fun right second apart => ?_
    refine .ite (fun _ => ?_) fun _ => .pure (soFar.append apart)
    refine (parts.suffix (soFar.append apart)).bind fun joined behind apart => ?_
    refine .peek <| .ite (fun _ => ?_) fun _ => .pure apart
    refine Settles.report.bind ?_
    rintro _ _ rfl
    exact .pure apart
  refine .ite (fun _ => ?_) fun _ => rest
  refine Settles.report.bind ?_
  rintro _ _ rfl
  exact rest

/-- What is known in front of each round over what stands behind an operand. -/
abbrev ReadSoFar (first : Nat) (soFar : Grammar.Partial) (place : Cursor) : Prop :=
  ReadSince first soFar.left place

/-- A round over operators adds scopes behind those before. -/
theorem rounds_operators {soFar : Grammar.Partial} {level : Nat}
    (known : ReadSoFar first soFar here) :
    Arrives base here (grammar.infixRound context soFar level stops token)
      (Round.Known (ReadSoFar first) (ReadSince first)) := by
  have taken : ReadSince first soFar.left (step .standard here).next :=
    known.upTo (before_step .standard here).offset_le
  unfold Grammar.infixRound
  cases Operator.ofInfixToken? token.kind with
  | none => exact .pure known
  | some op =>
    refine .ite (fun _ => .pure known) fun _ => .take <| .ite (fun _ => ?_) fun _ => ?_
    · exact (arrives_assignSuffix parts taken).bind fun _ _ apart => .pure apart
    · exact (arrives_binarySuffix parts taken).bind fun _ _ apart => .pure apart

/-- A round over what stands behind an operand adds scopes behind those before. -/
theorem rounds_suffixes {soFar : Grammar.Partial} {level : Nat}
    (known : ReadSoFar first soFar here) :
    Arrives base here (grammar.suffixRound context level stops soFar)
      (Round.Known (ReadSoFar first) (ReadSince first)) := by
  have taken : ReadSince first soFar.left (step .standard here).next :=
    known.upTo (before_step .standard here).offset_le
  -- Whatever stands behind the token, the loop goes on with it.
  have again {inner : Parser Expr} {inChain : Bool}
      (rest : Arrives base (step .standard here).next inner (ReadSince first)) :
      Arrives base (step .standard here).next (do return .again ⟨← inner, inChain⟩)
        (Round.Known (ReadSoFar first) (ReadSince first)) :=
    rest.bind fun _ _ apart => .pure apart
  refine .peek <| .ite (fun _ => .pure known) fun _ => ?_
  split
  case h_1 => exact .take <| again (arrives_memberAccess taken)
  case h_2 => exact .take <| .peek <| .check fun _ => again (arrives_memberAccess taken)
  case h_3 => exact .take <| again (arrives_computedAccess parts taken)
  case h_4 => exact .take <| again (arrives_computedAccess parts taken)
  case h_5 => exact .take <| again (arrives_callSuffix parts taken)
  case h_6 => exact .take <| again (arrives_callSuffix parts taken)
  case h_7 => exact .take <| again (arrives_taggedTemplate parts .standard rfl nofun taken)
  case h_8 => exact .take <| again (arrives_taggedTemplate parts .standard rfl nofun taken)
  case h_9 =>
    exact .ite (fun _ => .pure known) fun _ => .take <| again (arrives_condSuffix parts taken)
  case h_10 => exact .ite (fun _ => .pure known) fun _ => .take <| .pure taken
  case h_11 => exact .ite (fun _ => .pure known) fun _ => .take <| .pure taken
  case h_12 => exact .ite (fun _ => .pure known) fun _ => rounds_operators parts known
  case h_13 => exact rounds_operators parts known

/-- The scopes of everything behind an operand lie apart in the text that was taken for it. -/
theorem arrives_suffixRule {left : Expr} {level : Nat} (soFar : ReadSince first left here) :
    Arrives base here (grammar.suffixRule context left level stops) (ReadSince first) :=
  .cycle (ReadSoFar first) soFar fun _ _ known => rounds_suffixes parts known

/-- An expression. -/
theorem lays_exprRule {level : Nat} :
    Lays exprRegions base here (grammar.exprRule context level stops) :=
  (lays_operandRule parts).bind fun _ _ apart => arrives_suffixRule parts apart

end Suffixes

end Downlevel.Parser
