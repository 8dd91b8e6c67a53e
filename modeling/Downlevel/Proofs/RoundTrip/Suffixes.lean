import Downlevel.Proofs.RoundTrip.Operations
import Downlevel.Proofs.RoundTrip.Readings

/-! What the parser does behind an operand: it goes on with operators, accesses and calls, or ends. -/

namespace Downlevel

/-- The tree that was found is the expression, wherever it stands. -/
def Expr.IsSame (e found : Expr) : Prop :=
  found.unlocated = e.unlocated

/-- What is the same is so without locations. -/
theorem Expr.IsSame.eq {e found : Expr} (same : e.IsSame found) : found.unlocated = e.unlocated :=
  same

/-- Where an expression comes from makes no difference. -/
theorem Expr.IsSame.of_shape {e found : Expr} (same : found.shape.unlocated = e.shape.unlocated) :
    e.IsSame found := by
  obtain ⟨origin, shape⟩ := e
  obtain ⟨place, foundShape⟩ := found
  exact congrArg (Expr.mk ⟨⟨0, 0⟩, false⟩) same

/-- The same operation on the same operands. -/
theorem Expr.IsSame.binary {origin : Origin} {span : Span} {op : Operator}
    {left right found foundRight : Expr} (same : left.IsSame found)
    (sameRight : right.IsSame foundRight) :
    Expr.IsSame ⟨origin, .binary op left right⟩ (Expr.binary span op found foundRight) := by
  refine .of_shape ?_
  simp only [Expr.binary, Expr.of, Shape.unlocated_binary, same.eq, sameRight.eq]

/-- The same tree is a place if one is. -/
theorem Expr.IsSame.isPlace {e found : Expr} (same : e.IsSame found) : found.isPlace = e.isPlace := by
  have unlocated (e : Expr) : e.unlocated.isPlace = e.isPlace := by
    obtain ⟨origin, shape⟩ := e
    cases shape <;> rfl
  rw [← unlocated, same.eq, unlocated]

/-- A place can be assigned to as it is. -/
theorem Expr.toTarget_of_isPlace {e : Expr} (isPlace : e.isPlace = true) (op : Operator) :
    e.toTarget op = .ok e := by
  obtain ⟨origin, shape⟩ := e
  unfold Expr.isPlace at isPlace
  unfold Expr.toTarget
  -- Names and accesses outside a chain are targets as they stand; the other forms are no places.
  cases shape with
  | id name => rfl
  | member link object name | computed link object name =>
    rw [Bool.not_eq_true'] at isPlace
    dsimp only
    rw [isPlace]
    rfl
  | _ => cases isPlace

/-- Whether a token ends an expression whose operators bind at least as tightly as the level. -/
def TokenKind.endsAt (level : Nat) : TokenKind → Bool
  | .symbol .parenthesisClose | .symbol .bracketClose | .symbol .colon | .symbol .semicolon | .eof =>
    true
  | .symbol .question => Precedence.conditional < level
  | kind => (Operator.ofInfixToken? kind).any (·.precedence < level)

/-- What ends an expression is no operator that could go on with it. -/
theorem TokenKind.loose_of_endsAt {kind : TokenKind} {level : Nat} {op : Operator}
    (ends : kind.endsAt level = true) (isInfix : Operator.ofInfixToken? kind = some op) :
    op.precedence < level := by
  unfold endsAt at ends
  split at ends
  all_goals first | cases isInfix | skip
  simpa [isInfix] using ends

/-- An operator that binds less tightly ends an expression. -/
theorem TokenKind.endsAt_of_lt {kind : TokenKind} {level : Nat} {op : Operator}
    (isInfix : Operator.ofInfixToken? kind = some op) (loose : op.precedence < level) :
    kind.endsAt level = true := by
  unfold endsAt
  split
  all_goals first | cases isInfix | skip
  simpa [isInfix] using loose

/-- An operator that binds tightly enough does not end an expression. -/
theorem TokenKind.endsAt_of_le {kind : TokenKind} {level : Nat} {op : Operator}
    (isInfix : Operator.ofInfixToken? kind = some op) (le : level ≤ op.precedence) :
    kind.endsAt level = false := by
  rw [← Bool.not_eq_true]
  intro ends
  have loose := TokenKind.loose_of_endsAt ends isInfix
  omega

/-- What ends an expression ends one of tighter operators. -/
theorem TokenKind.endsAt_mono {kind : TokenKind} {level tighter : Nat} (le : level ≤ tighter)
    (ends : kind.endsAt level = true) : kind.endsAt tighter = true := by
  unfold endsAt at ends ⊢
  -- An end without a level ends every level; the rest compares a level with the bound, which only
  -- grew.
  split at ends
  · rfl
  · rfl
  · rfl
  · rfl
  · rfl
  · simp only [decide_eq_true_eq] at ends ⊢
    omega
  · cases found : Operator.ofInfixToken? kind with
    | none => simp [found] at ends
    | some op =>
      simp only [found, Option.any_some, decide_eq_true_eq] at ends ⊢
      omega

/-- The next token ends an expression of the level. -/
def Ends (level : Nat) (ahead : List Lexeme) : Prop :=
  ∃ lexeme rest, ahead = lexeme :: rest ∧ lexeme.kind.endsAt level = true

/-- What ends an expression ends one that binds more tightly. -/
theorem Ends.mono {level tighter : Nat} {ahead : List Lexeme} (ends : Ends level ahead)
    (le : level ≤ tighter) : Ends tighter ahead := by
  obtain ⟨lexeme, rest, same, own⟩ := ends
  exact ⟨lexeme, rest, same, TokenKind.endsAt_mono le own⟩

/-- Each of the tokens an expression is to stop at would end it anyway. -/
def Admits (level : Nat) (stops : List TokenKind) : Prop :=
  ∀ kind ∈ stops, kind.endsAt level = true

instance {level : Nat} {stops : List TokenKind} : Decidable (Admits level stops) :=
  inferInstanceAs (Decidable (∀ kind ∈ stops, kind.endsAt level = true))

/-- What goes on behind an expression does so behind one that binds more tightly. -/
theorem Admits.mono {level tighter : Nat} {stops : List TokenKind} (admits : Admits level stops)
    (le : level ≤ tighter) : Admits tighter stops :=
  fun kind mem => TokenKind.endsAt_mono le (admits kind mem)

/-- A token with which the expression goes on is none to stop at. -/
theorem Admits.contains {level : Nat} {stops : List TokenKind} (admits : Admits level stops)
    {kind : TokenKind} (goesOn : kind.endsAt level = false) : stops.contains kind = false := by
  rw [← Bool.not_eq_true, List.contains_iff_mem]
  exact fun mem => absurd (admits kind mem) (by simp [goesOn])

namespace Parser

open Grammar

variable {tape : Tape} {level depth : Nat} {stops : List TokenKind} {lexeme : Lexeme}
  {ahead middle after : List Lexeme} {described : Expr → Prop} {goal : Expr → Reader → Prop}

/-- Reading an expression comes to an end as the goal asks for, if the depth suffices for the tokens
ahead. -/
def ReachesExpr (tape : Tape) (level : Nat) (stops : List TokenKind) (ahead : List Lexeme)
    (goal : Expr → Reader → Prop) : Prop :=
  ∀ depth, ahead.length ≤ depth →
    Reaches tape ((grammar depth).exprRule {} level stops) ahead goal

/-- An expression is read if the depth suffices for the tokens ahead. -/
abbrev ReadsExpr (tape : Tape) (level : Nat) (stops : List TokenKind) (ahead after : List Lexeme)
    (described : Expr → Prop) : Prop :=
  ReachesExpr tape level stops ahead (Lands tape after described)

/-- Inside another rule that took a token the depth suffices as well. -/
theorem ReachesExpr.inner (reaches : ReachesExpr tape level stops ahead goal)
    (enough : ahead.length < depth) :
    Reaches tape ((grammar depth).expr {} level stops) ahead goal := by
  cases depth with
  | zero => exact absurd enough (Nat.not_lt_zero _)
  | succ depth => exact reaches depth (by omega)

/-- Behind an operand the parser goes on if the depth suffices for the tokens ahead. -/
def GoesOn (tape : Tape) (level : Nat) (stops : List TokenKind) (soFar : Partial)
    (ahead : List Lexeme) (goal : Expr → Reader → Prop) : Prop :=
  ∀ depth, ahead.length ≤ depth →
    Runs tape ((grammar depth).suffixRound {} level stops) soFar ahead goal

/-- The arguments of a call are read if the depth suffices for the tokens ahead. -/
def ReadsArgs (tape : Tape) (args : List Arg) (after : List Lexeme) : Prop :=
  ∀ depth, (argsLexemes args ++ .ofSymbol .parenthesisClose :: after).length < depth →
    Reads tape ((grammar depth).arguments {})
      (argsLexemes args ++ .ofSymbol .parenthesisClose :: after) after
      fun found => argsUnlocated found = argsUnlocated args

/-- A round over what stands behind an operand, with others behind it. -/
theorem GoesOn.again {soFar : Partial} {known : Expr → Prop} {inChain : Bool}
    (round : ∀ depth, ahead.length ≤ depth →
      Reads tape ((grammar depth).suffixRound {} level stops soFar) ahead middle
        (Round.Holds (fun soFar => known soFar.left ∧ soFar.inChain = inChain) fun _ => False))
    (shorter : middle.length < ahead.length)
    (later : ∀ found, known found →
      GoesOn tape level stops ⟨found, inChain⟩ middle goal) :
    GoesOn tape level stops soFar ahead goal := by
  intro depth enough
  -- The round consumed a lexeme, so one fuel less is still at least what is left.
  refine .again (round depth enough) shorter fun soFar shown => ?_
  obtain ⟨found, chained⟩ := soFar
  obtain ⟨isKnown, rfl⟩ := shown
  exact later found isKnown depth (by omega)

/-- A round behind an operand that may report something, with others behind it. -/
theorem GoesOn.tells {soFar : Partial} {known : Expr → List Report → Prop}
    (round : ∀ depth, ahead.length ≤ depth →
      Reaches tape ((grammar depth).suffixRound {} level stops soFar) ahead
        (Tells tape middle fun next told =>
          next.Holds (fun soFar => known soFar.left told ∧ soFar.inChain = false) fun _ => False))
    (shorter : middle.length < ahead.length)
    (later : ∀ found told, known found told →
      GoesOn (tape.telling told) level stops ⟨found, false⟩ middle goal) :
    GoesOn tape level stops soFar ahead goal := by
  intro depth enough
  refine .tells (round depth enough) shorter fun soFar told shown => ?_
  obtain ⟨found, chained⟩ := soFar
  -- Each round takes at least one lexeme, which is what the depth is measured against.
  obtain ⟨isKnown, rfl⟩ := shown
  exact later found told isKnown depth (by omega)

/-- Reaching one goal behind an operand is reaching another that follows from it. -/
theorem GoesOn.imp {soFar : Partial} {aim : Expr → Reader → Prop}
    (holds : GoesOn tape level stops soFar ahead aim)
    (implies : ∀ found later, aim found later → goal found later) :
    GoesOn tape level stops soFar ahead goal :=
  fun depth enough => (holds depth enough).imp implies

/-- The round over an operator between operands. -/
theorem reaches_infix {op : Operator} {soFar : Partial} {goal : Round Partial Expr → Reader → Prop}
    (isInfix : Operator.ofInfixToken? lexeme.kind = some op) (tight : level ≤ op.precedence)
    (admits : Admits level stops)
    (joins : ∀ token, lexeme.Matches token →
      Reaches tape
        (if op.isAssignment then (grammar depth).assignSuffix {} soFar.left op stops
          else (grammar depth).binarySuffix {} soFar.left op token level stops) ahead
        fun joined => goal (.again ⟨joined, false⟩)) :
    Reaches tape ((grammar depth).suffixRound {} level stops soFar) (lexeme :: ahead) goal := by
  refine Reads.peek.bind fun token own => ?_
  rw [← own.kind] at isInfix
  rw [admits.contains (TokenKind.endsAt_of_le isInfix tight), if_neg Bool.false_ne_true]
  have round : Reaches tape ((grammar depth).infixRound {} soFar level stops token)
      (lexeme :: ahead) goal := by
    unfold infixRound
    rw [isInfix]
    dsimp only
    rw [if_neg (Nat.not_lt.mpr tight)]
    refine Reads.take.bind fun _ _ => ?_
    have joins := joins token own
    cases assigns : op.isAssignment <;> rw [assigns] at joins <;> exact joins.pack
  -- The tokens with rounds of their own are no operators between operands, except for `in`.
  split
  all_goals try (rename_i is; rw [is] at isInfix; cases isInfix)
  · rw [if_neg Bool.false_ne_true]
    exact round
  · exact round

/-- The same where nothing is reported. -/
theorem reads_infix {op : Operator} {soFar : Partial} {known : Expr → Prop}
    (isInfix : Operator.ofInfixToken? lexeme.kind = some op) (tight : level ≤ op.precedence)
    (admits : Admits level stops)
    (joins : ∀ token, lexeme.Matches token →
      Reads tape
        (if op.isAssignment then (grammar depth).assignSuffix {} soFar.left op stops
          else (grammar depth).binarySuffix {} soFar.left op token level stops) ahead after known) :
    Reads tape ((grammar depth).suffixRound {} level stops soFar) (lexeme :: ahead) after
      (Round.Holds (fun soFar => known soFar.left ∧ soFar.inChain = false) fun _ => False) :=
  reaches_infix isInfix tight admits fun token own =>
    (joins token own).imp fun _ _ ⟨there, shown⟩ => ⟨there, shown, rfl⟩

/-- A token that ends the expression is left where it is. -/
theorem GoesOn.done {soFar : Partial} (ends : Ends level ahead) (holds : described soFar.left) :
    GoesOn tape level stops soFar ahead (Lands tape ahead described) := by
  obtain ⟨lexeme, rest, rfl, own⟩ := ends
  refine fun depth _ => .done (Reads.peek.bind fun token isToken => ?_)
  rw [← isToken.kind] at own
  have done : Reads tape (pure (Round.done soFar.left) : Parser (Round Partial Expr))
      (lexeme :: rest) (lexeme :: rest) (Round.Holds (fun _ => False) described) := .pure holds
  have round : Reads tape ((grammar depth).infixRound {} soFar level stops token)
      (lexeme :: rest) (lexeme :: rest) (Round.Holds (fun _ => False) described) := by
    unfold infixRound
    cases isInfix : Operator.ofInfixToken? token.kind with
    | none => exact done
    | some op =>
      dsimp only
      rw [if_pos (TokenKind.loose_of_endsAt own isInfix)]
      exact done
  split
  · exact done
  split
  -- The tokens with rounds of their own end nothing, except for the question mark and `in`.
  all_goals try (rename_i is; rw [is] at own; cases own)
  · rename_i is
    rw [is, TokenKind.endsAt, decide_eq_true_eq] at own
    rw [if_pos own]
    exact done
  · rw [if_neg Bool.false_ne_true]
    exact round
  · exact round

/-- The name behind the dot of a member access. -/
theorem reads_memberAccess {origin : Origin} {object found : Expr} {link : ChainLink} {name : String}
    (named : IsMemberName name) (same : object.IsSame found) :
    Reads tape (memberAccess found link) (.ofName name :: ahead) ahead
      (Expr.IsSame ⟨origin, .member link object name⟩) := by
  refine Reads.take.bind fun token own => ?_
  have isName : token.kind.isMemberName = true := by
    rw [own.kind, Lexeme.kind_ofName]
    exact named.1
  rw [isName]
  refine .pure (.of_shape ?_)
  simp only [Expr.of, Shape.unlocated_member, same.eq, own.text, Lexeme.ofName]

/-- The key behind the bracket of a member access. -/
theorem rereads_computedAccess {origin : Origin} {object key found : Expr} {link : ChainLink}
    {lexemes : List Lexeme} (same : object.IsSame found)
    (isKey : Reads tape ((grammar depth).expr {} Precedence.comma [.symbol .bracketClose])
      (lexemes ++ .ofSymbol .bracketClose :: ahead) (.ofSymbol .bracketClose :: ahead) key.IsSame) :
    Reads tape ((grammar depth).computedAccess {} found link)
      (lexemes ++ .ofSymbol .bracketClose :: ahead) ahead
      (Expr.IsSame ⟨origin, .computed link object key⟩) := by
  refine isKey.bind fun key sameKey => Reaches.bind (Reads.require rfl) fun close _ => .pure (.of_shape ?_)
  simp only [Expr.of, Shape.unlocated_computed, same.eq, sameKey.eq]

/-- The arguments behind the parenthesis of a call. -/
theorem rereads_callSuffix {origin : Origin} {callee found : Expr} {link : ChainLink} {args : List Arg}
    {lexemes : List Lexeme} (same : callee.IsSame found)
    (areArgs : Reads tape ((grammar depth).arguments {}) lexemes ahead
      fun found => argsUnlocated found = argsUnlocated args) :
    Reads tape ((grammar depth).callSuffix {} found link) lexemes ahead
      (Expr.IsSame ⟨origin, .call link false callee args⟩) := by
  refine Reads.reading.bind fun reader holds => areArgs.bind fun args sameArgs =>
    Reads.lastEnd.bind fun stop _ => .pure (.of_shape ?_)
  simp only [Expr.of, Shape.unlocated_call, same.eq, sameArgs, holds.isPureAt, Bool.and_false]

/-- What stands behind the question mark of a conditional. -/
theorem rereads_condSuffix {origin : Origin} {test consequent alternate found : Expr}
    {lexemes : List Lexeme} (same : test.IsSame found)
    (isConsequent : Reads tape ((grammar depth).expr {} Precedence.assignment [.symbol .colon])
      lexemes (.ofSymbol .colon :: middle) consequent.IsSame)
    (isAlternate : Reads tape ((grammar depth).expr {} Precedence.assignment stops) middle ahead
      alternate.IsSame) :
    Reads tape ((grammar depth).condSuffix {} found stops) lexemes ahead
      (Expr.IsSame ⟨origin, .cond test consequent alternate⟩) := by
  refine isConsequent.bind fun consequent sameConsequent => Reads.symbol.bind fun _ _ =>
    isAlternate.bind fun alternate sameAlternate => .pure (.of_shape ?_)
  simp only [Expr.cond, Expr.of, Shape.unlocated_cond, same.eq, sameConsequent.eq, sameAlternate.eq]

/-- The value behind the operator of an assignment. -/
theorem rereads_assignSuffix {origin : Origin} {op : Operator} {left right found : Expr}
    {lexemes : List Lexeme} (isPlace : left.isPlace = true) (same : left.IsSame found)
    (isRight : Reads tape ((grammar depth).expr {} Precedence.assignment stops) lexemes ahead
      right.IsSame) :
    Reads tape ((grammar depth).assignSuffix {} found op stops) lexemes ahead
      (Expr.IsSame ⟨origin, .binary op left right⟩) := by
  unfold assignSuffix
  rw [Expr.toTarget_of_isPlace (same.isPlace.trans isPlace)]
  exact isRight.bind fun right sameRight => .pure (same.binary sameRight)

/-- Whether an operator is one that nullish coalescing cannot meet. -/
def isLogicalOperator (op : Operator) : Bool :=
  op == .logicalOr || op == .logicalAnd

/-- The parser and the printer agree on the level of the right operand. -/
theorem rightLevel_eq (op : Operator) :
    (if op.associativity = .left then op.precedence + 1 else op.precedence)
      = Printer.rightLevel op := by
  unfold Printer.rightLevel
  cases op.associativity <;> rfl

/-- The operand behind an operator that meets no nullish coalescing. -/
theorem reaches_binarySuffix {op : Operator} {found : Expr} {token : Token} {lexemes : List Lexeme}
    (plain : isLogicalOperator op = true → Precedence.logicalOr < level)
    (isRight : Reaches tape ((grammar depth).expr {} (Printer.rightLevel op) stops) lexemes
      fun right => goal (Expr.binary (found.span.cover right.span) op found right)) :
    Reaches tape ((grammar depth).binarySuffix {} found op token level stops) lexemes goal := by
  -- Both mixing checks read the level: a logical operator at a level above `||` passes the first,
  -- and is not asked to close the second.
  have early : (isLogicalOperator op && level == Precedence.nullish + 1) = false := by
    cases logical : isLogicalOperator op with
    | false => rfl
    | true =>
      have above : 6 < level := plain logical
      simp only [Bool.true_and, beq_eq_false_iff_ne, ne_eq, Precedence.nullish]
      omega
  have late : (isLogicalOperator op && decide (level ≤ Precedence.nullish)) = false := by
    cases logical : isLogicalOperator op with
    | false => rfl
    | true =>
      have above : 6 < level := plain logical
      simp only [Bool.true_and, decide_eq_false_iff_not, Precedence.nullish]
      omega
  rw [isLogicalOperator, Bool.or_comm] at early late
  unfold binarySuffix
  simp only [early, late, rightLevel_eq, Bool.false_eq_true, if_false]
  exact isRight.pack

/-- The operand behind a logical operator at the level where the right operand of nullish coalescing
is read: the operator is reported in front of it. -/
theorem reaches_ambiguousSuffix {op : Operator} {found : Expr} {token : Token}
    {lexemes : List Lexeme} (logical : isLogicalOperator op = true)
    (isRight : Reaches (tape.telling [⟨.ambiguousNullish op .nullishCoalescing, token.span⟩])
      ((grammar depth).expr {} (Printer.rightLevel op) stops) lexemes
      fun right => goal (Expr.binary (found.span.cover right.span) op found right)) :
    Reaches tape ((grammar depth).binarySuffix {} found op token (Precedence.nullish + 1) stops)
      lexemes goal := by
  have late : decide (Precedence.nullish + 1 ≤ Precedence.nullish) = false := by decide
  rw [isLogicalOperator, Bool.or_comm] at logical
  unfold binarySuffix
  simp only [logical, late, rightLevel_eq, beq_self_eq_true, Bool.true_and, Bool.false_eq_true,
    if_true, if_false]
  exact .report isRight.pack

/-- What is reported behind a logical operation: that nullish coalescing comes next, if it does. -/
def Meets (lexeme : Lexeme) (op : Operator) (told : List Report) : Prop :=
  if lexeme.kind = .symbol .questionQuestion then
    ∃ span, told = [⟨.ambiguousNullish .nullishCoalescing op, span⟩]
  else told = []

/-- The operand behind a logical operator and all that binds more tightly than the other logical
operator, behind which nullish coalescing is reported. -/
theorem reaches_logicalSuffix {origin : Origin} {op : Operator} {left right found : Expr}
    {token : Token} {lexemes : List Lexeme} {known : Expr → Prop}
    (logical : isLogicalOperator op = true) (loose : level ≤ Precedence.nullish)
    (same : left.IsSame found)
    (isRight : Reads tape ((grammar depth).expr {} (Printer.rightLevel op) stops) lexemes ahead
      right.IsSame)
    (enough : ahead.length < depth)
    (goesOn : ∀ joined, Expr.IsSame ⟨origin, .binary op left right⟩ joined →
      GoesOn tape (Precedence.logicalOr + 1) stops ⟨joined, false⟩ ahead
        (Lands tape (lexeme :: middle) known)) :
    Reaches tape ((grammar depth).binarySuffix {} found op token level stops) lexemes
      (Tells tape (lexeme :: middle) fun joined told => known joined ∧ Meets lexeme op told) := by
  have early : (level == Precedence.nullish + 1) = false := by
    rw [beq_eq_false_iff_ne]
    omega
  have late : decide (level ≤ Precedence.nullish) = true := decide_eq_true loose
  rw [isLogicalOperator, Bool.or_comm] at logical
  unfold binarySuffix
  simp only [logical, early, late, rightLevel_eq, Bool.true_and, Bool.false_eq_true, if_false,
    if_true]
  -- The level takes `??`, so after the right side the suffixes go on at the level of the logical
  -- operators, and only then is the next token checked against `??`.
  refine isRight.bind fun rightFound sameRight => ?_
  have suffix : Reads tape ((grammar depth).suffix {}
      (Expr.binary (found.span.cover rightFound.span) op found rightFound) (Precedence.logicalOr + 1) stops)
      ahead (lexeme :: middle) known := by
    cases depth with
    | zero => exact absurd enough (Nat.not_lt_zero _)
    | succ depth => exact Reaches.loop (goesOn _ (same.binary sameRight) depth (by omega))
  refine suffix.bind fun joined shown => Reads.peek.bind fun next own => ?_
  split
  · rename_i meets
    have pure : Reads (tape.telling [⟨.ambiguousNullish .nullishCoalescing op, next.span⟩])
        (Pure.pure joined) (lexeme :: middle) (lexeme :: middle) (· = joined) := .pure rfl
    refine .report (pure.imp fun _ _ ⟨there, same⟩ => ⟨_, there, same ▸ shown, ?_⟩)
    rw [Meets, if_pos (own.kind.symm.trans meets)]
    exact ⟨next.span, rfl⟩
  · rename_i apart
    have pure : Reads tape (Pure.pure joined) (lexeme :: middle) (lexeme :: middle) known :=
      .pure shown
    refine pure.silent.imp fun _ _ ⟨told, there, isNil, shown⟩ => ⟨told, there, shown, ?_⟩
    rw [Meets, if_neg fun same => apart (own.kind.trans same)]
    exact isNil

section Rounds

variable {origin : Origin} {link : ChainLink} {soFar : Partial}

/-- Behind an object comes the access of a member. -/
theorem GoesOn.member {object : Expr} {name : String} (admits : Admits level stops)
    (named : IsMemberName name) (same : object.IsSame soFar.left)
    (linked : link = .opens ∨ link = soFar.link)
    (later : ∀ found, Expr.IsSame ⟨origin, .member link object name⟩ found →
      GoesOn tape level stops ⟨found, link.isChained⟩ ahead goal) :
    GoesOn tape level stops soFar (.ofDot link :: .ofName name :: ahead) goal := by
  refine .again (fun depth _ => Reads.peek.bind fun token own => ?_)
    (by simp only [List.length_cons]; omega) later
  obtain ⟨found, inChain⟩ := soFar
  have access (link : ChainLink) : Reads tape (memberAccess found link) (.ofName name :: ahead) ahead
      (Expr.IsSame ⟨origin, .member link object name⟩) := reads_memberAccess named same
  rw [own.kind]
  -- The link is written with `?.` or with the sign the chain so far calls for; in either case the
  -- same access is read after the sign.
  rcases linked with rfl | rfl
  · rw [admits.contains rfl, if_neg Bool.false_ne_true]
    refine Reads.take.bind fun _ _ => Reads.peek.bind fun next isName => ?_
    have noSymbol : ¬(next.kind = .symbol .bracketOpen ∨ next.kind = .symbol .parenthesisOpen) := by
      have isName : next.kind.isMemberName = true := by
        rw [isName.kind, Lexeme.kind_ofName]
        exact named.1
      rintro (is | is) <;> rw [is] at isName <;> cases isName
    rw [if_neg noSymbol]
    exact (access .opens).bind fun _ shown => .pure ⟨shown, rfl⟩
  · cases inChain
    all_goals
      rw [admits.contains rfl, if_neg Bool.false_ne_true]
      exact Reads.take.bind fun _ _ => (access _).bind fun _ shown => .pure ⟨shown, rfl⟩

/-- Behind an object comes the access of a computed member. -/
theorem GoesOn.computed {object key : Expr} {lexemes : List Lexeme} (admits : Admits level stops)
    (same : object.IsSame soFar.left) (linked : link = .opens ∨ link = soFar.link)
    (isKey : ReadsExpr tape Precedence.comma [.symbol .bracketClose]
      (lexemes ++ .ofSymbol .bracketClose :: ahead) (.ofSymbol .bracketClose :: ahead) key.IsSame)
    (later : ∀ found, Expr.IsSame ⟨origin, .computed link object key⟩ found →
      GoesOn tape level stops ⟨found, link.isChained⟩ ahead goal) :
    GoesOn tape level stops soFar (.ofBracket link :: (lexemes ++ .ofSymbol .bracketClose :: ahead))
      goal := by
  refine .again (fun depth enough => Reads.peek.bind fun token own => ?_) (by simp; omega) later
  obtain ⟨found, inChain⟩ := soFar
  have access (link : ChainLink) : Reads tape ((grammar depth).computedAccess {} found link)
      (lexemes ++ .ofSymbol .bracketClose :: ahead) ahead
      (Expr.IsSame ⟨origin, .computed link object key⟩) :=
    rereads_computedAccess same (isKey.inner enough)
  rw [own.kind]
  -- An opening link or the link the chain so far calls for, as for a member.
  rcases linked with rfl | rfl
  · rw [admits.contains rfl, if_neg Bool.false_ne_true]
    exact Reads.take.bind fun _ _ => (access _).bind fun _ shown => .pure ⟨shown, rfl⟩
  · cases inChain
    all_goals
      rw [admits.contains rfl, if_neg Bool.false_ne_true]
      exact Reads.take.bind fun _ _ => (access _).bind fun _ shown => .pure ⟨shown, rfl⟩

/-- Behind a callee come the arguments of a call. -/
theorem GoesOn.call {callee : Expr} {args : List Arg} (admits : Admits level stops)
    (same : callee.IsSame soFar.left) (linked : link = .opens ∨ link = soFar.link)
    (areArgs : ReadsArgs tape args ahead)
    (later : ∀ found, Expr.IsSame ⟨origin, .call link false callee args⟩ found →
      GoesOn tape level stops ⟨found, link.isChained⟩ ahead goal) :
    GoesOn tape level stops soFar
      (.ofParenthesis link :: (argsLexemes args ++ .ofSymbol .parenthesisClose :: ahead)) goal := by
  refine .again (fun depth enough => Reads.peek.bind fun token own => ?_) (by simp; omega) later
  obtain ⟨found, inChain⟩ := soFar
  have suffix (link : ChainLink) : Reads tape ((grammar depth).callSuffix {} found link)
      (argsLexemes args ++ .ofSymbol .parenthesisClose :: ahead) ahead
      (Expr.IsSame ⟨origin, .call link false callee args⟩) :=
    rereads_callSuffix same (areArgs depth enough)
  rw [own.kind]
  -- An opening link or the link the chain so far calls for, as for a member.
  rcases linked with rfl | rfl
  · rw [admits.contains rfl, if_neg Bool.false_ne_true]
    exact Reads.take.bind fun _ _ => (suffix _).bind fun _ shown => .pure ⟨shown, rfl⟩
  · cases inChain
    all_goals
      rw [admits.contains rfl, if_neg Bool.false_ne_true]
      exact Reads.take.bind fun _ _ => (suffix _).bind fun _ shown => .pure ⟨shown, rfl⟩

/-- Behind a test come the two other parts of a conditional. -/
theorem GoesOn.cond {test consequent alternate : Expr} {lexemes : List Lexeme}
    (admits : Admits level stops) (loose : level ≤ Precedence.conditional)
    (same : test.IsSame soFar.left)
    (isConsequent : ReadsExpr tape Precedence.assignment [.symbol .colon] lexemes
      (.ofSymbol .colon :: middle) consequent.IsSame)
    (isAlternate : ReadsExpr tape Precedence.assignment stops middle ahead alternate.IsSame)
    (shorter : middle.length < lexemes.length) (passed : ahead.length ≤ middle.length)
    (later : ∀ found, Expr.IsSame ⟨origin, .cond test consequent alternate⟩ found →
      GoesOn tape level stops ⟨found, false⟩ ahead goal) :
    GoesOn tape level stops soFar (.ofSymbol .question :: lexemes) goal := by
  refine .again (fun depth enough => Reads.peek.bind fun token own => ?_)
    (by rw [List.length_cons]; omega) later
  rw [List.length_cons] at enough
  -- The question mark is not an end at this level, so the round takes it as a suffix.
  have goesOn : (Lexeme.ofSymbol .question).kind.endsAt level = false :=
    decide_eq_false (Nat.not_lt.mpr loose)
  rw [own.kind, admits.contains goesOn, if_neg Bool.false_ne_true]
  change Reads tape (if Precedence.conditional < level then _ else _) _ _ _
  rw [if_neg (Nat.not_lt.mpr loose)]
  refine Reads.take.bind fun _ _ => (rereads_condSuffix same (isConsequent.inner enough)
    (isAlternate.inner (by omega))).bind fun _ shown => .pure ⟨shown, rfl⟩

/-- Behind an operand comes an operator of its own. -/
theorem GoesOn.update {op : Operator} {operand : Expr} (admits : Admits level stops)
    (isTrailing : op.IsTrailing) (loose : level ≤ Precedence.update)
    (same : operand.IsSame soFar.left)
    (later : ∀ found, Expr.IsSame ⟨origin, .update op operand⟩ found →
      GoesOn tape level stops ⟨found, false⟩ ahead goal) :
    GoesOn tape level stops soFar (.ofOperator op :: ahead) goal := by
  refine .again (fun depth _ => Reads.peek.bind fun token own => ?_) (Nat.lt_succ_self _) later
  -- A trailing operator must stand on the operand's line, and the printer puts no line break there.
  have sameLine : token.afterLineBreak = false :=
    own.sameLine (by rcases isTrailing with rfl | rfl <;> decide)
  have bound : (token.afterLineBreak || decide (Precedence.update < level)) = false := by
    rw [sameLine, Bool.false_or]
    exact decide_eq_false (Nat.not_lt.mpr loose)
  have joined (span : Span) :
      Expr.IsSame ⟨origin, .update op operand⟩ (Expr.of span (.update op soFar.left)) :=
    .of_shape (by simp only [Expr.of, Shape.unlocated_update, same.eq])
  rcases isTrailing with rfl | rfl
  · have kind : (Lexeme.ofOperator .postfixIncrement).kind = .symbol .plusPlus := by decide
    rw [own.kind, kind, admits.contains rfl, if_neg Bool.false_ne_true]
    change Reads tape (if (_ || _) = true then _ else _) _ _ _
    rw [bound, if_neg Bool.false_ne_true]
    exact Reads.take.bind fun _ _ => .pure ⟨joined _, rfl⟩
  · have kind : (Lexeme.ofOperator .postfixDecrement).kind = .symbol .hyphenHyphen := by decide
    rw [own.kind, kind, admits.contains rfl, if_neg Bool.false_ne_true]
    change Reads tape (if (_ || _) = true then _ else _) _ _ _
    rw [bound, if_neg Bool.false_ne_true]
    exact Reads.take.bind fun _ _ => .pure ⟨joined _, rfl⟩

variable {op : Operator} {left right : Expr} {lexemes : List Lexeme}

/-- Behind a place comes an assignment to it. -/
theorem GoesOn.assign (admits : Admits level stops) (assigns : op.isAssignment = true)
    (loose : level ≤ Precedence.assignment) (isPlace : left.isPlace = true)
    (same : left.IsSame soFar.left)
    (isRight : ReadsExpr tape Precedence.assignment stops lexemes ahead right.IsSame)
    (passed : ahead.length ≤ lexemes.length)
    (later : ∀ found, Expr.IsSame ⟨origin, .binary op left right⟩ found →
      GoesOn tape level stops ⟨found, false⟩ ahead goal) :
    GoesOn tape level stops soFar (.ofOperator op :: lexemes) goal := by
  -- The assignments share one level, whatever their operator.
  have level_eq : op.precedence = Precedence.assignment := by
    cases op <;> first | rfl | cases assigns
  refine .again (fun depth enough => reads_infix
    (Operator.isInfix_of_isAssignment assigns).kind (level_eq ▸ loose) admits fun token own => ?_)
    (by rw [List.length_cons]; omega) later
  rw [List.length_cons] at enough
  rw [if_pos assigns]
  exact rereads_assignSuffix isPlace same (isRight.inner enough)

/-- Behind an operand comes an operator that is read like any other, and another operand. -/
theorem GoesOn.binary (admits : Admits level stops) (isInfix : op.IsInfix)
    (noAssign : op.isAssignment = false) (tight : level ≤ op.precedence)
    (plain : isLogicalOperator op = true → Precedence.logicalOr < level)
    (same : left.IsSame soFar.left)
    (isRight : ReadsExpr tape (Printer.rightLevel op) stops lexemes ahead right.IsSame)
    (passed : ahead.length ≤ lexemes.length)
    (later : ∀ found, Expr.IsSame ⟨origin, .binary op left right⟩ found →
      GoesOn tape level stops ⟨found, false⟩ ahead goal) :
    GoesOn tape level stops soFar (.ofOperator op :: lexemes) goal := by
  -- The operator binds at least as tightly as the level, so the round takes it.
  refine .again (fun depth enough => reads_infix isInfix.kind tight admits fun token own => ?_)
    (by rw [List.length_cons]; omega) later
  rw [List.length_cons] at enough
  rw [noAssign, if_neg Bool.false_ne_true]
  exact reaches_binarySuffix plain ((isRight.inner enough).imp fun _ _ ⟨there, sameRight⟩ =>
    ⟨there, same.binary sameRight⟩)

/-- The right operand of the operator may itself report something. -/
theorem GoesOn.binary_tells {told : List Report → Prop} (admits : Admits level stops)
    (isInfix : op.IsInfix) (noAssign : op.isAssignment = false) (tight : level ≤ op.precedence)
    (plain : isLogicalOperator op = true → Precedence.logicalOr < level)
    (same : left.IsSame soFar.left)
    (isRight : ReachesExpr tape (Printer.rightLevel op) stops lexemes
      (Tells tape ahead fun found reports => right.IsSame found ∧ told reports))
    (passed : ahead.length ≤ lexemes.length)
    (later : ∀ reports, told reports → ∀ found, Expr.IsSame ⟨origin, .binary op left right⟩ found →
      GoesOn (tape.telling reports) level stops ⟨found, false⟩ ahead goal) :
    GoesOn tape level stops soFar (.ofOperator op :: lexemes) goal := by
  refine .tells (fun depth enough => reaches_infix isInfix.kind tight admits fun token own => ?_)
    (by rw [List.length_cons]; omega)
    fun found reports (shown : Expr.IsSame ⟨origin, .binary op left right⟩ found ∧ told reports) =>
      later reports shown.2 found shown.1
  rw [List.length_cons] at enough
  -- The operand on the right is read a level further in.
  rw [noAssign, if_neg Bool.false_ne_true]
  exact reaches_binarySuffix plain ((isRight.inner enough).imp
    fun _ _ ⟨reports, there, sameRight, shown⟩ =>
      ⟨reports, there, ⟨same.binary sameRight, shown⟩, rfl⟩)

/-- The logical operators are two infix operators, and both bind more tightly than `??`. -/
theorem isInfix_of_isLogical (logical : isLogicalOperator op = true) :
    op.IsInfix ∧ op.isAssignment = false ∧ Precedence.nullish < op.precedence := by
  rcases (Bool.or_eq_true _ _).mp logical with is | is
  · rw [beq_iff_eq.mp is]
    exact ⟨⟨.symbol .barBar, rfl⟩, rfl, by decide⟩
  · rw [beq_iff_eq.mp is]
    exact ⟨⟨.symbol .ampersandAmpersand, rfl⟩, rfl, by decide⟩

/-- Where the right operand of nullish coalescing is read a logical operator is reported. -/
theorem GoesOn.ambiguous (admits : Admits (Precedence.nullish + 1) stops)
    (logical : isLogicalOperator op = true) (same : left.IsSame soFar.left)
    (isRight : ∀ reports, ReadsExpr (tape.telling reports) (Printer.rightLevel op) stops lexemes ahead
      right.IsSame)
    (passed : ahead.length ≤ lexemes.length)
    (later : ∀ span found, Expr.IsSame ⟨origin, .binary op left right⟩ found →
      GoesOn (tape.telling [⟨.ambiguousNullish op .nullishCoalescing, span⟩])
        (Precedence.nullish + 1) stops ⟨found, false⟩ ahead goal) :
    GoesOn tape (Precedence.nullish + 1) stops soFar (.ofOperator op :: lexemes) goal := by
  obtain ⟨isInfix, noAssign, tight⟩ := isInfix_of_isLogical logical
  -- The report names the operator and the place of its token, which no later step changes.
  have goesOn : ∀ found reports, (Expr.IsSame ⟨origin, .binary op left right⟩ found
      ∧ ∃ span, reports = [⟨.ambiguousNullish op .nullishCoalescing, span⟩]) →
      GoesOn (tape.telling reports) (Precedence.nullish + 1) stops ⟨found, false⟩ ahead goal := by
    rintro found _ ⟨isSame, span, rfl⟩
    exact later span found isSame
  refine .tells (fun depth enough => reaches_infix isInfix.kind tight admits fun token own => ?_)
    (by rw [List.length_cons]; omega) goesOn
  rw [List.length_cons] at enough
  rw [noAssign, if_neg Bool.false_ne_true]
  exact reaches_ambiguousSuffix logical (((isRight _).inner enough).imp
    fun _ _ ⟨there, sameRight⟩ => ⟨_, there, ⟨same.binary sameRight, token.span, rfl⟩, rfl⟩)

/-- Behind an operand come a logical operator and another operand, behind which the tighter logical
operator may go on. Nullish coalescing behind all of them is reported. -/
theorem GoesOn.logical_tells {known : Expr → Prop} (admits : Admits level stops)
    (logical : isLogicalOperator op = true) (loose : level ≤ Precedence.nullish)
    (same : left.IsSame soFar.left)
    (isRight : ReadsExpr tape (Printer.rightLevel op) stops lexemes ahead right.IsSame)
    (passed : ahead.length ≤ lexemes.length)
    (goesOn : ∀ joined, Expr.IsSame ⟨origin, .binary op left right⟩ joined →
      GoesOn tape (Precedence.logicalOr + 1) stops ⟨joined, false⟩ ahead
        (Lands tape (lexeme :: middle) known))
    (ends : (lexeme :: middle).length ≤ ahead.length)
    (later : ∀ told, Meets lexeme op told → ∀ found, known found →
      GoesOn (tape.telling told) level stops ⟨found, false⟩ (lexeme :: middle) goal) :
    GoesOn tape level stops soFar (.ofOperator op :: lexemes) goal := by
  obtain ⟨isInfix, noAssign, tight⟩ := isInfix_of_isLogical logical
  refine .tells (fun depth enough => reaches_infix isInfix.kind (loose.trans tight.le) admits
    fun token own => ?_) (Nat.lt_succ_of_le (ends.trans passed))
    fun found told (shown : known found ∧ Meets lexeme op told) => later told shown.2 found shown.1
  rw [List.length_cons] at enough
  -- Behind a logical operator the parser looks ahead for one it does not mix with.
  rw [noAssign, if_neg Bool.false_ne_true]
  exact (reaches_logicalSuffix logical loose same (isRight.inner enough) (by omega) goesOn).imp
    fun _ _ ⟨told, there, shown⟩ => ⟨told, there, shown, rfl⟩

/-- The same where no nullish coalescing follows. -/
theorem GoesOn.logical {known : Expr → Prop} (admits : Admits level stops)
    (logical : isLogicalOperator op = true) (loose : level ≤ Precedence.nullish)
    (same : left.IsSame soFar.left)
    (isRight : ReadsExpr tape (Printer.rightLevel op) stops lexemes ahead right.IsSame)
    (passed : ahead.length ≤ lexemes.length)
    (goesOn : ∀ joined, Expr.IsSame ⟨origin, .binary op left right⟩ joined →
      GoesOn tape (Precedence.logicalOr + 1) stops ⟨joined, false⟩ ahead
        (Lands tape (lexeme :: middle) known))
    (apart : lexeme.kind ≠ .symbol .questionQuestion)
    (ends : (lexeme :: middle).length ≤ ahead.length)
    (later : ∀ found, known found →
      GoesOn tape level stops ⟨found, false⟩ (lexeme :: middle) goal) :
    GoesOn tape level stops soFar (.ofOperator op :: lexemes) goal := by
  refine .logical_tells admits logical loose same isRight passed goesOn ends
    fun told meets found shown => ?_
  rw [Meets, if_neg apart] at meets
  rw [meets, Tape.telling_nil]
  exact later found shown

end Rounds

end Parser

end Downlevel
