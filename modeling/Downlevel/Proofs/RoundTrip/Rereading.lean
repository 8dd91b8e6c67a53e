import Downlevel.Proofs.RoundTrip.Elements
import Downlevel.Proofs.RoundTrip.Levels
import Downlevel.Proofs.RoundTrip.Printed

/-! What it means that the tokens of an expression are read as that expression again. -/

namespace Downlevel.Parser

open Grammar Lexeme Printer

variable {tape : Tape} {e : Expr} {printed level depth : Nat} {stops : List TokenKind}
  {ahead after middle : List Lexeme} {goal : Expr → Reader → Prop}

/-- What the parser does behind an expression that it found: it goes on at the level. Behind a logical
operation that could meet nullish coalescing it first goes on with what binds more tightly. -/
inductive Follows (tape : Tape) (level : Nat) (stops : List TokenKind) (e : Expr)
    (ahead : List Lexeme) (goal : Expr → Reader → Prop) : Prop
  | plain (apart : isLogical e = true → Precedence.nullish < level)
    (goesOn : ∀ found, e.IsSame found →
      GoesOn tape level stops ⟨found, e.isChained⟩ ahead goal)
  | logical {lexeme : Lexeme} {middle : List Lexeme} {known : Expr → Prop}
    (logical : isLogical e = true) (loose : level ≤ Precedence.nullish)
    (tight : ∀ found, e.IsSame found →
      GoesOn tape (Precedence.logicalOr + 1) stops ⟨found, false⟩ ahead
        (Lands tape (lexeme :: middle) known))
    (apart : lexeme.kind ≠ .symbol .questionQuestion)
    (passed : (lexeme :: middle).length ≤ ahead.length)
    (goesOn : ∀ found, known found →
      GoesOn tape level stops ⟨found, false⟩ (lexeme :: middle) goal)

/-- The expression is read again where it is printed without parentheses. -/
def RereadsBare (tape : Tape) (e : Expr) : Prop :=
  ∀ level stops ahead goal, ahead ≠ [] → e.FitsAt level → Admits level stops →
    e.shape.IsClosedBy ahead → Follows tape level stops e ahead goal →
    ReachesExpr tape level stops (shapeLexemes e.shape ++ ahead) goal

/-- The tokens are read as the expression by the rule for operands. -/
def RereadsOperand (tape : Tape) (e : Expr) (lexemes : List Lexeme) : Prop :=
  ∀ stops ahead depth, ahead ≠ [] → (lexemes ++ ahead).length ≤ depth →
    Reads tape ((grammar depth).operandRule {} stops) (lexemes ++ ahead) ahead e.IsSame

/-- The expression in parentheses is read again. -/
def RereadsGroup (tape : Tape) (e : Expr) : Prop :=
  RereadsOperand tape e
    (ofSymbol .parenthesisOpen :: (shapeLexemes e.shape ++ [ofSymbol .parenthesisClose]))

/-- An assignment is no logical operation. -/
theorem isLogical_of_isAssignment {origin : Origin} {op : Operator} {left right : Expr}
    (assigns : op.isAssignment = true) : isLogical ⟨origin, .binary op left right⟩ = false := by
  cases op <;> first | rfl | cases assigns

/-- A logical operation is never chained. -/
theorem isChained_of_isLogical (logical : isLogical e = true) : e.isChained = false := by
  obtain ⟨origin, shape⟩ := e
  cases shape <;> first | rfl | cases logical

/-- Where no logical operator and no nullish coalescing comes next, the parser goes on as it would
behind any expression. -/
theorem Follows.of_ends {lexeme : Lexeme} {rest : List Lexeme}
    (ends : isLogical e = true → level ≤ Precedence.nullish →
      lexeme.kind.endsAt (Precedence.logicalOr + 1) = true ∧ lexeme.kind ≠ .symbol .questionQuestion)
    (goesOn : ∀ found, e.IsSame found →
      GoesOn tape level stops ⟨found, e.isChained⟩ (lexeme :: rest) goal) :
    Follows tape level stops e (lexeme :: rest) goal := by
  -- A logical operand read at a level that still takes `??` must be closed before the operator is
  -- looked at; everything else goes on plainly.
  by_cases meets : isLogical e = true ∧ level ≤ Precedence.nullish
  · obtain ⟨logical, loose⟩ := meets
    obtain ⟨tight, apart⟩ := ends logical loose
    have isEnd (found : Expr) (same : e.IsSame found) : GoesOn tape (Precedence.logicalOr + 1) stops
        ⟨found, false⟩ (lexeme :: rest) (Lands tape (lexeme :: rest) e.IsSame) :=
      .done ⟨_, _, rfl, tight⟩ same
    refine .logical logical loose isEnd apart (Nat.le_refl _) fun found same => ?_
    have next := goesOn found same
    rwa [isChained_of_isLogical logical] at next
  · exact .plain (fun logical => Nat.lt_of_not_le fun loose => meets ⟨logical, loose⟩) goesOn

/-- Where the expression ends there is nothing to go on with. -/
theorem Follows.done (ends : Ends level ahead) :
    Follows tape level stops e ahead (Lands tape ahead e.IsSame) := by
  obtain ⟨lexeme, rest, rfl, own⟩ := ends
  refine .of_ends (fun _ loose => ⟨TokenKind.endsAt_mono (loose.trans (by decide)) own, ?_⟩)
    fun found same => .done ⟨_, _, rfl, own⟩ same
  intro nullish
  rw [nullish] at own
  exact absurd (TokenKind.loose_of_endsAt own rfl) (Nat.not_lt_of_ge loose)

/-- The same holds behind an expression that holds together tightly. -/
theorem Follows.of_tight (tight : Precedence.update ≤ e.shape.level)
    (goesOn : ∀ found, e.IsSame found →
      GoesOn tape level stops ⟨found, e.isChained⟩ ahead goal) :
    Follows tape level stops e ahead goal := by
  refine .plain (fun logical => ?_) goesOn
  rw [Expr.IsOperation.not_logical (Nat.lt_of_lt_of_le (by decide) tight)] at logical
  cases logical

/-- What is behind an expression that is not logical. -/
theorem Follows.goesOn (follows : Follows tape level stops e ahead goal)
    (noLogical : isLogical e = false) {found : Expr} (same : e.IsSame found) :
    GoesOn tape level stops ⟨found, e.isChained⟩ ahead goal := by
  cases follows with
  | plain _ goesOn => exact goesOn found same
  | logical logical => exact absurd logical (by simp [noLogical])

/-- An operand is read, and then what follows it. -/
theorem RereadsOperand.readsExpr {lexemes : List Lexeme}
    (operand : RereadsOperand tape e lexemes) (nonempty : ahead ≠ [])
    (goesOn : ∀ found, e.IsSame found →
      GoesOn tape level stops ⟨found, false⟩ ahead goal) :
    ReachesExpr tape level stops (lexemes ++ ahead) goal := by
  intro depth enough
  refine (operand stops ahead depth nonempty enough).bind fun found same => Reaches.loop ?_
  refine goesOn found same depth ?_
  rw [List.length_append] at enough
  omega

/-- An operand that is no access or call is read again. -/
theorem RereadsOperand.bare (operand : RereadsOperand tape e (shapeLexemes e.shape))
    (noLogical : isLogical e = false) (noChain : e.isChained = false) : RereadsBare tape e := by
  intro level stops ahead goal nonempty _ _ _ follows
  refine operand.readsExpr nonempty fun found same => ?_
  have goesOn := follows.goesOn noLogical same
  rwa [noChain] at goesOn

/-- An expression is read again as it was printed, and then what follows it. -/
theorem readsExpr_printed (bare : RereadsBare tape e) (group : RereadsGroup tape e)
    (nonempty : ahead ≠ []) (admits : Admits level stops)
    (whenBare : printed ≤ e.shape.level → e.FitsAt level ∧ e.shape.IsClosedBy ahead
      ∧ Follows tape level stops e ahead goal)
    (whenGrouped : e.shape.level < printed → ∀ found, e.IsSame found →
      GoesOn tape level stops ⟨found, false⟩ ahead goal) :
    ReachesExpr tape level stops (exprLexemes printed e ++ ahead) goal := by
  obtain ⟨origin, shape⟩ := e
  rw [exprLexemes]
  -- The printer decides on the parentheses by comparing the levels; the reader meets the operand
  -- bare or as a group.
  split
  · rename_i loose
    exact group.readsExpr nonempty (whenGrouped loose)
  · rename_i tight
    obtain ⟨fits, closed, follows⟩ := whenBare (Nat.le_of_not_lt tight)
    exact bare level stops ahead goal nonempty fits admits closed follows

/-- An expression without parentheses is read again up to where it ends. -/
theorem RereadsBare.readsExpr (bare : RereadsBare tape e) (isOperation : e.IsOperation)
    (fits : e.FitsAt level) (admits : Admits level stops) (ends : Ends level ahead) :
    ReadsExpr tape level stops (shapeLexemes e.shape ++ ahead) ahead e.IsSame := by
  have closed := isOperation.closed_of_ends fits ends
  obtain ⟨lexeme, rest, rfl, own⟩ := id ends
  exact bare level stops _ _ (List.cons_ne_nil _ _) fits admits closed (.done ends)

/-- An expression is read again up to where it ends. -/
theorem rereads (isOperation : e.IsOperation) (bare : RereadsBare tape e)
    (group : RereadsGroup tape e) (fits : printed ≤ e.shape.level → e.FitsAt level) :
    Rereads tape e printed level := by
  intro stops ahead admits ends
  obtain ⟨lexeme, rest, rfl, own⟩ := id ends
  refine readsExpr_printed bare group (List.cons_ne_nil _ _) admits (fun tight => ?_)
    fun _ found same => .done ends same
  exact ⟨fits tight, isOperation.closed_of_ends (fits tight) ends, .done ends⟩

section Targets

variable {origin : Origin} {link : ChainLink} {object : Expr} {dotFollows : Bool}

/-- An operand that holds together tightly can be read where an expression around it can. -/
theorem fitsAt_target (fits : e.FitsAt level) (tight : Precedence.update ≤ object.shape.level) :
    object.FitsAt level where
  tight := (fits.bound.trans (by decide)).trans tight
  bound := fits.bound
  other := fits.other
  apart := fun _ => Expr.IsOperation.not_logical (Nat.lt_of_lt_of_le (by decide) tight)

/-- Without parentheses around its object a link is read as it was printed. -/
theorem link_bare (linked : link = .continues → object.isChained = true)
    (bare : targetLevel link dotFollows object ≤ object.shape.level) (found : Expr) :
    link = .opens ∨ link = (⟨found, object.isChained⟩ : Partial).link := by
  -- Without a link of its own the access continues no chain: a chained object would have been
  -- printed in parentheses, as its level is below every bound.
  cases link with
  | opens => exact .inl rfl
  | continues =>
    rw [linked rfl]
    exact .inr rfl
  | plain =>
    cases chained : object.isChained with
    | false => exact .inr rfl
    | true =>
      unfold targetLevel at bare
      rw [chained] at bare
      exact absurd bare (Nat.not_le_of_lt (level_lt_always _))

/-- With parentheses around its object a link is no part of the chain inside. -/
theorem link_grouped (linked : link = .continues → object.isChained = true)
    (grouped : object.shape.level < targetLevel link dotFollows object) (found : Expr) :
    link = .opens ∨ link = (⟨found, false⟩ : Partial).link := by
  cases link with
  | opens => exact .inl rfl
  | plain => exact .inr rfl
  | continues =>
    have chained := linked rfl
    -- A chained object is an access or a call, and these are never put in parentheses in a chain
    -- that continues.
    obtain ⟨place, shape⟩ := object
    cases shape
    all_goals first
      | exact absurd chained Bool.false_ne_true
      | cases dotFollows <;> exact absurd grouped (Nat.not_lt_of_ge (Nat.le_of_ble_eq_true rfl))

/-- The object of an access or call is read, and then what follows it. -/
theorem readsExpr_target (isObject : object.IsOperation) (bare : RereadsBare tape object)
    (group : RereadsGroup tape object) (linked : link = .continues → object.isChained = true)
    (nonempty : ahead ≠ []) (fits : e.FitsAt level) (admits : Admits level stops)
    (goesOn : ∀ soFar : Partial, object.IsSame soFar.left → link = .opens ∨ link = soFar.link →
      GoesOn tape level stops soFar ahead goal) :
    ReachesExpr tape level stops (exprLexemes (targetLevel link dotFollows object) object ++ ahead)
      goal := by
  refine readsExpr_printed bare group nonempty admits (fun isBare => ?_) fun isGrouped found same =>
    goesOn _ same (link_grouped linked isGrouped found)
  -- Bare, the object binds as tightly as an update; grouped, the chain is closed by the
  -- parenthesis.
  have tight := (update_le_targetLevel link dotFollows object).trans isBare
  exact ⟨fitsAt_target fits tight, isObject.closed_of_tight tight _, .of_tight tight
    fun found same => goesOn _ same (link_bare linked isBare found)⟩

/-- A member access is reread if its object is. -/
theorem bare_member {name : String} (isObject : object.IsOperation)
    (bare : RereadsBare tape object) (group : RereadsGroup tape object)
    (named : IsMemberName name) (linked : link = .continues → object.isChained = true) :
    RereadsBare tape ⟨origin, .member link object name⟩ := by
  intro level stops ahead goal nonempty fits admits _ follows
  rw [shapeLexemes_member, List.append_assoc]
  exact readsExpr_target isObject bare group linked (List.cons_ne_nil _ _) fits admits
    fun soFar same goesOn => .member admits named same goesOn fun found same =>
      follows.goesOn rfl same

/-- A computed access is reread if its object and its key are. -/
theorem bare_computed {key : Expr} (isObject : object.IsOperation)
    (bare : RereadsBare tape object) (group : RereadsGroup tape object)
    (isKey : Rereads tape key Precedence.comma Precedence.comma)
    (linked : link = .continues → object.isChained = true) :
    RereadsBare tape ⟨origin, .computed link object key⟩ := by
  intro level stops ahead goal nonempty fits admits _ follows
  rw [shapeLexemes_computed, List.append_assoc, List.cons_append, List.append_assoc]
  exact readsExpr_target isObject bare group linked (List.cons_ne_nil _ _) fits admits
    fun soFar same goesOn => .computed admits same goesOn
      (isKey _ _ (by decide) ⟨_, _, rfl, rfl⟩) fun found same => follows.goesOn rfl same

/-- A call is reread if its callee and its arguments are. -/
theorem bare_call {args : List Arg} (isObject : object.IsOperation)
    (bare : RereadsBare tape object) (group : RereadsGroup tape object)
    (areArgs : ∀ arg ∈ args, RereadsElement tape arg.value)
    (linked : link = .continues → object.isChained = true) :
    RereadsBare tape ⟨origin, .call link false object args⟩ := by
  intro level stops ahead goal nonempty fits admits _ follows
  rw [shapeLexemes_call, List.append_assoc, List.cons_append, List.append_assoc]
  exact readsExpr_target isObject bare group linked (List.cons_ne_nil _ _) fits admits
    fun soFar same goesOn => .call admits same goesOn (rereads_arguments areArgs)
      fun found same => follows.goesOn rfl same

end Targets

section Operations

variable {origin : Origin} {op : Operator} {left right operand : Expr}

/-- An operator behind its operand is reread if the operand is. -/
theorem bare_update (isTrailing : op.IsTrailing) (isOperand : operand.IsOperation)
    (bare : RereadsBare tape operand) (group : RereadsGroup tape operand) :
    RereadsBare tape ⟨origin, .update op operand⟩ := by
  intro level stops ahead goal nonempty fits admits _ follows
  -- The operator comes after the operand: read the operand, then go on with the operator.
  have loose : level ≤ Precedence.update := fits.bound.trans (by decide)
  have goesOn (soFar : Partial) (same : operand.IsSame soFar.left) :
      GoesOn tape level stops soFar (ofOperator op :: ahead) goal :=
    .update admits isTrailing loose same fun found same => follows.goesOn rfl same
  rw [shapeLexemes_update, List.append_assoc]
  refine readsExpr_printed bare group (List.cons_ne_nil _ _) admits (fun tight => ?_)
    fun _ found same => goesOn _ same
  exact ⟨fitsAt_target fits tight, isOperand.closed_of_tight tight _, .of_tight tight
    fun found same => goesOn _ same⟩

/-- A conditional is reread if its three parts are. -/
theorem bare_cond {test consequent alternate : Expr} (isTest : test.IsOperation)
    (bare : RereadsBare tape test) (group : RereadsGroup tape test)
    (isConsequent : Rereads tape consequent Precedence.assignment Precedence.assignment)
    (isAlternate : Rereads tape alternate Precedence.assignment Precedence.assignment) :
    RereadsBare tape ⟨origin, .cond test consequent alternate⟩ := by
  intro level stops ahead goal nonempty fits admits closed follows
  -- A conditional is read at its own level or below, and not at the level of an assignment's
  -- target, so the bounds on the level also hold for its branches.
  have loose : level ≤ Precedence.conditional := fits.tight
  have looser : level ≤ Precedence.assignment :=
    Nat.le_of_lt_succ (lt_of_le_of_ne loose fits.other)
  have ends : Ends Precedence.assignment ahead := closed _ rfl
  have goesOn (soFar : Partial) (same : test.IsSame soFar.left) :
      GoesOn tape level stops soFar (ofSymbol .question
        :: (exprLexemes Precedence.assignment consequent ++ ofSymbol .colon
          :: (exprLexemes Precedence.assignment alternate ++ ahead))) goal :=
    .cond admits loose same (isConsequent _ _ (by decide) ⟨_, _, rfl, rfl⟩)
      (isAlternate _ ahead (admits.mono looser) ends) (by simp; omega) (by simp)
      fun found same => follows.goesOn rfl same
  rw [shapeLexemes_cond, List.append_assoc, List.cons_append, List.append_assoc, List.cons_append]
  refine readsExpr_printed bare group (List.cons_ne_nil _ _) admits (fun tight => ?_)
    fun _ found same => goesOn _ same
  -- The test is one level tighter than the conditional and inherits its other bounds.
  have fitsTest : test.FitsAt level := {
    tight := (loose.trans (Nat.le_succ _)).trans tight
    bound := fits.bound
    other := fits.other
    apart := fun same => absurd loose (by rw [same]; decide) }
  refine ⟨fitsTest, isTest.closed_test tight _, .of_ends (fun _ _ => ⟨rfl, by simp [ofSymbol]⟩)
    fun found same => goesOn _ same⟩

/-- An assignment is reread if its sides are. -/
theorem bare_assign (assigns : op.isAssignment = true) (isPlace : left.isPlace = true)
    (isLeft : left.IsOperation) (bare : RereadsBare tape left) (group : RereadsGroup tape left)
    (isRight : Rereads tape right (rightOperandLevel op right) Precedence.assignment) :
    RereadsBare tape ⟨origin, .binary op left right⟩ := by
  intro level stops ahead goal nonempty fits admits closed follows
  rw [← Operator.rightLevel_of_isAssignment assigns] at isRight
  have ends : Ends (rightLevel op) ahead := closed _ rfl
  -- The right side is read at the operator's own right level, which is at least the level of the
  -- whole.
  have loose : level ≤ rightLevel op := fits.tight.trans (Operator.precedence_le_rightLevel op)
  have value := isRight stops ahead (admits.mono loose) ends
  rw [Operator.rightLevel_of_isAssignment assigns] at loose value
  have goesOn (soFar : Partial) (same : left.IsSame soFar.left) :
      GoesOn tape level stops soFar (ofOperator op
        :: (exprLexemes (rightOperandLevel op right) right ++ ahead)) goal :=
    .assign admits assigns loose isPlace same value (by simp) fun found same =>
      follows.goesOn (isLogical_of_isAssignment assigns) same
  rw [shapeLexemes_binary, List.append_assoc, List.cons_append]
  refine readsExpr_printed bare group (List.cons_ne_nil _ _) admits (fun _ => ?_)
    fun _ found same => goesOn _ same
  -- The target is a place, and places bind as tightly as an update, so it is printed bare.
  have tight : Precedence.update ≤ left.shape.level := by
    obtain ⟨place, shape⟩ := left
    cases shape <;> first | exact Nat.le_of_ble_eq_true rfl | cases isPlace
  exact ⟨fitsAt_target fits tight, isLeft.closed_of_tight tight _, .of_tight tight
    fun found same => goesOn _ same⟩

/-- An operator between operands is reread if both are. -/
theorem bare_binary (isInfix : op.IsInfix) (noAssign : op.isAssignment = false)
    (isLeft : left.IsOperation) (bare : RereadsBare tape left) (group : RereadsGroup tape left)
    (isRight : Rereads tape right (rightOperandLevel op right) (rightLevel op)) :
    RereadsBare tape ⟨origin, .binary op left right⟩ := by
  intro level stops ahead goal nonempty fits admits closed follows
  have loose : level ≤ op.precedence := fits.tight
  have admitsRight := admits.mono (loose.trans (Operator.precedence_le_rightLevel op))
  have value := isRight stops ahead admitsRight (closed _ rfl)
  have passed : ahead.length ≤ (exprLexemes (rightOperandLevel op right) right ++ ahead).length := by
    simp
  have goesOn (soFar : Partial) (same : left.IsSame soFar.left) :
      GoesOn tape level stops soFar (ofOperator op
        :: (exprLexemes (rightOperandLevel op right) right ++ ahead)) goal := by
    cases follows with
    | plain apart goesOn =>
      refine .binary admits isInfix noAssign loose (fun logical => ?_) same value passed goesOn
      have other : level ≠ Precedence.nullish + 1 := by
        intro meets
        exact absurd logical (Bool.eq_false_iff.mp (fits.apart meets))
      exact lt_of_le_of_ne (apart logical) other.symm
    | logical logical loose tight apart fewer goesOn =>
      exact .logical admits logical loose same value passed tight apart fewer goesOn
  rw [shapeLexemes_binary, List.append_assoc, List.cons_append]
  refine readsExpr_printed bare group (List.cons_ne_nil _ _) admits (fun isBare => ?_)
    fun _ found same => goesOn _ same
  refine ⟨fits.left isInfix isBare, isInfix.closes_left noAssign isLeft isBare _, ?_⟩
  by_cases isAnd : op = .logicalAnd
  · subst isAnd
    -- The operators of a row of conjunctions are all read before a disjunction or what ends it.
    cases follows with
    | plain apart => exact .plain (fun _ => apart rfl) fun found same => goesOn _ same
    | logical _ loose tight apart fewer later =>
      by_cases logical : isLogical left = true
      · refine .logical logical loose (fun found same => ?_) apart (by simp at fewer ⊢; omega) later
        exact .binary (admits.mono (loose.trans (by decide))) isInfix noAssign (Nat.le_refl _)
          (fun _ => Nat.lt_succ_self _) same value passed tight
      · exact .plain (fun isLogical => absurd isLogical logical) fun found same => goesOn _ same
  · refine .of_ends (fun logical _ => ?_) fun found same => goesOn _ same
    obtain ⟨below, noNullish⟩ := isInfix.behind_logical isBare logical isAnd
    refine ⟨TokenKind.endsAt_of_lt isInfix.kind below, fun same => noNullish ?_⟩
    have found := isInfix.kind
    rw [same] at found
    exact (Option.some.inj found).symm

end Operations

end Downlevel.Parser
