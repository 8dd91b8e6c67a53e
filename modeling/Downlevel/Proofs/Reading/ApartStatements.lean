import Downlevel.Proofs.Reading.ApartExpressions
import Downlevel.Proofs.Reading.SettledStatements

/-! The regions of statements and whole programs start apart from one another in their text. -/

namespace Downlevel.Parser

open Lexer

variable {grammar : Grammar} {base : Reader} {here place : Cursor} {context : Context}
variable {stops : List TokenKind} {token : Token} {first : Nat}

/-- The regions of the statement that a parser gives start apart from one another, and the statement
itself starts no sooner than its text. -/
abbrev LaysStmt (base : Reader) (here : Cursor) (parser : Parser Stmt) : Prop :=
  Arrives base here parser fun stmt place =>
    here.offset ≤ stmt.span.start ∧ Apart here.offset place.offset (stmtRegions stmt)

/-- A statement starts with its first token. -/
theorem lays_statement {inner : Parser StmtShape}
    (lays : Arrives base here inner fun shape place =>
      ∀ stop, Apart here.offset place.offset (stmtShapeRegions ⟨startOf here, stop⟩ shape)) :
    LaysStmt base here (statement inner) :=
  .spannedThen lays fun stop _ _ apart => .pure ⟨offset_le_startOf here, apart stop⟩

section Modules

/-- A declaration starts behind the words that export it, or with them. -/
theorem arrives_exportWords :
    Arrives base here exportWords fun _ place =>
      here.offset ≤ place.offset ∧ startOf here ≤ startOf place := by
  refine (Settles.accept_past (by nofun)).bind fun isExported second later₁ => ?_
  -- Words that are not there take up no characters.
  cases isExported with
  | false =>
    obtain rfl : second = here := later₁.2.1 rfl
    exact .pure ⟨Nat.le_refl _, Nat.le_refl _⟩
  | true =>
    have later₁ := later₁.2.2 rfl
    have front := offset_le_startOf here
    refine (Settles.accept_past (by nofun)).bind fun isDefault third later₂ => .pure ?_
    have back := offset_le_startOf third
    omega

/-- The scopes of an import statement lie apart in the text that was taken for it. -/
theorem lays_importStmt : LaysStmt base here importStmt := by
  refine lays_statement ?_
  refine Settles.keyword.further.bind fun _ second later₁ => ?_
  refine .peek <| .ite (fun _ => ?_) fun _ => ?_
  · refine takes_moduleSpecifier.further.bind fun module third later₂ => ?_
    exact Settles.endStatement.onward.bind fun _ behind later₃ =>
      .pure fun _ => .none (by omega)
  · refine takes_importClause.further.bind fun clause third later₂ => ?_
    refine Settles.keyword.further.bind fun _ fourth later₃ => ?_
    refine takes_moduleSpecifier.further.bind fun module fifth later₄ => ?_
    exact Settles.endStatement.onward.bind fun _ behind later₅ =>
      .pure fun _ => .none (by omega)

/-- The scopes of an export without a declaration lie apart in the text that was taken for it. -/
theorem lays_exportListStmt : LaysStmt base here exportListStmt := by
  refine lays_statement ?_
  refine Settles.keyword.further.bind fun _ second later₁ => ?_
  refine lasts_exportNames.onward.bind fun names third later₂ => ?_
  refine lasts_exportSource.onward.bind fun module fourth later₃ => ?_
  exact Settles.endStatement.onward.bind fun _ behind later₄ => .pure fun _ => .none (by omega)

/-- The scopes of a jump out of a statement lie apart in the text that was taken for it. -/
theorem lays_breakStmt : LaysStmt base here breakStmt := by
  refine lays_statement <| Settles.keyword.further.bind fun _ second later₁ => ?_
  exact lasts_jumpLabel.onward.bind fun _ _ later₂ => .pure fun _ => .none (by omega)

/-- The scopes of a jump to the next round of a loop lie apart in the text that was taken for it. -/
theorem lays_continueStmt : LaysStmt base here continueStmt := by
  refine lays_statement <| Settles.keyword.further.bind fun _ second later₁ => ?_
  exact lasts_jumpLabel.onward.bind fun _ _ later₂ => .pure fun _ => .none (by omega)

/-- The scopes of a stop for the debugger lie apart in the text that was taken for it. -/
theorem lays_debuggerStmt : LaysStmt base here debuggerStmt := by
  refine lays_statement <| Settles.keyword.further.bind fun _ second later₁ => ?_
  exact Settles.endStatement.onward.bind fun _ _ later₂ => .pure fun _ => .none (by omega)

/-- The scopes of a lone semicolon lie apart in the text that was taken for it. -/
theorem lays_emptyStmt : LaysStmt base here emptyStmt :=
  lays_statement <| Settles.symbol.further.bind fun _ _ later =>
    .pure fun _ => .none (Nat.le_of_lt later)

end Modules

variable (parts : grammar.Lays)
include parts

section Declarations

/-- The scopes of a declarator whose pattern was read lie apart in the text that was taken for
it. -/
theorem lays_declaratorOf {pattern : Pattern}
    (soFar : Apart first here.offset (patternRegions pattern)) :
    Arrives base here (grammar.declaratorOf context pattern) fun declarator place =>
      Apart first place.offset (declaratorRegions declarator) :=
  (lays_initializer parts).bind fun _ _ apart => .pure (soFar.append apart)

/-- A round over declarators adds scopes behind those before. -/
theorem rounds_declarators {declarators : List Declarator}
    (soFar : Collected declaratorRegions first declarators here) :
    Arrives base here (grammar.declaratorRound context declarators)
      (Round.Known (Collected declaratorRegions first) (Collected declaratorRegions first)) := by
  refine (Settles.accept_past (by nofun)).bind fun isMore second later => ?_
  refine .ite (fun _ => .pure (soFar.upTo later.1)) fun _ => ?_
  refine parts.pattern.bind fun pattern third inPattern => ?_
  exact (lays_declaratorOf parts inPattern).bind fun declarator behind apart =>
    .pure (soFar.snoc (apart.since later.1))

/-- The scopes of declarators of which the first pattern was read lie apart in the text that was
taken for it. -/
theorem lays_declaratorsOf {pattern : Pattern}
    (soFar : Apart first here.offset (patternRegions pattern)) :
    Arrives base here (grammar.declaratorsOf context pattern) fun declarators place =>
      Apart first place.offset (declaratorsRegions declarators) := by
  refine (lays_declaratorOf parts soFar).bind fun declarator second apart => ?_
  have one : Collected declaratorRegions first [declarator] second := by
    rw [Collected, List.flatMap_singleton]
    exact apart
  have more : Arrives base second (loop (grammar.declaratorRound context) [declarator])
      (Collected declaratorRegions first) :=
    .cycle _ one fun declarators place soFar => rounds_declarators parts soFar
  exact more.weaken fun declarators place apart => by rw [declaratorsRegions_eq]; exact apart

/-- The scopes of a declaration of variables lie apart in the text that was taken for it. -/
theorem lays_varDecl : LaysStmt base here (grammar.varDecl context) := by
  refine lays_statement ?_
  refine (Settles.accept_past (by nofun)).bind fun isExported second later₁ => ?_
  refine takes_declKeyword.further.bind fun keyword third later₂ => ?_
  refine parts.pattern.bind fun pattern fourth inPattern => ?_
  refine (lays_declaratorsOf parts inPattern).bind fun declarators fifth apart => ?_
  exact Settles.endStatement.onward.bind fun _ behind later₃ =>
    .pure fun _ => apart.within (by omega) later₃

/-- The scopes of a declaration of a function lie apart in the text that was taken for it. -/
theorem lays_functionDecl : LaysStmt base here (grammar.functionDecl context) := by
  refine lays_statement ?_
  refine arrives_exportWords.bind fun exported second later₁ => ?_
  refine .peek <| takes_functionHead.further.bind fun head third later₂ => ?_
  refine settles_requireName.bind ?_
  rintro _ third rfl
  exact (lays_functionRest parts).bind fun func behind apart =>
    .pure fun _ => apart.since (by omega)

/-- The scopes of a declaration of a class lie apart in the text that was taken for it. -/
theorem lays_classDecl : LaysStmt base here (grammar.classDecl context) := by
  refine lays_statement ?_
  refine arrives_exportWords.bind fun exported second later => ?_
  refine .peek <| (arrives_classParts parts).bind ?_
  rintro ⟨name, heritage, members⟩ third apart
  refine settles_requireName.bind ?_
  rintro _ third rfl
  have apart : Apart (startOf here + 1) third.offset
      (optionRegions heritage ++ classMembersRegions members) := apart.since (by omega)
  exact .pure fun _ => apart.opens.since (offset_le_startOf here)

/-- The scopes of an expression as the default export lie apart in the text that was taken for
it. -/
theorem lays_exportDefault : LaysStmt base here (grammar.exportDefault context) := by
  refine lays_statement ?_
  refine Settles.keyword.further.bind fun _ second later₁ => ?_
  refine Settles.keyword.further.bind fun _ third later₂ => ?_
  refine parts.expr.bind fun value fourth apart => ?_
  exact Settles.endStatement.onward.bind fun _ behind later₃ =>
    .pure fun _ => apart.within (by omega) later₃

/-- The scopes of any statement that starts with the export keyword lie apart in the text that was
taken for it. -/
theorem lays_exportStmt : LaysStmt base here (grammar.exportStmt context) := by
  refine .peek3 fun ahead => ?_
  obtain ⟨first, second, third⟩ := ahead
  dsimp only
  -- The tokens behind `export` decide which statement it is.
  split
  case h_1 =>
    split
    · exact lays_functionDecl parts
    · exact lays_classDecl parts
    · refine settles_asyncFunctionExported fun isFunction => ?_
      exact .ite (fun _ => lays_functionDecl parts) fun _ => lays_exportDefault parts
    · exact lays_exportDefault parts
  case h_2 => exact lays_varDecl parts
  case h_3 => exact lays_varDecl parts
  case h_4 => exact lays_varDecl parts
  case h_5 => exact lays_functionDecl parts
  case h_6 => exact lays_functionDecl parts
  case h_7 => exact lays_classDecl parts
  case h_8 => exact lays_exportListStmt
  case h_9 => exact lays_exportListStmt
  case h_10 => exact .fail

end Declarations

section Statements

/-- The scopes of a statement behind a label lie apart in the text that was taken for it. -/
theorem lays_labelStmt : LaysStmt base here (grammar.labelStmt context) := by
  have taken := (before_step .standard here).offset_le
  refine lays_statement <| .take <| Settles.symbol.further.bind fun _ second later => ?_
  exact parts.stmt.bind fun _ _ shows => .pure fun _ => shows.2.since (by omega)

/-- The scopes of statements in braces lie apart in the text that was taken for it. -/
theorem lays_blockStmt : LaysStmt base here (grammar.blockStmt context) := by
  refine (arrives_block parts).bind ?_
  rintro _ place ⟨stop, body, rfl, apart⟩
  exact .pure ⟨offset_le_startOf here, apart.opens.since (offset_le_startOf here)⟩

/-- The scopes of an expression as a statement lie apart in the text that was taken for it. -/
theorem lays_exprStmt : LaysStmt base here (grammar.exprStmt context) := by
  refine lays_statement <| parts.expr.bind fun value second apart => ?_
  exact Settles.endStatement.onward.bind fun _ _ later => .pure fun _ => apart.upTo later

/-- The scopes of a conditional statement lie apart in the text that was taken for it. -/
theorem lays_ifStmt : LaysStmt base here (grammar.ifStmt context) := by
  refine lays_statement <| Settles.keyword.further.bind fun _ second later₁ => ?_
  refine (lays_headExpr parts).bind fun test third inTest => ?_
  refine parts.stmt.bind fun consequent fourth inConsequent => ?_
  have inTest : Apart here.offset third.offset (exprRegions test) := inTest.since (by omega)
  refine (Settles.accept_past (by nofun)).bind fun hasElse fifth later₂ => ?_
  refine .ite (fun _ => ?_) fun _ =>
    .pure fun _ => inTest.append (inConsequent.2.upTo later₂.1)
  exact parts.stmt.bind fun _ _ inAlternate =>
    .pure fun _ => inTest.append (inConsequent.2.append (inAlternate.2.since later₂.1))

/-- The scopes of a return lie apart in the text that was taken for it. -/
theorem lays_returnStmt : LaysStmt base here (grammar.returnStmt context) := by
  refine lays_statement <| Settles.keyword.further.bind fun _ second later₁ => ?_
  refine .peek <| .ite (fun _ => ?_) fun _ => ?_
  · exact Settles.endStatement.onward.bind fun _ _ later₂ => .pure fun _ => .none (by omega)
  · refine parts.expr.bind fun value third apart => ?_
    exact Settles.endStatement.onward.bind fun _ _ later₂ =>
      .pure fun _ => apart.within (by omega) later₂

/-- The scopes of a throw lie apart in the text that was taken for it. -/
theorem lays_throwStmt : LaysStmt base here (grammar.throwStmt context) := by
  have front := offset_le_startOf here
  refine lays_statement <| (Settles.past (by nofun)).bind fun word second later₁ => ?_
  refine .peek <| .check fun _ => ?_
  refine parts.expr.bind fun value third apart => ?_
  exact Settles.endStatement.onward.bind fun _ _ later₂ =>
    .pure fun _ => apart.within (by omega) later₂

/-- The parameter of a handler belongs to its block, though it stands in front of it. -/
theorem lays_handler :
    Lays (fun found => handlerRegions (patternOptionRegions found.1) found.2) base here
      (grammar.handler context) := by
  refine (Settles.accept_past (by nofun)).bind fun hasParam second later₁ => ?_
  -- The parameter stands outside of the block but in the region of the handler.
  refine .ite (fun _ => ?_) fun _ => ?_
  · refine parts.pattern.bind fun param third inParam => ?_
    refine Settles.symbol.further.bind fun _ fourth later₂ => ?_
    refine (arrives_block parts).bind ?_
    rintro _ behind ⟨stop, body, rfl, apart⟩
    have front := offset_le_startOf fourth
    have block : Apart third.offset behind.offset
        [⟨⟨startOf fourth, stop⟩, .block, stmtsRegions body⟩] := apart.opens.since (by omega)
    exact .pure ((inParam.append block).enclose.since later₁.1)
  · refine (arrives_block parts).bind ?_
    rintro _ behind ⟨stop, body, rfl, apart⟩
    have front := offset_le_startOf second
    exact .pure (apart.opens.since (by omega))

/-- The scopes of a statement with a handler, a finalizer or both lie apart in the text that was
taken for it. -/
theorem lays_tryStmt : LaysStmt base here (grammar.tryStmt context) := by
  have front := offset_le_startOf here
  refine lays_statement <| (Settles.past (by nofun)).bind fun word second later₁ => ?_
  refine (lays_block parts).bind fun body third inBody => ?_
  have inBody : Apart here.offset third.offset (blockRegions body) := inBody.since (by omega)
  refine (Settles.accept_past (by nofun)).bind fun hasHandler fourth later₂ => ?_
  -- With a handler the finalizer may be missing, without one it may not.
  refine .ite (fun _ => ?_) fun _ => ?_
  · refine (lays_handler parts).bind fun handler fifth inHandler => ?_
    have inHandler := inHandler.since later₂.1
    refine (Settles.accept_past (by nofun)).bind fun hasFinalizer sixth later₃ => ?_
    refine .ite (fun _ => ?_) fun _ =>
      .pure fun _ => inBody.append (inHandler.upTo later₃.1)
    exact (lays_block parts).bind fun _ _ inFinalizer =>
      .pure fun _ => inBody.append (inHandler.append (inFinalizer.since later₃.1))
  · refine (Settles.accept_past (by nofun)).bind fun hasFinalizer fifth later₃ => ?_
    refine .ite (fun _ => ?_) fun _ => .fail
    exact (lays_block parts).bind fun _ _ inFinalizer =>
      .pure fun _ => inBody.append (inFinalizer.since (by omega))

/-- The scopes of a loop with its test in front lie apart in the text that was taken for it. -/
theorem lays_whileStmt : LaysStmt base here (grammar.whileStmt context) := by
  refine lays_statement <| Settles.keyword.further.bind fun _ second later => ?_
  refine (lays_headExpr parts).bind fun condition third inCondition => ?_
  exact parts.stmt.bind fun _ _ inBody =>
    .pure fun _ => (inCondition.append inBody.2).since (by omega)

/-- The scopes of a statement with the members of an object in scope lie apart in the text that was
taken for it. -/
theorem lays_withStmt : LaysStmt base here (grammar.withStmt context) := by
  refine lays_statement <| Settles.keyword.further.bind fun _ second later => ?_
  refine (lays_headExpr parts).bind fun object third inObject => ?_
  exact parts.stmt.bind fun _ _ inBody =>
    .pure fun _ => (inObject.append inBody.2).since (by omega)

/-- The test of the loop stands behind its body. -/
theorem lays_doWhileStmt : LaysStmt base here (grammar.doWhileStmt context) := by
  refine lays_statement <| Settles.keyword.further.bind fun _ second later₁ => ?_
  refine parts.stmt.bind fun body third inBody => ?_
  refine Settles.keyword.further.bind fun _ fourth later₂ => ?_
  refine (lays_headExpr parts).bind fun condition fifth inCondition => ?_
  refine (Settles.accept_past (by nofun)).bind fun _ behind later₃ => .pure fun _ => ?_
  exact (inBody.2.append_swapped (inCondition.since (by omega))).within (by omega) later₃.1

/-- The scopes of one branch of a switch lie apart in the text that was taken for it. -/
theorem lays_switchBranch : Lays branchRegions base here (grammar.switchBranch context) := by
  -- What comes behind the test.
  have rest (test : Option Expr) {start : Cursor}
      (inTest : Apart here.offset start.offset (optionRegions test)) :
      Arrives base start (do
        symbol .colon
        let body ← grammar.stmtList context
          [.keyword .caseKw, .keyword .defaultKw, .symbol .braceClose]
        return (test, body)) fun found place =>
          Apart here.offset place.offset (optionRegions found.1 ++ stmtsRegions found.2) := by
    refine Settles.symbol.further.bind fun _ third later => ?_
    exact (lays_stmtList parts).bind fun _ _ apart =>
      .pure (inTest.append (apart.since (by omega)))
  have inner : Lays (fun found : Option Expr × List Stmt =>
      optionRegions found.1 ++ stmtsRegions found.2) base here (do
        let test ←
          if ← accept (.keyword .caseKw) then
            some <$> grammar.whole context [.symbol .colon]
          else
            keyword .defaultKw
            pure none
        symbol .colon
        let body ← grammar.stmtList context
          [.keyword .caseKw, .keyword .defaultKw, .symbol .braceClose]
        return (test, body)) := by
    refine (Settles.accept_past (by nofun)).bind fun isCase second later₁ => ?_
    refine .ite (fun _ => ?_) fun _ => ?_
    · have test : Lays optionRegions base second
          (some <$> grammar.whole context [.symbol .colon]) :=
        lays_map parts.expr fun _ => rfl
      exact test.bind fun test third apart => rest test (apart.since later₁.1)
    · exact Settles.keyword.further.bind fun _ third later₂ => rest none (.none (by omega))
  exact .spannedThen inner fun _ _ _ apart => .pure apart

/-- A round over the branches of a switch adds scopes behind those before. -/
theorem rounds_branches {branches : List SwitchBranch}
    (soFar : Collected branchRegions first branches here) :
    Arrives base here (grammar.branchRound context branches)
      (Round.Known (Collected branchRegions first) (Collected branchRegions first)) := by
  refine .nextIs fun isDone => .ite (fun _ => .pure soFar) fun _ => ?_
  exact (lays_switchBranch parts).bind fun branch behind apart => .pure (soFar.snoc apart)

/-- The scopes of a switch lie apart in the text that was taken for it. -/
theorem lays_switchStmt : LaysStmt base here (grammar.switchStmt context) := by
  refine lays_statement <| Settles.keyword_past.bind fun _ second later₁ => ?_
  refine (lays_headExpr parts).bind fun test third inTest => ?_
  refine Settles.symbol.further.bind fun _ fourth later₂ => ?_
  -- The tested value stands in front of the region that the branches share.
  have branches : Arrives base fourth (grammar.switchBranches context)
      (Collected branchRegions third.offset) :=
    .cycle _ (.none (by omega)) fun branches place soFar => rounds_branches parts soFar
  refine branches.bind fun branches fifth inBranches => ?_
  refine Settles.symbol.further.bind fun _ behind later₃ => .pure fun _ => ?_
  have apart : Apart (startOf here + 1) behind.offset
      (exprRegions test ++ branchesRegions branches) := by
    rw [branchesRegions_eq]
    exact (inTest.since later₁).append (inBranches.upTo (by omega))
  exact apart.opens.since (offset_le_startOf here)

end Statements

section Loops

/-- What a loop is that starts at the given offset: it starts there, and so does its region. -/
abbrev LoopFrom (start : Nat) (stmt : Stmt) (place : Cursor) : Prop :=
  stmt.span.start = start ∧ Apart start place.offset (stmtRegions stmt)

/-- The scopes of a loop over the keys or the items of a collection, behind its binding lie apart in
the text that was taken for it. -/
theorem arrives_forEachRest {start : Nat} {isAwait : Bool} {keyword : Option DeclKeyword}
    {binding : Pattern} (soFar : Apart (start + 1) here.offset (patternRegions binding)) :
    Arrives base here (grammar.forEachRest context start isAwait keyword binding)
      (LoopFrom start) := by
  have taken := (before_step .standard here).offset_le
  -- What comes behind the collection.
  have rest (word : Token) (isOf : Bool) (subject : Expr) {second : Cursor}
      (inSubject : Apart (start + 1) second.offset
        (patternRegions binding ++ exprRegions subject)) :
      Arrives base second (do
        symbol .parenthesisClose
        let body ← grammar.stmt context
        let span : Span := ⟨start, body.span.stop⟩
        if isOf then return ⟨span, .forOf isAwait keyword binding subject body⟩
        if isAwait then fail (word.error (.tokenRequired (.keyword .ofKw)))
        return (⟨span, .forIn keyword binding subject body⟩ : Stmt)) (LoopFrom start) := by
    refine Settles.symbol.further.bind fun _ third later => ?_
    refine parts.stmt.bind fun body behind inBody => ?_
    have apart : Apart (start + 1) behind.offset
        (patternRegions binding ++ (exprRegions subject ++ stmtRegions body)) := by
      rw [← List.append_assoc]
      exact inSubject.append (inBody.2.since (by omega))
    exact .ite (fun _ => .pure ⟨rfl, apart.opens⟩) fun _ => .check fun _ =>
      .pure ⟨rfl, apart.opens⟩
  refine .take <| .ite (fun _ => ?_) fun _ => ?_
  · exact parts.expr.bind fun subject second inSubject =>
      rest _ _ _ (soFar.append (inSubject.since taken))
  · exact parts.expr.bind fun subject second inSubject =>
      rest _ _ _ (soFar.append (inSubject.since taken))

/-- The head of the loop may hold any regions, which were read already. -/
theorem arrives_forLoopRest {start : Span} {head : Option Expr → Option Expr → Stmt → StmtShape}
    {regions : List Region} (soFar : Apart (start.start + 1) here.offset regions)
    (isHead : ∀ span condition post body, stmtShapeRegions span (head condition post body)
      = [⟨span, .block,
        regions ++ (optionRegions condition ++ (optionRegions post ++ stmtRegions body))⟩]) :
    Arrives base here (grammar.forLoopRest context start head) (LoopFrom start.start) := by
  -- The test and the step may both be missing.
  have body (condition post : Option Expr) {fourth : Cursor}
      (inHead : Apart (start.start + 1) fourth.offset
        (regions ++ (optionRegions condition ++ optionRegions post))) :
      Arrives base fourth (do
        symbol .parenthesisClose
        let body ← grammar.stmt context
        return (⟨start.cover body.span, head condition post body⟩ : Stmt))
        (LoopFrom start.start) := by
    refine Settles.symbol.further.bind fun _ fifth later => ?_
    refine parts.stmt.bind fun body behind inBody => ?_
    have apart : Apart (start.start + 1) behind.offset
        (regions ++ (optionRegions condition ++ (optionRegions post ++ stmtRegions body))) := by
      rw [← List.append_assoc (optionRegions condition), ← List.append_assoc]
      exact inHead.append (inBody.2.since (by omega))
    -- The body starts behind the head, so the loop starts with its own first token.
    have starts : (start.cover body.span).start = start.start := by
      have := inHead.le
      exact Nat.min_eq_left (by omega)
    have span : start.cover body.span
        = ⟨start.start, (start.cover body.span).stop⟩ := by rw [← starts]
    refine .pure ⟨starts, ?_⟩
    rw [stmtRegions, isHead, span]
    exact apart.opens
  have post (condition : Option Expr) {second : Cursor}
      (inCondition : Apart (start.start + 1) second.offset (regions ++ optionRegions condition)) :
      Arrives base second (do
        symbol .semicolon
        let post ←
          if ← nextIs .parenthesisClose then pure none
          else some <$> grammar.whole context [.symbol .parenthesisClose]
        symbol .parenthesisClose
        let body ← grammar.stmt context
        return (⟨start.cover body.span, head condition post body⟩ : Stmt))
        (LoopFrom start.start) := by
    refine Settles.symbol.further.bind fun _ third later => ?_
    have joined {post : Option Expr} {stop : Cursor}
        (inPost : Apart third.offset stop.offset (optionRegions post)) :
        Apart (start.start + 1) stop.offset
          (regions ++ (optionRegions condition ++ optionRegions post)) := by
      rw [← List.append_assoc]
      exact inCondition.append (inPost.since (by omega))
    refine .nextIs fun isMissing => .ite (fun _ => body _ none (joined (.none (Nat.le_refl _))))
      fun _ => ?_
    have post : Lays optionRegions base third
        (some <$> grammar.whole context [.symbol .parenthesisClose]) :=
      lays_map parts.expr fun _ => rfl
    exact post.bind fun post _ apart => body _ post (joined apart)
  refine Settles.symbol.further.bind fun _ second later => ?_
  have joined {condition : Option Expr} {stop : Cursor}
      (inCondition : Apart second.offset stop.offset (optionRegions condition)) :
      Apart (start.start + 1) stop.offset (regions ++ optionRegions condition) :=
    soFar.append (inCondition.since (by omega))
  refine .nextIs fun isMissing => .ite (fun _ => post none (joined (.none (Nat.le_refl _))))
    fun _ => ?_
  have condition : Lays optionRegions base second
      (some <$> grammar.whole context [.symbol .semicolon]) :=
    lays_map parts.expr fun _ => rfl
  exact condition.bind fun condition _ apart => post condition (joined apart)

/-- The scopes of a loop whose head starts with a declaration lie apart in the text that was taken
for it. -/
theorem arrives_forDeclaring {start : Span} {isAwait : Bool} (front : start.start < here.offset) :
    Arrives base here (grammar.forDeclaring context start isAwait) (LoopFrom start.start) := by
  refine .peek <| takes_declKeyword.further.bind fun keyword second later => ?_
  refine parts.pattern.bind fun pattern third inPattern => ?_
  have inPattern : Apart (start.start + 1) third.offset (patternRegions pattern) :=
    inPattern.since (by omega)
  refine settles_forEachNext fun isEach => .ite (fun _ => ?_) fun _ => ?_
  · exact arrives_forEachRest parts inPattern
  · refine (lays_declaratorsOf parts inPattern).bind fun declarators fourth inDeclarators => ?_
    refine .lastEnd fun stop => ?_
    exact arrives_forLoopRest parts inDeclarators fun _ _ _ _ => rfl

/-- The scopes of a loop whose head starts with an expression lie apart in the text that was taken
for it. -/
theorem arrives_forAssigning {start : Span} {isAwait : Bool} (front : start.start < here.offset) :
    Arrives base here (grammar.forAssigning context start isAwait) (LoopFrom start.start) := by
  refine parts.expr.bind fun value second inValue => ?_
  have inValue : Apart (start.start + 1) second.offset (exprRegions value) := inValue.since front
  refine settles_forEachNext fun isEach => .ite (fun _ => ?_) fun _ => ?_
  · cases read : value.toPattern with
    | error error => exact .fail
    | ok target =>
      rw [← regions_toPattern value read] at inValue
      exact arrives_forEachRest parts inValue
  · exact arrives_forLoopRest parts inValue fun _ _ _ _ => rfl

/-- The scopes of any loop that starts with its keyword for counting lie apart in the text that was
taken for it. -/
theorem lays_forStmt : LaysStmt base here (grammar.forStmt context) := by
  have front := offset_le_startOf here
  -- The loop starts with its word, and all its parts come behind that.
  have from' {stmt : Stmt} {place : Cursor} (loop : LoopFrom (startOf here) stmt place) :
      here.offset ≤ stmt.span.start ∧ Apart here.offset place.offset (stmtRegions stmt) :=
    ⟨loop.1 ▸ front, loop.2.since front⟩
  refine (Settles.past (by nofun)).bind fun word second starts => ?_
  refine (Settles.accept_past (by nofun)).bind fun isAwait third later₁ => ?_
  refine Settles.symbol.further.bind fun _ fourth later₂ => ?_
  rw [← starts.1] at from'
  refine .peek2 <| .ite (fun _ => ?_) fun _ => .ite (fun _ => ?_) fun _ => ?_
  · exact (arrives_forDeclaring parts (by omega)).weaken fun _ _ => from'
  · have nothing : Apart (word.span.start + 1) fourth.offset [] := .none (by omega)
    exact (arrives_forLoopRest parts nothing fun _ _ _ _ => rfl).weaken fun _ _ => from'
  · exact (arrives_forAssigning parts (by omega)).weaken fun _ _ => from'

end Loops

/-- Any statement. -/
theorem lays_stmtRule : LaysStmt base here (grammar.stmtRule context) := by
  -- Two tokens decide which rule it is, and each rule has a lemma of its own.
  refine .peek2 ?_
  dsimp only
  split
  case h_1 => exact lays_blockStmt parts
  case h_2 => exact lays_breakStmt
  case h_3 => exact lays_classDecl parts
  case h_4 => exact lays_varDecl parts
  case h_5 => exact lays_varDecl parts
  case h_6 => exact lays_continueStmt
  case h_7 => exact lays_debuggerStmt
  case h_8 => exact lays_doWhileStmt parts
  case h_9 => exact lays_exportStmt parts
  case h_10 => exact lays_forStmt parts
  case h_11 => exact lays_functionDecl parts
  case h_12 => exact lays_ifStmt parts
  case h_13 => exact lays_returnStmt parts
  case h_14 => exact lays_switchStmt parts
  case h_15 => exact lays_throwStmt parts
  case h_16 => exact lays_tryStmt parts
  case h_17 => exact lays_whileStmt parts
  case h_18 => exact lays_withStmt parts
  case h_19 => exact lays_emptyStmt
  case h_20 =>
    refine .ite (fun _ => lays_functionDecl parts) fun _ => ?_
    refine .ite (fun _ => lays_importStmt) fun _ => ?_
    refine .ite (fun _ => lays_varDecl parts) fun _ => ?_
    exact .ite (fun _ => lays_labelStmt parts) fun _ => lays_exprStmt parts

omit parts in
/-- By induction on the depth: the rules lay out their regions if the parts inside do. -/
theorem grammar_lays (depth : Nat) : (Parser.grammar depth).Lays := by
  induction depth with
  | zero =>
    exact ⟨fun _ _ _ => .exhausted trivial, fun _ _ _ => .exhausted trivial,
      fun _ _ _ _ => .exhausted trivial, fun _ _ _ => .exhausted trivial,
      fun _ _ _ => .exhausted trivial⟩
  | succ depth ih =>
    exact {
      expr := lays_exprRule ih
      operand := lays_operandRule ih
      suffix := arrives_suffixRule ih
      pattern := lays_patternRule ih
      stmt := lays_stmtRule ih }

omit parts in
/-- No two regions of one kind in a whole program start at the same place. -/
theorem arrives_program (depth : Nat) :
    Arrives base here (program (Parser.grammar depth)) fun program _ =>
      (marksOf (stmtsRegions program.body)).Nodup := by
  refine (lays_stmtList (grammar_lays depth)).bind fun body stop apart => ?_
  have last : Arrives base stop (require .eof) fun _ _ => True :=
    .take <| .ite (fun _ => .pure trivial) fun _ => .fail
  exact last.bind fun _ _ _ => .pure apart.nodup

end Downlevel.Parser

namespace Downlevel

/-- The regions of a program that was read from a source keep apart as well. -/
theorem nodup_marks_of_parse {source : String} {parsed : Parsed}
    (read : parse source = .ok parsed) : (marksOf (stmtsRegions parsed.program.body)).Nodup := by
  have ran := Parser.arrives_program (parseDepth source) (Reader.ofString source)
    (.refl (Reader.sound_ofString source)) rfl
  unfold parse parseWithin at read
  split at read
  · rename_i result reader run
    cases read
    rw [run] at ran
    generalize Parser.program _ (Reader.widen 0 _) = wide at ran
    cases ran with
    | ok _ nodup => exact nodup
  · cases read

end Downlevel
