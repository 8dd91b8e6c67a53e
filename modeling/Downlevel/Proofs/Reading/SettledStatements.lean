import Downlevel.Proofs.Reading.SettledExpressions

/-! Statements and whole programs come to an end. -/

namespace Downlevel.Parser

open Lexer

variable {short : Prop} {extra room : Nat} {grammar other : Grammar} {base : Reader}
variable {here place : Cursor} {context : Context} {stops : List TokenKind} {token : Token}

section Modules

/-- Reading the keyword that declares variables takes some text, and more depth changes nothing. -/
theorem takes_declKeyword : Takes short extra base here declKeyword declKeyword := by
  refine .take ?_
  have less (goesOn : (step .standard here).token.kind ≠ .eof) :
      (step .standard here).next.left < here.left :=
    step_left_lt nofun goesOn
  split
  case h_1 kind => exact .pure (less (by rw [kind]; nofun))
  case h_2 kind => exact .pure (less (by rw [kind]; nofun))
  case h_3 kind => exact .pure (less (by rw [kind]; nofun))
  case h_4 => exact .fail

/-- Reading the words of an export gives no text back, and more depth changes nothing. -/
theorem lasts_exportWords : Lasts short extra base here exportWords exportWords := by
  refine (Settles.accept (by nofun)).bind fun isExported second shows => ?_
  refine .ite (fun _ => .pure shows.1) fun _ => ?_
  refine (Settles.accept (by nofun)).bind fun isDefault third further => ?_
  exact .pure (by omega)

/-- Whether a declaration can do without a name is decided without more text. -/
theorem settles_requireName {exported : Exported} {name : Option String} {what : String} :
    Settles short extra base here (requireName exported name token what)
      (requireName exported name token what) fun _ place => place = here :=
  .ite (fun _ => .fail) fun _ => .pure rfl

/-- Reading the name of a module, in quotes takes some text, and more depth changes nothing. -/
theorem takes_moduleSpecifier :
    Takes short extra base here moduleSpecifier moduleSpecifier := by
  refine (Settles.require (by nofun)).bind fun token second shows => ?_
  refine (settles_stringValue shows.1 shows.2.1).weaken ?_
  rintro _ _ rfl
  exact shows.2.2

/-- The first name of an entry was taken already. -/
theorem settles_listedName {isExport : Bool} (read : token = (step .standard place).token) :
    Settles short extra base here (listedName isExport token) (listedName isExport token)
      fun _ behind => behind = here ∧ token.kind ≠ .eof := by
  -- A string, a name that can be bound, or a keyword; none of them is the end of the file.
  refine .ite (fun isString => ?_) fun _ => ?_
  · refine (settles_stringValue read isString).bind fun name behind same => .pure ⟨same, ?_⟩
    rw [isString]
    nofun
  refine .ite (fun bindable => .pure ⟨rfl, fun ends => ?_⟩) fun _ => ?_
  · rw [ends] at bindable
    cases bindable
  refine .ite (fun isKeyword => .pure ⟨rfl, fun ends => ?_⟩) fun _ => .fail
  rw [ends] at isKeyword
  cases isKeyword

/-- Reading the alias in an import or export list gives no text back, and more depth changes
nothing. -/
theorem lasts_listedAlias {isExport : Bool} :
    Lasts short extra base here (listedAlias isExport) (listedAlias isExport) := by
  have no_more := step_left_le .standard here
  refine .take <| .ite (fun isString => ?_) fun _ => .ite (fun _ => .pure no_more) fun _ => .fail
  refine (settles_stringValue rfl isString.1).weaken ?_
  rintro _ _ rfl
  exact no_more

/-- Reading one entry of an import or export list, with its alias takes some text, and more depth
changes nothing. -/
theorem takes_listEntry {isExport : Bool} :
    Takes short extra base here (listEntry isExport) (listEntry isExport) := by
  refine .take <| (settles_listedName rfl).bind ?_
  rintro ⟨name, needsAlias⟩ _ ⟨rfl, goesOn⟩
  have less : (step .standard here).next.left < here.left := step_left_lt nofun goesOn
  refine (Settles.accept (by nofun)).bind fun hasAlias second shows => ?_
  refine .ite (fun _ => ?_) fun _ => .check fun _ => .pure (by omega)
  refine lasts_listedAlias.bind fun bound behind no_more => ?_
  exact .pure (by omega)

/-- Reading the entries of an import or export list in braces takes some text, and more depth
changes nothing. -/
theorem takes_listEntries {isExport : Bool} :
    Takes short extra base here (listEntries isExport) (listEntries isExport) := by
  refine Settles.symbol.bind fun _ second less₁ => ?_
  have entries : Lasts short extra base second (commaList .braceClose (listEntry isExport))
      (commaList .braceClose (listEntry isExport)) :=
    .commaList fun place no_more => takes_listEntry
  refine entries.bind fun entries third no_more => ?_
  refine Settles.symbol.bind fun _ behind less₂ => ?_
  exact .pure (by omega)

/-- Reading a name that an import binds takes some text, and more depth changes nothing. -/
theorem takes_importBinding : Takes short extra base here importBinding importBinding :=
  takes_bindingId.bind fun _ _ less => .pure less

/-- Reading what an import binds besides the default takes some text, and more depth changes
nothing. -/
theorem takes_importNames : Takes short extra base here importNames importNames := by
  refine (Settles.accept (by nofun)).bind fun isAll second shows => ?_
  refine .ite (fun _ => ?_) fun _ => ?_
  · refine Settles.keyword.bind fun _ third less₁ => ?_
    refine takes_importBinding.bind fun name behind less₂ => ?_
    exact .pure (by omega)
  · refine takes_listEntries.bind fun entries behind less => ?_
    exact .pure (by omega)

/-- Reading what an import binds, up to the word in front of the module takes some text, and more
depth changes nothing. -/
theorem takes_importClause : Takes short extra base here importClause importClause := by
  refine .peek <| .ite (fun _ => ?_) fun _ => ?_
  · refine takes_importBinding.bind fun default second less => ?_
    refine (Settles.accept (by nofun)).bind fun hasNames third shows => ?_
    refine .ite (fun _ => ?_) fun _ => .pure (by omega)
    refine takes_importNames.bind fun names behind further => ?_
    exact .pure (by omega)
  · refine takes_importNames.bind fun names behind less => ?_
    exact .pure less

/-- Reading an import statement takes some text, and more depth changes nothing. -/
theorem takes_importStmt : Takes short extra base here importStmt importStmt := by
  refine Settles.bind (.spanned ?_) fun _ _ less => .pure less
  refine Settles.keyword.bind fun _ second less₁ => ?_
  -- Without a clause, an import is a module on its own.
  refine .peek <| .ite (fun _ => ?_) fun _ => ?_
  · refine takes_moduleSpecifier.bind fun module third less₂ => ?_
    refine Settles.endStatement.bind fun _ behind no_more => ?_
    exact .pure (by omega)
  · refine takes_importClause.bind fun clause third less₂ => ?_
    refine Settles.keyword.bind fun _ fourth less₃ => ?_
    refine takes_moduleSpecifier.bind fun module fifth less₄ => ?_
    refine Settles.endStatement.bind fun _ behind no_more => ?_
    exact .pure (by omega)

/-- Reading the name under which everything of a module is exported gives no text back, and more
depth changes nothing. -/
theorem lasts_namespaceAlias :
    Lasts short extra base here namespaceAlias namespaceAlias := by
  have no_more := step_left_le .standard here
  -- A string, a name or a keyword: one token in each case.
  refine .take ?_
  split
  case h_1 kind =>
    refine (settles_stringValue rfl kind).weaken ?_
    rintro _ _ rfl
    exact no_more
  case h_2 => exact .pure no_more
  case h_3 => exact .pure no_more
  case h_4 => exact .fail

/-- Reading what an export without a declaration exports gives no text back, and more depth changes
nothing. -/
theorem lasts_exportNames : Lasts short extra base here exportNames exportNames := by
  refine (Settles.accept (by nofun)).bind fun isAll second shows => ?_
  refine .ite (fun _ => ?_) fun _ => ?_
  · refine (Settles.accept (by nofun)).bind fun hasAlias third further => ?_
    refine .ite (fun _ => ?_) fun _ => .pure (by omega)
    refine lasts_namespaceAlias.bind fun bound behind no_more => ?_
    exact .pure (by omega)
  · refine takes_listEntries.bind fun entries behind less => ?_
    exact .pure (by omega)

/-- Reading the module an export takes its names from gives no text back, and more depth changes
nothing. -/
theorem lasts_exportSource {names : ExportNames} :
    Lasts short extra base here (exportSource names) (exportSource names) := by
  refine (Settles.accept (by nofun)).bind fun hasSource second shows => ?_
  refine .ite (fun _ => ?_) fun _ => ?_
  · refine takes_moduleSpecifier.bind fun module behind less => ?_
    exact .pure (by omega)
  · cases names with
    | all name => exact .peek .fail
    | specific names => exact .pure shows.1

/-- Reading an export without a declaration takes some text, and more depth changes nothing. -/
theorem takes_exportListStmt :
    Takes short extra base here exportListStmt exportListStmt := by
  refine Settles.bind (.spanned ?_) fun _ _ less => .pure less
  refine Settles.keyword.bind fun _ second less => ?_
  refine lasts_exportNames.bind fun names third no_more₁ => ?_
  refine lasts_exportSource.bind fun module fourth no_more₂ => ?_
  refine Settles.endStatement.bind fun _ behind no_more₃ => ?_
  exact .pure (by omega)

/-- What comes behind a look for an asynchronous function. -/
theorem settles_asyncFunctionExported {β : Type} {final : β → Cursor → Prop}
    {rest rest' : Bool → Parser β}
    (holds : ∀ isFunction, Settles short extra base here (rest isFunction) (rest' isFunction) final) :
    Settles short extra base here (asyncFunctionExported >>= rest)
      (asyncFunctionExported >>= rest') final := by
  have looked : Settles short extra base here asyncFunctionExported asyncFunctionExported
      fun _ place => place = here :=
    .checkpoint fun saved stands => .take <| .take <| .peek2 <| .restore <| .pure stands
  refine looked.bind ?_
  rintro isFunction _ rfl
  exact holds isFunction

end Modules

/-! Each part below is done with every place that the parts of the grammar are done with. A statement
takes a word in front of the statements inside it. -/

variable (parts : grammar.Settles short extra room other) (inside : here.left < room)
include parts inside

section Declarations

/-- Reading a declarator whose pattern was read gives no text back, and more depth changes
nothing. -/
theorem lasts_declaratorOf {pattern : Pattern} :
    Lasts short extra base here (grammar.declaratorOf context pattern)
      (other.declaratorOf context pattern) :=
  (lasts_initializer parts inside).bind fun _ _ no_more => .pure no_more

/-- A round over declarators goes on only if it took some text. -/
theorem rounds_declarator {declarators : List Declarator} :
    Rounds short extra base here (grammar.declaratorRound context declarators)
      (other.declaratorRound context declarators) := by
  refine (Settles.accept (by nofun)).bind fun isMore second shows => ?_
  refine .ite (fun _ => .pure shows.1) fun _ => ?_
  refine (parts.pattern (by omega)).bind fun pattern third less => ?_
  refine (lasts_declaratorOf parts (by omega)).bind fun declarator behind no_more => ?_
  exact .pure (show behind.left < here.left by omega)

/-- Reading declarators of which the first pattern was read gives no text back, and more depth
changes nothing. -/
theorem lasts_declaratorsOf {pattern : Pattern} :
    Lasts short extra base here (grammar.declaratorsOf context pattern)
      (other.declaratorsOf context pattern) := by
  refine (lasts_declaratorOf parts inside).bind fun first second no_more => ?_
  have more : Lasts short extra base second (loop (grammar.declaratorRound context) [first])
      (loop (other.declaratorRound context) [first]) :=
    .loop fun declarators place further => rounds_declarator parts (by omega)
  exact more.weaken fun _ _ further => by omega

/-- Reading a declaration of variables takes some text, and more depth changes nothing. -/
theorem takes_varDecl :
    Takes short extra base here (grammar.varDecl context) (other.varDecl context) := by
  refine Settles.bind (.spanned ?_) fun _ _ less => .pure less
  refine (Settles.accept (by nofun)).bind fun isExported second shows => ?_
  refine takes_declKeyword.bind fun keyword third less₁ => ?_
  refine (parts.pattern (by omega)).bind fun pattern fourth less₂ => ?_
  refine (lasts_declaratorsOf parts (by omega)).bind fun declarators fifth no_more₁ => ?_
  refine Settles.endStatement.bind fun _ behind no_more₂ => ?_
  exact .pure (by omega)

/-- Reading a declaration of a function takes some text, and more depth changes nothing. -/
theorem takes_functionDecl :
    Takes short extra base here (grammar.functionDecl context)
      (other.functionDecl context) := by
  refine Settles.bind (.spanned ?_) fun _ _ less => .pure less
  refine lasts_exportWords.bind fun exported second no_more => ?_
  refine .peek <| takes_functionHead.bind fun head third less₁ => ?_
  refine settles_requireName.bind ?_
  rintro _ _ rfl
  refine (takes_functionRest parts (by omega)).bind fun func behind less₂ => ?_
  exact .pure (by omega)

/-- Reading a declaration of a class takes some text, and more depth changes nothing. -/
theorem takes_classDecl :
    Takes short extra base here (grammar.classDecl context) (other.classDecl context) := by
  refine Settles.bind (.spanned ?_) fun _ _ less => .pure less
  refine lasts_exportWords.bind fun exported second no_more => ?_
  refine .peek <| (takes_classParts parts (by omega)).bind ?_
  rintro ⟨name, heritage, members⟩ third less
  refine settles_requireName.bind ?_
  rintro _ _ rfl
  exact .pure (by omega)

/-- Reading an expression as the default export takes some text, and more depth changes nothing. -/
theorem takes_exportDefault :
    Takes short extra base here (grammar.exportDefault context)
      (other.exportDefault context) := by
  refine Settles.bind (.spanned ?_) fun _ _ less => .pure less
  refine Settles.keyword.bind fun _ second less₁ => ?_
  refine Settles.keyword.bind fun _ third less₂ => ?_
  refine (parts.expr (by omega)).bind fun value fourth less₃ => ?_
  refine Settles.endStatement.bind fun _ behind no_more => ?_
  exact .pure (by omega)

/-- Reading any statement that starts with the export keyword takes some text, and more depth
changes nothing. -/
theorem takes_exportStmt :
    Takes short extra base here (grammar.exportStmt context) (other.exportStmt context) := by
  -- Three tokens are looked at, and none of them is taken before it is known what is exported.
  refine .peek3 fun ahead => ?_
  obtain ⟨first, second, third⟩ := ahead
  dsimp only
  split
  case h_1 =>
    split
    · exact takes_functionDecl parts inside
    · exact takes_classDecl parts inside
    · refine settles_asyncFunctionExported fun isFunction => ?_
      exact .ite (fun _ => takes_functionDecl parts inside) fun _ => takes_exportDefault parts inside
    · exact takes_exportDefault parts inside
  case h_2 => exact takes_varDecl parts inside
  case h_3 => exact takes_varDecl parts inside
  case h_4 => exact takes_varDecl parts inside
  case h_5 => exact takes_functionDecl parts inside
  case h_6 => exact takes_functionDecl parts inside
  case h_7 => exact takes_classDecl parts inside
  case h_8 => exact takes_exportListStmt
  case h_9 => exact takes_exportListStmt
  case h_10 => exact .fail

end Declarations

section Statements

omit parts inside in
/-- Reading the label behind a jump, on the same line, and the end of the statement gives no text
back, and more depth changes nothing. -/
theorem lasts_jumpLabel : Lasts short extra base here jumpLabel jumpLabel := by
  have no_more := step_left_le .standard here
  refine .peek <| .ite (fun _ => .take ?_) fun _ => ?_
  · exact Settles.endStatement.bind fun _ _ further => .pure (by omega)
  · exact Settles.endStatement.bind fun _ _ further => .pure further

omit parts inside in
/-- A statement leaves as much text as its parts do. -/
theorem takes_statement {inner outer : Parser StmtShape}
    (takes : Takes short extra base here inner outer) :
    Takes short extra base here (statement inner) (statement outer) :=
  Settles.bind (.spanned takes) fun _ _ less => .pure less

omit parts inside in
/-- Reading a jump out of a statement takes some text, and more depth changes nothing. -/
theorem takes_breakStmt : Takes short extra base here breakStmt breakStmt := by
  refine takes_statement <| Settles.keyword.bind fun _ second less => ?_
  exact lasts_jumpLabel.bind fun _ _ no_more => .pure (by omega)

omit parts inside in
/-- Reading a jump to the next round of a loop takes some text, and more depth changes nothing. -/
theorem takes_continueStmt : Takes short extra base here continueStmt continueStmt := by
  refine takes_statement <| Settles.keyword.bind fun _ second less => ?_
  exact lasts_jumpLabel.bind fun _ _ no_more => .pure (by omega)

omit parts inside in
/-- Reading a stop for the debugger takes some text, and more depth changes nothing. -/
theorem takes_debuggerStmt : Takes short extra base here debuggerStmt debuggerStmt := by
  refine takes_statement <| Settles.keyword.bind fun _ second less => ?_
  exact Settles.endStatement.bind fun _ _ no_more => .pure (by omega)

omit parts inside in
/-- Reading a lone semicolon takes some text, and more depth changes nothing. -/
theorem takes_emptyStmt : Takes short extra base here emptyStmt emptyStmt :=
  takes_statement <| Settles.symbol.bind fun _ _ less => .pure less

/-- Reading a statement behind a label takes some text, and more depth changes nothing. -/
theorem takes_labelStmt :
    Takes short extra base here (grammar.labelStmt context) (other.labelStmt context) := by
  have no_more := step_left_le .standard here
  refine takes_statement <| .take <| Settles.symbol.bind fun _ second less₁ => ?_
  exact (parts.stmt (by omega)).bind fun _ _ less₂ => .pure (by omega)

/-- Reading statements in braces takes some text, and more depth changes nothing. -/
theorem takes_blockStmt :
    Takes short extra base here (grammar.blockStmt context) (other.blockStmt context) :=
  (takes_block parts inside).bind fun _ _ less => .pure less

/-- Reading an expression as a statement takes some text, and more depth changes nothing. -/
theorem takes_exprStmt :
    Takes short extra base here (grammar.exprStmt context) (other.exprStmt context) := by
  refine takes_statement <| (parts.expr inside).bind fun value second less => ?_
  exact Settles.endStatement.bind fun _ _ no_more => .pure (by omega)

/-- Reading a conditional statement takes some text, and more depth changes nothing. -/
theorem takes_ifStmt :
    Takes short extra base here (grammar.ifStmt context) (other.ifStmt context) := by
  refine takes_statement <| Settles.keyword.bind fun _ second less₁ => ?_
  refine (takes_headExpr parts (by omega)).bind fun test third less₂ => ?_
  refine (parts.stmt (by omega)).bind fun consequent fourth less₃ => ?_
  refine (Settles.accept (by nofun)).bind fun hasElse fifth shows => ?_
  refine .ite (fun _ => ?_) fun _ => .pure (by omega)
  exact (parts.stmt (by omega)).bind fun _ _ less₄ => .pure (by omega)

/-- Reading a return takes some text, and more depth changes nothing. -/
theorem takes_returnStmt :
    Takes short extra base here (grammar.returnStmt context) (other.returnStmt context) := by
  refine takes_statement <| Settles.keyword.bind fun _ second less₁ => ?_
  refine .peek <| .ite (fun _ => ?_) fun _ => ?_
  · exact Settles.endStatement.bind fun _ _ no_more => .pure (by omega)
  · refine (parts.expr (by omega)).bind fun value third less₂ => ?_
    exact Settles.endStatement.bind fun _ _ no_more => .pure (by omega)

/-- Reading a throw takes some text, and more depth changes nothing. -/
theorem takes_throwStmt :
    Takes short extra base here (grammar.throwStmt context) (other.throwStmt context) := by
  refine takes_statement <| (Settles.require (by nofun)).bind fun word second shows => ?_
  refine .peek <| .check fun _ => ?_
  refine (parts.expr (by omega)).bind fun value third less => ?_
  exact Settles.endStatement.bind fun _ _ no_more => .pure (by omega)

/-- Reading a handler takes some text, and more depth changes nothing. -/
theorem takes_handler :
    Takes short extra base here (grammar.handler context) (other.handler context) := by
  refine (Settles.accept (by nofun)).bind fun hasParam second shows => ?_
  refine .ite (fun _ => ?_) fun _ => ?_
  · refine (parts.pattern (by omega)).bind fun param third less₁ => ?_
    refine Settles.symbol.bind fun _ fourth less₂ => ?_
    exact (takes_block parts (by omega)).bind fun _ _ less₃ => .pure (by omega)
  · exact (takes_block parts (by omega)).bind fun _ _ less => .pure (by omega)

/-- Reading a statement with a handler, a finalizer or both takes some text, and more depth changes
nothing. -/
theorem takes_tryStmt :
    Takes short extra base here (grammar.tryStmt context) (other.tryStmt context) := by
  refine takes_statement <| (Settles.require (by nofun)).bind fun word second shows => ?_
  refine (takes_block parts (by omega)).bind fun body third less₁ => ?_
  refine (Settles.accept (by nofun)).bind fun hasHandler fourth caught => ?_
  -- With a handler the finalizer may be missing, without one it may not.
  refine .ite (fun _ => ?_) fun _ => ?_
  · refine (takes_handler parts (by omega)).bind fun handler fifth less₂ => ?_
    refine (Settles.accept (by nofun)).bind fun hasFinalizer sixth finally' => ?_
    refine .ite (fun _ => ?_) fun _ => .pure (by omega)
    exact (takes_block parts (by omega)).bind fun _ _ less₃ => .pure (by omega)
  · refine (Settles.accept (by nofun)).bind fun hasFinalizer fifth finally' => ?_
    refine .ite (fun _ => ?_) fun _ => .fail
    exact (takes_block parts (by omega)).bind fun _ _ less₂ => .pure (by omega)

/-- Reading a loop with its test in front takes some text, and more depth changes nothing. -/
theorem takes_whileStmt :
    Takes short extra base here (grammar.whileStmt context) (other.whileStmt context) := by
  refine takes_statement <| Settles.keyword.bind fun _ second less₁ => ?_
  refine (takes_headExpr parts (by omega)).bind fun condition third less₂ => ?_
  exact (parts.stmt (by omega)).bind fun _ _ less₃ => .pure (by omega)

/-- Reading a statement with the members of an object in scope takes some text, and more depth
changes nothing. -/
theorem takes_withStmt :
    Takes short extra base here (grammar.withStmt context) (other.withStmt context) := by
  refine takes_statement <| Settles.keyword.bind fun _ second less₁ => ?_
  refine (takes_headExpr parts (by omega)).bind fun object third less₂ => ?_
  exact (parts.stmt (by omega)).bind fun _ _ less₃ => .pure (by omega)

/-- Reading a loop with its test behind takes some text, and more depth changes nothing. -/
theorem takes_doWhileStmt :
    Takes short extra base here (grammar.doWhileStmt context) (other.doWhileStmt context) := by
  refine takes_statement <| Settles.keyword.bind fun _ second less₁ => ?_
  refine (parts.stmt (by omega)).bind fun body third less₂ => ?_
  refine Settles.keyword.bind fun _ fourth less₃ => ?_
  refine (takes_headExpr parts (by omega)).bind fun condition fifth less₄ => ?_
  exact (Settles.accept (by nofun)).bind fun _ _ shows => .pure (by omega)

/-- Reading one branch of a switch takes some text, and more depth changes nothing. -/
theorem takes_switchBranch :
    Takes short extra base here (grammar.switchBranch context)
      (other.switchBranch context) := by
  refine Settles.bind (.spanned ?_) fun _ _ less => .pure less
  refine (Settles.accept (by nofun)).bind fun isCase second shows => ?_
  -- What comes behind the test; the word in front of it is a token.
  have rest (test : Option Expr) {start : Cursor} (less : start.left < here.left) :
      Settles short extra base start
        (do
          symbol .colon
          let body ← grammar.stmtList context
            [.keyword .caseKw, .keyword .defaultKw, .symbol .braceClose]
          return (test, body))
        (do
          symbol .colon
          let body ← other.stmtList context
            [.keyword .caseKw, .keyword .defaultKw, .symbol .braceClose]
          return (test, body))
        fun _ place => place.left < here.left := by
    refine Settles.symbol.bind fun _ third further => ?_
    exact (lasts_stmtList parts (by omega)).bind fun _ _ no_more => .pure (by omega)
  refine .ite (fun _ => ?_) fun _ => ?_
  · refine Settles.bind (.map (parts.expr (by omega))) fun test third less => ?_
    exact rest _ (by omega)
  · exact Settles.keyword.bind fun _ third less => rest _ (by omega)

/-- A round over the branches of a switch goes on only if it took some text. -/
theorem rounds_branch {branches : List SwitchBranch} :
    Rounds short extra base here (grammar.branchRound context branches)
      (other.branchRound context branches) := by
  refine .nextIs fun isDone => .ite (fun _ => .pure (Nat.le_refl _)) fun _ => ?_
  exact (takes_switchBranch parts inside).bind fun branch behind less => .pure less

/-- Reading a switch takes some text, and more depth changes nothing. -/
theorem takes_switchStmt :
    Takes short extra base here (grammar.switchStmt context) (other.switchStmt context) := by
  refine takes_statement <| Settles.keyword.bind fun _ second less₁ => ?_
  refine (takes_headExpr parts (by omega)).bind fun test third less₂ => ?_
  refine Settles.symbol.bind fun _ fourth less₃ => ?_
  have branches : Lasts short extra base fourth (grammar.switchBranches context)
      (other.switchBranches context) :=
    .loop fun branches place no_more => rounds_branch parts (by omega)
  refine branches.bind fun branches fifth no_more => ?_
  exact Settles.symbol.bind fun _ _ less₄ => .pure (by omega)

/-- Reading a loop over the keys or the items of a collection, behind its binding takes some text,
and more depth changes nothing. -/
theorem takes_forEachRest {start : Nat} {isAwait : Bool} {keyword : Option DeclKeyword}
    {binding : Pattern} :
    Takes short extra base here (grammar.forEachRest context start isAwait keyword binding)
      (other.forEachRest context start isAwait keyword binding) := by
  have no_more := step_left_le .standard here
  -- What comes behind the collection.
  have rest (word : Token) (isOf : Bool) (subject : Expr) {second : Cursor}
      (less : second.left < here.left) :
      Takes short extra base second
        (do
          symbol .parenthesisClose
          let body ← grammar.stmt context
          let span : Span := ⟨start, body.span.stop⟩
          if isOf then return ⟨span, .forOf isAwait keyword binding subject body⟩
          if isAwait then fail (word.error (.tokenRequired (.keyword .ofKw)))
          return (⟨span, .forIn keyword binding subject body⟩ : Stmt))
        (do
          symbol .parenthesisClose
          let body ← other.stmt context
          let span : Span := ⟨start, body.span.stop⟩
          if isOf then return ⟨span, .forOf isAwait keyword binding subject body⟩
          if isAwait then fail (word.error (.tokenRequired (.keyword .ofKw)))
          return (⟨span, .forIn keyword binding subject body⟩ : Stmt)) := by
    refine Settles.symbol.bind fun _ third less₁ => ?_
    refine (parts.stmt (by omega)).bind fun body behind less₂ => ?_
    exact .ite (fun _ => .pure (by omega)) fun _ => .check fun _ => .pure (by omega)
  refine .take <| .ite (fun _ => ?_) fun _ => ?_
  · refine (parts.expr (by omega)).bind fun subject second less => ?_
    exact (rest _ _ _ (by omega)).weaken fun _ _ less => by omega
  · refine (parts.expr (by omega)).bind fun subject second less => ?_
    exact (rest _ _ _ (by omega)).weaken fun _ _ less => by omega

/-- Reading the test, the step and the body of a loop whose head starts with the given parts takes
some text, and more depth changes nothing. -/
theorem takes_forLoopRest {start : Span} {head : Option Expr → Option Expr → Stmt → StmtShape} :
    Takes short extra base here (grammar.forLoopRest context start head)
      (other.forLoopRest context start head) := by
  -- The test and the step may both be missing.
  have body (condition post : Option Expr) {fourth : Cursor} (less : fourth.left < here.left) :
      Settles short extra base fourth
        (do
          symbol .parenthesisClose
          let body ← grammar.stmt context
          return (⟨start.cover body.span, head condition post body⟩ : Stmt))
        (do
          symbol .parenthesisClose
          let body ← other.stmt context
          return (⟨start.cover body.span, head condition post body⟩ : Stmt))
        fun _ place => place.left < here.left := by
    refine Settles.symbol.bind fun _ fifth less₁ => ?_
    exact (parts.stmt (by omega)).bind fun _ _ less₂ => .pure (by omega)
  have post (condition : Option Expr) {second : Cursor} (less : second.left < here.left) :
      Settles short extra base second
        (do
          symbol .semicolon
          let post ←
            if ← nextIs .parenthesisClose then pure none
            else some <$> grammar.whole context [.symbol .parenthesisClose]
          symbol .parenthesisClose
          let body ← grammar.stmt context
          return (⟨start.cover body.span, head condition post body⟩ : Stmt))
        (do
          symbol .semicolon
          let post ←
            if ← nextIs .parenthesisClose then pure none
            else some <$> other.whole context [.symbol .parenthesisClose]
          symbol .parenthesisClose
          let body ← other.stmt context
          return (⟨start.cover body.span, head condition post body⟩ : Stmt))
        fun _ place => place.left < here.left := by
    refine Settles.symbol.bind fun _ third less₁ => ?_
    refine .nextIs fun isMissing => .ite (fun _ => body _ _ (by omega)) fun _ => ?_
    exact Settles.bind (.map (parts.expr (by omega))) fun _ _ less₂ => body _ _ (by omega)
  refine Settles.symbol.bind fun _ second less₁ => ?_
  refine .nextIs fun isMissing => .ite (fun _ => post _ (by omega)) fun _ => ?_
  exact Settles.bind (.map (parts.expr (by omega))) fun _ _ less₂ => post _ (by omega)

omit parts inside in
/-- What comes behind a look for the word of a loop over a collection. -/
theorem settles_forEachNext {β : Type} {final : β → Cursor → Prop} {rest rest' : Bool → Parser β}
    (holds : ∀ isEach, Settles short extra base here (rest isEach) (rest' isEach) final) :
    Settles short extra base here (Grammar.forEachNext >>= rest) (Grammar.forEachNext >>= rest') final := by
  have looked : Settles short extra base here Grammar.forEachNext Grammar.forEachNext
      fun _ place => place = here :=
    .peek <| .pure rfl
  refine looked.bind ?_
  rintro isEach _ rfl
  exact holds isEach

/-- Reading a loop whose head starts with a declaration takes some text, and more depth changes
nothing. -/
theorem takes_forDeclaring {start : Span} {isAwait : Bool} :
    Takes short extra base here (grammar.forDeclaring context start isAwait)
      (other.forDeclaring context start isAwait) := by
  refine .peek <| takes_declKeyword.bind fun keyword second less₁ => ?_
  refine (parts.pattern (by omega)).bind fun pattern third less₂ => ?_
  refine settles_forEachNext fun isEach => .ite (fun _ => ?_) fun _ => ?_
  · exact (takes_forEachRest parts (by omega)).weaken fun _ _ less => by omega
  · refine (lasts_declaratorsOf parts (by omega)).bind fun declarators fourth no_more => ?_
    refine .lastEnd fun stop => ?_
    exact (takes_forLoopRest parts (by omega)).weaken fun _ _ less => by omega

/-- Reading a loop whose head starts with an expression takes some text, and more depth changes
nothing. -/
theorem takes_forAssigning {start : Span} {isAwait : Bool} :
    Takes short extra base here (grammar.forAssigning context start isAwait)
      (other.forAssigning context start isAwait) := by
  refine (parts.expr (by omega)).bind fun value second less₁ => ?_
  refine settles_forEachNext fun isEach => .ite (fun _ => ?_) fun _ => ?_
  · cases value.toPattern with
    | error error => exact .fail
    | ok target =>
      exact (takes_forEachRest parts (by omega)).weaken fun _ _ less => by omega
  · exact (takes_forLoopRest parts (by omega)).weaken fun _ _ less => by omega

/-- Reading any loop that starts with its keyword for counting takes some text, and more depth
changes nothing. -/
theorem takes_forStmt :
    Takes short extra base here (grammar.forStmt context) (other.forStmt context) := by
  refine (Settles.require (by nofun)).bind fun word second shows => ?_
  refine (Settles.accept (by nofun)).bind fun isAwait third await => ?_
  refine Settles.symbol.bind fun _ fourth less => ?_
  refine .peek2 <| .ite (fun _ => ?_) fun _ => .ite (fun _ => ?_) fun _ => ?_
  · exact (takes_forDeclaring parts (by omega)).weaken fun _ _ less => by omega
  · exact (takes_forLoopRest parts (by omega)).weaken fun _ _ less => by omega
  · exact (takes_forAssigning parts (by omega)).weaken fun _ _ less => by omega

/-- Any statement. -/
theorem takes_stmtRule :
    Takes short extra base here (grammar.stmtRule context) (other.stmtRule context) := by
  -- Two tokens decide which rule it is, and each rule has a lemma of its own.
  refine .peek2 ?_
  dsimp only
  split
  case h_1 => exact takes_blockStmt parts inside
  case h_2 => exact takes_breakStmt
  case h_3 => exact takes_classDecl parts inside
  case h_4 => exact takes_varDecl parts inside
  case h_5 => exact takes_varDecl parts inside
  case h_6 => exact takes_continueStmt
  case h_7 => exact takes_debuggerStmt
  case h_8 => exact takes_doWhileStmt parts inside
  case h_9 => exact takes_exportStmt parts inside
  case h_10 => exact takes_forStmt parts inside
  case h_11 => exact takes_functionDecl parts inside
  case h_12 => exact takes_ifStmt parts inside
  case h_13 => exact takes_returnStmt parts inside
  case h_14 => exact takes_switchStmt parts inside
  case h_15 => exact takes_throwStmt parts inside
  case h_16 => exact takes_tryStmt parts inside
  case h_17 => exact takes_whileStmt parts inside
  case h_18 => exact takes_withStmt parts inside
  case h_19 => exact takes_emptyStmt
  case h_20 =>
    refine .ite (fun _ => takes_functionDecl parts inside) fun _ => ?_
    refine .ite (fun _ => takes_importStmt) fun _ => ?_
    refine .ite (fun _ => takes_varDecl parts inside) fun _ => ?_
    exact .ite (fun _ => takes_labelStmt parts inside) fun _ => takes_exprStmt parts inside

end Statements

omit inside in
/-- Any pattern. -/
theorem takes_patternRule (first : here.left ≤ room) :
    Takes short extra base here (grammar.patternRule context) (other.patternRule context) := by
  refine .peek <| .ite (fun _ => ?_) fun _ => .ite (fun _ => ?_) fun _ => .ite (fun _ => ?_) fun _ =>
    .fail
  · exact takes_objectPattern parts first
  · exact takes_arrayPattern parts first
  · exact takes_bindingId.bind fun _ _ less => .pure less

omit parts inside in
/-- With more depth than there are characters left the parts of the grammar are done with a place.
Each rule takes a token before it comes to itself again. -/
theorem grammar_settles (deeper : Nat) {depth : Nat} (enough : short ∨ room ≤ depth) :
    (Parser.grammar depth).Settles short extra room (Parser.grammar (depth + deeper)) := by
  -- By induction on the room: inside a rule there is room for one character less.
  induction room generalizing depth with
  | zero =>
    exact ⟨fun less => absurd less (Nat.not_lt_zero _), fun less => absurd less (Nat.not_lt_zero _),
      fun less => absurd less (Nat.not_lt_zero _), fun less => absurd less (Nat.not_lt_zero _),
      fun less => absurd less (Nat.not_lt_zero _)⟩
  | succ room ih =>
    cases depth with
    | zero =>
      -- Without depth everything is cut short.
      obtain isShort | none := enough
      · exact ⟨fun _ _ _ _ => .exhausted isShort, fun _ _ _ _ => .exhausted isShort,
          fun _ _ _ _ => .exhausted isShort, fun _ _ _ _ => .exhausted isShort,
          fun _ _ _ _ => .exhausted isShort⟩
      · exact absurd none (Nat.not_succ_le_zero _)
    | succ depth =>
      have inner := @ih depth (enough.imp_right Nat.le_of_succ_le_succ)
      rw [Nat.add_right_comm]
      exact {
        expr := fun less => takes_exprRule inner (Nat.le_of_lt_succ less)
        operand := fun less => takes_operandRule inner (Nat.le_of_lt_succ less)
        suffix := fun less => lasts_suffixRule inner (Nat.le_of_lt_succ less)
        pattern := fun less => takes_patternRule inner (Nat.le_of_lt_succ less)
        stmt := fun less => takes_stmtRule inner (Nat.lt_of_succ_lt_succ less) }

omit inside in
/-- A whole source comes to an end. -/
theorem settles_program (inside : here.left + 1 < room) :
    Settles short extra base here (program grammar) (program other) fun _ _ => True := by
  refine (lasts_stmtList parts inside).bind fun body stop _ => ?_
  have last : Settles short extra base stop (require .eof) (require .eof) fun _ _ => True :=
    .take <| .ite (fun _ => .pure trivial) fun _ => .fail
  exact last.bind fun _ _ _ => .pure trivial

end Downlevel.Parser
