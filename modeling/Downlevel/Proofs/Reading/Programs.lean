import Downlevel.Proofs.Reading.Expressions

/-! Every program that the parser gives is formed. -/

namespace Downlevel

namespace Parser

/-- A whole module is exported only with the name of the module. -/
theorem yields_exportListStmt : Yields exportListStmt fun stmt => AreFormed (stmtNodes stmt) := by
  refine .spanned (.next fun _ => yields_exportNames.bind fun names isRead => ?_)
  -- A list needs no module, but names that cannot be bound do, and so does a star.
  have source : Yields (exportSource names) fun module =>
      (Node.stmt (.exportNames names module)).Formed := by
    refine .next fun _ => .ite (fun _ => .next fun _ => .pure ?_) fun _ => ?_
    · cases names with
      | all outer => exact rfl
      | specific entries => exact isRead entries rfl
    · cases names with
      | all outer => exact .next fun _ => .fail
      | specific entries => exact .pure (isRead entries rfl)
  exact source.bind fun _ formed => .next fun _ => .pure fun _ =>
    .pure (formed_stmt.mpr ⟨formed, areFormed_nil⟩)

/-- Whatever is read as an import statement is formed as it has to be. -/
theorem yields_importStmt : Yields importStmt fun stmt => AreFormed (stmtNodes stmt) := by
  refine .spanned (.next fun _ => .next fun _ => .ite (fun _ => ?_) fun _ => ?_)
  · exact .next fun _ => .next fun _ => .pure fun _ =>
      .pure (formed_stmt.mpr ⟨⟨nofun, nofun⟩, areFormed_nil⟩)
  · exact yields_importClause.bind fun (_, _) isRead => .next fun _ => .next fun _ => .next fun _ =>
      .pure fun _ => .pure (formed_stmt.mpr ⟨isRead, areFormed_nil⟩)

/-- A statement is formed if what it is made of is. -/
theorem Yields.statement {inner : Parser StmtShape}
    (holds : Yields inner fun shape =>
      (Node.stmt shape).Formed ∧ AreFormed (stmtShapeNodes shape)) :
    Yields (Parser.statement inner) fun stmt => AreFormed (stmtNodes stmt) :=
  .spanned (holds.weaken fun _ formed _ => .pure (formed_stmt.mpr formed))

/-- Whatever is read as a jump out of a statement is formed as it has to be. -/
theorem yields_breakStmt : Yields breakStmt fun stmt => AreFormed (stmtNodes stmt) :=
  .statement (.next fun _ => yields_jumpLabel.bind fun _ spelled => .pure ⟨spelled, areFormed_nil⟩)

/-- Whatever is read as a jump to the next round of a loop is formed as it has to be. -/
theorem yields_continueStmt : Yields continueStmt fun stmt => AreFormed (stmtNodes stmt) :=
  .statement (.next fun _ => yields_jumpLabel.bind fun _ spelled => .pure ⟨spelled, areFormed_nil⟩)

/-- Whatever is read as a stop for the debugger is formed as it has to be. -/
theorem yields_debuggerStmt : Yields debuggerStmt fun stmt => AreFormed (stmtNodes stmt) :=
  .statement (.next fun _ => .next fun _ => .pure ⟨trivial, areFormed_nil⟩)

/-- Whatever is read as a lone semicolon is formed as it has to be. -/
theorem yields_emptyStmt : Yields emptyStmt fun stmt => AreFormed (stmtNodes stmt) :=
  .statement (.next fun _ => .pure ⟨trivial, areFormed_nil⟩)

section Rules

variable {grammar : Grammar} (reads : grammar.Reads) (context : Context) (stops : List TokenKind)

include reads

section Declarations

/-- Whatever is read as a declarator whose pattern was read is formed as it has to be. -/
theorem reads_declaratorOf {pattern : Pattern} (inPattern : AreFormed (patternNodes pattern)) :
    Yields (grammar.declaratorOf context pattern) fun declarator =>
      AreFormed (declaratorNodes declarator) :=
  (reads_initializer reads _ _).bind fun _ inInit => .pure
    (areFormed_cons.mpr ⟨trivial, areFormed_append.mpr ⟨inPattern, inInit⟩⟩)

/-- Whatever is read as declarators of which the first pattern was read is formed as it has to
be. -/
theorem reads_declaratorsOf {pattern : Pattern} (inPattern : AreFormed (patternNodes pattern)) :
    Yields (grammar.declaratorsOf context pattern) fun declarators =>
      AreFormed (declaratorsNodes declarators) := by
  simp only [formed_declarators]
  refine (reads_declaratorOf reads _ inPattern).bind fun first inFirst => ?_
  refine .loop (fun declarators => ∀ declarator ∈ declarators, AreFormed (declaratorNodes declarator))
    (List.forall_mem_singleton.mpr inFirst) fun declarators known => .next fun _ => ?_
  refine .ite (fun _ => .pure known) fun _ => (reads.pattern _).bind fun pattern inPattern => ?_
  exact (reads_declaratorOf reads _ inPattern.formed).bind fun _ own => .pure (forall_mem_snoc known own)

/-- Whatever is read as a declaration of variables is formed as it has to be. -/
theorem reads_varDecl : Yields (grammar.varDecl context) fun stmt => AreFormed (stmtNodes stmt) :=
  .spanned (.next fun _ => .next fun _ => (reads.pattern _).bind fun _ inPattern =>
    (reads_declaratorsOf reads _ inPattern.formed).bind fun _ formed => .next fun _ =>
      .pure fun _ => .pure (formed_stmt.mpr ⟨trivial, formed⟩))

/-- Whatever is read as a declaration of a function is formed as it has to be. -/
theorem reads_functionDecl :
    Yields (grammar.functionDecl context) fun stmt => AreFormed (stmtNodes stmt) :=
  .spanned (.next fun _ => .next fun _ => yields_functionHead.bind fun _ spelled => .next fun _ =>
    (reads_functionRest reads _ _ _).bind fun _ isRead => .pure fun _ =>
      .pure (formed_stmt.mpr ⟨spelled, isRead.formed⟩))

/-- Whatever is read as a declaration of a class is formed as it has to be. -/
theorem reads_classDecl :
    Yields (grammar.classDecl context) fun stmt => AreFormed (stmtNodes stmt) :=
  .spanned (.next fun _ => .next fun _ => (reads_classParts reads _).bind
    fun (_, _, _) formed => .next fun _ => .pure fun _ => .pure (formed_stmt.mpr formed))

/-- Whatever is read as an expression as the default export is formed as it has to be. -/
theorem reads_exportDefault :
    Yields (grammar.exportDefault context) fun stmt => AreFormed (stmtNodes stmt) :=
  .spanned (.next fun _ => .next fun _ => (reads_element reads _ _).bind fun _ isRead =>
    .next fun _ => .pure fun _ => .pure (formed_stmt.mpr ⟨trivial, isRead⟩))

/-- Whatever is read as any statement that starts with the export keyword is formed as it has to
be. -/
theorem reads_exportStmt :
    Yields (grammar.exportStmt context) fun stmt => AreFormed (stmtNodes stmt) := by
  refine .next fun (_, second, third) => ?_
  dsimp only
  -- One case for each keyword behind `export`; with `async`, `default` decides by what comes next.
  split
  · split
    · exact reads_functionDecl reads _
    · exact reads_classDecl reads _
    · exact .next fun _ => .ite (fun _ => reads_functionDecl reads _)
        fun _ => reads_exportDefault reads _
    · exact reads_exportDefault reads _
  · exact reads_varDecl reads _
  · exact reads_varDecl reads _
  · exact reads_varDecl reads _
  · exact reads_functionDecl reads _
  · exact reads_functionDecl reads _
  · exact reads_classDecl reads _
  · exact yields_exportListStmt
  · exact yields_exportListStmt
  · exact .fail

end Declarations

section Statements

/-- Whatever is read as statements in braces is formed as it has to be. -/
theorem reads_blockStmt :
    Yields (grammar.blockStmt context) fun stmt => AreFormed (stmtNodes stmt) :=
  (reads_block reads _).bind fun ⟨_, _⟩ formed => .pure (formed_stmt.mpr ⟨trivial, formed⟩)

/-- The label of a statement is the token that was seen in front of the colon. -/
theorem reads_labelStmt {token : Token} (spelled : IsSpelled token.text) {reader : Reader}
    (shows : reader.Shows token) :
    YieldsFrom reader (grammar.labelStmt context) fun stmt => AreFormed (stmtNodes stmt) := by
  simp only [Grammar.labelStmt, Parser.statement, spanned, bind_assoc, pure_bind]
  exact .peek shows <| .take shows <| .next fun _ => (reads.stmt _).bind fun _ formed =>
    .next fun _ => .pure (formed_stmt.mpr ⟨spelled, formed⟩)

/-- Whatever is read as an expression as a statement is formed as it has to be. -/
theorem reads_exprStmt :
    Yields (grammar.exprStmt context) fun stmt => AreFormed (stmtNodes stmt) :=
  .statement ((reads_whole reads _ _).bind fun _ isRead => .next fun _ =>
    .pure ⟨trivial, isRead⟩)

/-- Whatever is read as a conditional statement is formed as it has to be. -/
theorem reads_ifStmt : Yields (grammar.ifStmt context) fun stmt => AreFormed (stmtNodes stmt) := by
  refine .statement (.next fun _ => (reads_headExpr reads _).bind fun _ inTest =>
    (reads.stmt _).bind fun _ inConsequent => .next fun _ => .ite (fun _ => ?_) fun _ => ?_)
  · refine (reads.stmt _).bind fun _ inAlternate => .pure ⟨trivial, ?_⟩
    simpa [stmtShapeNodes] using ⟨inTest, inConsequent, inAlternate⟩
  · refine .pure ⟨trivial, ?_⟩
    simpa [stmtShapeNodes] using ⟨inTest, inConsequent⟩

/-- Whatever is read as a return is formed as it has to be. -/
theorem reads_returnStmt :
    Yields (grammar.returnStmt context) fun stmt => AreFormed (stmtNodes stmt) :=
  .statement (.next fun _ => .next fun _ => .ite
    (fun _ => .next fun _ => .pure ⟨trivial, areFormed_nil⟩)
    fun _ => (reads_whole reads _ _).bind fun _ isRead => .next fun _ =>
      .pure ⟨trivial, isRead⟩)

/-- Whatever is read as a throw is formed as it has to be. -/
theorem reads_throwStmt :
    Yields (grammar.throwStmt context) fun stmt => AreFormed (stmtNodes stmt) :=
  .statement (.next fun _ => .next fun _ => .check ((reads_whole reads _ _).bind fun _ isRead =>
    .next fun _ => .pure ⟨trivial, isRead⟩))

/-- Whatever is read as a handler is formed as it has to be. -/
theorem reads_handler :
    Yields (grammar.handler context) fun (param, handler) =>
      AreFormed (patternOptionNodes param) ∧ AreFormed (blockNodes handler) :=
  .next fun _ => .ite
    (fun _ => (reads.pattern _).bind fun _ inParam => .next fun _ =>
      (reads_block reads _).bind fun _ inHandler => .pure ⟨inParam.formed, inHandler⟩)
    fun _ => (reads_block reads _).bind fun _ inHandler => .pure ⟨areFormed_nil, inHandler⟩

/-- Whatever is read as a statement with a handler, a finalizer or both is formed as it has to
be. -/
theorem reads_tryStmt :
    Yields (grammar.tryStmt context) fun stmt => AreFormed (stmtNodes stmt) := by
  refine .statement (.next fun _ => (reads_block reads _).bind fun _ inBody => .next fun _ => ?_)
  refine .ite (fun _ => ?_) fun _ => .next fun _ => .ite (fun _ => ?_) fun _ => .fail
  · refine (reads_handler reads _).bind fun (_, _) ⟨inParam, inHandler⟩ => .next fun _ => ?_
    have handled := areFormed_append.mpr ⟨areFormed_append.mpr ⟨inBody, inParam⟩, inHandler⟩
    refine .ite (fun _ => ?_) fun _ => .pure ⟨trivial, handled⟩
    exact (reads_block reads _).bind fun _ inFinalizer =>
      .pure ⟨trivial, areFormed_append.mpr ⟨handled, inFinalizer⟩⟩
  · exact (reads_block reads _).bind fun _ inFinalizer =>
      .pure ⟨trivial, areFormed_append.mpr ⟨inBody, inFinalizer⟩⟩

/-- Whatever is read as a loop with its test in front is formed as it has to be. -/
theorem reads_whileStmt :
    Yields (grammar.whileStmt context) fun stmt => AreFormed (stmtNodes stmt) :=
  .statement (.next fun _ => (reads_headExpr reads _).bind fun _ inCondition =>
    (reads.stmt _).bind fun _ inBody =>
      .pure ⟨trivial, areFormed_append.mpr ⟨inCondition, inBody⟩⟩)

/-- Whatever is read as a statement with the members of an object in scope is formed as it has to
be. -/
theorem reads_withStmt :
    Yields (grammar.withStmt context) fun stmt => AreFormed (stmtNodes stmt) :=
  .statement (.next fun _ => (reads_headExpr reads _).bind fun _ inObject =>
    (reads.stmt _).bind fun _ inBody =>
      .pure ⟨trivial, areFormed_append.mpr ⟨inObject, inBody⟩⟩)

/-- Whatever is read as a loop with its test behind is formed as it has to be. -/
theorem reads_doWhileStmt :
    Yields (grammar.doWhileStmt context) fun stmt => AreFormed (stmtNodes stmt) :=
  .statement (.next fun _ => (reads.stmt _).bind fun _ inBody => .next fun _ =>
    (reads_headExpr reads _).bind fun _ inCondition => .next fun _ =>
      .pure ⟨trivial, areFormed_append.mpr ⟨inCondition, inBody⟩⟩)

/-- Whatever is read as one branch of a switch is formed as it has to be. -/
theorem reads_switchBranch :
    Yields (grammar.switchBranch context) fun branch => AreFormed (branchNodes branch) := by
  refine .spanned (.next fun _ => ?_)
  -- With or without a test, the body goes up to the next branch.
  have inRest (test : Option Expr) (inTest : AreFormed (optionNodes test)) : Yields (do
      symbol .colon
      let body ← grammar.stmtList context
        [.keyword .caseKw, .keyword .defaultKw, .symbol .braceClose]
      return (test, body)) fun (test, body) =>
        ∀ span, Yields (return (⟨span, test, body⟩ : SwitchBranch)) fun branch =>
          AreFormed (branchNodes branch) :=
    .next fun _ => (reads_stmtList reads _ _).bind fun _ inBody => .pure fun _ =>
      .pure (areFormed_append.mpr ⟨inTest, inBody⟩)
  refine .ite (fun _ => ?_) fun _ => .next fun _ => inRest none areFormed_nil
  exact .mapped (reads_whole reads _ _) fun test isRead => inRest (some test) isRead

/-- Whatever is read as the branches of a switch up to its closing brace is formed as it has to
be. -/
theorem reads_switchBranches :
    Yields (grammar.switchBranches context) fun branches => AreFormed (branchesNodes branches) := by
  simp only [formed_branches]
  refine .loop (fun branches => ∀ branch ∈ branches, AreFormed (branchNodes branch)) nofun
    fun branches known => .next fun _ => .ite (fun _ => .pure known) fun _ => ?_
  exact (reads_switchBranch reads _).bind fun _ own => .pure (forall_mem_snoc known own)

/-- Whatever is read as a switch is formed as it has to be. -/
theorem reads_switchStmt :
    Yields (grammar.switchStmt context) fun stmt => AreFormed (stmtNodes stmt) :=
  .statement (.next fun _ => (reads_headExpr reads _).bind fun _ inTest => .next fun _ =>
    (reads_switchBranches reads _).bind fun _ inBranches => .next fun _ =>
      .pure ⟨trivial, areFormed_append.mpr ⟨inTest, inBranches⟩⟩)

/-- Whatever is read as a loop over the keys or the items of a collection, behind its binding is
formed as it has to be. -/
theorem reads_forEachRest (start : Nat) (isAwait : Bool) (keyword : Option DeclKeyword)
    {binding : Pattern} (inBinding : AreFormed (patternNodes binding)) :
    Yields (grammar.forEachRest context start isAwait keyword binding) fun stmt =>
      AreFormed (stmtNodes stmt) := by
  refine .next fun word => ?_
  extract_lets isOf goOn
  -- Wherever the subject ends, the rest is the same.
  have inRest (subject : Expr) (inSubject : subject.IsRead) :
      Yields (goOn subject) fun stmt => AreFormed (stmtNodes stmt) := by
    refine .next fun _ => (reads.stmt _).bind fun body inBody => ?_
    have inside : AreFormed (patternNodes binding ++ exprNodes subject ++ stmtNodes body) :=
      areFormed_append.mpr ⟨areFormed_append.mpr ⟨inBinding, inSubject⟩, inBody⟩
    refine .ite (fun _ => .pure (formed_stmt.mpr ⟨trivial, inside⟩)) fun _ => ?_
    exact .check (.pure (formed_stmt.mpr ⟨trivial, inside⟩))
  exact .ite (fun _ => (reads_element reads _ _).bind inRest)
    fun _ => (reads_whole reads _ _).bind inRest

/-- Whatever is read as the test, the step and the body of a loop whose head starts with the given
parts is formed as it has to be. -/
theorem reads_forLoopRest (start : Span) {head : Option Expr → Option Expr → Stmt → StmtShape}
    (inHead : ∀ condition post body, AreFormed (optionNodes condition) →
      AreFormed (optionNodes post) → AreFormed (stmtNodes body) →
      (Node.stmt (head condition post body)).Formed
        ∧ AreFormed (stmtShapeNodes (head condition post body))) :
    Yields (grammar.forLoopRest context start head) fun stmt => AreFormed (stmtNodes stmt) := by
  refine .next fun _ => .next fun _ => ?_
  extract_lets afterCondition
  -- A loop may leave out its condition and what runs after each round.
  have inRest (condition : Option Expr) (inCondition : AreFormed (optionNodes condition)) :
      Yields (afterCondition condition) fun stmt => AreFormed (stmtNodes stmt) := by
    refine .next fun _ => .next fun _ => ?_
    extract_lets afterPost
    have inLast (post : Option Expr) (inPost : AreFormed (optionNodes post)) :
        Yields (afterPost post) fun stmt => AreFormed (stmtNodes stmt) :=
      .next fun _ => (reads.stmt _).bind fun body inBody => .pure
        (formed_stmt.mpr (inHead condition post body inCondition inPost inBody))
    refine .ite (fun _ => inLast none areFormed_nil) fun _ => ?_
    exact .mapped (reads_whole reads _ _) fun post isRead => inLast (some post) isRead
  refine .ite (fun _ => inRest none areFormed_nil) fun _ => ?_
  exact .mapped (reads_whole reads _ _) fun condition isRead =>
    inRest (some condition) isRead

/-- Whatever is read as a loop whose head starts with a declaration is formed as it has to be. -/
theorem reads_forDeclaring (start : Span) (isAwait : Bool) :
    Yields (grammar.forDeclaring context start isAwait) fun stmt => AreFormed (stmtNodes stmt) := by
  refine .next fun _ => .next fun keyword => (reads.pattern _).bind fun pattern inPattern => ?_
  refine .next fun _ => .ite (fun _ => reads_forEachRest reads _ _ _ _ inPattern.formed) fun _ => ?_
  refine (reads_declaratorsOf reads _ inPattern.formed).bind fun declarators inDeclarators => ?_
  refine .next fun _ => reads_forLoopRest reads _ _ fun condition post body inCondition inPost inBody =>
    ⟨trivial, ?_⟩
  simpa [stmtShapeNodes] using ⟨inDeclarators, inCondition, inPost, inBody⟩

/-- Whatever is read as a loop whose head starts with an expression is formed as it has to be. -/
theorem reads_forAssigning (start : Span) (isAwait : Bool) :
    Yields (grammar.forAssigning context start isAwait) fun stmt => AreFormed (stmtNodes stmt) := by
  refine (reads_whole reads _ _).bind fun value isRead => .next fun _ => .ite (fun _ => ?_) fun _ => ?_
  · split
    · exact .fail
    · rename_i target read
      exact reads_forEachRest reads _ _ _ _ (formed_toPattern value isRead read)
  · refine reads_forLoopRest reads _ _ fun condition post body inCondition inPost inBody =>
      ⟨trivial, ?_⟩
    simpa [stmtShapeNodes, optionNodes] using ⟨isRead, inCondition, inPost, inBody⟩

/-- Whatever is read as any loop that starts with its keyword for counting is formed as it has to
be. -/
theorem reads_forStmt :
    Yields (grammar.forStmt context) fun stmt => AreFormed (stmtNodes stmt) := by
  refine .next fun word => .next fun isAwait => .next fun _ => .next fun (first, second) => ?_
  refine .ite (fun _ => reads_forDeclaring reads _ _ _) fun _ => .ite (fun _ => ?_) fun _ => ?_
  · refine reads_forLoopRest reads _ _ fun condition post body inCondition inPost inBody =>
      ⟨trivial, ?_⟩
    simpa [stmtShapeNodes, optionNodes] using ⟨inCondition, inPost, inBody⟩
  · exact reads_forAssigning reads _ _ _

/-- Whatever is read as any statement is formed as it has to be. -/
theorem reads_stmtRule :
    Yields (grammar.stmtRule context) fun stmt => AreFormed (stmtNodes stmt) := by
  -- Two tokens are looked at, and a label is told from an expression by the second.
  refine .peeked2 fun first second reader isLexed shows => ?_
  dsimp only
  split
  · exact reads_blockStmt reads _ reader
  · exact yields_breakStmt reader
  · exact reads_classDecl reads _ reader
  · exact reads_varDecl reads _ reader
  · exact reads_varDecl reads _ reader
  · exact yields_continueStmt reader
  · exact yields_debuggerStmt reader
  · exact reads_doWhileStmt reads _ reader
  · exact reads_exportStmt reads _ reader
  · exact reads_forStmt reads _ reader
  · exact reads_functionDecl reads _ reader
  · exact reads_ifStmt reads _ reader
  · exact reads_returnStmt reads _ reader
  · exact reads_switchStmt reads _ reader
  · exact reads_throwStmt reads _ reader
  · exact reads_tryStmt reads _ reader
  · exact reads_whileStmt reads _ reader
  · exact reads_withStmt reads _ reader
  · exact yields_emptyStmt reader
  · refine .ite (fun _ => reads_functionDecl reads _ reader) fun _ =>
      .ite (fun _ => yields_importStmt reader) fun _ =>
        .ite (fun _ => reads_varDecl reads _ reader) fun _ => ?_
    -- The name of a label is the token that was shown first.
    exact .ite (fun isLabel => reads_labelStmt reads _ (isLexed.isBound isLabel.1) shows)
      fun _ => reads_exprStmt reads _ reader

end Statements

end Rules

/-- Whatever depth the rules have, they give what is formed. -/
theorem grammar_reads (depth : Nat) : (grammar depth).Reads := by
  induction depth with
  | zero =>
    exact ⟨fun _ _ _ => .fault, fun _ _ => .fault, fun _ _ _ _ _ => .fault, fun _ => .fault,
      fun _ => .fault⟩
  | succ depth ih =>
    exact ⟨fun _ _ _ => reads_exprRule ih _ _ _, fun _ _ => reads_operandRule ih _ _,
      fun _ _ _ _ isRead => reads_suffixRule ih _ _ _ isRead, fun _ => reads_patternRule ih _,
      fun _ => reads_stmtRule ih _⟩

end Parser

/-- Every program that was read is formed. -/
theorem formed_of_parse {source : String} {parsed : Parsed} (read : parse source = .ok parsed) :
    AreFormed parsed.program.nodes := by
  -- A program is a list of statements that ends where the file does.
  have reads := Parser.grammar_reads (parseDepth source)
  have program : Parser.Yields (Parser.program (Parser.grammar (parseDepth source)))
      fun program => AreFormed program.nodes :=
    (Parser.reads_stmtList reads _ _).bind fun _ formed => .next fun _ => .pure formed
  unfold parse parseWithin at read
  split at read
  · rename_i result reader ran
    cases read
    exact program _ _ _ ran
  · cases read

end Downlevel
