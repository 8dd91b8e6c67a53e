import Downlevel.Parser
import Downlevel.Proofs.RoundTrip.Trees

/-! A program that consists of an operation is read again from the text it is printed as. -/

namespace Downlevel

open Lexeme Printer

section Lexemes

/-- What a token of an operation is not: an arrow, or empty. -/
structure Lexeme.IsPlain (lexeme : Lexeme) : Prop where
  noArrow : lexeme.kind ≠ .symbol .equalsChevronRight
  nonempty : lexeme.text.toList ≠ []

/-- A symbol is plain unless it is the arrow of a function. -/
theorem isPlain_symbol {mark : Punctuator} (noArrow : mark ≠ .equalsChevronRight) :
    (ofSymbol mark).IsPlain :=
  ⟨fun same => noArrow (TokenKind.symbol.inj same), mark.text_ne_nil⟩

/-- A name is plain. -/
theorem isPlain_name {name : String} (named : IsMemberName name) : (ofName name).IsPlain := by
  refine ⟨fun same => ?_, ?_⟩
  · have isName := named.1
    rw [← kind_ofName, same] at isName
    cases isName
  · obtain ⟨c, rest, spelled, -⟩ := exists_cons_of_name named
    simp [ofName, spelled]

/-- An operator is plain. -/
theorem isPlain_operator {op : Operator} (used : op.IsInfix ∨ op.IsLeading ∨ op.IsTrailing) :
    (ofOperator op).IsPlain := by
  -- An operator's spelling is a word or a symbol; only the full stop among the symbols could be
  -- read otherwise, and none of the three classes has it as its spelling.
  rcases Operator.spelling used with ⟨-, word, whole, named⟩ | ⟨-, mark, symbol, -⟩
  · rw [word]
    exact isPlain_name ⟨named, whole⟩
  · rw [symbol]
    refine isPlain_symbol ?_
    rintro rfl
    rcases used with isInfix | isLeading | rfl | rfl
    · have kind := isInfix.kind
      rw [symbol] at kind
      cases kind
    · have kind := isLeading.kind
      rw [symbol] at kind
      cases kind
    · revert symbol
      decide
    · revert symbol
      decide

/-- What a link is printed with is plain. -/
theorem isPlain_link (link : ChainLink) :
    (ofDot link).IsPlain ∧ (ofBracket link).IsPlain ∧ (ofParenthesis link).IsPlain := by
  cases link
  all_goals exact ⟨isPlain_symbol (by decide), isPlain_symbol (by decide), isPlain_symbol (by decide)⟩

/-- A string is plain. -/
theorem isPlain_string (value : String) : Lexeme.IsPlain ⟨.string, Text.quote value⟩ :=
  ⟨by simp, by simp [Text.quote]⟩

/-- All the tokens are plain. -/
def ArePlain (lexemes : List Lexeme) : Prop :=
  ∀ lexeme ∈ lexemes, lexeme.IsPlain

section ArePlain

variable {lexeme : Lexeme} {lexemes more : List Lexeme}

/-- Where there are no lexemes, all are plain. -/
@[simp] theorem arePlain_nil : ArePlain [] :=
  fun _ mem => absurd mem List.not_mem_nil

/-- The first lexeme is plain, and so are the others. -/
@[simp] theorem arePlain_cons : ArePlain (lexeme :: lexemes) ↔ lexeme.IsPlain ∧ ArePlain lexemes :=
  List.forall_mem_cons

/-- Two texts are plain if both are. -/
@[simp] theorem arePlain_append : ArePlain (lexemes ++ more) ↔ ArePlain lexemes ∧ ArePlain more :=
  List.forall_mem_append

end ArePlain

/-- Tokens in parentheses are plain if those inside are. -/
theorem arePlain_level {e : Expr} (inside : ArePlain (shapeLexemes e.shape)) (level : Nat) :
    ArePlain (exprLexemes level e) := by
  obtain ⟨origin, shape⟩ := e
  have opening : (ofSymbol .parenthesisOpen).IsPlain := isPlain_symbol (by decide)
  have closing : (ofSymbol .parenthesisClose).IsPlain := isPlain_symbol (by decide)
  rw [exprLexemes]
  split
  · simp [inside, opening, closing]
  · exact inside

/-- Arguments are plain if their values are. -/
theorem arePlain_args {args : List Arg}
    (inside : ∀ arg ∈ args, ArePlain (shapeLexemes arg.value.shape)) :
    ArePlain (argsLexemes args) := by
  have comma : (ofSymbol .comma).IsPlain := isPlain_symbol (by decide)
  have dots : (ofSymbol .dotDotDot).IsPlain := isPlain_symbol (by decide)
  -- Along the arguments: each is plain by the assumption, and so are the comma and the dots between
  -- them.
  induction args with
  | nil => exact arePlain_nil
  | cons arg rest ih =>
    obtain ⟨isSpread, value⟩ := arg
    have own := arePlain_level (inside _ List.mem_cons_self) Precedence.yielding
    have others := ih fun arg mem => inside arg (List.mem_cons_of_mem _ mem)
    rw [argsLexemes, argLexemes]
    cases isSpread <;> cases rest <;> simp_all

/-- The elements of an array are plain if their values are. -/
theorem arePlain_items {items : List ArrayItem}
    (singles : ∀ value, .single value ∈ items → ArePlain (shapeLexemes value.shape))
    (spreads : ∀ value, .spread value ∈ items → ArePlain (shapeLexemes value.shape)) :
    ArePlain (itemsLexemes items) := by
  have comma : (ofSymbol .comma).IsPlain := isPlain_symbol (by decide)
  have dots : (ofSymbol .dotDotDot).IsPlain := isPlain_symbol (by decide)
  induction items with
  | nil => exact arePlain_nil
  | cons item rest ih =>
    have others := ih (fun value mem => singles value (List.mem_cons_of_mem _ mem))
      fun value mem => spreads value (List.mem_cons_of_mem _ mem)
    have own : ArePlain (itemLexemes item) := by
      cases item with
      | single value => exact arePlain_level (singles value List.mem_cons_self) _
      | spread value =>
        exact arePlain_cons.mpr ⟨dots, arePlain_level (spreads value List.mem_cons_self) _⟩
      | hole => exact arePlain_nil
    -- A hole prints nothing, so the comma after it stays even in last place: that is the one case
    -- where the last item prints more than itself.
    by_cases last : rest = [] ∧ item ≠ .hole
    · obtain ⟨rfl, noHole⟩ := last
      rw [itemsLexemes_last noHole]
      exact own
    · rw [itemsLexemes_next last]
      simp [own, comma, others]

/-- All the tokens of an operation are plain. -/
theorem Expr.IsOperation.arePlain {e : Expr} (isOperation : e.IsOperation) :
    ArePlain (shapeLexemes e.shape) := by
  -- The brackets and marks the forms print themselves are the same six, so they are settled at
  -- once; the induction then only looks up what each form prints.
  have symbols : ∀ mark ∈ [Punctuator.bracketOpen, .bracketClose, .question, .colon,
      .parenthesisOpen, .parenthesisClose], (ofSymbol mark).IsPlain := fun mark mem =>
    isPlain_symbol (by revert mark; decide)
  simp only [List.forall_mem_cons] at symbols
  induction isOperation with
  | id named => simp [shapeLexemes_id, isPlain_name named.isMemberName]
  | this => exact arePlain_cons.mpr ⟨⟨by simp [ofKeyword], by decide⟩, arePlain_nil⟩
  | str => simp [shapeLexemes_str, isPlain_string]
  | num nonempty => simpa [shapeLexemes_num] using ⟨by simp, nonempty⟩
  | array _ _ singles spreads => simp [shapeLexemes_array, symbols, arePlain_items singles spreads]
  | binary isInfix _ _ _ left right =>
    simp [shapeLexemes_binary, arePlain_level left, arePlain_level right, isPlain_operator (.inl isInfix)]
  | assign assigns _ _ _ left right =>
    have isInfix := Operator.isInfix_of_isAssignment assigns
    simp [shapeLexemes_binary, arePlain_level left, arePlain_level right, isPlain_operator (.inl isInfix)]
  | unary isLeading _ operand =>
    simp [shapeLexemes_unary, arePlain_level operand, isPlain_operator (.inr (.inl isLeading))]
  | update isTrailing _ operand =>
    simp [shapeLexemes_update, arePlain_level operand, isPlain_operator (.inr (.inr isTrailing))]
  | cond _ _ _ test consequent alternate =>
    simp [shapeLexemes_cond, arePlain_level test, arePlain_level consequent, arePlain_level alternate,
      symbols]
  | member named _ _ object =>
    simp [shapeLexemes_member, arePlain_level object, isPlain_link, isPlain_name named]
  | computed _ _ _ object key =>
    simp [shapeLexemes_computed, arePlain_level object, arePlain_level key, isPlain_link, symbols]
  | call _ _ _ callee args =>
    simp [shapeLexemes_call, arePlain_level callee, arePlain_args args, isPlain_link, symbols]
  | new _ _ callee args =>
    have word : (ofKeyword .newKw).IsPlain := ⟨by simp [ofKeyword], by decide⟩
    simp [shapeLexemes_new, arePlain_level callee, arePlain_args args, word, symbols]

/-- A token takes its text from the front of the source. -/
theorem Lexeme.Starts.length_le {lexeme : Lexeme} {text more : List Char}
    (starts : lexeme.Starts text more) :
    lexeme.text.toList.length + more.length ≤ text.length := by
  obtain ⟨size, reads⟩ := starts
  obtain ⟨own, next, -⟩ := reads 0 .standard trivial
  have spelled := congrArg String.toList own.text
  have left := congrArg Lexer.Cursor.rest next
  simp only [Lexer.step, Lexer.Cursor.advance, String.toList_ofList] at spelled left
  rw [← spelled, ← left]
  simp only [List.length_take, List.length_drop]
  omega

/-- A text has at least as many characters as plain tokens. -/
theorem length_le_of_spells {lexemes more : List Lexeme} {text : List Char}
    (spelled : Spells text (lexemes ++ more)) (plain : ArePlain lexemes) :
    lexemes.length ≤ text.length := by
  -- Every lexeme spells at least one character, so the induction is along the lexemes, over what is
  -- left of the text.
  induction lexemes generalizing text with
  | nil => exact Nat.zero_le _
  | cons lexeme rest ih =>
    obtain ⟨behind, starts, later⟩ := spelled
    obtain ⟨own, others⟩ := arePlain_cons.mp plain
    have shorter := starts.length_le
    have inside := ih later others
    have nonempty := List.length_pos_iff.mpr own.nonempty
    rw [List.length_cons]
    omega

/-- A name at the start of the tokens is no label. -/
def IsNoLabel (lexemes : List Lexeme) : Prop :=
  ∀ first second rest, lexemes = first :: second :: rest → first.kind.isBindable = true →
    second.kind ≠ .symbol .colon

/-- What starts with anything but a name is no label. -/
theorem isNoLabel_of_first {first : Lexeme} {rest : List Lexeme}
    (noName : first.kind.isBindable = false) : IsNoLabel (first :: rest) := by
  rintro _ second more ⟨⟩ isName
  rw [noName] at isName
  cases isName

/-- A single token is no name with a colon behind it. -/
theorem isNoLabel_single (lexeme : Lexeme) : IsNoLabel [lexeme] := by
  intro first second rest same
  have length : 1 = rest.length + 2 := congrArg List.length same
  omega

/-- What comes behind an operand is no colon. -/
theorem IsNoLabel.append {lexemes more : List Lexeme} {next : Lexeme} (noLabel : IsNoLabel lexemes)
    (opens : OpensOperand lexemes) (noColon : next.kind ≠ .symbol .colon) :
    IsNoLabel (lexemes ++ next :: more) := by
  -- The second lexeme is inside the operand, or the operand is one lexeme and the second is what
  -- follows it.
  obtain ⟨first, rest, rfl, -⟩ := opens
  rintro _ second later same isName
  cases rest with
  | nil =>
    obtain ⟨rfl, rfl, rfl⟩ : first = _ ∧ next = second ∧ more = later := by simpa using same
    exact noColon
  | cons other rest =>
    obtain ⟨rfl, rfl, rfl⟩ : first = _ ∧ other = second ∧ rest ++ next :: more = later := by
      simpa using same
    exact noLabel _ _ _ rfl isName

/-- Parentheses make no label. -/
theorem isNoLabel_level {e : Expr} (noLabel : IsNoLabel (shapeLexemes e.shape)) (level : Nat) :
    IsNoLabel (exprLexemes level e) := by
  obtain ⟨origin, shape⟩ := e
  rw [exprLexemes]
  split
  · exact isNoLabel_of_first rfl
  · exact noLabel

/-- No operation starts like a statement with a label. -/
theorem Expr.IsOperation.isNoLabel {e : Expr} (isOperation : e.IsOperation) :
    IsNoLabel (shapeLexemes e.shape) := by
  have noColon {op : Operator} (isInfix : op.IsInfix) : (ofOperator op).kind ≠ .symbol .colon := by
    intro same
    have kind := isInfix.kind
    rw [same] at kind
    cases kind
  -- Induction on the operation: its first lexemes are those of its leftmost operand, and what
  -- follows that operand is never a colon.
  induction isOperation with
  | id | this | str | num => exact isNoLabel_single _
  | array | new => exact isNoLabel_of_first rfl
  | binary isInfix _ isLeft _ left =>
    exact (isNoLabel_level left _).append (isLeft.opens.level _) (noColon isInfix)
  | assign assigns _ isLeft _ left =>
    exact (isNoLabel_level left _).append (isLeft.opens.level _)
      (noColon (Operator.isInfix_of_isAssignment assigns))
  | unary _ isOperand =>
    -- A word operator may stand first as a name would; the second lexeme then opens an operand,
    -- which a colon does not.
    obtain ⟨opening, more, shape, own⟩ := isOperand.opens.level Precedence.unary
    rintro _ second rest same _
    obtain ⟨-, rfl, -⟩ : _ ∧ opening = second ∧ more = rest := by
      simpa [shapeLexemes_unary, shape] using same
    exact Parser.ne_of_opensOperand own rfl
  | update isTrailing isOperand operand =>
    refine (isNoLabel_level operand _).append (isOperand.opens.level _) ?_
    rcases isTrailing with rfl | rfl <;> decide
  | cond isTest _ _ test =>
    exact (isNoLabel_level test _).append (isTest.opens.level _) (by decide)
  | @member _ link _ _ _ _ isObject object =>
    exact (isNoLabel_level object _).append (isObject.opens.level _) (by cases link <;> decide)
  | @computed _ link _ _ _ isObject _ object =>
    exact (isNoLabel_level object _).append (isObject.opens.level _) (by cases link <;> decide)
  | @call _ link _ _ _ isCallee _ callee =>
    exact (isNoLabel_level callee _).append (isCallee.opens.level _) (by cases link <;> decide)

end Lexemes

namespace Parser

open Grammar

variable {tape : Tape} {e : Expr} {ahead after : List Lexeme}

/-- A source without comments has none to deal with. -/
theorem Reads.takeComments {upTo : Nat} :
    Reads tape (takeComments upTo) ahead ahead (· = []) := by
  refine ⟨fun reader stands => ?_⟩
  have none : commentsBetween reader.commentsUpTo upTo reader.comments = [] := by
    rw [stands.comments]
    rfl
  refine ⟨_, _, rfl, ⟨⟨stands.sound.remarked, stands.limit, stands.taken, stands.places,
    stands.reports, stands.comments⟩, stands.ahead⟩, ?_⟩
  rw [none]
  rfl

/-- Where there are no comments, none are skipped. -/
theorem Reads.skipComments : Reads tape skipComments ahead ahead fun _ => True :=
  ⟨fun _ stands => ⟨_, _, skipComments_eq stands.sound.inside, ⟨⟨stands.sound.remarked,
    stands.limit, stands.taken, stands.places, stands.reports, stands.comments⟩, stands.ahead⟩,
    trivial⟩⟩

/-- The statement holds the expression. -/
def IsStmtOf (e : Expr) (stmt : Stmt) : Prop :=
  ∃ found, stmt.shape = .expr found ∧ e.IsSame found

/-- What ends a source behind its only statement. -/
def IsEnding (ending : List Lexeme) : Prop :=
  ending = [ofSymbol .semicolon, Lexeme.eof] ∨ ending = [Lexeme.eof]

section Endings

variable {ending : List Lexeme} (isEnding : IsEnding ending)

include isEnding

/-- The end of a statement ends an expression of any level. -/
theorem IsEnding.ends (level : Nat) : Ends level ending := by
  rcases isEnding with rfl | rfl <;> exact ⟨_, _, rfl, rfl⟩

/-- The end of a statement is read as one. -/
theorem IsEnding.endStatement :
    Reads tape Parser.endStatement ending [Lexeme.eof] fun _ => True := by
  rcases isEnding with rfl | rfl
  · exact .endStatement
  · exact .endStatement_eof

end Endings

variable {described : Expr → List Report → Prop} {ending : List Lexeme}

/-- An expression is read as a statement. -/
theorem tells_exprStmt {depth : Nat} (nonempty : ahead ≠ []) (enough : ahead.length < depth)
    (isEnding : IsEnding ending)
    (isExpr : ReachesExpr tape Precedence.comma [.symbol .semicolon] ahead
      (Tells tape ending described)) :
    Reaches tape ((grammar depth).exprStmt {}) ahead (Tells tape [Lexeme.eof] fun stmt told =>
      ∃ found, stmt.shape = .expr found ∧ described found told) := by
  -- The statement is the whole expression up to its end, and then that end.
  have inner : Reaches tape (do
      let value ← (grammar depth).whole {} [.symbol .semicolon]
      endStatement
      return StmtShape.expr value)
      ahead (Tells tape [Lexeme.eof] fun shape told =>
        ∃ found, shape = .expr found ∧ described found told) :=
    (isExpr.inner enough).bind_tells fun found told shown => isEnding.endStatement.bind fun _ _ =>
      .pure_tells ⟨found, rfl, shown⟩
  exact (inner.spanned_tells nonempty).bind_tells fun _ _ shown => .pure_tells shown

/-- A statement that starts like an operand and has no label is an expression. -/
theorem reaches_stmt {depth : Nat} {goal : Stmt → Reader → Prop} (opens : OpensOperand ahead)
    (longer : 2 ≤ ahead.length) (noLabel : IsNoLabel ahead)
    (isExpr : Reaches tape ((grammar depth).exprStmt {}) ahead goal) :
    Reaches tape ((grammar depth).stmtRule {}) ahead goal := by
  obtain ⟨first, rest, rfl, own⟩ := opens
  obtain ⟨second, rest, rfl⟩ : ∃ second more, rest = second :: more := by
    refine List.exists_cons_of_ne_nil fun none => ?_
    rw [none] at longer
    exact absurd longer (by simp)
  -- The statement rule looks at two tokens. The first opens an operand, which refutes every
  -- statement keyword; the second is no colon, which refutes the label.
  refine Reads.peek2.bind fun ⟨token, next⟩ ⟨isFirst, isSecond⟩ => ?_
  rw [← isFirst.kind] at own
  have noLabel : ¬(token.kind.isBindable ∧ next.kind = .symbol .colon) := by
    rw [isFirst.kind, isSecond.kind]
    exact fun label => noLabel _ _ _ rfl label.1 label.2
  dsimp only
  split
  all_goals try (rename_i is; rw [is] at own; exact absurd own (by decide))
  have other (kind : TokenKind) (closed : kind.opensOperand = false) : token.kind ≠ kind := by
    intro same
    rw [same, closed] at own
    cases own
  rw [if_neg fun async => other _ rfl async.1, if_neg fun isImport => other _ rfl isImport.1,
    if_neg fun isLet => other _ rfl isLet.1, if_neg noLabel]
  exact isExpr

/-- The round over the only statement. -/
theorem tells_stmtRound {depth : Nat} {described : Stmt → List Report → Prop}
    (opens : OpensOperand ahead)
    (isStmt : Reaches tape ((grammar depth).stmt {}) ahead (Tells tape after described)) :
    Reaches tape ((grammar depth).stmtRound {} [.eof] []) ahead (Tells tape after fun round told =>
      round.Holds (fun body => ∃ stmt, body = [stmt] ∧ described stmt told) fun _ => False) := by
  obtain ⟨first, rest, rfl, own⟩ := opens
  refine Reads.peek.bind fun token isFirst => Reads.takeComments.bind fun comments none => ?_
  subst none
  have noEnd : token.kind ≠ .eof := by
    intro same
    -- The end of the program opens no operand, so the round reads a statement and does not stop.
    rw [← isFirst.kind, same] at own
    cases own
  rw [if_neg fun mem => noEnd (List.mem_singleton.mp mem), if_neg noEnd]
  exact isStmt.bind_tells fun stmt told shown => Reads.skipComments.bind fun _ _ =>
    .pure_tells ⟨stmt, rfl, shown⟩

/-- The round at the end of the source. -/
theorem reads_lastRound {depth : Nat} (body : List Stmt) :
    Reads tape ((grammar depth).stmtRound {} [.eof] body) [Lexeme.eof] [Lexeme.eof]
      (Round.Holds (fun _ => False) (· = body)) := by
  refine Reads.peek.bind fun token isEnd => Reads.takeComments.bind fun comments none => ?_
  subst none
  have isEof : token.kind = .eof := isEnd.kind
  rw [if_pos (List.mem_singleton.mpr isEof)]
  exact .pure (List.append_nil body)

/-- An expression is read as a program. -/
theorem tells_program {depth : Nat} {lexemes : List Lexeme} (opens : OpensOperand lexemes)
    (noLabel : IsNoLabel (lexemes ++ ending)) (isEnding : IsEnding ending)
    (enough : (lexemes ++ ending).length < depth)
    (isExpr : ReachesExpr tape Precedence.comma [.symbol .semicolon] (lexemes ++ ending)
      (Tells tape ending described)) :
    Reaches tape (program (grammar (depth + 1))) (lexemes ++ ending) (Tells tape [] fun program told =>
      ∃ stmt found, program.body = [stmt] ∧ stmt.shape = .expr found ∧ described found told) := by
  have longer : 2 ≤ (lexemes ++ ending).length := by
    have operand := List.length_pos_iff.mpr opens.ne_nil
    rw [List.length_append]
    rcases isEnding with rfl | rfl <;> simp only [List.length_cons] <;> omega
  have shorter : [Lexeme.eof].length < (lexemes ++ ending).length := longer
  have isStmt : Reaches tape ((grammar (depth + 1)).stmt {}) (lexemes ++ ending)
      (Tells tape [Lexeme.eof] fun stmt told => ∃ found, stmt.shape = .expr found
        ∧ described found told) :=
    reaches_stmt (opens.append _) longer noLabel
      (tells_exprStmt (opens.append _).ne_nil enough isEnding isExpr)
  have rounds : Runs tape ((grammar (depth + 1)).stmtRound {} [.eof]) [] (lexemes ++ ending)
      (Tells tape [Lexeme.eof] fun body told => ∃ stmt found, body = [stmt] ∧ stmt.shape = .expr found
        ∧ described found told) := by
    -- One round reads the statement, the next one stops at the end of the program.
    refine .tells (tells_stmtRound (opens.append _) isStmt) shorter fun body told shown => ?_
    obtain ⟨stmt, isBody, found, shape, shown⟩ := shown
    exact (Runs.done (reads_lastRound body)).imp fun _ later ⟨there, same⟩ =>
      ⟨told, there, stmt, found, same.trans isBody, shape, shown⟩
  exact (Reads.skipComments.bind fun _ _ => Reaches.loop rounds).bind_tells fun body told shown =>
    Reaches.bind (Reads.require rfl) fun _ _ => .pure_tells shown

/-- An operation is read again as a program. -/
theorem reads_program {depth : Nat} (again : IsReread tape e)
    (enough : (exprLexemes Precedence.comma e ++ [ofSymbol .semicolon, Lexeme.eof]).length < depth) :
    Reads tape (program (grammar (depth + 1)))
      (exprLexemes Precedence.comma e ++ [ofSymbol .semicolon, Lexeme.eof]) []
      fun program => ∃ stmt, program.body = [stmt] ∧ IsStmtOf e stmt := by
  have opens := again.isOperation.opens.level Precedence.comma
  -- The expression is no label and opens no other statement, so it is read as one.
  have noLabel : IsNoLabel
      (exprLexemes Precedence.comma e ++ [ofSymbol .semicolon, Lexeme.eof]) :=
    (isNoLabel_level again.isOperation.isNoLabel _).append opens (by decide)
  have isExpr := again.whole [.symbol .semicolon] [ofSymbol .semicolon, Lexeme.eof] (by decide)
    ⟨_, _, rfl, rfl⟩
  refine (tells_program opens noLabel (.inl rfl) enough fun depth enough =>
    (isExpr depth enough).silent).imp ?_
  rintro program later ⟨_, there, stmt, found, body, shape, rfl, same⟩
  rw [Tape.telling_nil] at there
  exact ⟨there, stmt, body, found, shape, same⟩

end Parser

/-- The text of an operation that is printed as a statement. -/
theorem print_exprStmt {e : Expr} {span : Span} {text : String}
    (ran : (printExpr 0 .statementStart Precedence.comma e).run false = some (text, false)) :
    Program.print ⟨[⟨span, .expr e⟩]⟩ = text ++ ";\n" := by
  have stmt : (printStmt 0 ⟨span, .expr e⟩).run false = some (text ++ ";\n", false) :=
    (run_bind ran).trans rfl
  have stmts : (printStmts 0 [⟨span, .expr e⟩]).run false
      = some (indentation 0 ++ (text ++ ";\n") ++ "", false) :=
    (run_bind stmt).trans rfl
  rw [Program.print, Program.print?, stmts]
  simp [indentation, String.join]

/-- The text of an operation, printed as a statement, spells its tokens. -/
theorem Expr.IsOperation.spelled {e : Expr} (isOperation : e.IsOperation) (span : Span) :
    Spells (Program.print ⟨[⟨span, .expr e⟩]⟩).toList
      (exprLexemes Precedence.comma e ++ [ofSymbol .semicolon, Lexeme.eof]) := by
  obtain ⟨text, ran, printed⟩ := isOperation.prints 0 .statementStart Precedence.comma
  have ending : Spells (';' :: ['\n']) [ofSymbol .semicolon, Lexeme.eof] :=
    spells_closed .semicolon (by decide) (List.cons_ne_nil _ _) spells_lineBreak
  have whole := printed.spells ';' ['\n'] _ rfl (fun same => absurd same (by decide)) ending
  rw [print_exprStmt ran, String.toList_append]
  exact whole

section Sources

open Downlevel.Parser

variable {source : String} {lexemes ending : List Lexeme}

/-- The tokens of a source. -/
@[reducible]
def Tape.ofSource (spelled : Spells source.toList lexemes)
    (arrowless : ∀ lexeme ∈ lexemes, lexeme.kind ≠ .symbol .equalsChevronRight) : Tape where
  start := .ofString source
  lexemes := lexemes
  spelled := spelled
  arrowless := arrowless

/-- No arrow is plain or ends a source. -/
theorem arrowless_of_plain (plain : ArePlain lexemes) (isEnding : IsEnding ending) :
    ∀ lexeme ∈ lexemes ++ ending, lexeme.kind ≠ .symbol .equalsChevronRight := by
  intro lexeme mem
  rcases List.mem_append.mp mem with inside | inEnding
  · exact (plain lexeme inside).noArrow
  · rcases isEnding with rfl | rfl
    all_goals
      simp only [List.mem_cons, List.not_mem_nil, or_false] at inEnding
      rcases inEnding with rfl | rfl <;> simp [ofSymbol, Lexeme.eof]

/-- There are at most as many tokens as characters, and the end. -/
theorem length_le_source (plain : ArePlain lexemes) (isEnding : IsEnding ending)
    (spelled : Spells source.toList (lexemes ++ ending)) :
    (lexemes ++ ending).length ≤ source.toList.length + 1 := by
  rw [List.length_append]
  rcases isEnding with rfl | rfl
  · have semicolon : (ofSymbol .semicolon).IsPlain := isPlain_symbol (by decide)
    rw [List.append_cons] at spelled
    have le := length_le_of_spells spelled (arePlain_append.mpr ⟨plain, by simp [semicolon]⟩)
    rw [List.length_append] at le
    exact Nat.succ_le_succ le
  · exact Nat.succ_le_succ (length_le_of_spells spelled plain)

/-- A reader at the start of a source has all its tokens ahead. -/
theorem Tape.at_start (spelled : Spells source.toList lexemes)
    (arrowless : ∀ lexeme ∈ lexemes, lexeme.kind ≠ .symbol .equalsChevronRight)
    (short : lexemes.length ≤ source.toList.length + 1) :
    (Tape.ofSource spelled arrowless).At lexemes (.ofString source) where
  sound := Reader.sound_ofString source
  limit := Nat.lt_succ_of_le short
  taken := fun _ inside => absurd inside (Nat.not_lt_zero _)
  places := fun count small => by
    obtain rfl := Nat.le_zero.mp small
    rfl
  reports := rfl
  comments := rfl
  ahead := rfl

/-- A source of which the tokens are read as an expression is parsed as a statement of it, and what
was reported on the way is told. -/
theorem parse_exprStmt {described : Expr → List Report → Prop} (opens : OpensOperand lexemes)
    (noLabel : IsNoLabel (lexemes ++ ending)) (plain : ArePlain lexemes)
    (isEnding : IsEnding ending) (spelled : Spells source.toList (lexemes ++ ending))
    (isExpr : ∀ tape, ReachesExpr tape Precedence.comma [.symbol .semicolon] (lexemes ++ ending)
      (Tells tape ending described)) :
    ∃ span found reports, parse source = .ok ⟨⟨[⟨span, .expr found⟩]⟩, reports⟩
      ∧ described found reports := by
  -- The lexemes are no longer than the source, which bounds the depth that is needed.
  have short := length_le_source plain isEnding spelled
  have enough : (lexemes ++ ending).length < 2 * source.toList.length + 7 := by omega
  have stands := Tape.at_start spelled (arrowless_of_plain plain isEnding) short
  obtain ⟨program, later, ran, told, there, stmt, found, body, shape, shown⟩ :=
    (tells_program opens noLabel isEnding enough (isExpr _)).run _ stands
  obtain ⟨span, stmtShape⟩ := stmt
  obtain ⟨stmts⟩ := program
  obtain rfl : stmts = _ := body
  obtain rfl : stmtShape = _ := shape
  refine ⟨span, found, told, ?_, shown⟩
  unfold parse parseWithin parseDepth
  rw [ran]
  dsimp only
  rw [there.reports]
  rfl

end Sources

/-- The tokens of an operation that is printed as a statement. -/
@[reducible]
def Expr.IsOperation.tape {e : Expr} (isOperation : e.IsOperation) (span : Span) : Tape :=
  .ofSource (isOperation.spelled span)
    (arrowless_of_plain (arePlain_level isOperation.arePlain Precedence.comma) (.inl rfl))

/-- There are at most as many tokens as characters, and the end. -/
theorem Expr.IsOperation.length_tape {e : Expr} (isOperation : e.IsOperation) (span : Span) :
    (isOperation.tape span).lexemes.length
      ≤ (Program.print ⟨[⟨span, .expr e⟩]⟩).toList.length + 1 :=
  length_le_source (arePlain_level isOperation.arePlain _) (.inl rfl) (isOperation.spelled span)

/-- A reader at the start of the text has all the tokens ahead. -/
theorem Expr.IsOperation.at_start {e : Expr} (isOperation : e.IsOperation) (span : Span) :
    (isOperation.tape span).At (isOperation.tape span).lexemes
      (.ofString (Program.print ⟨[⟨span, .expr e⟩]⟩)) :=
  Tape.at_start _ _ (isOperation.length_tape span)

/-- Printing an operation as a statement and parsing the text gives the operation back, up to where
it and its operands come from, without anything to report. -/
theorem parse_print {e : Expr} (isOperation : e.IsOperation) (span : Span) :
    ∃ stmtSpan found, parse (Program.print ⟨[⟨span, .expr e⟩]⟩)
        = .ok ⟨⟨[⟨stmtSpan, .expr found⟩]⟩, []⟩
      ∧ found.unlocated = e.unlocated := by
  have enough : (isOperation.tape span).lexemes.length
      < 2 * (Program.print ⟨[⟨span, .expr e⟩]⟩).toList.length + 7 := by
    have fewer := isOperation.length_tape span
    omega
  -- The tape of the printed text has the printed lexemes, so the grammar reads them back with the
  -- depth the text's length gives.
  obtain ⟨program, later, ran, there, stmt, body, found, shape, same⟩ :=
    (Parser.reads_program (Parser.isReread isOperation) enough).run _ (isOperation.at_start span)
  obtain ⟨stmtSpan, stmtShape⟩ := stmt
  obtain ⟨stmts⟩ := program
  obtain rfl : stmts = _ := body
  obtain rfl : stmtShape = _ := shape
  refine ⟨stmtSpan, found, ?_, same⟩
  unfold parse parseWithin parseDepth
  rw [ran]
  dsimp only
  rw [there.reports]

/-- Parentheses around an operand, around a callee and around the end of a chain. -/
theorem parse_print_example :
    let origin : Origin := { span := ⟨0, 0⟩ }
    let left : Expr := ⟨origin, .binary .logicalOr ⟨origin, .id "a"⟩ ⟨origin, .id "b"⟩⟩
    let callee : Expr := ⟨origin, .call .plain false ⟨origin, .id "c"⟩ []⟩
    let chain : Expr := ⟨origin, .member .opens ⟨origin, .id "d"⟩ "e"⟩
    let arg : Arg := ⟨true, ⟨origin, .member .plain chain "f"⟩⟩
    let e : Expr := ⟨origin, .binary .nullishCoalescing left ⟨origin, .new callee [arg]⟩⟩
    Program.print ⟨[⟨⟨0, 0⟩, .expr e⟩]⟩ = "(a || b) ?? new (c())(...(d?.e).f);\n"
      ∧ e.IsOperation
      ∧ ∃ stmtSpan found, parse (Program.print ⟨[⟨⟨0, 0⟩, .expr e⟩]⟩)
          = .ok ⟨⟨[⟨stmtSpan, .expr found⟩]⟩, []⟩
        ∧ found.unlocated = e.unlocated := by
  intro origin left callee chain arg e
  -- The spellings of the names are evaluated once; what is left is one constructor for each form.
  have named (name : String) (read : (Lexer.first name).kind = .identifier
      ∧ (Lexer.first name).text = name) : Expr.IsOperation ⟨origin, .id name⟩ := .id read
  have memberNamed (name : String) (read : (Lexer.first name).kind.isMemberName = true
      ∧ (Lexer.first name).text = name) : IsMemberName name := read
  have isLeft : left.IsOperation :=
    .binary ⟨.symbol .barBar, rfl⟩ rfl (named "a" (by decide)) (named "b" (by decide +kernel))
  have isCallee : callee.IsOperation := .call nofun (named "c" (by decide)) nofun
  have isChain : chain.IsOperation := .member (memberNamed "e" (by decide)) nofun
    (named "d" (by decide))
  have isArg : arg.value.IsOperation := .member (memberNamed "f" (by decide)) nofun isChain
  have isOperation : e.IsOperation :=
    .binary ⟨.symbol .questionQuestion, rfl⟩ rfl isLeft
      (.new isCallee (List.forall_mem_singleton.mpr isArg))
  exact ⟨by decide, isOperation, parse_print isOperation ⟨0, 0⟩⟩

end Downlevel
