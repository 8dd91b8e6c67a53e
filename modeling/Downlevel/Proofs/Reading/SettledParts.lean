import Downlevel.Proofs.Reading.Settles

/-! Literals, patterns, functions and members come to an end. -/

namespace Downlevel.Parser

open Lexer

/-- The parts that the rules refer to are done with every place that leaves fewer characters than
there is room for. A statement needs room for one more, since it may be an expression. -/
structure Grammar.Settles (short : Prop) (extra room : Nat) (grammar other : Grammar) : Prop where
  expr : ∀ {base : Reader} {here : Cursor} {context : Context} {level : Nat}
    {stops : List TokenKind}, here.left < room →
    Takes short extra base here (grammar.expr context level stops) (other.expr context level stops)
  operand : ∀ {base : Reader} {here : Cursor} {context : Context} {stops : List TokenKind},
    here.left < room →
    Takes short extra base here (grammar.operand context stops) (other.operand context stops)
  suffix : ∀ {base : Reader} {here : Cursor} {context : Context} {left : Expr} {level : Nat}
    {stops : List TokenKind}, here.left < room →
    Lasts short extra base here (grammar.suffix context left level stops)
      (other.suffix context left level stops)
  pattern : ∀ {base : Reader} {here : Cursor} {context : Context}, here.left < room →
    Takes short extra base here (grammar.pattern context) (other.pattern context)
  stmt : ∀ {base : Reader} {here : Cursor} {context : Context}, here.left + 1 < room →
    Takes short extra base here (grammar.stmt context) (other.stmt context)

variable {short : Prop} {extra room : Nat} {grammar other : Grammar} {base : Reader}
variable {here place : Cursor} {context : Context} {stops : List TokenKind} {token : Token}

section Tokens

/-- The delimiters of a token may be cut off. -/
theorem settles_contents {front back : Nat} (cuts : Cuts front back token.text.toList) :
    Settles short extra base here (contents token front back) (contents token front back)
      fun _ place => place = here := by
  obtain ⟨inside, found⟩ := cuts.inner
  unfold contents
  rw [found]
  exact .pure rfl

/-- The quotes of a string are there, but its escapes may be malformed. -/
theorem settles_stringValue {mode : LexMode} (read : token = (step mode place).token)
    (isString : token.kind = .string) :
    Settles short extra base here (stringValue token) (stringValue token)
      fun _ place => place = here := by
  have cuts := step_delimited mode place
  rw [← read, isString] at cuts
  refine (settles_contents cuts).bind fun text behind same => ?_
  -- No slice is missing where the text is decoded.
  rw [Text.cook_eq_ok]
  cases Text.cook? text with
  | some value => exact .pure same
  | none => exact .fail

/-- The suffix of an integer literal is there. -/
theorem settles_bigintDigits {mode : LexMode} (read : token = (step mode place).token)
    (isBigint : token.kind = .bigint) :
    Settles short extra base here (bigintDigits token) (bigintDigits token)
      fun _ place => place = here := by
  have cuts := step_delimited mode place
  rw [← read, isBigint] at cuts
  exact settles_contents cuts

/-- Template text has its delimiters, those of the first part being the longer ones. -/
theorem settles_templateText {mode : LexMode} {isFirst : Bool}
    (read : token = (step mode place).token) (first : isFirst = true ↔ mode ≠ .template) :
    Settles short extra base here (templateText token isFirst) (templateText token isFirst)
      fun _ place => place = here := by
  have cuts := step_delimited mode place
  rw [← read] at cuts
  -- What is cut off in front depends on where the text starts, which the mode tells.
  have front : (if mode = .template then 0 else 1) = if isFirst = true then 1 else 0 := by
    by_cases inside : mode = .template <;> simp [inside, first]
  unfold templateText
  cases kind : token.kind with
  | templatePart =>
    rw [kind, opening, front] at cuts
    exact (settles_contents cuts).bind fun text behind same => .pure same
  | templateEnd =>
    rw [kind, opening, front] at cuts
    exact (settles_contents cuts).bind fun text behind same => .pure same
  | _ => exact .fail

/-- A word that can be bound is not the end of the source. -/
theorem step_bindable_left_lt (bindable : (step .standard here).token.kind.isBindable = true) :
    (step .standard here).next.left < here.left := by
  refine step_left_lt nofun fun ends => ?_
  rw [ends] at bindable
  cases bindable

/-- A name may be missing, and more depth changes nothing. -/
theorem lasts_bindingName? : Lasts short extra base here bindingName? bindingName? :=
  .peek <| .ite (fun _ => .take <| .pure (step_left_le .standard here)) fun _ =>
    .pure (Nat.le_refl _)

/-- Reading a name that is bound takes some text, and more depth changes nothing. -/
theorem takes_bindingId : Takes short extra base here bindingId bindingId :=
  .spanned <| .take <| .ite (fun bindable => .pure (step_bindable_left_lt bindable)) fun _ => .fail

/-- Reading a key that is a single token takes some text, and more depth changes nothing. -/
theorem takes_directKey : Takes short extra base here directKey directKey := by
  refine Settles.bind (.spanned ?_) fun _ _ less => .pure less
  refine .take ?_
  -- A key is one token, and the end of the file is none.
  have less (goesOn : (step .standard here).token.kind ≠ .eof) :
      (step .standard here).next.left < here.left :=
    step_left_lt nofun goesOn
  cases kind : (step .standard here).token.kind with
  | string =>
    have less := less (by rw [kind]; nofun)
    exact (settles_stringValue rfl kind).bind fun _ _ same => .pure (same ▸ less)
  | number => exact .pure (less (by rw [kind]; nofun))
  | bigint =>
    have less := less (by rw [kind]; nofun)
    exact (settles_bigintDigits rfl kind).bind fun _ _ same => .pure (same ▸ less)
  | privateName => exact .pure (less (by rw [kind]; nofun))
  | identifier => exact .pure (less (by rw [kind]; nofun))
  | keyword word => exact .pure (less (by rw [kind]; nofun))
  | _ => exact .fail

end Tokens

/-! Each part below is done with every place that the parts of the grammar are done with. -/

variable (parts : grammar.Settles short extra room other) (inside : here.left < room)
include parts inside

section Literals

omit inside in
/-- An expression in parentheses. -/
theorem takes_grouping (first : here.left ≤ room) :
    Takes short extra base here (grammar.grouping context) (other.grouping context) := by
  refine Settles.symbol.bind fun _ start less₁ => ?_
  refine (parts.expr (by omega)).bind fun inner stop less₂ => ?_
  refine Settles.symbol.bind fun _ behind less₃ => ?_
  exact .pure (by omega)

/-- So does the head of a statement. -/
theorem takes_headExpr :
    Takes short extra base here (grammar.headExpr context) (other.headExpr context) := by
  refine Settles.symbol.bind fun _ start less₁ => ?_
  refine (parts.expr (by omega)).bind fun inner stop less₂ => ?_
  refine Settles.symbol.bind fun _ behind less₃ => ?_
  exact .pure (by omega)

/-- Reading the expression after an equals sign, if there is one gives no text back, and more depth
changes nothing. -/
theorem lasts_initializer :
    Lasts short extra base here (grammar.initializer context stops)
      (other.initializer context stops) := by
  refine (Settles.accept (by nofun)).bind fun has start shows => ?_
  refine .ite (fun _ => ?_) fun _ => .pure shows.1
  refine (parts.expr (by omega)).bind fun value behind less => ?_
  exact .pure (by omega)

/-- Reading one argument takes some text, and more depth changes nothing. -/
theorem takes_argument :
    Takes short extra base here (grammar.argument context) (other.argument context) := by
  refine (Settles.accept (by nofun)).bind fun isSpread start shows => ?_
  refine (parts.expr (by omega)).bind fun value behind less => ?_
  exact .pure (by omega)

/-- Reading arguments after the opening parenthesis, through the closing one takes some text, and
more depth changes nothing. -/
theorem takes_arguments :
    Takes short extra base here (grammar.arguments context) (other.arguments context) := by
  have args : Lasts short extra base here
      (commaList .parenthesisClose (grammar.argument context))
      (commaList .parenthesisClose (other.argument context)) :=
    .commaList fun place no_more => takes_argument parts (by omega)
  refine args.bind fun args stop no_more => ?_
  refine Settles.symbol.bind fun _ behind less => ?_
  exact .pure (by omega)

/-- A round over the elements of an array literal goes on only if it took some text. -/
theorem rounds_array {items : List ArrayItem} :
    Rounds short extra base here (grammar.arrayRound context items)
      (other.arrayRound context items) := by
  refine (Settles.accept (by nofun)).bind fun isHole behind shows => ?_
  refine .ite (fun isHole => .pure (shows.2 isHole)) fun _ => ?_
  refine .nextIs fun isDone => .ite (fun _ => .pure shows.1) fun _ => ?_
  refine (Settles.accept (by nofun)).bind fun isSpread start spread => ?_
  refine (parts.expr (by omega)).bind fun value stop less₁ => ?_
  refine .nextIs fun isDone => .ite (fun _ => .pure (Nat.le_of_lt (by omega))) fun _ => ?_
  refine Settles.symbol.bind fun _ further less₂ => ?_
  exact .pure (show further.left < here.left by omega)

omit inside in
/-- Reading an array literal takes some text, and more depth changes nothing. -/
theorem takes_arrayExpr (first : here.left ≤ room) :
    Takes short extra base here (grammar.arrayExpr context) (other.arrayExpr context) := by
  refine Settles.bind (.spanned ?_) fun _ _ less => .pure less
  refine Settles.symbol.bind fun _ start less₁ => ?_
  have items : Lasts short extra base start (grammar.arrayItems context.allowIn)
      (other.arrayItems context.allowIn) :=
    .loop fun items place no_more => rounds_array parts (by omega)
  refine items.bind fun items stop no_more => ?_
  refine Settles.symbol.bind fun _ behind less₂ => ?_
  exact .pure (by omega)

/-- A round over the substitutions of a template goes on only if it took some text. -/
theorem rounds_template {spans : List TemplateSpan} :
    Rounds short extra base here (grammar.templateRound context spans)
      (other.templateRound context spans) := by
  refine (parts.expr (by omega)).bind fun value stop less₁ => ?_
  refine Settles.symbol.bind fun _ start less₂ => ?_
  -- The text behind the expression takes at least as much as the brace.
  have no_more := step_left_le .template start
  refine .takeIn <| (settles_templateText rfl (by simp)).bind ?_
  rintro ⟨text, isEnd⟩ _ rfl
  have less : (step .template start).next.left < here.left := by omega
  refine .pure ?_
  -- The last text ends the loop, and any other one starts another round.
  cases isEnd with
  | false => exact less
  | true => exact Nat.le_of_lt less

/-- Behind the first token of a template. -/
theorem lasts_templateRest (mode : LexMode) (read : token = (step mode place).token)
    (outside : mode ≠ .template) :
    Lasts short extra base here (grammar.templateRest context token)
      (other.templateRest context token) := by
  refine (settles_templateText read (by simp [outside])).bind ?_
  rintro ⟨head, isEnd⟩ _ rfl
  -- A template without substitutions is one token; else spans follow until one of them is the last.
  refine .ite (fun _ => .pure (Nat.le_refl _)) fun _ => ?_
  rename_i start _
  have spans : Lasts short extra base start (grammar.templateSpans context.allowIn)
      (other.templateSpans context.allowIn) :=
    .loop fun spans place no_more => rounds_template parts (by omega)
  exact spans.bind fun _ _ no_more => .pure no_more

/-- Reading a template without a tag gives no text back, and more depth changes nothing. -/
theorem lasts_templateExpr (mode : LexMode) (read : token = (step mode place).token)
    (outside : mode ≠ .template) :
    Lasts short extra base here (grammar.templateExpr context token)
      (other.templateExpr context token) := by
  refine (lasts_templateRest parts inside mode read outside).bind fun _ behind no_more => ?_
  exact .lastEnd fun _ => .pure no_more

/-- Reading a template behind its tag gives no text back, and more depth changes nothing. -/
theorem lasts_taggedTemplate {tag : Expr} (mode : LexMode)
    (read : token = (step mode place).token) (outside : mode ≠ .template) :
    Lasts short extra base here (grammar.taggedTemplate context tag token)
      (other.taggedTemplate context tag token) := by
  refine (lasts_templateRest parts inside mode read outside).bind fun _ behind no_more => ?_
  exact .lastEnd fun _ => .pure no_more

end Literals

section Patterns

/-- Reading a key takes some text, and more depth changes nothing. -/
theorem takes_key : Takes short extra base here (grammar.key context) (other.key context) := by
  refine (Settles.accept (by nofun)).bind fun isComputed start shows => ?_
  refine .ite (fun _ => ?_) fun _ => ?_
  · refine (parts.expr (by omega)).bind fun value stop less₁ => ?_
    refine Settles.symbol.bind fun _ behind less₂ => ?_
    exact .pure (by omega)
  · refine takes_directKey.bind fun key behind less => ?_
    exact .pure (by omega)

omit parts inside in
/-- A shorthand binds the name that its key is, without more text. -/
theorem settles_shorthandTarget {key : Key} :
    Settles short extra base here (shorthandTarget key) (shorthandTarget key)
      fun _ place => place = here := by
  cases key with
  | direct name => exact .ite (fun _ => .pure rfl) fun _ => .fail
  | computed value => exact .fail

/-- Reading one property of an object pattern takes some text, and more depth changes nothing. -/
theorem takes_patternProperty :
    Takes short extra base here (grammar.patternProperty context)
      (other.patternProperty context) := by
  refine Settles.bind (.spanned ?_) fun _ _ less => .pure less
  refine (takes_key parts inside).bind fun key place less₁ => ?_
  refine (Settles.accept (by nofun)).bind fun isLonger start shows => ?_
  -- What comes behind the target, however that is found.
  have rest (target : Pattern) {stop : Cursor} (no_more : stop.left ≤ start.left) :
      Lasts short extra base stop
        (do return (key, target, !isLonger, ← grammar.initializer context
          [.symbol .comma, .symbol .braceClose]))
        (do return (key, target, !isLonger, ← other.initializer context
          [.symbol .comma, .symbol .braceClose])) :=
    (lasts_initializer parts (by omega)).bind fun default behind no_more => .pure no_more
  refine .ite (fun _ => ?_) fun _ => ?_
  · refine settles_shorthandTarget.bind ?_
    rintro target _ rfl
    exact (rest target (Nat.le_refl _)).weaken fun _ _ no_more => by omega
  · refine (parts.pattern (by omega)).bind fun target stop less₂ => ?_
    exact (rest target (Nat.le_of_lt less₂)).weaken fun _ _ no_more => by omega

/-- A round over the properties of an object pattern goes on only if it took some text. -/
theorem rounds_property {properties : List PatternProperty} :
    Rounds short extra base here (grammar.propertyRound context properties)
      (other.propertyRound context properties) := by
  -- The closing brace ends the loop, a rest is the last property, and any other one takes
  -- something.
  refine .nextIs fun isDone => .ite (fun _ => .pure (Nat.le_refl _)) fun _ => ?_
  refine (Settles.accept (by nofun)).bind fun isRest start shows => ?_
  refine .ite (fun _ => ?_) fun _ => ?_
  · refine (parts.pattern (by omega)).bind fun rest behind less => ?_
    exact .pure (show behind.left ≤ here.left by omega)
  · refine (takes_patternProperty parts (by omega)).bind fun property stop less => ?_
    refine (Settles.accept (by nofun)).bind fun isMore behind further => ?_
    have less : behind.left < here.left := by omega
    exact .ite (fun _ => .pure less) fun _ => .pure (Nat.le_of_lt less)

omit inside in
/-- Reading an object pattern takes some text, and more depth changes nothing. -/
theorem takes_objectPattern (first : here.left ≤ room) :
    Takes short extra base here (grammar.objectPattern context)
      (other.objectPattern context) := by
  refine Settles.bind (.spanned ?_) fun _ _ less => .pure less
  refine Settles.symbol.bind fun _ start less₁ => ?_
  have properties : Lasts short extra base start (grammar.patternProperties context.allowIn)
      (other.patternProperties context.allowIn) :=
    .loop fun properties place no_more => rounds_property parts (by omega)
  refine properties.bind fun found stop no_more => ?_
  refine Settles.symbol.bind fun _ behind less₂ => ?_
  exact .pure (by omega)

/-- A round over the elements of an array pattern goes on only if it took some text. -/
theorem rounds_slot {slots : List PatternSlot} :
    Rounds short extra base here (grammar.slotRound context slots)
      (other.slotRound context slots) := by
  -- The closing bracket ends the loop, a rest is the last slot, and a hole takes its comma.
  refine .nextIs fun isDone => .ite (fun _ => .pure (Nat.le_refl _)) fun _ => ?_
  refine (Settles.accept (by nofun)).bind fun isRest start rest => ?_
  refine .ite (fun _ => ?_) fun _ => ?_
  · refine (parts.pattern (by omega)).bind fun rest behind less => ?_
    exact .pure (show behind.left ≤ here.left by omega)
  · refine (Settles.accept (by nofun)).bind fun isHole first hole => ?_
    refine .ite (fun isHole => ?_) fun _ => ?_
    · have less := hole.2 isHole
      exact .pure (show first.left < here.left by omega)
    · refine (parts.pattern (by omega)).bind fun target second less => ?_
      refine (lasts_initializer parts (by omega)).bind fun default stop no_more => ?_
      refine (Settles.accept (by nofun)).bind fun isMore behind further => ?_
      have less : behind.left < here.left := by omega
      exact .ite (fun _ => .pure less) fun _ => .pure (Nat.le_of_lt less)

omit inside in
/-- Reading an array pattern takes some text, and more depth changes nothing. -/
theorem takes_arrayPattern (first : here.left ≤ room) :
    Takes short extra base here (grammar.arrayPattern context)
      (other.arrayPattern context) := by
  refine Settles.bind (.spanned ?_) fun _ _ less => .pure less
  refine Settles.symbol.bind fun _ start less₁ => ?_
  have slots : Lasts short extra base start (grammar.patternSlots context.allowIn)
      (other.patternSlots context.allowIn) :=
    .loop fun slots place no_more => rounds_slot parts (by omega)
  refine slots.bind fun found stop no_more => ?_
  refine Settles.symbol.bind fun _ behind less₂ => ?_
  exact .pure (by omega)

end Patterns

section Functions

/-- Reading a parameter takes some text, and more depth changes nothing. -/
theorem takes_param :
    Takes short extra base here (grammar.param context) (other.param context) := by
  refine Settles.bind (.spanned ?_) fun _ _ less => .pure less
  refine (Settles.accept (by nofun)).bind fun isRest start shows => ?_
  refine (parts.pattern (by omega)).bind fun pattern stop less => ?_
  refine (lasts_initializer parts (by omega)).bind fun default behind no_more => ?_
  exact .pure (by omega)

/-- A round over parameters goes on only if it took some text. -/
theorem rounds_param {params : List Param} :
    Rounds short extra base here (grammar.paramRound context params)
      (other.paramRound context params) := by
  refine .nextIs fun isDone => .ite (fun _ => .pure (Nat.le_refl _)) fun _ => ?_
  refine (takes_param parts inside).bind fun param stop less => ?_
  refine .ite (fun _ => .pure (Nat.le_of_lt less)) fun _ => ?_
  refine (Settles.accept (by nofun)).bind fun isMore behind shows => ?_
  have less : behind.left < here.left := by omega
  exact .ite (fun _ => .pure less) fun _ => .pure (Nat.le_of_lt less)

omit inside in
/-- Reading parameters takes some text, and more depth changes nothing. -/
theorem takes_params (first : here.left ≤ room) :
    Takes short extra base here (grammar.params context) (other.params context) := by
  refine Settles.symbol.bind fun _ start less₁ => ?_
  have params : Lasts short extra base start (loop (grammar.paramRound context.allowIn) [])
      (loop (other.paramRound context.allowIn) []) :=
    .loop fun params place no_more => rounds_param parts (by omega)
  refine params.bind fun params stop no_more => ?_
  refine Settles.symbol.bind fun _ behind less₂ => ?_
  exact .pure (by omega)

omit inside in
/-- The statements of a list; each of them takes something. -/
theorem rounds_stmt (inside : here.left + 1 < room) {ends : List TokenKind} {body : List Stmt} :
    Rounds short extra base here (grammar.stmtRound context ends body)
      (other.stmtRound context ends body) := by
  refine .peek <| Settles.takeComments.bind ?_
  rintro comments _ rfl
  refine .ite (fun _ => .pure (Nat.le_refl _)) fun _ => .check fun _ => ?_
  refine (parts.stmt inside).bind fun stmt behind less => ?_
  refine Settles.skipComments.bind ?_
  rintro _ _ rfl
  exact .pure less

omit inside in
/-- Reading the statements of a list gives no text back, and more depth changes nothing. -/
theorem lasts_stmtList (inside : here.left + 1 < room) {ends : List TokenKind} :
    Lasts short extra base here (grammar.stmtList context ends)
      (other.stmtList context ends) := by
  refine Settles.skipComments.bind ?_
  rintro _ _ rfl
  exact .loop fun body place no_more => rounds_stmt parts (by omega)

/-- Reading statements in braces takes some text, and more depth changes nothing. -/
theorem takes_braces :
    Takes short extra base here (grammar.braces context) (other.braces context) := by
  refine Settles.symbol.bind fun _ start less₁ => ?_
  refine (lasts_stmtList parts (by omega)).bind fun body stop no_more => ?_
  refine Settles.symbol.bind fun _ behind less₂ => ?_
  exact .pure (by omega)

/-- Reading statements in braces takes some text, and more depth changes nothing. -/
theorem takes_block :
    Takes short extra base here (grammar.block context) (other.block context) :=
  Settles.bind (.spanned (takes_braces parts inside)) fun _ _ less => .pure less

/-- Reading the statements of a function body takes some text, and more depth changes nothing. -/
theorem takes_functionBody :
    Takes short extra base here (grammar.functionBody context) (other.functionBody context) :=
  takes_braces parts inside

/-- Reading the parameters and the body of a function that is no arrow takes some text, and more
depth changes nothing. -/
theorem takes_functionRest {isAsync isGenerator : Bool} :
    Takes short extra base here (grammar.functionRest context isAsync isGenerator)
      (other.functionRest context isAsync isGenerator) := by
  refine Settles.bind (.spanned ?_) fun _ _ less => .pure less
  refine (takes_params parts (by omega)).bind fun params start less₁ => ?_
  refine (takes_functionBody parts (by omega)).bind fun body behind less₂ => ?_
  exact .pure (by omega)

omit parts inside in
/-- Reading the words in front of the parameters takes some text, and more depth changes nothing. -/
theorem takes_functionHead : Takes short extra base here functionHead functionHead := by
  refine (Settles.accept (by nofun)).bind fun isAsync start async => ?_
  refine Settles.keyword.bind fun _ second less => ?_
  refine (Settles.accept (by nofun)).bind fun isGenerator third generator => ?_
  refine lasts_bindingName?.bind fun name behind no_more => ?_
  exact .pure (by omega)

omit inside in
/-- Reading a function as an expression takes some text, and more depth changes nothing. -/
theorem takes_functionExpr (first : here.left ≤ room) :
    Takes short extra base here (grammar.functionExpr context)
      (other.functionExpr context) := by
  refine Settles.bind (.spanned ?_) fun _ _ less => .pure less
  refine takes_functionHead.bind fun head start less₁ => ?_
  refine (takes_functionRest parts (by omega)).bind fun func behind less₂ => ?_
  exact .pure (by omega)

omit inside in
/-- Reading the parameters of an arrow takes some text, and more depth changes nothing. -/
theorem takes_arrowParams (first : here.left ≤ room) :
    Takes short extra base here (grammar.arrowParams context)
      (other.arrowParams context) := by
  refine .peek <| .ite (fun bindable => ?_) fun _ => takes_params parts first
  exact .take <| .pure (step_bindable_left_lt bindable)

omit inside in
/-- Reading an arrow function from its parameters, or the word in front of them, on takes some text,
and more depth changes nothing. -/
theorem takes_arrowExpr (first : here.left ≤ room) :
    Takes short extra base here (grammar.arrowExpr context stops)
      (other.arrowExpr context stops) := by
  refine Settles.bind (.spanned ?_) fun _ _ less => .pure less
  refine .peek2 ?_
  -- What comes behind the word for asynchronous functions, if that is there.
  have rest (isAsync : Bool) {start : Cursor} (no_more : start.left ≤ here.left) :
      Takes short extra base start
        (do
          let params ← grammar.arrowParams context
          let arrow ← require (.symbol .equalsChevronRight)
          if arrow.afterLineBreak then fail (arrow.error .lineBreakBeforeArrow)
          let body ←
            if ← nextIs .braceOpen then
              Body.block <$> grammar.functionBody (context.generator false)
            else Body.value <$> grammar.element (context.generator false) stops
          return (isAsync, params, body))
        (do
          let params ← other.arrowParams context
          let arrow ← require (.symbol .equalsChevronRight)
          if arrow.afterLineBreak then fail (arrow.error .lineBreakBeforeArrow)
          let body ←
            if ← nextIs .braceOpen then
              Body.block <$> other.functionBody (context.generator false)
            else Body.value <$> other.element (context.generator false) stops
          return (isAsync, params, body)) := by
    refine (takes_arrowParams parts (by omega)).bind fun params second less₁ => ?_
    refine (Settles.require (by nofun)).bind fun arrow third less₂ => ?_
    refine .check fun _ => ?_
    refine .nextIs fun isBlock => .ite (fun _ => ?_) fun _ => ?_
    · refine Settles.bind (.map (takes_functionBody parts (by omega))) fun body behind less₃ => ?_
      exact .pure (by omega)
    · refine Settles.bind (.map (parts.expr (by omega))) fun body behind less₃ => ?_
      exact .pure (by omega)
  refine .ite (fun _ => .take ?_) fun _ => rest _ (Nat.le_refl _)
  have no_more := step_left_le .standard here
  exact (rest _ no_more).weaken fun _ _ less => by omega

omit parts inside in
/-- How a try to read an arrow function ends. -/
theorem arrowExpr?_eq (reader : Reader) :
    grammar.arrowExpr? context stops reader = match grammar.arrowExpr context stops reader with
      | .ok arrow later => .ok (some arrow) later
      | .error .exhausted later => .error .exhausted later
      | .error (.malformed error) later =>
        if error.fault = .lineBreakBeforeArrow then .error (.malformed error) later
        else .ok none { later with
          next := reader.next
          reports := later.reports.take reader.reports.length } := by
  -- The attempt goes back to where the reader was, and drops what was reported meanwhile.
  simp only [Grammar.arrowExpr?, Bind.bind, EStateM.bind, attempt, checkpoint_run]
  cases grammar.arrowExpr context stops reader with
  | ok arrow later => rfl
  | error failure later =>
    cases failure with
    | exhausted => rfl
    | malformed error =>
      dsimp only
      split
      · rfl
      · rfl

omit inside in
/-- An arrow function that may be none: then the reader stands where it stood. -/
theorem settles_arrowExpr? (first : here.left ≤ room) :
    Settles short extra base here (grammar.arrowExpr? context stops)
      (other.arrowExpr? context stops) fun result place =>
        if result.isSome then place.left < here.left else place = here := by
  rintro reader keeps rfl
  -- Both parsers try the arrow, and end in the same way unless the short one runs out of fuel.
  have ran := @takes_arrowExpr _ _ _ _ _ reader _ context stops parts first reader
    (.refl keeps.sound) rfl
  rw [arrowExpr?_eq, arrowExpr?_eq]
  generalize grammar.arrowExpr context stops reader = run at ran ⊢
  generalize other.arrowExpr context stops (reader.widen extra) = wide at ran ⊢
  -- A malformed attempt is either final, or both sides go back to the same place.
  cases ran with
  | ok goesOn less => exact .ok (keeps.trans goesOn) less
  | exhausted isShort => exact .exhausted isShort
  | malformed goesOn =>
    dsimp only
    split
    · exact .malformed (keeps.trans goesOn)
    · obtain ⟨goesBack, stands, -⟩ := goesOn.back
      exact .ok (keeps.trans goesBack) stands

end Functions

section Members

omit parts inside in
/-- What comes behind a look for a word that is itself the key. -/
theorem settles_nextIsKey {β : Type} {final : β → Cursor → Prop} {rest rest' : Bool → Parser β}
    (holds : ∀ isKey, Settles short extra base here (rest isKey) (rest' isKey) final) :
    Settles short extra base here (nextIsKey >>= rest) (nextIsKey >>= rest') final := by
  have looked : Settles short extra base here nextIsKey nextIsKey fun _ place => place = here :=
    .peek2 <| .pure rfl
  refine looked.bind ?_
  rintro isKey _ rfl
  exact holds isKey

omit parts inside in
/-- Reading the word that makes a function asynchronous, on the same line as what follows gives no
text back, and more depth changes nothing. -/
theorem lasts_asyncModifier : Lasts short extra base here asyncModifier asyncModifier := by
  refine .peek <| .ite (fun _ => .pure (Nat.le_refl _)) fun _ => ?_
  refine settles_nextIsKey fun isKey => .ite (fun _ => .pure (Nat.le_refl _)) fun _ => ?_
  refine .peek2 <| .ite (fun _ => .pure (Nat.le_refl _)) fun _ => ?_
  exact .take <| .pure (step_left_le .standard here)

omit parts inside in
/-- Reading the word that makes a method an accessor gives no text back, and more depth changes
nothing. -/
theorem lasts_accessorModifier :
    Lasts short extra base here accessorModifier accessorModifier := by
  refine .peek <| .ite (fun _ => .pure (Nat.le_refl _)) fun _ => ?_
  refine settles_nextIsKey fun isKey => .ite (fun _ => .pure (Nat.le_refl _)) fun _ => ?_
  exact .take <| .pure (step_left_le .standard here)

omit parts inside in
/-- Reading the words in front of a member key gives no text back, and more depth changes
nothing. -/
theorem lasts_modifiers : Lasts short extra base here modifiers modifiers := by
  refine lasts_asyncModifier.bind fun isAsync second no_more₁ => ?_
  refine (Settles.accept (by nofun)).bind fun isGenerator third shows => ?_
  refine .ite (fun _ => .pure (by omega)) fun _ => ?_
  refine lasts_accessorModifier.bind fun kind behind no_more₂ => ?_
  exact .pure (by omega)

omit parts inside in
/-- Whether words may stand in front of a key is decided without more text. -/
theorem settles_requirePlain {modifiers : Modifiers} :
    Settles short extra base here (requirePlain modifiers) (requirePlain modifiers)
      fun _ place => place = here :=
  .ite (fun _ => .peek .fail) fun _ => .pure rfl

/-- Reading a method or an accessor, from its parameters on takes some text, and more depth changes
nothing. -/
theorem takes_methodValue {modifiers : Modifiers} :
    Takes short extra base here (grammar.methodValue context modifiers)
      (other.methodValue context modifiers) :=
  (takes_functionRest parts inside).bind fun _ _ less => .pure less

/-- Reading a member of an object literal takes some text, and more depth changes nothing. -/
theorem takes_objectMemberContent :
    Takes short extra base here (grammar.objectMemberContent context)
      (other.objectMemberContent context) := by
  refine (Settles.accept (by nofun)).bind fun isSpread second spread => ?_
  refine .ite (fun _ => ?_) fun _ => ?_
  · -- A spread, a method, a value, or a name on its own, which may have a default.
    refine (parts.expr (by omega)).bind fun value behind less => ?_
    exact .pure (by omega)
  refine lasts_modifiers.bind fun modifiers third no_more => ?_
  refine .peek <| (takes_key parts (by omega)).bind fun key fourth less => ?_
  refine .nextIs fun isMethod => .ite (fun _ => ?_) fun _ => ?_
  · refine (takes_methodValue parts (by omega)).bind fun value behind less => ?_
    exact .pure (by omega)
  refine settles_requirePlain.bind ?_
  rintro _ _ rfl
  refine (Settles.accept (by nofun)).bind fun hasValue fifth value => ?_
  refine .ite (fun _ => ?_) fun _ => .check fun _ => ?_
  · refine (parts.expr (by omega)).bind fun value behind less => ?_
    exact .pure (by omega)
  refine (Settles.accept (by nofun)).bind fun hasDefault sixth default => ?_
  refine .ite (fun _ => ?_) fun _ => .pure (by omega)
  refine (parts.expr (by omega)).bind fun value behind less => ?_
  exact .pure (by omega)

/-- Reading a member of an object literal takes some text, and more depth changes nothing. -/
theorem takes_objectMember :
    Takes short extra base here (grammar.objectMember context) (other.objectMember context) :=
  Settles.bind (.spanned (takes_objectMemberContent parts inside)) fun _ _ less => .pure less

omit inside in
/-- Reading an object literal takes some text, and more depth changes nothing. -/
theorem takes_objectExpr (first : here.left ≤ room) :
    Takes short extra base here (grammar.objectExpr context) (other.objectExpr context) := by
  refine Settles.bind (.spanned ?_) fun _ _ less => .pure less
  refine Settles.symbol.bind fun _ start less₁ => ?_
  have members : Lasts short extra base start
      (commaList .braceClose (grammar.objectMember context.allowIn))
      (commaList .braceClose (other.objectMember context.allowIn)) :=
    .commaList fun place no_more => takes_objectMember parts (by omega)
  refine members.bind fun members stop no_more => ?_
  refine Settles.symbol.bind fun _ behind less₂ => ?_
  exact .pure (by omega)

/-- Reading a static initialization block takes some text, and more depth changes nothing. -/
theorem takes_staticBlock :
    Takes short extra base here (grammar.staticBlock context) (other.staticBlock context) :=
  Settles.bind (.spanned (takes_functionBody parts inside)) fun _ _ less => .pure less

omit parts inside in
/-- What comes behind a look for the word that gives a field accessors. -/
theorem settles_accessorFieldNext {β : Type} {final : β → Cursor → Prop}
    {rest rest' : Bool → Parser β}
    (holds : ∀ isAccessor, Settles short extra base here (rest isAccessor) (rest' isAccessor) final) :
    Settles short extra base here (Grammar.accessorFieldNext >>= rest) (Grammar.accessorFieldNext >>= rest')
      final := by
  -- Looking at two tokens takes none of them.
  have looked : Settles short extra base here Grammar.accessorFieldNext Grammar.accessorFieldNext
      fun _ place => place = here := by
    refine .peek2 ?_
    refine .ite (fun _ => .pure rfl) fun _ => ?_
    exact settles_nextIsKey fun _ => .pure rfl
  refine looked.bind ?_
  rintro isAccessor _ rfl
  exact holds isAccessor

omit parts inside in
/-- What comes behind a look for the word that makes a member static; the word is a token. -/
theorem settles_staticNext {β : Type} {final : β → Cursor → Prop} {rest rest' : Bool → Parser β}
    (holds : ∀ isStatic, Settles short extra base here (rest isStatic) (rest' isStatic) final) :
    Settles short extra base here (Grammar.staticNext >>= rest) (Grammar.staticNext >>= rest') final := by
  have looked : Settles short extra base here Grammar.staticNext Grammar.staticNext
      fun _ place => place = here := by
    refine .peek ?_
    refine .ite (fun _ => .pure rfl) fun _ => ?_
    exact settles_nextIsKey fun _ => .pure rfl
  refine looked.bind ?_
  rintro isStatic _ rfl
  exact holds isStatic

/-- Reading the key and the value of a class member takes some text, and more depth changes
nothing. -/
theorem takes_classMemberContent :
    Takes short extra base here (grammar.classMemberContent context)
      (other.classMemberContent context) := by
  -- What comes behind the words in front of the key.
  have rest (isAccessor : Bool) (modifiers : Modifiers) {start : Cursor}
      (no_more : start.left ≤ here.left) :
      Takes short extra base start
        (do
          let key ← grammar.key context
          if !isAccessor && (← nextIs .parenthesisOpen) then
            return (key, ← grammar.methodValue (context.generator false) modifiers)
          requirePlain modifiers
          let init ← grammar.initializer (context.allowIn.generator false)
            [.symbol .semicolon, .symbol .braceClose]
          endStatement
          return (key, if isAccessor then MemberValue.accessor init else .field init))
        (do
          let key ← other.key context
          if !isAccessor && (← nextIs .parenthesisOpen) then
            return (key, ← other.methodValue (context.generator false) modifiers)
          requirePlain modifiers
          let init ← other.initializer (context.allowIn.generator false)
            [.symbol .semicolon, .symbol .braceClose]
          endStatement
          return (key, if isAccessor then MemberValue.accessor init else .field init)) := by
    refine (takes_key parts (by omega)).bind fun key second less => ?_
    refine .nextIs fun isMethod => .ite (fun _ => ?_) fun _ => ?_
    · refine (takes_methodValue parts (by omega)).bind fun value behind less => ?_
      exact .pure (by omega)
    refine settles_requirePlain.bind ?_
    rintro _ _ rfl
    refine (lasts_initializer parts (by omega)).bind fun init third no_more => ?_
    refine Settles.endStatement.bind fun _ behind no_more => ?_
    exact .pure (by omega)
  have less (isAccessor : Bool) (modifiers : Modifiers) {start : Cursor}
      (no_more : start.left ≤ here.left) :=
    (rest isAccessor modifiers no_more).weaken fun _ place less => Nat.lt_of_lt_of_le less no_more
  refine settles_accessorFieldNext fun isAccessor => .ite (fun _ => .take ?_) fun _ => ?_
  · have no_more := step_left_le .standard here
    refine .ite (fun _ => less _ _ no_more) fun _ => ?_
    exact lasts_modifiers.bind fun modifiers start further => less _ _ (by omega)
  · refine .ite (fun _ => less _ _ (Nat.le_refl _)) fun _ => ?_
    exact lasts_modifiers.bind fun modifiers start further => less _ _ further

/-- Reading a member of a class takes some text, and more depth changes nothing. -/
theorem takes_classMember :
    Takes short extra base here (grammar.classMember context) (other.classMember context) := by
  refine Settles.bind (.spanned ?_) fun _ _ less => .pure less
  -- Whether static or not, what is left of the member takes something.
  have content (isStatic : Bool) {start : Cursor} (no_more : start.left ≤ here.left) :
      Settles short extra base start
        (do return (isStatic, ← grammar.classMemberContent context))
        (do return (isStatic, ← other.classMemberContent context))
        fun _ place => place.left < here.left :=
    (takes_classMemberContent parts (by omega)).bind fun _ _ less =>
      .pure (Nat.lt_of_lt_of_le less no_more)
  refine settles_staticNext fun isStatic => .ite (fun _ => .take ?_) fun _ => ?_
  · have no_more := step_left_le .standard here
    refine .nextIs fun isBlock => .ite (fun _ => ?_) fun _ => content _ no_more
    refine (takes_staticBlock parts (by omega)).bind fun block behind less => ?_
    exact .pure (by omega)
  · exact content _ (Nat.le_refl _)

/-- A round over the members of a class goes on only if it took some text. -/
theorem rounds_member {members : List ClassMember} :
    Rounds short extra base here (grammar.memberRound context members)
      (other.memberRound context members) := by
  refine .nextIs fun isDone => .ite (fun _ => .pure (Nat.le_refl _)) fun _ => ?_
  refine (Settles.accept (by nofun)).bind fun isEmpty start shows => ?_
  refine .ite (fun isEmpty => .pure (shows.2 isEmpty)) fun _ => ?_
  refine (takes_classMember parts (by omega)).bind fun member behind less => ?_
  exact .pure (show behind.left < here.left by omega)

omit inside in
/-- Reading the name, heritage and members of a class, from its keyword on takes some text, and more
depth changes nothing. -/
theorem takes_classParts (first : here.left ≤ room) :
    Takes short extra base here (grammar.classParts context) (other.classParts context) := by
  -- Name and base class may be missing, but the braces are always there.
  have body (name : Option String) (heritage : Option Expr) {start : Cursor}
      (no_more : start.left ≤ here.left) :
      Settles short extra base start
        (do
          symbol .braceOpen
          let members ← grammar.classMembers context
          symbol .braceClose
          return (name, heritage, members))
        (do
          symbol .braceOpen
          let members ← other.classMembers context
          symbol .braceClose
          return (name, heritage, members))
        fun _ place => place.left < here.left := by
    refine Settles.symbol.bind fun _ first less₁ => ?_
    have members : Lasts short extra base first (grammar.classMembers context)
        (other.classMembers context) :=
      .loop fun members place no_more => rounds_member parts (by omega)
    refine members.bind fun members stop no_more => ?_
    refine Settles.symbol.bind fun _ behind less₂ => ?_
    exact .pure (by omega)
  refine Settles.keyword.bind fun _ second less => ?_
  refine lasts_bindingName?.bind fun name third no_more => ?_
  refine (Settles.accept (by nofun)).bind fun isDerived fourth shows => ?_
  refine .ite (fun _ => ?_) fun _ => body _ _ (by omega)
  refine Settles.bind (.map (parts.expr (by omega))) fun heritage fifth less => ?_
  exact body _ _ (by omega)

omit inside in
/-- Reading a class as an expression takes some text, and more depth changes nothing. -/
theorem takes_classExpr (first : here.left ≤ room) :
    Takes short extra base here (grammar.classExpr context) (other.classExpr context) :=
  Settles.bind (.spanned (takes_classParts parts first)) fun _ _ less => .pure less

end Members

end Downlevel.Parser
