import Downlevel.Proofs.RoundTrip.Operations

/-! The text an operation is printed as spells its tokens. -/

namespace Downlevel

open Lexeme Printer

namespace Punctuator

/-- The characters with which some punctuator goes on. -/
def continuations (mark : Punctuator) : List Char :=
  all.filterMap fun longer =>
    if mark.text.toList.isPrefixOf longer.text.toList then
      longer.text.toList[mark.text.toList.length]?
    else none

/-- No punctuator goes on with any other character. -/
theorem endsBefore_of_notMem {mark : Punctuator} {next : Char}
    (apart : next ∉ mark.continuations) : mark.endsBefore next = true := by
  refine List.all_eq_true.mpr fun longer mem => ?_
  rw [Bool.not_eq_true', Bool.eq_false_iff]
  intro goesOn
  obtain ⟨behind, cut⟩ := List.isPrefixOf_iff_prefix.mp goesOn
  refine apart (List.mem_filterMap.mpr ⟨longer, mem, ?_⟩)
  rw [← cut, List.append_assoc, if_pos (List.isPrefixOf_iff_prefix.mpr (List.prefix_append _ _))]
  simp

/-- A punctuator goes on with the symbols of another. -/
theorem exists_of_mem_continuations {mark : Punctuator} {c : Char} (mem : c ∈ mark.continuations) :
    ∃ longer ∈ all, c ∈ longer.text.toList := by
  obtain ⟨longer, inside, found⟩ := List.mem_filterMap.mp mem
  split at found
  · exact ⟨longer, inside, List.mem_of_getElem? found⟩
  · cases found

/-- Punctuators with which no longer one starts. -/
def closed : List Punctuator :=
  [.parenthesisOpen, .parenthesisClose, .bracketOpen, .bracketClose, .comma, .semicolon, .colon,
    .tilde, .dotDotDot, .plusPlus, .hyphenHyphen, .questionDotBracketOpen,
    .questionDotParenthesisOpen]

/-- No mark that closes something goes on as another one. -/
theorem continuations_closed : ∀ mark ∈ closed, mark.continuations = [] := by
  decide +kernel

end Punctuator

/-- What may stand behind an expression. -/
def isBoundary (c : Char) : Bool :=
  [' ', ',', ';', ')', ']', '(', '[', '.', '?', '+', '-'].contains c

/-- What holds for all that may stand behind an expression. -/
theorem isBoundary_elim {c : Char} (boundary : isBoundary c = true) {p : Char → Bool}
    (every : [' ', ',', ';', ')', ']', '(', '[', '.', '?', '+', '-'].all p = true) : p c = true :=
  List.all_eq_true.mp every c (List.contains_iff_mem.mp boundary)

section Spells

variable {text more : List Char} {next : Char} {lexemes : List Lexeme}

/-- A punctuator in front of what cannot belong to it. -/
theorem spells_symbol (mark : Punctuator) (apart : next ∉ mark.continuations)
    (noDigit : mark = .dot ∨ mark = .questionDot → Text.isDecimalDigit next = false)
    (noComment : mark = .slash → next = ' ') (behind : Spells (next :: more) lexemes) :
    Spells (mark.text.toList ++ next :: more) (ofSymbol mark :: lexemes) :=
  ⟨_, starts_symbol (Punctuator.endsBefore_of_notMem apart) noDigit noComment more, behind⟩

/-- A punctuator that no other goes on from. -/
theorem spells_closed (mark : Punctuator) (closed : mark ∈ Punctuator.closed)
    (nonempty : text ≠ []) (behind : Spells text lexemes) :
    Spells (mark.text.toList ++ text) (ofSymbol mark :: lexemes) := by
  obtain ⟨next, more, rfl⟩ := List.exists_cons_of_ne_nil nonempty
  -- None of them goes on with a digit, a chain or a comment.
  have other : ∀ mark ∈ Punctuator.closed, mark ≠ .dot ∧ mark ≠ .questionDot ∧ mark ≠ .slash := by
    decide
  obtain ⟨noDot, noChain, noSlash⟩ := other mark closed
  refine spells_symbol mark (by simp [Punctuator.continuations_closed mark closed]) ?_
    (fun same => absurd same noSlash) behind
  rintro (same | same)
  · exact absurd same noDot
  · exact absurd same noChain

/-- A name in front of what may stand behind it. -/
theorem spells_name {name : String} (named : IsMemberName name) (boundary : isBoundary next = true)
    (behind : Spells (next :: more) lexemes) :
    Spells (name.toList ++ next :: more) (ofName name :: lexemes) :=
  ⟨_, starts_name named.2 named.1 (isBoundary_elim boundary (by decide)) more, behind⟩

/-- A blank may stand in front of whatever is spelled. -/
theorem spells_gap (behind : Spells text lexemes) : Spells (' ' :: text) lexemes := by
  cases lexemes with
  | nil => trivial
  | cons lexeme rest => exact spells_space rfl (fun _ => rfl) behind

/-- An operator with a blank behind it. -/
theorem spells_operator {op : Operator} (used : op.IsInfix ∨ op.IsLeading ∨ op.IsTrailing)
    (behind : Spells text lexemes) :
    Spells (op.text.toList ++ ' ' :: text) (ofOperator op :: lexemes) := by
  -- A word ends at the blank behind it, and no symbol goes on with one.
  rcases Operator.spelling used with ⟨-, word, whole, named⟩ | ⟨-, mark, symbol, spelled⟩
  · rw [word]
    exact spells_name ⟨named, whole⟩ rfl (spells_gap behind)
  · rw [symbol, ← spelled]
    have blankless : ∀ mark ∈ Punctuator.all, ' ' ∉ mark.text.toList := by decide +kernel
    have apart : ' ' ∉ mark.continuations := by
      intro mem
      obtain ⟨longer, inside, blank⟩ := Punctuator.exists_of_mem_continuations mem
      exact blankless longer inside blank
    exact spells_symbol mark apart (fun _ => rfl) (fun _ => rfl) (spells_gap behind)

end Spells

/-- Signs that could run together with a sign in front of them. -/
def isSign (c : Char) : Bool :=
  ['+', '-', '='].contains c

/-- The text of an expression that is printed without parentheses. A point behind it would belong to
an integer at its end. -/
structure Expr.IsBareAs (e : Expr) (text : String) : Prop where
  first : ∃ c rest, text.toList = c :: rest
    ∧ (Precedence.update ≤ e.shape.level → isSign c = false)
    ∧ ∀ op operand, e.shape = .unary op operand → op.text.toList.head? = some c
  spells : ∀ next more lexemes, isBoundary next = true →
    (next = '.' → Precedence.construction ≤ e.shape.level ∧ isInteger e = false) →
    Spells (next :: more) lexemes →
    Spells (text.toList ++ next :: more) (shapeLexemes e.shape ++ lexemes)

/-- The text of an expression that is printed where its level has to be at least the given one. -/
structure Expr.IsPrintedAs (level : Nat) (e : Expr) (text : String) : Prop where
  first : ∃ c rest, text.toList = c :: rest ∧ (c = '(' ∨ level ≤ e.shape.level
    ∧ (Precedence.update ≤ e.shape.level → isSign c = false)
    ∧ ∀ op operand, e.shape = .unary op operand → op.text.toList.head? = some c)
  spells : ∀ next more lexemes, isBoundary next = true →
    (next = '.' → e.shape.level < level ∨ Precedence.construction ≤ e.shape.level
      ∧ isInteger e = false) →
    Spells (next :: more) lexemes →
    Spells (text.toList ++ next :: more) (exprLexemes level e ++ lexemes)

/-- The shape of the expression is printed as a text that spells its tokens, anywhere but in the
head of a loop. -/
def Expr.PrintsBare (e : Expr) : Prop :=
  ∀ indent place, ∃ text, (printShape indent place e.shape).run false = some (text, false)
    ∧ e.IsBareAs text

/-- So is the expression with the parentheses it needs. -/
def Expr.Prints (e : Expr) : Prop :=
  ∀ indent place level, ∃ text, (printExpr indent place level e).run false = some (text, false)
    ∧ e.IsPrintedAs level text

/-- Only the level of an operation decides whether it needs parentheses outside the head of a
loop. -/
theorem Expr.IsOperation.needsParens {e : Expr} (isOperation : e.IsOperation) (place : Place)
    (level : Nat) : needsParens place false level e.shape = decide (e.shape.level < level) := by
  -- What is special about a place does not concern operations, so only the level decides.
  have plain {special : Bool} (never : special = false) :
      (if e.shape.level < level then true else special) = decide (e.shape.level < level) := by
    subst never
    split <;> simp [*]
  cases isOperation with
  | binary isInfix noAssign =>
    refine plain ?_
    split <;> first | rfl | simp_all [Operator.isAssignment]
  | @assign _ op left right assigns isPlace =>
    have noBrace : startsWithBrace left = false := by
      obtain ⟨_, shape⟩ := left
      cases shape <;> first | rfl | cases isPlace
    refine plain ?_
    split
    · rfl
    · rename_i same
      cases same
      simp [noBrace]
    all_goals simp_all
  | _ => exact plain rfl

/-- Outside the head of a loop one part is printed after the other. -/
theorem run_bind {α β : Type} {first : Printing α} {rest : α → Printing β} {result : α}
    (ran : first.run false = some (result, false)) :
    (first >>= rest).run false = (rest result).run false := by
  have own : first false = some (result, false) := ran
  simp only [StateT.run, bind, StateT.bind, own, Option.bind_some]

/-- Parentheses stand around what is printed in them. -/
theorem inParens_run {inner : Print} {text : String} (printed : inner.run false = some (text, false)) :
    (inParens inner).run false = some ("(" ++ text ++ ")", false) := by
  have ran : inner false = some (text, false) := printed
  show ((inner false).bind fun shown => some ("(" ++ shown.1 ++ ")", false)) = _
  rw [ran]
  rfl

/-- An operation whose shape is printed well is printed well with the parentheses it needs. -/
theorem Expr.PrintsBare.prints {e : Expr} (prints : e.PrintsBare) (isOperation : e.IsOperation) :
    e.Prints := by
  intro indent place level
  obtain ⟨origin, shape⟩ := e
  have parens := isOperation.needsParens place level
  have unfolded : (printExpr indent place level ⟨origin, shape⟩).run false
      = (if Printer.needsParens place false level shape then
          inParens (printShape indent .elsewhere shape)
        else printShape indent place shape).run false := rfl
  -- Loose operations get parentheses, behind which anything may stand.
  by_cases loose : shape.level < level
  · obtain ⟨text, printed, first, spells⟩ := prints indent .elsewhere
    refine ⟨"(" ++ text ++ ")", ?_, ⟨'(', text.toList ++ [')'], by simp, .inl rfl⟩,
      fun next more lexemes boundary apart behind => ?_⟩
    · rw [unfolded, parens, if_pos (by simpa using loose)]
      exact inParens_run printed
    · have inner := spells ')' (next :: more) _ rfl (fun same => absurd same (by decide))
        (spells_closed .parenthesisClose (by decide) (List.cons_ne_nil _ _) behind)
      have outer : Spells ('(' :: (text.toList ++ ')' :: next :: more)) _ :=
        spells_closed .parenthesisOpen (by decide) (by simp) inner
      simpa [exprLexemes, loose] using outer
  · obtain ⟨text, printed, first, spells⟩ := prints indent place
    obtain ⟨c, rest, starts, noSign, same⟩ := first
    refine ⟨text, ?_, ⟨c, rest, starts, .inr ⟨Nat.le_of_not_lt loose, noSign, same⟩⟩,
      fun next more lexemes boundary apart behind => ?_⟩
    · rw [unfolded, parens, if_neg (by simpa using loose)]
      exact printed
    · rw [exprLexemes, if_neg loose]
      exact spells next more lexemes boundary
        (fun point => (apart point).resolve_left loose) behind

section Cases

variable {origin : Origin} {op : Operator} {left right operand : Expr}

/-- Operators between operands hold less tightly than accesses. -/
theorem precedence_isInfix (isInfix : op.IsInfix) : op.precedence < Precedence.unary :=
  isInfix.elim (P := fun op => op.precedence < Precedence.unary) (by decide +kernel)

/-- Operands around an operator print as such. -/
theorem prints_binary (isInfix : op.IsInfix) (isLeft : left.Prints) (isRight : right.Prints) :
    Expr.PrintsBare ⟨origin, .binary op left right⟩ := by
  intro indent place
  obtain ⟨first, leftRan, leftPrinted⟩ := isLeft indent place (leftOperandLevel op left)
  obtain ⟨second, rightRan, rightPrinted⟩ := isRight indent .elsewhere (rightOperandLevel op right)
  obtain ⟨c, rest, starts, -⟩ := leftPrinted.first
  -- An infix operation is too loose for a point behind it, or for a sign that could stick to the
  -- next one.
  have loose := precedence_isInfix isInfix
  refine ⟨first ++ (if op = .comma then ", " else " " ++ op.text ++ " ") ++ second, ?_,
    ⟨c, _, by rw [String.append_assoc, String.toList_append, starts]; rfl, fun tight => ?_,
      by simp⟩, fun next more lexemes boundary apart behind => ?_⟩
  · exact (run_bind leftRan).trans (run_bind rightRan)
  · exact absurd (Nat.lt_of_lt_of_le loose (Nat.le_trans (by decide) tight)) (Nat.lt_irrefl _)
  · have noPoint : next ≠ '.' := fun point =>
      absurd (Nat.lt_of_lt_of_le loose (Nat.le_trans (by decide) (apart point).1)) (Nat.lt_irrefl _)
    have inRight := rightPrinted.spells next more _ boundary (fun point => absurd point noPoint)
      behind
    rw [shapeLexemes_binary, List.append_assoc, List.cons_append]
    -- A comma stands right behind the left side, all other operators have blanks around them.
    by_cases isComma : op = .comma
    · subst isComma
      have token : ofOperator .comma = ofSymbol .comma := rfl
      have inComma : Spells (',' :: ' ' :: (second.toList ++ next :: more)) _ :=
        spells_closed .comma (by decide) (List.cons_ne_nil _ _) (spells_gap inRight)
      have inLeft := leftPrinted.spells ',' _ _ rfl (fun point => absurd point (by decide)) inComma
      simpa [token] using inLeft
    · have inOperator := spells_gap (spells_operator (.inl isInfix) inRight)
      have inLeft := leftPrinted.spells ' ' _ _ rfl (fun point => absurd point (by decide))
        inOperator
      simpa [isComma] using inLeft

/-- A conditional prints its three parts. -/
theorem prints_cond {test consequent alternate : Expr} (isTest : test.Prints)
    (isConsequent : consequent.Prints) (isAlternate : alternate.Prints) :
    Expr.PrintsBare ⟨origin, .cond test consequent alternate⟩ := by
  intro indent place
  obtain ⟨first, testRan, testPrinted⟩ := isTest indent place (Precedence.conditional + 1)
  obtain ⟨second, consequentRan, consequentPrinted⟩ :=
    isConsequent indent .elsewhere Precedence.assignment
  obtain ⟨third, alternateRan, alternatePrinted⟩ :=
    isAlternate indent .elsewhere Precedence.assignment
  obtain ⟨c, rest, starts, -⟩ := testPrinted.first
  refine ⟨first ++ " ? " ++ second ++ " : " ++ third, ?_,
    ⟨c, _, by simp only [String.append_assoc, String.toList_append, starts]; rfl,
      fun tight => absurd (show 18 ≤ 4 from tight) (by decide), by simp⟩,
    fun next more lexemes boundary apart behind => ?_⟩
  · exact (run_bind testRan).trans ((run_bind consequentRan).trans (run_bind alternateRan))
  · have noPoint : next ≠ '.' := fun point =>
      absurd (show 19 ≤ 4 from (apart point).1) (by decide)
    -- What is printed spells its lexemes from the back to the front: each part ends where the next
    -- one starts.
    have inAlternate := alternatePrinted.spells next more _ boundary
      (fun point => absurd point noPoint) behind
    have inColon : Spells (':' :: ' ' :: (third.toList ++ next :: more)) _ :=
      spells_closed .colon (by decide) (List.cons_ne_nil _ _) (spells_gap inAlternate)
    have inConsequent := consequentPrinted.spells ' ' _ _ rfl (fun point => absurd point (by decide))
      (spells_gap inColon)
    have inQuestion : Spells ('?' :: ' ' :: (second.toList ++ ' ' :: ':' :: ' ' ::
        (third.toList ++ next :: more))) _ :=
      spells_symbol .question (by decide) (fun _ => rfl) (fun _ => rfl)
        (spells_gap inConsequent)
    have inTest := testPrinted.spells ' ' _ _ rfl (fun point => absurd point (by decide))
      (spells_gap inQuestion)
    simpa [shapeLexemes_cond] using inTest

/-- The signs with which a punctuator in front of an operand goes on. -/
def signContinuations : Punctuator → List Char
  | .hyphen => ['-', '=']
  | .plus => ['+', '=']
  | .exclamation => ['=']
  | _ => []

/-- An operator in front of its operand is a word or goes on with signs at most. -/
theorem leading_forms (isLeading : op.IsLeading) :
    isWordOperator op = true ∧ op.isWord = true ∨ isWordOperator op = false
      ∧ ∃ mark, ofOperator op = ofSymbol mark ∧ mark.text = op.text
        ∧ (∀ d ∈ mark.continuations, d ∈ signContinuations mark)
        ∧ mark ≠ .dot ∧ mark ≠ .questionDot ∧ mark ≠ .slash := by
  -- A word, or a symbol that only goes on with characters which the printer looks out for.
  have every := isLeading.elim (P := fun op => isWordOperator op = true ∧ op.isWord = true
    ∨ isWordOperator op = false ∧ ∃ mark ∈ [Punctuator.tilde, .exclamation, .hyphenHyphen,
      .plusPlus, .hyphen, .plus], ofOperator op = ofSymbol mark ∧ mark.text = op.text)
    (by decide +kernel)
  have goesOn : ∀ mark ∈ [Punctuator.tilde, .exclamation, .hyphenHyphen, .plusPlus, .hyphen,
      .plus], (mark.continuations.all fun d => (signContinuations mark).contains d) = true
        ∧ mark ≠ .dot ∧ mark ≠ .questionDot ∧ mark ≠ .slash := by decide +kernel
  rcases every with word | ⟨symbolic, mark, mem, token, spelled⟩
  · exact .inl word
  · obtain ⟨inside, others⟩ := goesOn mark mem
    exact .inr ⟨symbolic, mark, token, spelled,
      fun d mem => List.contains_iff_mem.mp (List.all_eq_true.mp inside d mem), others⟩

/-- Of two operators in front of an operand the first does not go on with the second unless their
signs collide. -/
theorem apart_leading (isLeading : op.IsLeading) {inner : Operator} (isInner : inner.IsLeading)
    (apart : signsCollide op inner = false) {mark : Punctuator} (spelled : mark.text = op.text)
    {c : Char} (starts : inner.text.toList.head? = some c) : c ∉ signContinuations mark := by
  -- All pairs of such operators are checked: those that do not collide do not stick together.
  have every := isLeading.elim (P := fun op => ∀ inner ∈ Operator.ofTokens Operator.ofLeadingToken?,
    signsCollide op inner = false → ∀ mark ∈ [Punctuator.exclamation, .hyphen, .plus],
      mark.text = op.text →
        inner.text.toList.head?.any (fun d => (signContinuations mark).contains d) = false)
    (by decide +kernel)
  have own := isInner.elim (P := fun inner => signsCollide op inner = false →
    ∀ mark ∈ [Punctuator.exclamation, .hyphen, .plus], mark.text = op.text →
      inner.text.toList.head?.any (fun d => (signContinuations mark).contains d) = false) every
  intro mem
  -- Only three of the symbols go on with anything at all.
  have signed : mark ∈ [Punctuator.exclamation, .hyphen, .plus] := by
    unfold signContinuations at mem
    split at mem <;> first | decide | cases mem
  have noSign := own apart mark signed spelled
  rw [starts, Option.any_some, List.contains_iff_mem.mpr mem] at noSign
  cases noSign

/-- An operation that holds as tightly as an operator in front of its operand is one or holds more
tightly. -/
theorem unary_or_update (isOperation : operand.IsOperation)
    (tight : Precedence.unary ≤ operand.shape.level) :
    (∃ inner innermost, inner.IsLeading ∧ operand.shape = .unary inner innermost)
      ∨ Precedence.update ≤ operand.shape.level := by
  -- Whatever is as tight as a unary operator is one, or is tighter.
  cases isOperation with
  | binary isInfix => exact absurd tight (Nat.not_le_of_lt (precedence_isInfix isInfix))
  | assign assigns =>
    have isInfix := Operator.isInfix_of_isAssignment assigns
    exact absurd tight (Nat.not_le_of_lt (precedence_isInfix isInfix))
  | unary isLeading => exact .inl ⟨_, _, isLeading, rfl⟩
  | update isTrailing => rcases isTrailing with rfl | rfl <;> exact .inr (Nat.le_refl _)
  | cond => exact absurd (show 17 ≤ 4 from tight) (by decide)
  | member | computed | call | new => exact .inr (show 18 ≤ 20 by decide)
  | id | this | str | num | array => exact .inr (show 18 ≤ 21 by decide)

/-- A sign and the operand behind it do not run together. -/
theorem apart_unary (isLeading : op.IsLeading) (isOperation : operand.IsOperation)
    (gapless : unaryGap op operand = "") {mark : Punctuator} (spelled : mark.text = op.text)
    {c : Char} (starts : c = '(' ∨ Precedence.unary ≤ operand.shape.level
      ∧ (Precedence.update ≤ operand.shape.level → isSign c = false)
      ∧ ∀ inner innermost, operand.shape = .unary inner innermost →
        inner.text.toList.head? = some c) :
    c ∉ signContinuations mark := by
  -- Only a sign can stick to the operator, and a parenthesis is none.
  have signs : ∀ d ∈ signContinuations mark, isSign d = true := by
    unfold signContinuations
    split <;> exact List.all_eq_true.mp rfl
  rcases starts with rfl | ⟨tight, noSign, sameSign⟩
  · exact fun mem => absurd (signs _ mem) (by decide)
  · rcases unary_or_update isOperation tight with ⟨inner, innermost, isInner, isUnary⟩ | update
    · simp only [unaryGap, isUnary] at gapless
      split at gapless
      · exact absurd gapless (by decide)
      · rename_i noGap
        simp only [Bool.or_eq_true, not_or, Bool.not_eq_true] at noGap
        exact apart_leading isLeading isInner noGap.2 spelled (sameSign inner innermost isUnary)
    · exact fun mem => absurd (signs _ mem) (by simp [noSign update])

/-- An operand behind an operator prints as such. -/
theorem prints_unary (isLeading : op.IsLeading) (isOperation : operand.IsOperation)
    (isOperand : operand.Prints) : Expr.PrintsBare ⟨origin, .unary op operand⟩ := by
  intro indent place
  obtain ⟨text, ran, printed⟩ := isOperand indent .elsewhere Precedence.unary
  obtain ⟨c, rest, starts, how⟩ := printed.first
  -- All these operators have the same level, and a text that starts somewhere.
  have level : op.precedence = Precedence.unary :=
    isLeading.elim (P := fun op => op.precedence = Precedence.unary) (by decide +kernel)
  have first : ∃ d more, op.text.toList = d :: more :=
    isLeading.elim (P := fun op => op.text.toList ≠ []) (by decide +kernel)
      |> List.exists_cons_of_ne_nil
  obtain ⟨d, symbols, opens⟩ := first
  refine ⟨op.text ++ unaryGap op operand ++ text, ?_,
    ⟨d, _, by rw [String.append_assoc, String.toList_append, opens]; rfl, fun tight => ?_, ?_⟩,
    fun next more lexemes boundary apart behind => ?_⟩
  · exact run_bind ran
  · change 18 ≤ op.precedence at tight
    exact absurd tight (by simp [level])
  · rintro _ _ ⟨⟩
    rw [opens]
    rfl
  · have noPoint : next ≠ '.' := by
      intro point
      have tight : 19 ≤ op.precedence := (apart point).1
      rw [level] at tight
      exact absurd tight (by decide)
    have inOperand := printed.spells next more _ boundary (fun point => absurd point noPoint) behind
    -- Between the operator and the operand there is a blank, or nothing if they cannot stick
    -- together.
    have gaps : unaryGap op operand = " " ∨ unaryGap op operand = "" := by
      unfold unaryGap
      dsimp only
      repeat' split
      all_goals simp
    rcases gaps with gap | gapless
    · have inOperator := spells_operator (.inr (.inl isLeading)) inOperand
      simpa [shapeLexemes_unary, gap] using inOperator
    · rcases leading_forms isLeading with ⟨word, -⟩ | ⟨-, mark, token, spelled, goesOn, noPoints⟩
      · have gap : unaryGap op operand = " " := by simp [unaryGap, word]
        exact absurd (gap.symm.trans gapless) (by decide)
      · obtain ⟨noDot, noChain, noSlash⟩ := noPoints
        rw [starts, List.cons_append] at inOperand
        have apart := apart_unary isLeading isOperation gapless spelled how
        have inOperator := spells_symbol mark (fun mem => apart (goesOn _ mem))
          (fun point => absurd point (by simp [noDot, noChain])) (fun same => absurd same noSlash)
          inOperand
        simpa [shapeLexemes_unary, gapless, starts, token, spelled] using inOperator

/-- What holds tightly starts with no sign. -/
theorem noSign_of_tight {e : Expr} {level : Nat} {text : String} (printed : e.IsPrintedAs level text)
    (tight : Precedence.update ≤ level) : ∃ c rest, text.toList = c :: rest ∧ isSign c = false := by
  obtain ⟨c, rest, starts, how⟩ := printed.first
  refine ⟨c, rest, starts, ?_⟩
  rcases how with rfl | ⟨tighter, noSign, -⟩
  · rfl
  · exact noSign (Nat.le_trans tight tighter)

/-- An operand in front of an operator prints as such. -/
theorem prints_update (isTrailing : op.IsTrailing) (isOperand : operand.Prints) :
    Expr.PrintsBare ⟨origin, .update op operand⟩ := by
  intro indent place
  obtain ⟨text, ran, printed⟩ := isOperand indent place Precedence.update
  obtain ⟨c, rest, starts, noSign⟩ := noSign_of_tight printed (Nat.le_refl _)
  refine ⟨text ++ op.text, ?_, ⟨c, rest ++ op.text.toList, ?_, fun _ => noSign, by simp⟩,
    fun next more lexemes boundary apart behind => ?_⟩
  · exact run_bind ran
  · simp [starts]
  · -- The sign is what stands behind the operand.
    obtain ⟨sign, mark, boundary, symbols, token, closed⟩ : ∃ (sign : Char) (mark : Punctuator),
        (isBoundary sign = true ∧ sign ≠ '.') ∧ op.text.toList = [sign, sign]
          ∧ ofOperator op = ofSymbol mark ∧ mark ∈ Punctuator.closed
          ∧ mark.text.toList = [sign, sign] := by
      rcases isTrailing with rfl | rfl
      · exact ⟨'+', .plusPlus, by decide, rfl, rfl, by decide, rfl⟩
      · exact ⟨'-', .hyphenHyphen, by decide, rfl, rfl, by decide, rfl⟩
    have inSign := spells_closed mark closed.1 (List.cons_ne_nil _ _) behind
    rw [closed.2] at inSign
    have inOperand := printed.spells sign (sign :: next :: more) _ boundary.1
      (fun point => absurd point boundary.2) inSign
    simpa [shapeLexemes_update, token, symbols] using inOperand

/-- The object of an access holds tightly. -/
theorem update_le_targetLevel (link : ChainLink) (dotFollows : Bool) (target : Expr) :
    Precedence.update ≤ targetLevel link dotFollows target := by
  unfold targetLevel
  split <;> decide

/-- No expression holds more tightly than it can. -/
theorem level_lt_always (shape : Shape) : shape.level < always := by
  have operators (op : Operator) : op.precedence < always := by
    cases op <;> decide
  unfold Shape.level
  split <;> first | exact operators _ | decide

/-- A point may stand behind the object of an access. -/
theorem point_behind_target {link : ChainLink} {object : Expr} :
    object.shape.level < targetLevel link true object
      ∨ Precedence.construction ≤ object.shape.level ∧ isInteger object = false := by
  unfold targetLevel
  split
  · exact .inl (level_lt_always _)
  · rename_i bare
    simp only [Bool.true_and, Bool.or_eq_true, not_or, Bool.not_eq_true] at bare
    by_cases loose : object.shape.level < Precedence.construction
    · exact .inl loose
    · exact .inr ⟨Nat.le_of_not_lt loose, bare.2⟩

/-- Points go on with points and brackets only. -/
theorem continuations_point : ∀ mark ∈ [Punctuator.dot, Punctuator.questionDot],
    ∀ c ∈ mark.continuations, c ∈ ['.', '[', '('] := by
  have every : ∀ mark ∈ [Punctuator.dot, Punctuator.questionDot],
      (mark.continuations.all fun c => ['.', '[', '('].contains c) = true := by decide +kernel
  intro mark mem c inside
  exact List.contains_iff_mem.mp (List.all_eq_true.mp (every mark mem) c inside)

/-- A name starts with none of the characters that a point or an opening question mark goes on
with. -/
theorem exists_cons_of_name {name : String} (named : IsMemberName name) :
    ∃ c rest, name.toList = c :: rest ∧ isSign c = false ∧ c ∉ ['.', '[', '(']
      ∧ Text.isDecimalDigit c = false := by
  obtain ⟨c, rest, spelled, -, scanned⟩ := scanned_of_whole named.2 named.1
  -- No sign, bracket or digit starts a name, because none of them starts a word.
  have opens : c = '#' ∨ Lexer.opensWord c = true := by
    rcases scanned with ⟨marked, -⟩ | ⟨opens, -⟩
    · exact .inl marked
    · exact .inr opens
  have apart : ∀ d ∈ ['+', '-', '=', '.', '[', '(', '0', '1', '2', '3', '4', '5', '6', '7', '8', '9'],
      c ≠ d := by
    intro d mem same
    have closed : ∀ d ∈ ['+', '-', '=', '.', '[', '(', '0', '1', '2', '3', '4', '5', '6', '7', '8',
        '9'], (d != '#' && !Lexer.opensWord d) = true := List.all_eq_true.mp (by decide)
    have apart := closed d mem
    rw [← same] at apart
    rcases opens with rfl | opens
    · cases apart
    · simp [opens] at apart
  refine ⟨c, rest, spelled, ?_, ?_, ?_⟩
  · simp [isSign, apart]
  · simp [apart]
  · refine Bool.eq_false_iff.mpr fun digit => ?_
    have digits := Lexer.mem_of_isDecimalDigit digit
    exact apart c (by simp at digits ⊢; simp [digits]) rfl

/-- A member access prints its object and its name. -/
theorem prints_member {link : ChainLink} {object : Expr} {name : String}
    (named : IsMemberName name) (isObject : object.Prints) :
    Expr.PrintsBare ⟨origin, .member link object name⟩ := by
  intro indent place
  obtain ⟨text, ran, printed⟩ := isObject indent place (targetLevel link (link != .opens) object)
  obtain ⟨c, rest, starts, noSign⟩ := noSign_of_tight printed (update_le_targetLevel _ _ _)
  obtain ⟨d, letters, opens, -, apart, noDigit⟩ := exists_cons_of_name named
  refine ⟨text ++ (if link != .opens then "." else "?.") ++ name, ?_,
    ⟨c, _, by rw [String.append_assoc, String.toList_append, starts]; rfl, fun _ => noSign,
      by simp⟩, fun next more lexemes boundary _ behind => ?_⟩
  · exact run_bind ran
  · have inName := spells_name named boundary behind
    rw [opens, List.cons_append] at inName
    -- The dot may be that of a chain. Neither goes on with what starts a name.
    by_cases isOpening : link = .opens
    · subst isOpening
      have inDot : Spells ('?' :: '.' :: d :: (letters ++ next :: more)) _ :=
        spells_symbol .questionDot (fun mem => apart (continuations_point _ (by decide) d mem))
          (fun _ => noDigit) (fun same => by cases same) inName
      have inObject := printed.spells '?' _ _ rfl (fun point => absurd point (by decide)) inDot
      simpa [shapeLexemes_member, ofDot, opens] using inObject
    · have noOpening : (link != .opens) = true := by simpa using isOpening
      have inDot : Spells ('.' :: d :: (letters ++ next :: more)) _ :=
        spells_symbol .dot (fun mem => apart (continuations_point _ (by decide) d mem))
          (fun _ => noDigit) (fun same => by cases same) inName
      have inObject := printed.spells '.' _ _ rfl
        (fun _ => by rw [noOpening]; exact point_behind_target) inDot
      simpa [shapeLexemes_member, ofDot, opens, isOpening] using inObject

/-- A computed access prints its object and its key. -/
theorem prints_computed {link : ChainLink} {object key : Expr} (isObject : object.Prints)
    (isKey : key.Prints) : Expr.PrintsBare ⟨origin, .computed link object key⟩ := by
  intro indent place
  obtain ⟨text, ran, printed⟩ := isObject indent place (targetLevel link false object)
  obtain ⟨inner, keyRan, keyPrinted⟩ := isKey indent .elsewhere Precedence.comma
  obtain ⟨c, rest, starts, noSign⟩ := noSign_of_tight printed (update_le_targetLevel _ _ _)
  refine ⟨text ++ openingText link ++ "[" ++ inner ++ "]", ?_,
    ⟨c, _, by simp only [String.append_assoc, String.toList_append, starts]; rfl, fun _ => noSign,
      by simp⟩, fun next more lexemes boundary _ behind => ?_⟩
  · exact (run_bind ran).trans (run_bind keyRan)
  · have inClose : Spells (']' :: next :: more) _ :=
      spells_closed .bracketClose (by decide) (List.cons_ne_nil _ _) behind
    have inKey := keyPrinted.spells ']' _ _ rfl (fun point => absurd point (by decide)) inClose
    -- The bracket may be that of a chain. Nothing sticks to either.
    by_cases isOpening : link = .opens
    · subst isOpening
      have inOpen : Spells ('?' :: '.' :: '[' :: (inner.toList ++ ']' :: next :: more)) _ :=
        spells_closed .questionDotBracketOpen (by decide) (by simp) inKey
      have inObject := printed.spells '?' _ _ rfl (fun point => absurd point (by decide)) inOpen
      simpa [shapeLexemes_computed, ofBracket, openingText] using inObject
    · have inOpen : Spells ('[' :: (inner.toList ++ ']' :: next :: more)) _ :=
        spells_closed .bracketOpen (by decide) (by simp) inKey
      have inObject := printed.spells '[' _ _ rfl (fun point => absurd point (by decide)) inOpen
      simpa [shapeLexemes_computed, ofBracket, openingText, isOpening] using inObject

/-- Texts with commas between them, from the first on. -/
theorem toList_commas_cons (text : String) {texts : List String} (nonempty : texts ≠ []) :
    (commas (text :: texts)).toList = text.toList ++ ',' :: ' ' :: (commas texts).toList := by
  cases texts with
  | nil => exact absurd rfl nonempty
  | cons second rest => simp [commas, String.intercalate_cons_cons]

/-- An argument is printed in front of a comma or a parenthesis. -/
theorem prints_arg (indent : Nat) {arg : Arg} (isArg : arg.value.Prints) :
    ∃ text, (printArg indent arg).run false = some (text, false)
      ∧ ∀ next more lexemes, isBoundary next = true → next ≠ '.' → Spells (next :: more) lexemes →
        Spells (text.toList ++ next :: more) (argLexemes arg ++ lexemes) := by
  obtain ⟨isSpread, value⟩ := arg
  obtain ⟨text, ran, printed⟩ := isArg indent .elsewhere Precedence.yielding
  refine ⟨if isSpread then "..." ++ text else text, ?_,
    fun next more lexemes boundary noPoint behind => ?_⟩
  · exact run_bind ran
  · have inValue := printed.spells next more lexemes boundary
      (fun point => absurd point noPoint) behind
    -- The dots stand right in front of the value.
    cases isSpread with
    | false => simpa [argLexemes] using inValue
    | true =>
      have inDots : Spells ('.' :: '.' :: '.' :: (text.toList ++ next :: more)) _ :=
        spells_closed .dotDotDot (by decide) (by simp) inValue
      simpa [argLexemes] using inDots

/-- Arguments are printed with commas between them, in front of a closing parenthesis. -/
theorem prints_args (indent : Nat) {args : List Arg} (areArgs : ∀ arg ∈ args, arg.value.Prints) :
    ∃ texts, (printArgs indent args).run false = some (texts, false) ∧ (texts = [] ↔ args = [])
      ∧ ∀ more lexemes, Spells (')' :: more) lexemes →
        Spells ((commas texts).toList ++ ')' :: more) (argsLexemes args ++ lexemes) := by
  induction args with
  | nil => exact ⟨[], rfl, by simp, fun more lexemes behind => behind⟩
  | cons arg rest ih =>
    obtain ⟨isOwn, areLater⟩ := List.forall_mem_cons.mp areArgs
    obtain ⟨text, ran, own⟩ := prints_arg indent isOwn
    obtain ⟨texts, restRan, empty, later⟩ := ih areLater
    refine ⟨text :: texts, ?_, by simp, fun more lexemes behind => ?_⟩
    · exact (run_bind ran).trans (run_bind restRan)
    · -- A comma and a blank stand between two arguments, and none behind the last one.
      cases rest with
      | nil =>
        obtain rfl := empty.mpr rfl
        have inArg := own ')' more lexemes rfl (by decide) behind
        simpa [argsLexemes, commas] using inArg
      | cons second rest =>
        have inComma : Spells (',' :: ' ' :: ((commas texts).toList ++ ')' :: more)) _ :=
          spells_closed .comma (by decide) (List.cons_ne_nil _ _) (spells_gap (later more _ behind))
        have inArg := own ',' _ _ rfl (by decide) inComma
        rw [toList_commas_cons text (by simp [empty])]
        simpa [argsLexemes] using inArg

/-- A call prints its callee and its arguments. -/
theorem prints_call {link : ChainLink} {callee : Expr} {args : List Arg} (isCallee : callee.Prints)
    (areArgs : ∀ arg ∈ args, arg.value.Prints) :
    Expr.PrintsBare ⟨origin, .call link false callee args⟩ := by
  intro indent place
  obtain ⟨text, ran, printed⟩ := isCallee indent place (targetLevel link false callee)
  obtain ⟨texts, argsRan, -, argsSpell⟩ := prints_args indent areArgs
  obtain ⟨c, rest, starts, noSign⟩ := noSign_of_tight printed (update_le_targetLevel _ _ _)
  refine ⟨"" ++ text ++ openingText link ++ "(" ++ commas texts ++ ")", ?_,
    ⟨c, _, by simp only [String.append_assoc, String.toList_append, starts]; rfl, fun _ => noSign,
      by simp⟩, fun next more lexemes boundary _ behind => ?_⟩
  · exact (run_bind ran).trans (run_bind argsRan)
  · have inClose : Spells (')' :: next :: more) _ :=
      spells_closed .parenthesisClose (by decide) (List.cons_ne_nil _ _) behind
    have inArgs := argsSpell _ _ inClose
    -- The parenthesis may be that of a chain. Nothing sticks to either.
    by_cases isOpening : link = .opens
    · subst isOpening
      have inOpen : Spells ('?' :: '.' :: '(' :: ((commas texts).toList ++ ')' :: next :: more)) _ :=
        spells_closed .questionDotParenthesisOpen (by decide) (by simp) inArgs
      have inCallee := printed.spells '?' _ _ rfl (fun point => absurd point (by decide)) inOpen
      simpa [shapeLexemes_call, ofParenthesis, openingText] using inCallee
    · have inOpen : Spells ('(' :: ((commas texts).toList ++ ')' :: next :: more)) _ :=
        spells_closed .parenthesisOpen (by decide) (by simp) inArgs
      have inCallee := printed.spells '(' _ _ rfl (fun point => absurd point (by decide)) inOpen
      simpa [shapeLexemes_call, ofParenthesis, openingText, isOpening] using inCallee

/-- The call of a constructor prints its callee and its arguments. -/
theorem prints_new {callee : Expr} {args : List Arg} (isCallee : callee.Prints)
    (areArgs : ∀ arg ∈ args, arg.value.Prints) :
    Expr.PrintsBare ⟨origin, .new callee args⟩ := by
  intro indent place
  obtain ⟨text, ran, printed⟩ := isCallee indent .elsewhere (calleeLevel callee)
  obtain ⟨texts, argsRan, -, argsSpell⟩ := prints_args indent areArgs
  refine ⟨"new " ++ text ++ "(" ++ commas texts ++ ")", ?_,
    ⟨'n', _, by simp only [String.append_assoc, String.toList_append]; rfl, fun _ => rfl, by simp⟩,
    fun next more lexemes boundary _ behind => ?_⟩
  · exact (run_bind ran).trans (run_bind argsRan)
  · -- The keyword ends at the blank, and the callee at the parenthesis.
    have inClose : Spells (')' :: next :: more) _ :=
      spells_closed .parenthesisClose (by decide) (List.cons_ne_nil _ _) behind
    have inOpen : Spells ('(' :: ((commas texts).toList ++ ')' :: next :: more)) _ :=
      spells_closed .parenthesisOpen (by decide) (by simp) (argsSpell _ _ inClose)
    have inCallee := printed.spells '(' _ _ rfl (fun point => absurd point (by decide)) inOpen
    have word : ofName "new" = ofKeyword .newKw := rfl
    have named : IsMemberName "new" := ⟨rfl, rfl⟩
    have inWord := spells_name named rfl (spells_gap inCallee)
    simpa [shapeLexemes_new, word] using inWord

/-- An element of an array literal is printed in front of a comma or a bracket. -/
theorem prints_item (indent : Nat) (item : ArrayItem)
    (isSingle : ∀ value, item = .single value → value.Prints)
    (isSpread : ∀ value, item = .spread value → value.Prints) :
    ∃ text, (printItem indent item).run false = some (text, false)
      ∧ ∀ next more lexemes, isBoundary next = true → next ≠ '.' → Spells (next :: more) lexemes →
        Spells (text.toList ++ next :: more) (itemLexemes item ++ lexemes) := by
  -- A hole has no text at all, its comma is that of the list.
  cases item with
  | single value =>
    obtain ⟨text, ran, printed⟩ := isSingle value rfl indent .elsewhere Precedence.yielding
    refine ⟨text, ran, fun next more lexemes boundary noPoint behind => ?_⟩
    exact printed.spells next more lexemes boundary (fun point => absurd point noPoint) behind
  | spread value =>
    obtain ⟨text, ran, printed⟩ := isSpread value rfl indent .elsewhere Precedence.yielding
    refine ⟨"..." ++ text, run_bind ran,
      fun next more lexemes boundary noPoint behind => ?_⟩
    have inValue := printed.spells next more lexemes boundary
      (fun point => absurd point noPoint) behind
    have inDots : Spells ('.' :: '.' :: '.' :: (text.toList ++ next :: more)) _ :=
      spells_closed .dotDotDot (by decide) (by simp) inValue
    simpa [itemLexemes] using inDots
  | hole => exact ⟨"", rfl, fun next more lexemes _ _ behind => behind⟩

/-- Elements are printed with commas between them and one more behind a hole at the end, in front of
a closing bracket. -/
theorem prints_items (indent : Nat) {items : List ArrayItem}
    (singles : ∀ value, .single value ∈ items → value.Prints)
    (spreads : ∀ value, .spread value ∈ items → value.Prints) :
    ∃ texts, (printItems indent items).run false = some (texts, false) ∧ (texts = [] ↔ items = [])
      ∧ ∀ more lexemes, Spells (']' :: more) lexemes →
        Spells ((commas texts).toList ++ (if endsWithHole items then "," else "").toList
          ++ ']' :: more) (itemsLexemes items ++ lexemes) := by
  induction items with
  | nil => exact ⟨[], rfl, by simp, fun more lexemes behind => behind⟩
  | cons item rest ih =>
    obtain ⟨text, ran, own⟩ := prints_item indent item
      (fun value same => singles value (same ▸ List.mem_cons_self ..))
      (fun value same => spreads value (same ▸ List.mem_cons_self ..))
    obtain ⟨texts, restRan, empty, later⟩ := ih
      (fun value mem => singles value (List.mem_cons_of_mem _ mem))
      (fun value mem => spreads value (List.mem_cons_of_mem _ mem))
    refine ⟨text :: texts, ?_, by simp, fun more lexemes behind => ?_⟩
    · exact (run_bind ran).trans (run_bind restRan)
    · -- The last item has a comma behind it if it is a hole, all others have one anyway.
      cases rest with
      | nil =>
        obtain rfl := empty.mpr rfl
        cases item with
        | hole =>
          have inComma : Spells (',' :: ']' :: more) _ :=
            spells_closed .comma (by decide) (List.cons_ne_nil _ _) behind
          have inHole := own ',' _ _ rfl (by decide) inComma
          simpa [itemsLexemes, commas, endsWithHole] using inHole
        | single value | spread value =>
          have inItem := own ']' more lexemes rfl (by decide) behind
          simpa [itemsLexemes, commas, endsWithHole] using inItem
      | cons second rest =>
        have inComma := spells_closed .comma (by decide) (List.cons_ne_nil _ _)
          (spells_gap (later more _ behind))
        have inItem := own ',' _ _ rfl (by decide) inComma
        rw [toList_commas_cons text (by simp [empty])]
        simpa [itemsLexemes, endsWithHole] using inItem

/-- An array literal prints its elements. -/
theorem prints_array {items : List ArrayItem}
    (singles : ∀ value, .single value ∈ items → value.Prints)
    (spreads : ∀ value, .spread value ∈ items → value.Prints) :
    Expr.PrintsBare ⟨origin, .array items⟩ := by
  intro indent place
  obtain ⟨texts, ran, -, spells⟩ := prints_items indent singles spreads
  refine ⟨"[" ++ commas texts ++ (if endsWithHole items then "," else "") ++ "]", ?_,
    ⟨'[', _, by simp only [String.append_assoc, String.toList_append]; rfl, fun _ => rfl, by simp⟩,
    fun next more lexemes boundary _ behind => ?_⟩
  · exact run_bind ran
  · -- The brackets stick to nothing, so only the items matter.
    have inClose : Spells (']' :: next :: more) _ :=
      spells_closed .bracketClose (by decide) (List.cons_ne_nil _ _) behind
    have inItems := spells _ _ inClose
    have inOpen : Spells ('[' :: _) _ :=
      spells_closed .bracketOpen (by decide) (by simp) inItems
    simpa [shapeLexemes_array] using inOpen

/-- An identifier is the name of a member as well. -/
theorem IsIdentifier.isMemberName {name : String} (named : IsIdentifier name) : IsMemberName name :=
  ⟨by rw [named.1]; rfl, named.2⟩

/-- What is one name prints as that name. -/
theorem prints_name {shape : Shape} {name : String} (named : IsMemberName name)
    (tokens : shapeLexemes shape = [ofName name])
    (printed : ∀ indent place, printShape indent place shape = pure name)
    (noUnary : ∀ op operand, shape ≠ .unary op operand) : Expr.PrintsBare ⟨origin, shape⟩ := by
  intro indent place
  obtain ⟨c, rest, starts, noSign, -⟩ := exists_cons_of_name named
  refine ⟨name, by rw [printed]; rfl, ⟨c, rest, starts, fun _ => noSign,
    fun op operand same => absurd same (noUnary op operand)⟩,
    fun next more lexemes boundary _ behind => ?_⟩
  rw [tokens]
  exact spells_name named boundary behind

/-- A string prints in quotes. -/
theorem prints_str {value : String} : Expr.PrintsBare ⟨origin, .str value⟩ := by
  intro indent place
  refine ⟨Text.quote value, rfl, ⟨'"', _, by simp only [Text.quote, String.toList_ofList]; rfl,
    fun _ => rfl, by simp⟩, fun next more lexemes boundary _ behind => ?_⟩
  exact ⟨_, starts_quote value _, behind⟩

/-- A number prints as it is. -/
theorem prints_num {text : String} (nonempty : text.toList ≠ [])
    (decimal : ∀ d ∈ text.toList, Text.isDecimalDigit d = true) :
    Expr.PrintsBare ⟨origin, .num text⟩ := by
  intro indent place
  obtain ⟨c, rest, starts⟩ := List.exists_cons_of_ne_nil nonempty
  -- A digit is no sign.
  have noSign : isSign c = false := by
    have digit := Lexer.isDecimalDigit_elim (p := fun d => !isSign d)
      (decimal c (by simp [starts])) (by decide)
    simpa using digit
  refine ⟨text, rfl, ⟨c, rest, starts, fun _ => noSign, by simp⟩,
    fun next more lexemes boundary apart behind => ?_⟩
  -- Digits alone are an integer, behind which a point would not end the number.
  have noPoint : next ≠ '.' := by
    intro point
    have integer : isInteger ⟨origin, .num text⟩ = true := List.all_eq_true.mpr decimal
    exact absurd ((apart point).2.symm.trans integer) (by decide)
  exact ⟨_, starts_digits nonempty decimal (isBoundary_elim boundary (by decide)) noPoint more,
    behind⟩

end Cases

/-- The text of an operation spells its tokens, whatever parentheses it takes. -/
theorem Expr.IsOperation.prints {e : Expr} (isOperation : e.IsOperation) : e.Prints := by
  -- With the parts printed well, the shape is, and so is the expression with its parentheses.
  refine PrintsBare.prints ?_ isOperation
  induction isOperation with
  | id named => exact prints_name named.isMemberName rfl (fun _ _ => rfl) nofun
  | this =>
    have named : IsMemberName "this" := ⟨rfl, rfl⟩
    have word : [ofKeyword .thisKw] = [ofName "this"] := rfl
    exact prints_name named word (fun _ _ => rfl) nofun
  | str => exact prints_str
  | num nonempty decimal => exact prints_num nonempty decimal
  | array singles spreads inSingles inSpreads =>
    exact prints_array (fun value mem => (inSingles value mem).prints (singles value mem))
      fun value mem => (inSpreads value mem).prints (spreads value mem)
  | binary isInfix noAssign isLeft isRight inLeft inRight =>
    exact prints_binary isInfix (inLeft.prints isLeft) (inRight.prints isRight)
  | assign assigns isPlace isLeft isRight inLeft inRight =>
    exact prints_binary (Operator.isInfix_of_isAssignment assigns) (inLeft.prints isLeft)
      (inRight.prints isRight)
  | unary isLeading isOperand inOperand =>
    exact prints_unary isLeading isOperand (inOperand.prints isOperand)
  | update isTrailing isOperand inOperand =>
    exact prints_update isTrailing (inOperand.prints isOperand)
  | cond isTest isConsequent isAlternate inTest inConsequent inAlternate =>
    exact prints_cond (inTest.prints isTest) (inConsequent.prints isConsequent)
      (inAlternate.prints isAlternate)
  | member named linked isObject inObject => exact prints_member named (inObject.prints isObject)
  | computed linked isObject isKey inObject inKey =>
    exact prints_computed (inObject.prints isObject) (inKey.prints isKey)
  | call linked isCallee areArgs inCallee inArgs =>
    exact prints_call (inCallee.prints isCallee)
      fun arg mem => (inArgs arg mem).prints (areArgs arg mem)
  | new isCallee areArgs inCallee inArgs =>
    exact prints_new (inCallee.prints isCallee)
      fun arg mem => (inArgs arg mem).prints (areArgs arg mem)

end Downlevel
