import Downlevel.Printer
import Downlevel.Proofs.Formed
import Downlevel.Proofs.RoundTrip.Lexemes

/-! The trees that operators build from names and literals, and the tokens they are printed as. -/

namespace Downlevel

open Printer

/-- A name that the lexer reads as an identifier, so that it is no keyword. -/
def IsIdentifier (name : String) : Prop :=
  (Lexer.first name).kind = .identifier ∧ (Lexer.first name).text = name

/-- A name that the lexer reads as the name of a member: any word or a private name. -/
def IsMemberName (name : String) : Prop :=
  (Lexer.first name).kind.isMemberName = true ∧ (Lexer.first name).text = name

namespace Operator

/-- Whether the operator stands between two operands. -/
def IsInfix (op : Operator) : Prop :=
  ∃ kind, ofInfixToken? kind = some op

/-- Whether the operator stands in front of its operand. -/
def IsLeading (op : Operator) : Prop :=
  ∃ kind, ofLeadingToken? kind = some op

/-- Whether the operator stands behind its operand. -/
def IsTrailing (op : Operator) : Prop :=
  op = .postfixIncrement ∨ op = .postfixDecrement

end Operator

/-- A tree that operators build from names and literals. Links go on with a chain only where one is
open, assignments write places, and calls are not marked as pure. -/
inductive Expr.IsOperation : Expr → Prop
  | id {origin : Origin} {name : String} (named : IsIdentifier name) :
    IsOperation ⟨origin, .id name⟩
  | this {origin : Origin} : IsOperation ⟨origin, .this⟩
  | str {origin : Origin} {value : String} : IsOperation ⟨origin, .str value⟩
  | num {origin : Origin} {text : String} (nonempty : text.toList ≠ [])
    (decimal : ∀ d ∈ text.toList, Text.isDecimalDigit d = true) : IsOperation ⟨origin, .num text⟩
  | array {origin : Origin} {items : List ArrayItem}
    (singles : ∀ value, .single value ∈ items → IsOperation value)
    (spreads : ∀ value, .spread value ∈ items → IsOperation value) :
    IsOperation ⟨origin, .array items⟩
  | binary {origin : Origin} {op : Operator} {left right : Expr} (isInfix : op.IsInfix)
    (noAssign : op.isAssignment = false) (isLeft : IsOperation left)
    (isRight : IsOperation right) : IsOperation ⟨origin, .binary op left right⟩
  | assign {origin : Origin} {op : Operator} {left right : Expr} (assigns : op.isAssignment = true)
    (isPlace : left.isPlace = true) (isLeft : IsOperation left) (isRight : IsOperation right) :
    IsOperation ⟨origin, .binary op left right⟩
  | unary {origin : Origin} {op : Operator} {operand : Expr} (isLeading : op.IsLeading)
    (isOperand : IsOperation operand) : IsOperation ⟨origin, .unary op operand⟩
  | update {origin : Origin} {op : Operator} {operand : Expr} (isTrailing : op.IsTrailing)
    (isOperand : IsOperation operand) : IsOperation ⟨origin, .update op operand⟩
  | cond {origin : Origin} {test consequent alternate : Expr} (isTest : IsOperation test)
    (isConsequent : IsOperation consequent) (isAlternate : IsOperation alternate) :
    IsOperation ⟨origin, .cond test consequent alternate⟩
  | member {origin : Origin} {link : ChainLink} {object : Expr} {name : String}
    (named : IsMemberName name) (linked : link = .continues → object.isChained = true)
    (isObject : IsOperation object) : IsOperation ⟨origin, .member link object name⟩
  | computed {origin : Origin} {link : ChainLink} {object key : Expr}
    (linked : link = .continues → object.isChained = true) (isObject : IsOperation object)
    (isKey : IsOperation key) : IsOperation ⟨origin, .computed link object key⟩
  | call {origin : Origin} {link : ChainLink} {callee : Expr} {args : List Arg}
    (linked : link = .continues → callee.isChained = true) (isCallee : IsOperation callee)
    (areArgs : ∀ arg ∈ args, IsOperation arg.value) :
    IsOperation ⟨origin, .call link false callee args⟩
  | new {origin : Origin} {callee : Expr} {args : List Arg} (isCallee : IsOperation callee)
    (areArgs : ∀ arg ∈ args, IsOperation arg.value) : IsOperation ⟨origin, .new callee args⟩

mutual

/-- The expression with nothing said about where it and its operands come from. -/
def Expr.unlocated : Expr → Expr
  | ⟨_, shape⟩ => ⟨⟨⟨0, 0⟩, false⟩, shape.unlocated⟩

/-- The same for a shape. Shapes of which no operation is built stay as they are. -/
def Shape.unlocated : Shape → Shape
  | .binary op left right => .binary op left.unlocated right.unlocated
  | .call link isPure callee args => .call link isPure callee.unlocated (argsUnlocated args)
  | .computed link object key => .computed link object.unlocated key.unlocated
  | .cond test consequent alternate =>
    .cond test.unlocated consequent.unlocated alternate.unlocated
  | .member link object name => .member link object.unlocated name
  | .new callee args => .new callee.unlocated (argsUnlocated args)
  | .unary op operand => .unary op operand.unlocated
  | .update op operand => .update op operand.unlocated
  | .array items => .array (itemsUnlocated items)
  | shape => shape

/-- The same for an argument. -/
def Arg.unlocated : Arg → Arg
  | ⟨isSpread, value⟩ => ⟨isSpread, value.unlocated⟩

/-- The same for arguments. -/
def argsUnlocated : List Arg → List Arg
  | [] => []
  | arg :: rest => arg.unlocated :: argsUnlocated rest

/-- The same for an element of an array literal. -/
def ArrayItem.unlocated : ArrayItem → ArrayItem
  | .single value => .single value.unlocated
  | .spread value => .spread value.unlocated
  | .hole => .hole

/-- The same for the elements of an array literal. -/
def itemsUnlocated : List ArrayItem → List ArrayItem
  | [] => []
  | item :: rest => item.unlocated :: itemsUnlocated rest

end

section Unlocated

variable (link : ChainLink) (e left right : Expr) (args : List Arg)

/-- Locations are left out of both operands. -/
theorem Shape.unlocated_binary (op : Operator) :
    (Shape.binary op left right).unlocated = .binary op left.unlocated right.unlocated :=
  rfl

/-- Locations are left out of the callee and the arguments. -/
theorem Shape.unlocated_call (isPure : Bool) :
    (Shape.call link isPure e args).unlocated
      = .call link isPure e.unlocated (argsUnlocated args) :=
  rfl

/-- Locations are left out of the object and the key. -/
theorem Shape.unlocated_computed (key : Expr) :
    (Shape.computed link e key).unlocated = .computed link e.unlocated key.unlocated :=
  rfl

/-- Locations are left out of all three parts. -/
theorem Shape.unlocated_cond (test : Expr) :
    (Shape.cond test left right).unlocated
      = .cond test.unlocated left.unlocated right.unlocated :=
  rfl

/-- Locations are left out of the object. -/
theorem Shape.unlocated_member (name : String) :
    (Shape.member link e name).unlocated = .member link e.unlocated name :=
  rfl

/-- Locations are left out of the callee and the arguments of a constructor call. -/
theorem Shape.unlocated_new :
    (Shape.new e args).unlocated = .new e.unlocated (argsUnlocated args) :=
  rfl

/-- Locations are left out of the operand. -/
theorem Shape.unlocated_unary (op : Operator) :
    (Shape.unary op e).unlocated = .unary op e.unlocated :=
  rfl

/-- Locations are left out of what is counted up or down. -/
theorem Shape.unlocated_update (op : Operator) :
    (Shape.update op e).unlocated = .update op e.unlocated :=
  rfl

/-- Locations are left out of the elements. -/
theorem Shape.unlocated_array (items : List ArrayItem) :
    (Shape.array items).unlocated = .array (itemsUnlocated items) :=
  rfl

end Unlocated

namespace Lexeme

/-- An operator as it is spelled, in symbols or as a word. -/
def ofOperator (op : Operator) : Lexeme :=
  match Punctuator.all.find? (·.text == op.text) with
  | some mark => ofSymbol mark
  | none => ofName op.text

/-- What stands between an object and the name of its member. -/
def ofDot : ChainLink → Lexeme
  | .opens => ofSymbol .questionDot
  | _ => ofSymbol .dot

/-- What stands between an object and the key of its member. -/
def ofBracket : ChainLink → Lexeme
  | .opens => ofSymbol .questionDotBracketOpen
  | _ => ofSymbol .bracketOpen

/-- What stands between a callee and its arguments. -/
def ofParenthesis : ChainLink → Lexeme
  | .opens => ofSymbol .questionDotParenthesisOpen
  | _ => ofSymbol .parenthesisOpen

end Lexeme

section Lexemes

open Lexeme

mutual

/-- The tokens of an expression where its level has to be at least the given one. -/
def exprLexemes (level : Nat) : Expr → List Lexeme
  | ⟨_, shape⟩ =>
    if shape.level < level then
      ofSymbol .parenthesisOpen :: (shapeLexemes shape ++ [ofSymbol .parenthesisClose])
    else shapeLexemes shape

/-- The tokens of an expression without parentheses, if it is an operation. -/
def shapeLexemes : Shape → List Lexeme
  | .binary op left right =>
    exprLexemes (leftOperandLevel op left) left
      ++ ofOperator op :: exprLexemes (rightOperandLevel op right) right
  | .call link _ callee args =>
    exprLexemes (targetLevel link false callee) callee
      ++ ofParenthesis link :: (argsLexemes args ++ [ofSymbol .parenthesisClose])
  | .computed link object key =>
    exprLexemes (targetLevel link false object) object
      ++ ofBracket link :: (exprLexemes Precedence.comma key ++ [ofSymbol .bracketClose])
  | .cond test consequent alternate =>
    exprLexemes (Precedence.conditional + 1) test
      ++ ofSymbol .question :: (exprLexemes Precedence.assignment consequent
        ++ ofSymbol .colon :: exprLexemes Precedence.assignment alternate)
  | .id name => [ofName name]
  | .member link object name =>
    exprLexemes (targetLevel link (link != .opens) object) object ++ [ofDot link, ofName name]
  | .new callee args =>
    ofKeyword .newKw :: (exprLexemes (calleeLevel callee) callee
      ++ ofSymbol .parenthesisOpen :: (argsLexemes args ++ [ofSymbol .parenthesisClose]))
  | .this => [ofKeyword .thisKw]
  | .unary op operand => ofOperator op :: exprLexemes Precedence.unary operand
  | .update op operand => exprLexemes Precedence.update operand ++ [ofOperator op]
  | .array items => ofSymbol .bracketOpen :: (itemsLexemes items ++ [ofSymbol .bracketClose])
  | .num text => [⟨.number, text⟩]
  | .str value => [⟨.string, Text.quote value⟩]
  | _ => []

/-- The tokens of an argument. -/
def argLexemes : Arg → List Lexeme
  | ⟨isSpread, value⟩ =>
    (if isSpread then [ofSymbol .dotDotDot] else []) ++ exprLexemes Precedence.yielding value

/-- The tokens of arguments with commas between them. -/
def argsLexemes : List Arg → List Lexeme
  | [] => []
  | arg :: rest =>
    argLexemes arg ++ (if rest.isEmpty then [] else [ofSymbol .comma]) ++ argsLexemes rest

/-- The tokens of an element of an array literal. -/
def itemLexemes : ArrayItem → List Lexeme
  | .single value => exprLexemes Precedence.yielding value
  | .spread value => ofSymbol .dotDotDot :: exprLexemes Precedence.yielding value
  | .hole => []

/-- The tokens of the elements of an array literal, with a comma behind each but the last and
behind every hole. -/
def itemsLexemes : List ArrayItem → List Lexeme
  | [] => []
  | item :: rest =>
    itemLexemes item ++ (if rest.isEmpty && !item matches .hole then [] else [ofSymbol .comma])
      ++ itemsLexemes rest

end

section Shapes

variable (link : ChainLink) (e left right : Expr) (args : List Arg)

/-- An operator stands between its operands. -/
theorem shapeLexemes_binary (op : Operator) : shapeLexemes (.binary op left right)
    = exprLexemes (leftOperandLevel op left) left
      ++ ofOperator op :: exprLexemes (rightOperandLevel op right) right :=
  rfl

/-- A conditional is printed with its two marks. -/
theorem shapeLexemes_cond (test : Expr) : shapeLexemes (.cond test left right)
    = exprLexemes (Precedence.conditional + 1) test
      ++ ofSymbol .question :: (exprLexemes Precedence.assignment left
        ++ ofSymbol .colon :: exprLexemes Precedence.assignment right) :=
  rfl

/-- An operator stands in front of its operand. -/
theorem shapeLexemes_unary (op : Operator) :
    shapeLexemes (.unary op e) = ofOperator op :: exprLexemes Precedence.unary e :=
  rfl

/-- An operator that counts up or down stands behind its operand. -/
theorem shapeLexemes_update (op : Operator) :
    shapeLexemes (.update op e) = exprLexemes Precedence.update e ++ [ofOperator op] :=
  rfl

/-- A member access is printed with its dot. -/
theorem shapeLexemes_member (name : String) : shapeLexemes (.member link e name)
    = exprLexemes (targetLevel link (link != .opens) e) e ++ [ofDot link, ofName name] :=
  rfl

/-- A computed access is printed with its brackets. -/
theorem shapeLexemes_computed (key : Expr) : shapeLexemes (.computed link e key)
    = exprLexemes (targetLevel link false e) e
      ++ ofBracket link :: (exprLexemes Precedence.comma key ++ [ofSymbol .bracketClose]) :=
  rfl

/-- A call is printed with its parentheses. -/
theorem shapeLexemes_call (isPure : Bool) : shapeLexemes (.call link isPure e args)
    = exprLexemes (targetLevel link false e) e
      ++ ofParenthesis link :: (argsLexemes args ++ [ofSymbol .parenthesisClose]) :=
  rfl

/-- The call of a constructor always has parentheses. -/
theorem shapeLexemes_new : shapeLexemes (.new e args)
    = ofKeyword .newKw :: (exprLexemes (calleeLevel e) e
      ++ ofSymbol .parenthesisOpen :: (argsLexemes args ++ [ofSymbol .parenthesisClose])) :=
  rfl

/-- An array literal is printed with its brackets. -/
theorem shapeLexemes_array (items : List ArrayItem) : shapeLexemes (.array items)
    = ofSymbol .bracketOpen :: (itemsLexemes items ++ [ofSymbol .bracketClose]) :=
  rfl

/-- A name is printed as it is. -/
theorem shapeLexemes_id (name : String) : shapeLexemes (.id name) = [ofName name] :=
  rfl

/-- A number is printed as it is. -/
theorem shapeLexemes_num (text : String) : shapeLexemes (.num text) = [⟨.number, text⟩] :=
  rfl

/-- A string is printed in quotes. -/
theorem shapeLexemes_str (value : String) :
    shapeLexemes (.str value) = [⟨.string, Text.quote value⟩] :=
  rfl

end Shapes

end Lexemes

/-- An expression that holds together tightly enough is printed without parentheses. -/
theorem exprLexemes_of_le {e : Expr} {level : Nat} (tight : level ≤ e.shape.level) :
    exprLexemes level e = shapeLexemes e.shape := by
  obtain ⟨origin, shape⟩ := e
  rw [exprLexemes, if_neg (Nat.not_lt_of_ge tight)]

/-- Behind the last argument there is no comma. -/
theorem argsLexemes_last (arg : Arg) : argsLexemes [arg] = argLexemes arg := by
  simp [argsLexemes]

/-- Behind any other argument there is one. -/
theorem argsLexemes_next (arg next : Arg) (rest : List Arg) :
    argsLexemes (arg :: next :: rest)
      = argLexemes arg ++ .ofSymbol .comma :: argsLexemes (next :: rest) := by
  rw [argsLexemes]
  simp

/-- Behind the last element there is no comma, unless it is a hole. -/
theorem itemsLexemes_last {item : ArrayItem} (noHole : item ≠ .hole) :
    itemsLexemes [item] = itemLexemes item := by
  cases item <;> first | exact absurd rfl noHole | simp [itemsLexemes]

/-- Behind any other element there is one. -/
theorem itemsLexemes_next {item : ArrayItem} {rest : List ArrayItem}
    (noLast : ¬(rest = [] ∧ item ≠ .hole)) :
    itemsLexemes (item :: rest) = itemLexemes item ++ .ofSymbol .comma :: itemsLexemes rest := by
  cases rest <;> cases item <;> simp_all [itemsLexemes]

namespace Operator

/-- Whether an operator is spelled as a word. -/
def isWord (op : Operator) : Bool :=
  op == .isIn || op == .instanceof || Printer.isWordOperator op

/-- Whether the spelling of an operator is what the lexer reads it from. -/
def isSpelled (op : Operator) : Bool :=
  if op.isWord then
    Lexeme.ofOperator op == .ofName op.text && (Lexer.first op.text).text == op.text
      && (Lexer.first op.text).kind.isMemberName
  else (Punctuator.all.find? (·.text == op.text)).isSome

/-- The operators that a reading of tokens gives. -/
def ofTokens (ofToken? : TokenKind → Option Operator) : List Operator :=
  Punctuator.all.filterMap (ofToken? <| .symbol ·) ++ Keyword.all.filterMap (ofToken? <| .keyword ·)

/-- No other tokens are operators. -/
theorem mem_ofTokens {ofToken? : TokenKind → Option Operator}
    (others : ∀ kind, (∀ mark, kind ≠ .symbol mark) → (∀ word, kind ≠ .keyword word) →
      ofToken? kind = none)
    {kind : TokenKind} {op : Operator} (found : ofToken? kind = some op) : op ∈ ofTokens ofToken? := by
  -- Only symbols and keywords are tokens of operators, and both are listed.
  cases kind with
  | symbol mark =>
    exact List.mem_append_left _ (List.mem_filterMap.mpr ⟨mark, Punctuator.mem_all mark, found⟩)
  | keyword word =>
    have mem : word ∈ Keyword.all := by cases word <;> decide
    exact List.mem_append_right _ (List.mem_filterMap.mpr ⟨word, mem, found⟩)
  | _ =>
    rw [others _ (by simp) (by simp)] at found
    cases found

/-- What holds for all operators that are read between operands. -/
theorem IsInfix.elim {op : Operator} (isInfix : op.IsInfix) {P : Operator → Prop}
    (every : ∀ op ∈ ofTokens ofInfixToken?, P op) : P op := by
  obtain ⟨kind, found⟩ := isInfix
  refine every op (mem_ofTokens (fun kind noSymbol noWord => ?_) found)
  cases kind <;> first | rfl | exact absurd rfl (noSymbol _) | exact absurd rfl (noWord _)

/-- What holds for all operators that are read in front of an operand. -/
theorem IsLeading.elim {op : Operator} (isLeading : op.IsLeading) {P : Operator → Prop}
    (every : ∀ op ∈ ofTokens ofLeadingToken?, P op) : P op := by
  obtain ⟨kind, found⟩ := isLeading
  refine every op (mem_ofTokens (fun kind noSymbol noWord => ?_) found)
  cases kind <;> first | rfl | exact absurd rfl (noSymbol _) | exact absurd rfl (noWord _)

/-- The token of an operator between operands is read as that operator. -/
theorem IsInfix.kind {op : Operator} (isInfix : op.IsInfix) :
    ofInfixToken? (Lexeme.ofOperator op).kind = some op :=
  isInfix.elim (P := fun op => ofInfixToken? (Lexeme.ofOperator op).kind = some op)
    (by decide +kernel)

/-- The token of an operator in front of its operand is read as that operator. -/
theorem IsLeading.kind {op : Operator} (isLeading : op.IsLeading) :
    ofLeadingToken? (Lexeme.ofOperator op).kind = some op :=
  isLeading.elim (P := fun op => ofLeadingToken? (Lexeme.ofOperator op).kind = some op)
    (by decide +kernel)

/-- Assignments are operators between operands. -/
theorem isInfix_of_isAssignment {op : Operator} (assigns : op.isAssignment = true) : op.IsInfix := by
  have every (mark : Punctuator) (op : Operator) (found : ofInfixToken? (.symbol mark) = some op) :
      op.IsInfix := ⟨_, found⟩
  -- Each of them has a token of its own.
  cases op with
  | assignment => exact every .equals _ rfl
  | assignmentAddition => exact every .plusEquals _ rfl
  | assignmentBitwiseAnd => exact every .ampersandEquals _ rfl
  | assignmentBitwiseLeftShift => exact every .chevronLeftChevronLeftEquals _ rfl
  | assignmentBitwiseOr => exact every .barEquals _ rfl
  | assignmentBitwiseRightShift => exact every .chevronRightChevronRightEquals _ rfl
  | assignmentBitwiseUnsignedRightShift =>
    exact every .chevronRightChevronRightChevronRightEquals _ rfl
  | assignmentBitwiseXor => exact every .caretEquals _ rfl
  | assignmentDivision => exact every .slashEquals _ rfl
  | assignmentExponentiation => exact every .asteriskAsteriskEquals _ rfl
  | assignmentLogicalAnd => exact every .ampersandAmpersandEquals _ rfl
  | assignmentLogicalOr => exact every .barBarEquals _ rfl
  | assignmentMultiplication => exact every .asteriskEquals _ rfl
  | assignmentNullishCoalescing => exact every .questionQuestionEquals _ rfl
  | assignmentRemainder => exact every .percentEquals _ rfl
  | assignmentSubtraction => exact every .hyphenEquals _ rfl
  | _ => cases assigns

/-- An operator is spelled as a word or in symbols. -/
theorem spelling {op : Operator} (used : op.IsInfix ∨ op.IsLeading ∨ op.IsTrailing) :
    op.isWord = true ∧ Lexeme.ofOperator op = .ofName op.text
        ∧ (Lexer.first op.text).text = op.text
        ∧ (Lexer.first op.text).kind.isMemberName = true
      ∨ op.isWord = false ∧ ∃ mark : Punctuator, Lexeme.ofOperator op = .ofSymbol mark
        ∧ mark.text = op.text := by
  -- All operators are checked by the tables that the tokens come from.
  have spelled : op.isSpelled = true := by
    rcases used with isInfix | isLeading | rfl | rfl
    · exact isInfix.elim (P := fun op => op.isSpelled = true) (by decide +kernel)
    · exact isLeading.elim (P := fun op => op.isSpelled = true) (by decide +kernel)
    · decide
    · decide
  unfold isSpelled at spelled
  split at spelled
  · rename_i isWord
    simp only [Bool.and_eq_true, beq_iff_eq] at spelled
    exact .inl ⟨isWord, spelled.1.1, spelled.1.2, spelled.2⟩
  · rename_i noWord
    obtain ⟨mark, found⟩ := Option.isSome_iff_exists.mp spelled
    refine .inr ⟨Bool.eq_false_iff.mpr noWord, mark, by simp [Lexeme.ofOperator, found], ?_⟩
    simpa using List.find?_some found

end Operator

/-- Whether an operand may start with the token. -/
def TokenKind.opensOperand : TokenKind → Bool
  | .identifier | .string | .number | .keyword .newKw | .keyword .thisKw
  | .symbol .parenthesisOpen | .symbol .bracketOpen => true
  | kind => (Operator.ofLeadingToken? kind).isSome

/-- The tokens start like an operand. -/
def OpensOperand (lexemes : List Lexeme) : Prop :=
  ∃ first rest, lexemes = first :: rest ∧ first.kind.opensOperand = true

/-- What opens an operand does so with more behind it. -/
theorem OpensOperand.append {lexemes : List Lexeme} (opens : OpensOperand lexemes)
    (more : List Lexeme) : OpensOperand (lexemes ++ more) := by
  obtain ⟨first, rest, rfl, own⟩ := opens
  exact ⟨first, rest ++ more, rfl, own⟩

/-- Something opens an operand. -/
theorem OpensOperand.ne_nil {lexemes : List Lexeme} (opens : OpensOperand lexemes) : lexemes ≠ [] := by
  obtain ⟨first, rest, rfl, -⟩ := opens
  exact List.cons_ne_nil _ _

/-- A parenthesis starts an operand as well. -/
theorem OpensOperand.level {e : Expr} (opens : OpensOperand (shapeLexemes e.shape)) (level : Nat) :
    OpensOperand (exprLexemes level e) := by
  obtain ⟨origin, shape⟩ := e
  rw [exprLexemes]
  split
  · exact ⟨_, _, rfl, rfl⟩
  · exact opens

/-- A token that is read as an operator in front of an operand may start one. -/
theorem TokenKind.opensOperand_of_leading {kind : TokenKind} {op : Operator}
    (leading : Operator.ofLeadingToken? kind = some op) : kind.opensOperand = true := by
  unfold opensOperand
  split
  all_goals first | rfl | rw [leading]; rfl

/-- An operation starts like an operand. -/
theorem Expr.IsOperation.opens {e : Expr} (isOperation : e.IsOperation) :
    OpensOperand (shapeLexemes e.shape) := by
  -- An operation opens with its token, or with what its left operand opens with.
  induction isOperation with
  | id named => exact ⟨_, _, rfl, by rw [Lexeme.ofName, named.1]; rfl⟩
  | this => exact ⟨_, _, rfl, rfl⟩
  | str => exact ⟨_, _, rfl, rfl⟩
  | num => exact ⟨_, _, rfl, rfl⟩
  | array => exact ⟨_, _, rfl, rfl⟩
  | new => exact ⟨_, _, rfl, rfl⟩
  | unary isLeading =>
    exact ⟨_, _, rfl, TokenKind.opensOperand_of_leading isLeading.kind⟩
  | binary _ _ _ _ left | assign _ _ _ _ left => exact (left.level _).append _
  | update _ _ operand => exact (operand.level _).append _
  | cond _ _ _ test => exact (test.level _).append _
  | member _ _ _ object => exact (object.level _).append _
  | computed _ _ _ object => exact (object.level _).append _
  | call _ _ _ callee => exact (callee.level _).append _

end Downlevel
