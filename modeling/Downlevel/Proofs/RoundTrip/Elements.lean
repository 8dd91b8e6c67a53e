import Downlevel.Proofs.RoundTrip.Suffixes

/-! Arguments and the elements of array literals are read one after the other. -/

namespace Downlevel.Parser

open Grammar Lexeme

variable {tape : Tape} {depth : Nat} {lexeme : Lexeme} {ahead after : List Lexeme}

/-- An expression that was printed for a level is read again at a level. -/
def Rereads (tape : Tape) (e : Expr) (printed level : Nat) : Prop :=
  ∀ stops after, Admits level stops → Ends level after →
    ReadsExpr tape level stops (exprLexemes printed e ++ after) after e.IsSame

/-- An element between commas is read again. -/
structure RereadsElement (tape : Tape) (e : Expr) : Prop where
  opens : OpensOperand (exprLexemes Precedence.yielding e)
  rereads : Rereads tape e Precedence.yielding Precedence.assignment

/-- Behind a separator there are fewer tokens. -/
theorem length_lt_append_cons (before : List Lexeme) (next : Lexeme) (rest : List Lexeme) :
    rest.length < (before ++ next :: rest).length := by
  rw [List.length_append, List.length_cons]
  omega

/-- A token that starts an operand is no symbol that ends or separates elements. -/
theorem ne_of_opensOperand {mark : Punctuator} (opens : lexeme.kind.opensOperand = true)
    (other : TokenKind.opensOperand (.symbol mark) = false) : lexeme.kind ≠ .symbol mark := by
  intro same
  rw [same, other] at opens
  cases opens

/-- A symbol that starts no operand is not accepted in front of one. -/
theorem refuse_operand {mark : Punctuator} (opens : OpensOperand ahead)
    (other : TokenKind.opensOperand (.symbol mark) = false) :
    Reads tape (accept (.symbol mark)) ahead ahead (· = false) := by
  obtain ⟨first, rest, rfl, own⟩ := opens
  exact .refuse (ne_of_opensOperand own other)

/-- Nor is it what comes next. -/
theorem nextIs_operand {mark : Punctuator} (opens : OpensOperand ahead)
    (other : TokenKind.opensOperand (.symbol mark) = false) :
    Reads tape (nextIs mark) ahead ahead (· = false) := by
  obtain ⟨first, rest, rfl, own⟩ := opens
  refine Reads.nextIs.weaken fun result is => is.trans ?_
  rw [beq_eq_false_iff_ne]
  exact ne_of_opensOperand own other

section Arguments

variable {α : Type}

/-- An argument is read if its value is. -/
theorem reads_argument {arg : Arg} (isArg : RereadsElement tape arg.value)
    (ends : Ends Precedence.assignment after) (enough : (argLexemes arg ++ after).length < depth) :
    Reads tape ((grammar depth).argument {}) (argLexemes arg ++ after) after
      fun found => found.unlocated = arg.unlocated := by
  obtain ⟨isSpread, value⟩ := arg
  have admits : Admits Precedence.assignment [.symbol .comma, .symbol .parenthesisClose] := by
    decide
  have element := isArg.rereads _ after admits ends
  have same (found : Expr) (same : value.IsSame found) :
      (⟨isSpread, found⟩ : Arg).unlocated = (⟨isSpread, value⟩ : Arg).unlocated := by
    rw [Arg.unlocated, Arg.unlocated, same.eq]
  rw [argLexemes] at enough ⊢
  -- The dots are either the first symbol, or refused by what opens an operand.
  cases isSpread with
  | true =>
    refine Reads.acceptSymbol.bind fun accepted is => ?_
    subst is
    refine (element.inner ?_).bind fun found shown => .pure (same found shown)
    rw [List.append_assoc] at enough
    exact Nat.lt_of_succ_lt enough
  | false =>
    refine (refuse_operand (isArg.opens.append _) rfl).bind fun accepted is => ?_
    subst is
    exact (element.inner enough).bind fun found shown => .pure (same found shown)

/-- Neither is an argument. -/
theorem nextIs_argument {arg : Arg} (isArg : RereadsElement tape arg.value) :
    Reads tape (nextIs .parenthesisClose) (argLexemes arg ++ after) (argLexemes arg ++ after)
      (· = false) := by
  obtain ⟨isSpread, value⟩ := arg
  cases isSpread with
  | true => exact Reads.nextIs
  | false => exact nextIs_operand (isArg.opens.append _) rfl

/-- Locations are left out of each argument. -/
theorem argsUnlocated_eq (args : List Arg) : argsUnlocated args = args.map Arg.unlocated := by
  induction args with
  | nil => rfl
  | cons arg rest ih => rw [argsUnlocated, ih, List.map_cons]

/-- The arguments are found in addition to those found before. -/
theorem runs_arguments {args : List Arg} (areArgs : ∀ arg ∈ args, RereadsElement tape arg.value)
    (before : List Arg)
    (enough : (argsLexemes args ++ ofSymbol .parenthesisClose :: after).length < depth) :
    Runs tape (commaRound .parenthesisClose ((grammar depth).argument {})) before
      (argsLexemes args ++ ofSymbol .parenthesisClose :: after)
      (Lands tape (ofSymbol .parenthesisClose :: after)
        fun found => found.map Arg.unlocated = (before ++ args).map Arg.unlocated) := by
  -- The last argument ends the list, and any other one is followed by a comma and more of them.
  induction args generalizing before with
  | nil =>
    refine .done (Reads.nextIs.bind fun isEnd is => ?_)
    subst is
    exact .pure (congrArg _ (List.append_nil before).symm)
  | cons arg rest ih =>
    have isArg := areArgs arg List.mem_cons_self
    cases rest with
    -- Behind the last argument the comma is refused, so the round is the last one.
    | nil =>
      rw [argsLexemes_last] at enough ⊢
      refine .done ((nextIs_argument isArg).bind fun isEnd is => ?_)
      subst is
      refine (reads_argument isArg ⟨_, _, rfl, rfl⟩ enough).bind fun found same => ?_
      refine (Reads.refuse (by simp [ofSymbol])).bind fun accepted is => ?_
      subst is
      exact .pure (by simp [Round.Holds, same])
    | cons next later =>
      rw [argsLexemes_next, List.append_assoc, List.cons_append] at enough ⊢
      have fewer := length_lt_append_cons (argLexemes arg) (ofSymbol .comma)
        (argsLexemes (next :: later) ++ ofSymbol .parenthesisClose :: after)
      -- A round with a comma behind it leads to the next argument, with less to read.
      have round : Reads tape (commaRound .parenthesisClose ((grammar depth).argument {}) before)
          (argLexemes arg ++ ofSymbol .comma
            :: (argsLexemes (next :: later) ++ ofSymbol .parenthesisClose :: after))
          (argsLexemes (next :: later) ++ ofSymbol .parenthesisClose :: after)
          (Round.Holds (fun found => found.map Arg.unlocated
            = (before ++ [arg]).map Arg.unlocated) fun _ => False) := by
        refine (nextIs_argument isArg).bind fun isEnd is => ?_
        subst is
        refine (reads_argument isArg ⟨_, _, rfl, rfl⟩ enough).bind fun found same => ?_
        refine Reads.acceptSymbol.bind fun accepted is => ?_
        subst is
        exact .pure (by simp [Round.Holds, same])
      refine .again round fewer fun found same => ?_
      have areRest := fun arg mem => areArgs arg (List.mem_cons_of_mem _ mem)
      refine (ih areRest found (fewer.trans enough)).weaken fun all shown => ?_
      rw [shown, List.map_append, same]
      simp

/-- The arguments of a call are read again. -/
theorem rereads_arguments {args : List Arg} (areArgs : ∀ arg ∈ args, RereadsElement tape arg.value) :
    ReadsArgs tape args after := by
  intro depth enough
  refine (Reaches.loop (runs_arguments areArgs [] enough)).bind fun found same =>
    Reads.symbol.bind fun _ _ => .pure ?_
  rw [argsUnlocated_eq, argsUnlocated_eq, same, List.nil_append]

end Arguments

section Items

/-- What comes behind an element of an array literal. -/
def itemEnd (items : List ArrayItem) : Parser (Round (List ArrayItem) (List ArrayItem)) := do
  if ← nextIs .bracketClose then return .done items
  symbol .comma
  return .again items

/-- A round over the elements of an array literal. -/
def itemRound (grammar : Grammar) (items : List ArrayItem) :
    Parser (Round (List ArrayItem) (List ArrayItem)) := do
  if ← accept (.symbol .comma) then return .again (items ++ [.hole])
  if ← nextIs .bracketClose then return .done items
  let isSpread ← accept (.symbol .dotDotDot)
  let value ← grammar.element {} [.symbol .comma, .symbol .bracketClose]
  itemEnd (items ++ [if isSpread then .spread value else .single value])

/-- The value of an element is read again, if it has one. -/
def RereadsItem (tape : Tape) : ArrayItem → Prop
  | .single value | .spread value => RereadsElement tape value
  | .hole => True

variable {item : ArrayItem} {middle : List Lexeme}

/-- A round over an element that is no hole. -/
theorem reads_item {described : Round (List ArrayItem) (List ArrayItem) → Prop}
    (isItem : RereadsItem tape item) (noHole : item ≠ .hole) (before : List ArrayItem)
    (ends : Ends Precedence.assignment middle) (enough : (itemLexemes item ++ middle).length < depth)
    (next : ∀ found, found.unlocated = item.unlocated →
      Reads tape (itemEnd (before ++ [found])) middle after described) :
    Reads tape (itemRound (grammar depth) before) (itemLexemes item ++ middle) after described := by
  have admits : Admits Precedence.assignment [.symbol .comma, .symbol .bracketClose] := by decide
  -- A hole has a round of its own; all else is an element, with dots in front if it is spread.
  cases item with
  | hole => exact absurd rfl noHole
  | single value =>
    rw [itemLexemes] at enough ⊢
    have opens := isItem.opens.append middle
    refine (refuse_operand opens rfl).bind fun _ is => ?_
    subst is
    refine (nextIs_operand opens rfl).bind fun _ is => ?_
    subst is
    refine (refuse_operand opens rfl).bind fun _ is => ?_
    subst is
    refine ((isItem.rereads _ middle admits ends).inner enough).bind fun found same => ?_
    exact next (.single found) (by rw [ArrayItem.unlocated, ArrayItem.unlocated, same.eq])
  | spread value =>
    rw [itemLexemes] at enough ⊢
    refine (Reads.refuse (by simp [ofSymbol])).bind fun _ is => ?_
    subst is
    refine Reads.nextIs.bind fun _ is => ?_
    subst is
    refine Reads.acceptSymbol.bind fun _ is => ?_
    subst is
    refine ((isItem.rereads _ middle admits ends).inner (Nat.lt_of_succ_lt enough)).bind
      fun found same => ?_
    exact next (.spread found) (by rw [ArrayItem.unlocated, ArrayItem.unlocated, same.eq])

/-- Behind an element the bracket ends the literal. -/
theorem itemEnd_last {items : List ArrayItem} {described : List ArrayItem → Prop}
    (holds : described items) :
    Reads tape (itemEnd items) (ofSymbol .bracketClose :: after) (ofSymbol .bracketClose :: after)
      (Round.Holds (fun _ => False) described) := by
  refine Reads.nextIs.bind fun _ is => ?_
  subst is
  exact .pure holds

/-- Behind an element a comma goes on with the others. -/
theorem itemEnd_next {items : List ArrayItem} {known : List ArrayItem → Prop}
    (holds : known items) :
    Reads tape (itemEnd items) (ofSymbol .comma :: after) after
      (Round.Holds known fun _ => False) := by
  refine Reads.nextIs.bind fun _ is => ?_
  subst is
  exact Reads.symbol.bind fun _ _ => .pure holds

/-- Locations are left out of each element. -/
theorem itemsUnlocated_eq (items : List ArrayItem) :
    itemsUnlocated items = items.map ArrayItem.unlocated := by
  induction items with
  | nil => rfl
  | cons item rest ih => rw [itemsUnlocated, ih, List.map_cons]

/-- The elements are found in addition to those found before. -/
theorem runs_items {items : List ArrayItem} (areItems : ∀ item ∈ items, RereadsItem tape item)
    (before : List ArrayItem)
    (enough : (itemsLexemes items ++ ofSymbol .bracketClose :: after).length < depth) :
    Runs tape (itemRound (grammar depth)) before
      (itemsLexemes items ++ ofSymbol .bracketClose :: after)
      (Lands tape (ofSymbol .bracketClose :: after)
        fun found => found.map ArrayItem.unlocated = (before ++ items).map ArrayItem.unlocated) := by
  -- The list ends with an item that is no hole, since a hole at the end needs its comma.
  induction items generalizing before with
  | nil =>
    refine .done ((Reads.refuse (by simp [ofSymbol])).bind fun _ is => ?_)
    subst is
    refine Reads.nextIs.bind fun _ is => ?_
    subst is
    exact .pure (congrArg _ (List.append_nil before).symm)
  | cons item rest ih =>
    have isItem := areItems item List.mem_cons_self
    have areRest : ∀ item ∈ rest, RereadsItem tape item :=
      fun item mem => areItems item (List.mem_cons_of_mem _ mem)
    by_cases last : rest = [] ∧ item ≠ .hole
    · obtain ⟨rfl, noHole⟩ := last
      rw [itemsLexemes_last noHole] at enough ⊢
      exact .done (reads_item isItem noHole before ⟨_, _, rfl, rfl⟩ enough fun found same =>
        itemEnd_last (by simp [same]))
    · rw [itemsLexemes_next last, List.append_assoc, List.cons_append] at enough ⊢
      have fewer := length_lt_append_cons (itemLexemes item) (ofSymbol .comma)
        (itemsLexemes rest ++ ofSymbol .bracketClose :: after)
      -- A round reads the item and its comma.
      have round : Reads tape (itemRound (grammar depth) before)
          (itemLexemes item ++ ofSymbol .comma
            :: (itemsLexemes rest ++ ofSymbol .bracketClose :: after))
          (itemsLexemes rest ++ ofSymbol .bracketClose :: after)
          (Round.Holds (fun found => found.map ArrayItem.unlocated
            = (before ++ [item]).map ArrayItem.unlocated) fun _ => False) := by
        by_cases isHole : item = .hole
        · subst isHole
          refine Reads.acceptSymbol.bind fun _ is => ?_
          subst is
          exact .pure rfl
        · refine reads_item isItem isHole before ⟨_, _, rfl, rfl⟩ enough fun found same => ?_
          exact itemEnd_next (by simp [same])
      refine .again round fewer fun found same => ?_
      refine (ih areRest found (fewer.trans enough)).weaken fun all shown => ?_
      rw [shown, List.map_append, same]
      simp

/-- An array literal is read again. -/
theorem rereads_arrayExpr {origin : Origin} {items : List ArrayItem}
    (areItems : ∀ item ∈ items, RereadsItem tape item)
    (enough : (itemsLexemes items ++ ofSymbol .bracketClose :: after).length < depth) :
    Reads tape ((grammar depth).arrayExpr {})
      (ofSymbol .bracketOpen :: (itemsLexemes items ++ ofSymbol .bracketClose :: after)) after
      (Expr.IsSame ⟨origin, .array items⟩) := by
  -- The items stand between brackets, and come back as they were but for where they stand.
  have all : Reads tape (do
      symbol .bracketOpen
      let items ← (grammar depth).arrayItems {}
      symbol .bracketClose
      return items)
      (ofSymbol .bracketOpen :: (itemsLexemes items ++ ofSymbol .bracketClose :: after)) after
      fun found => found.map ArrayItem.unlocated = items.map ArrayItem.unlocated :=
    Reads.symbol.bind fun _ _ => (Reaches.loop (runs_items areItems [] enough)).bind fun found same =>
      Reads.symbol.bind fun _ _ => .pure same
  refine (all.spanned (List.cons_ne_nil _ _)).bind fun pair same => .pure (.of_shape ?_)
  simp only [Expr.of, Shape.unlocated_array, itemsUnlocated_eq, same]

end Items

end Downlevel.Parser
