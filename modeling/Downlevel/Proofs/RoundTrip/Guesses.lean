import Downlevel.Proofs.RoundTrip.Operands
import Downlevel.Proofs.RoundTrip.Trials

/-! An expression in parentheses is first tried as the parameters of an arrow function. The attempt
always comes to an end, and there is no arrow behind it. -/

namespace Downlevel.Parser

open Grammar Lexeme Printer

variable {tape : Tape} {e : Expr} {origin : Origin} {printed depth : Nat} {stops : List TokenKind}
  {lexeme : Lexeme} {ahead place : List Lexeme}

/-- At this place neither a pattern ends nor its default begins. -/
def IsStuck (place : List Lexeme) : Prop :=
  ∃ lexeme rest, place = lexeme :: rest
    ∧ ∀ mark ∈ [Punctuator.comma, .parenthesisClose, .bracketClose, .equals],
      lexeme.kind ≠ .symbol mark

/-- Where an expression that was read as a pattern may end: behind it, somewhere inside where no
pattern can end, or, if it is an assignment, in front of the value. -/
inductive PatternEnd (tape : Tape) (e : Expr) (ahead : List Lexeme) : List Lexeme → Prop
  | whole : PatternEnd tape e ahead ahead
  | stuck {place : List Lexeme} (isStuck : IsStuck place) : PatternEnd tape e ahead place
  | value {value : List Lexeme} (assigns : e.shape.level ≤ Precedence.assignment)
    (isValue : ∀ stops, Admits Precedence.assignment stops → Ends Precedence.assignment ahead →
      ReadsExpr tape Precedence.assignment stops (value ++ ahead) ahead fun _ => True) :
    PatternEnd tape e ahead (ofSymbol .equals :: (value ++ ahead))

/-- The expression can be tried as a pattern where it is printed without parentheses. -/
def TriesBare (tape : Tape) (e : Expr) : Prop :=
  ∀ ahead depth, ahead ≠ [] → Precedence.yielding ≤ e.shape.level →
    (shapeLexemes e.shape ++ ahead).length ≤ depth →
    Tries tape ((grammar depth).patternRule {}) (shapeLexemes e.shape ++ ahead)
      fun _ place => PatternEnd tape e ahead place

/-- No pattern starts with the token. -/
theorem tries_noPattern {possible : Pattern → List Lexeme → Prop}
    (noBrace : lexeme.kind ≠ .symbol .braceOpen) (noBracket : lexeme.kind ≠ .symbol .bracketOpen)
    (noName : lexeme.kind.isBindable = false) :
    Tries tape ((grammar depth).patternRule {}) (lexeme :: ahead) possible := by
  refine Tries.reads_bind Reads.peek (Nat.le_refl _) fun token own => ?_
  rw [own.kind, if_neg noBrace, if_neg noBracket, noName]
  exact .fail (by simp [Token.error])

/-- A name is a pattern. -/
theorem tries_name (noBrace : lexeme.kind ≠ .symbol .braceOpen)
    (noBracket : lexeme.kind ≠ .symbol .bracketOpen) (isName : lexeme.kind.isBindable = true) :
    Tries tape ((grammar depth).patternRule {}) (lexeme :: ahead) fun _ place => place = ahead := by
  refine Tries.reads_bind Reads.peek (Nat.le_refl _) fun token own => ?_
  rw [own.kind, if_neg noBrace, if_neg noBracket, isName]
  -- The name itself is read as any other one, and nothing is behind it.
  have name : Reads tape (do
      let token ← take
      if token.kind.isBindable then return token.text
      fail (token.error (.expected "identifier"))) (lexeme :: ahead) ahead fun _ => True := by
    refine Reads.take.bind fun token own => ?_
    rw [own.kind, isName]
    exact .pure trivial
  exact Tries.reads_bind (name.spanned (List.cons_ne_nil _ _)) (Nat.le_succ _) fun _ _ => .pure rfl

/-- Parentheses are no pattern. -/
theorem TriesBare.tries (tries : TriesBare tape e) (nonempty : ahead ≠ [])
    (tight : Precedence.yielding ≤ printed)
    (enough : (exprLexemes printed e ++ ahead).length ≤ depth) :
    Tries tape ((grammar depth).patternRule {}) (exprLexemes printed e ++ ahead)
      fun _ place => PatternEnd tape e ahead place ∧ printed ≤ e.shape.level := by
  obtain ⟨origin, shape⟩ := e
  rw [exprLexemes] at enough ⊢
  -- Parentheses open no pattern; without them the expression is tried as it stands.
  split
  · exact tries_noPattern (by simp [ofSymbol]) (by simp [ofSymbol]) rfl
  · rename_i bare
    rw [if_neg bare] at enough
    have bare := Nat.le_of_not_lt bare
    exact (tries ahead depth nonempty (tight.trans bare) enough).weaken
      fun _ _ ends => ⟨ends, bare⟩

/-- Where no default begins there is none. -/
theorem tries_noInitializer (other : lexeme.kind ≠ .symbol .equals) :
    Reads tape ((grammar depth).initializer {} stops) (lexeme :: ahead) (lexeme :: ahead)
      fun _ => True := by
  refine (Reads.refuse other).bind fun _ is => ?_
  subst is
  exact .pure trivial

/-- Behind a pattern comes its default, if there is one. -/
theorem tries_initializer (ends : PatternEnd tape e ahead place)
    (behind : Ends Precedence.assignment ahead) (admits : Admits Precedence.assignment stops)
    (enough : place.length < depth) :
    Tries tape ((grammar depth).initializer {} stops) place
      fun _ place => place = ahead ∨ IsStuck place := by
  -- Behind a whole pattern there is no value, a stuck one has none either, and the value of an
  -- assignment is read as it is.
  cases ends with
  | whole =>
    obtain ⟨lexeme, rest, rfl, own⟩ := behind
    have other : lexeme.kind ≠ .symbol .equals := by
      intro same
      rw [same] at own
      exact absurd own (by decide)
    exact (Tries.of_reads (tries_noInitializer other) (Nat.le_refl _)).weaken
      fun _ _ shown => .inl shown.2
  | stuck isStuck =>
    obtain ⟨lexeme, rest, rfl, others⟩ := id isStuck
    have other : lexeme.kind ≠ .symbol .equals := others _ (by simp)
    exact (Tries.of_reads (tries_noInitializer other) (Nat.le_refl _)).weaken
      fun _ _ shown => .inr (shown.2 ▸ isStuck)
  | @value value _ isValue =>
    have element := (isValue stops admits behind).inner (Nat.lt_of_succ_lt enough)
    refine Tries.reads_bind Reads.acceptSymbol (Nat.le_succ _) fun _ is => ?_
    subst is
    refine Tries.reads_bind element (by simp) fun _ _ => .pure (.inl rfl)

/-- A pattern is tried where an expression between commas stands. -/
theorem tries_pattern (tries : TriesBare tape e) (behind : Ends Precedence.assignment ahead)
    (enough : (exprLexemes Precedence.yielding e ++ ahead).length < depth) :
    Tries tape ((grammar depth).pattern {}) (exprLexemes Precedence.yielding e ++ ahead)
      fun _ place => PatternEnd tape e ahead place := by
  have nonempty : ahead ≠ [] := by
    obtain ⟨lexeme, more, rfl, -⟩ := behind
    exact List.cons_ne_nil _ _
  -- There is depth left for the rule behind the pattern.
  cases depth with
  | zero => exact absurd enough (Nat.not_lt_zero _)
  | succ depth =>
    exact (tries.tries nonempty (Nat.le_refl _) (Nat.le_of_lt_succ enough)).weaken
      fun _ _ shown => shown.1

section Defaulted

variable {β : Type} {rest : Pattern → Option Expr → Parser β} {final : β → List Lexeme → Prop}

/-- A pattern with its default is tried where an expression between commas stands. -/
theorem tries_defaulted (tries : TriesBare tape e) (behind : Ends Precedence.assignment ahead)
    (admits : Admits Precedence.assignment stops)
    (enough : (exprLexemes Precedence.yielding e ++ ahead).length < depth)
    (next : ∀ target default place, place = ahead ∨ IsStuck place →
      place.length ≤ (exprLexemes Precedence.yielding e ++ ahead).length →
      Tries tape (rest target default) place final) :
    Tries tape (do
        let target ← (grammar depth).pattern {}
        let default ← (grammar depth).initializer {} stops
        rest target default)
      (exprLexemes Precedence.yielding e ++ ahead) final := by
  -- Both parts take something of what is left, or nothing, so there is never more to read behind
  -- them.
  have pattern := (tries_pattern tries behind enough).shorter
  refine pattern.bind fun target place ⟨ends, fewer⟩ => ?_
  have default := (tries_initializer ends behind admits (Nat.lt_of_le_of_lt fewer enough)).shorter
  exact default.bind fun default place ⟨shown, shorter⟩ =>
    next target default place shown (shorter.trans fewer)

end Defaulted

/-- What a list of patterns ends at: its closing symbol is where it was expected. -/
def ClosesAt (close : Punctuator) (ahead place : List Lexeme) : Prop :=
  ∃ lexeme rest, place = lexeme :: rest ∧ (lexeme.kind = .symbol close → rest = ahead)

/-- The closing symbol of a list is read where it was expected or not at all. -/
theorem tries_close {close : Punctuator} (closes : ClosesAt close ahead place) :
    Tries tape (symbol close) place fun _ place => place = ahead := by
  obtain ⟨lexeme, rest, rfl, own⟩ := closes
  exact Tries.symbol.weaken fun _ _ ⟨isClose, there⟩ => there.trans (own isClose)

/-- Where a pattern cannot end a list of them is not closed. -/
theorem IsStuck.closesAt {close : Punctuator} (isStuck : IsStuck place)
    (isClose : close ∈ [Punctuator.comma, .parenthesisClose, .bracketClose, .equals]) :
    ClosesAt close ahead place := by
  obtain ⟨lexeme, rest, rfl, others⟩ := isStuck
  exact ⟨lexeme, rest, rfl, fun same => absurd same (others close isClose)⟩

/-- What stands behind an element of a list: the closing symbol, or a comma and more elements. -/
inductive ListGoesOn (close : Punctuator) (after : List Lexeme) (areElements : List Lexeme → Prop) :
    List Lexeme → Prop
  | close : ListGoesOn close after areElements (ofSymbol close :: after)
  | comma {rest : List Lexeme} (more : areElements rest) :
    ListGoesOn close after areElements (ofSymbol .comma :: rest)

section Lists

variable {β : Type} {close : Punctuator} {after : List Lexeme} {areElements : List Lexeme → Prop}

/-- The next element of a list ends the one before. -/
theorem ListGoesOn.ends (goesOn : ListGoesOn close after areElements ahead)
    (isClose : close = .parenthesisClose ∨ close = .bracketClose) :
    Ends Precedence.assignment ahead := by
  cases goesOn with
  | close =>
    refine ⟨_, _, rfl, ?_⟩
    rcases isClose with rfl | rfl <;> rfl
  | comma => exact ⟨_, _, rfl, rfl⟩

/-- A list goes on to the mark that closes it. -/
theorem ListGoesOn.closesAt (goesOn : ListGoesOn close after areElements ahead)
    (isClose : close = .parenthesisClose ∨ close = .bracketClose) : ClosesAt close after ahead := by
  cases goesOn with
  | close => exact ⟨_, _, rfl, fun _ => rfl⟩
  | comma =>
    refine ⟨_, _, rfl, fun same => ?_⟩
    rcases isClose with rfl | rfl <;> cases same

/-- Behind an element that was tried as a pattern the list goes on or ends. -/
theorem tries_separator {more last : Parser β} {final : β → List Lexeme → Prop}
    (ends : place = ahead ∨ IsStuck place) (goesOn : ListGoesOn close after areElements ahead)
    (isClose : close = .parenthesisClose ∨ close = .bracketClose)
    (again : ∀ rest, areElements rest → rest.length < place.length → Tries tape more rest final)
    (done : ∀ place, ClosesAt close after place → Tries tape last place final) :
    Tries tape (do if ← accept (.symbol .comma) then more else last) place final := by
  -- If nothing is stuck the list goes on as it is written; else no comma is found where the attempt
  -- got stuck.
  rcases ends with rfl | isStuck
  · cases goesOn with
    | close =>
      have closes : ClosesAt close after (ofSymbol close :: after) := ⟨_, _, rfl, fun _ => rfl⟩
      have other : (ofSymbol close).kind ≠ .symbol .comma := by
        rcases isClose with rfl | rfl <;> decide
      refine Tries.reads_bind (Reads.refuse other) (Nat.le_refl _) fun _ is => ?_
      subst is
      exact done _ closes
    | comma isRest =>
      refine Tries.reads_bind Reads.acceptSymbol (Nat.le_succ _) fun _ is => ?_
      subst is
      exact again _ isRest (Nat.lt_succ_self _)
  · have closes : ClosesAt close after place :=
      isStuck.closesAt (by rcases isClose with rfl | rfl <;> simp)
    obtain ⟨lexeme, rest, rfl, others⟩ := isStuck
    refine Tries.reads_bind (Reads.refuse (others .comma (by simp))) (Nat.le_refl _) fun _ is => ?_
    subst is
    exact done _ closes

end Lists

section Parameters

variable {after : List Lexeme}

/-- A round over the parameters of an arrow function. -/
def paramRound (grammar : Grammar) (params : List Param) :
    Parser (Round (List Param) (List Param)) := do
  if ← nextIs .parenthesisClose then return .done params
  let param ← grammar.param {}
  let params := params ++ [param]
  if param.isRest then return .done params
  if ← accept (.symbol .comma) then return .again params
  return .done params

/-- An expression that opens like an operand and is tried as a pattern, as a single parameter. -/
theorem tries_param (opens : OpensOperand (exprLexemes Precedence.yielding e))
    (tries : TriesBare tape e) (behind : Ends Precedence.assignment ahead)
    (enough : (exprLexemes Precedence.yielding e ++ ahead).length < depth) :
    Tries tape ((grammar depth).param {}) (exprLexemes Precedence.yielding e ++ ahead)
      fun param place => param.isRest = false ∧ (place = ahead ∨ IsStuck place) := by
  have opens := opens.append ahead
  -- The dots are refused, so what is read is a pattern and a value for it.
  have inner : Tries tape (do
      let isRest ← accept (.symbol .dotDotDot)
      let pattern ← (grammar depth).pattern {}
      let default ← (grammar depth).initializer {} [.symbol .comma, .symbol .parenthesisClose]
      return (isRest, pattern, default))
      (exprLexemes Precedence.yielding e ++ ahead)
      fun (parts : Bool × Pattern × Option Expr) place =>
        parts.1 = false ∧ (place = ahead ∨ IsStuck place) :=
    Tries.reads_bind (refuse_operand opens rfl) (Nat.le_refl _) fun isRest is =>
      tries_defaulted tries behind (by decide) enough fun _ _ _ shown _ => .pure ⟨is, shown⟩
  exact (inner.spanned opens.ne_nil).bind fun ⟨span, isRest, pattern, default⟩ _ shown => .pure shown

/-- Parameters are tried from here on. -/
def AreParams (tape : Tape) (depth : Nat) (after ahead : List Lexeme) : Prop :=
  ∀ params, TriesRuns tape (paramRound (grammar depth)) params ahead
    fun _ place => ClosesAt .parenthesisClose after place

/-- The expression can be tried as parameters where it is printed without parentheses. -/
def TriesParams (tape : Tape) (e : Expr) : Prop :=
  ∀ ahead after depth,
    ListGoesOn .parenthesisClose after (AreParams tape depth after) ahead →
    (shapeLexemes e.shape ++ ahead).length < depth →
    AreParams tape depth after (shapeLexemes e.shape ++ ahead)

/-- A round over a parameter, and what stands behind it. -/
theorem areParams_param (opens : OpensOperand (exprLexemes Precedence.yielding e))
    (tries : TriesBare tape e)
    (goesOn : ListGoesOn .parenthesisClose after (AreParams tape depth after) ahead)
    (enough : (exprLexemes Precedence.yielding e ++ ahead).length < depth) :
    AreParams tape depth after (exprLexemes Precedence.yielding e ++ ahead) := by
  intro params
  -- The list does not end here, because a parameter opens an operand.
  refine .round (Tries.reads_bind (nextIs_operand (opens.append ahead) rfl) (Nat.le_refl _)
    fun _ is => ?_)
  subst is
  have param := tries_param opens tries (goesOn.ends (.inl rfl)) enough
  refine param.shorter.bind fun param place ⟨⟨noRest, ends⟩, fewer⟩ => ?_
  dsimp only
  rw [noRest, if_neg Bool.false_ne_true]
  exact tries_separator ends goesOn (.inl rfl)
    (fun rest areParams shorter => .pure ⟨Nat.lt_of_lt_of_le shorter fewer, areParams _⟩)
    fun place closes => .pure closes

/-- An expression without a comma is tried as a single parameter. -/
theorem TriesBare.params (tries : TriesBare tape e) (isOperation : e.IsOperation)
    (tight : Precedence.yielding ≤ e.shape.level) : TriesParams tape e := by
  intro ahead after depth goesOn enough
  have same := exprLexemes_of_le tight
  rw [← same] at enough ⊢
  exact areParams_param (isOperation.opens.level _) tries goesOn enough

/-- Expressions with a comma between them are tried as parameters. -/
theorem params_comma {left right : Expr} (isLeft : left.IsOperation) (isRight : right.IsOperation)
    (leftParams : TriesParams tape left) (rightTries : TriesBare tape right) :
    TriesParams tape ⟨origin, .binary .comma left right⟩ := by
  intro ahead after depth goesOn enough
  -- The parts of the comma stand side by side, without parentheses of their own.
  have shape : shapeLexemes (.binary .comma left right) ++ ahead
      = shapeLexemes left.shape ++ ofSymbol .comma :: (exprLexemes Precedence.yielding right ++ ahead) := by
    have comma : ofOperator .comma = ofSymbol .comma := by decide
    have leftSame : exprLexemes (leftOperandLevel .comma left) left = shapeLexemes left.shape :=
      exprLexemes_of_le isLeft.comma_le_level
    have rightSame : rightOperandLevel .comma right = Precedence.yielding := rfl
    rw [shapeLexemes_binary, leftSame, rightSame, comma, List.append_assoc, List.cons_append]
  rw [shape] at enough ⊢
  have fewer : (exprLexemes Precedence.yielding right ++ ahead).length < depth := by
    rw [List.length_append, List.length_cons] at enough
    omega
  exact leftParams _ after depth
    (.comma (areParams_param (isRight.opens.level _) rightTries goesOn fewer)) enough

end Parameters

section Slots

/-- A round over the slots of an array pattern. -/
def slotRound (grammar : Grammar) (slots : List PatternSlot) :
    Parser (Round (List PatternSlot) (List PatternSlot × Option Pattern)) := do
  if ← nextIs .bracketClose then return .done (slots, none)
  if ← accept (.symbol .dotDotDot) then
    return .done (slots, some (← grammar.pattern {}))
  if ← accept (.symbol .comma) then return .again (slots ++ [.hole])
  let target ← grammar.pattern {}
  let default ← grammar.initializer {} [.symbol .comma, .symbol .bracketClose]
  let slots := slots ++ [.slot target default]
  if ← accept (.symbol .comma) then return .again slots
  return .done (slots, none)

/-- An element of an array literal can be tried as a slot. -/
def TriesItem (tape : Tape) : ArrayItem → Prop
  | .single value | .spread value =>
    OpensOperand (exprLexemes Precedence.yielding value) ∧ TriesBare tape value
  | .hole => True

/-- Slots are tried from here on. -/
def AreSlots (tape : Tape) (depth : Nat) (after ahead : List Lexeme) : Prop :=
  ∀ slots, TriesRuns tape (slotRound (grammar depth)) slots ahead
    fun _ place => ClosesAt .bracketClose after place

variable {after : List Lexeme} {item : ArrayItem}

/-- A round over a slot that is no hole, and what stands behind it. -/
theorem areSlots_item (tries : TriesItem tape item) (noHole : item ≠ .hole)
    (goesOn : ListGoesOn .bracketClose after (AreSlots tape depth after) ahead)
    (enough : (itemLexemes item ++ ahead).length < depth) :
    AreSlots tape depth after (itemLexemes item ++ ahead) := by
  intro slots
  have behind := goesOn.ends (.inr rfl)
  -- A hole is none of them; the dots are refused by a single item, and end the list of a spread
  -- one.
  cases item with
  | hole => exact absurd rfl noHole
  | single value =>
    rw [itemLexemes] at enough ⊢
    have opens := tries.1.append ahead
    refine .round (Tries.reads_bind (nextIs_operand opens rfl) (Nat.le_refl _) fun _ is => ?_)
    subst is
    refine Tries.reads_bind (refuse_operand opens rfl) (Nat.le_refl _) fun _ is => ?_
    subst is
    refine Tries.reads_bind (refuse_operand opens rfl) (Nat.le_refl _) fun _ is => ?_
    subst is
    refine tries_defaulted tries.2 behind (by decide) enough fun target default place ends fewer => ?_
    exact tries_separator ends goesOn (.inr rfl)
      (fun rest areSlots shorter => .pure ⟨Nat.lt_of_lt_of_le shorter fewer, areSlots _⟩)
      fun place closes => .pure closes
  | spread value =>
    rw [itemLexemes] at enough ⊢
    refine .round (Tries.reads_bind Reads.nextIs (Nat.le_refl _) fun _ is => ?_)
    subst is
    refine Tries.reads_bind Reads.acceptSymbol (Nat.le_succ _) fun _ is => ?_
    subst is
    refine (tries_pattern tries.2 behind (Nat.lt_of_succ_lt enough)).bind fun rest place ends => ?_
    refine .pure ?_
    -- Whatever is left behind a spread pattern, the bracket is not there unless the list ends here.
    cases ends with
    | whole => exact goesOn.closesAt (.inr rfl)
    | stuck isStuck => exact isStuck.closesAt (by simp)
    | value => exact ⟨_, _, rfl, fun same => absurd same (by decide)⟩

/-- The elements of an array literal are tried as slots. -/
theorem areSlots_items {items : List ArrayItem} (tries : ∀ item ∈ items, TriesItem tape item)
    (enough : (itemsLexemes items ++ ofSymbol .bracketClose :: after).length < depth) :
    AreSlots tape depth after (itemsLexemes items ++ ofSymbol .bracketClose :: after) := by
  -- Slots are tried as the items are written, each with a comma behind it but the last.
  induction items with
  | nil =>
    refine fun slots => .round (Tries.reads_bind Reads.nextIs (Nat.le_refl _) fun _ is => ?_)
    subst is
    exact .pure ⟨_, _, rfl, fun _ => rfl⟩
  | cons item rest ih =>
    have isItem := tries item List.mem_cons_self
    by_cases last : rest = [] ∧ item ≠ .hole
    · obtain ⟨rfl, noHole⟩ := last
      rw [itemsLexemes_last noHole] at enough ⊢
      exact areSlots_item isItem noHole .close enough
    · rw [itemsLexemes_next last, List.append_assoc, List.cons_append] at enough ⊢
      have more := ih (fun item mem => tries item (List.mem_cons_of_mem _ mem)) (by
        rw [List.length_append, List.length_cons] at enough
        omega)
      -- A hole is read as one as well: all it has is its comma.
      by_cases isHole : item = .hole
      · subst isHole
        refine fun slots => .round (Tries.reads_bind Reads.nextIs (Nat.le_refl _) fun _ is => ?_)
        subst is
        refine Tries.reads_bind (Reads.refuse (by simp [ofSymbol])) (Nat.le_refl _) fun _ is => ?_
        subst is
        refine Tries.reads_bind Reads.acceptSymbol (Nat.le_succ _) fun _ is => ?_
        subst is
        exact .pure ⟨Nat.lt_succ_self _, more _⟩
      · exact areSlots_item isItem isHole (.comma more) enough

/-- An array literal is tried as a pattern. -/
theorem tries_array {items : List ArrayItem} (areItems : ∀ item ∈ items, TriesItem tape item) :
    TriesBare tape ⟨origin, .array items⟩ := by
  intro ahead depth nonempty _ enough
  have shape : shapeLexemes (.array items) ++ ahead
      = ofSymbol .bracketOpen :: (itemsLexemes items ++ ofSymbol .bracketClose :: ahead) := by
    simp [shapeLexemes_array]
  rw [shape] at enough ⊢
  refine Tries.reads_bind Reads.peek (Nat.le_refl _) fun token own => ?_
  have isBracket : (ofSymbol .bracketOpen).kind = .symbol .bracketOpen := rfl
  rw [own.kind, if_neg (by simp [ofSymbol]), if_pos isBracket]
  -- The brackets and what is in them are read as a pattern.
  have inner : Tries tape (do
      symbol .bracketOpen
      let found ← (grammar depth).patternSlots {}
      symbol .bracketClose
      return found)
      (ofSymbol .bracketOpen :: (itemsLexemes items ++ ofSymbol .bracketClose :: ahead))
      fun _ place => place = ahead :=
    Tries.reads_bind Reads.symbol (Nat.le_succ _) fun _ _ =>
      (Tries.loop (areSlots_items areItems enough [])).bind fun _ _ closes =>
        (tries_close closes).bind fun _ _ there => .pure there
  exact (inner.spanned (List.cons_ne_nil _ _)).bind fun _ _ there => .pure (there ▸ .whole)

end Slots

section Operations

variable {op : Operator} {left right operand : Expr} {more : List Lexeme}

/-- A bare left operand of an operator that binds more tightly than an assignment is tried, and what
comes next is where it may end. -/
theorem TriesBare.tightly (tries : TriesBare tape left) (nonempty : ahead ≠ [])
    (tight : Precedence.conditional ≤ printed)
    (enough : (exprLexemes printed left ++ ahead).length ≤ depth) :
    Tries tape ((grammar depth).patternRule {}) (exprLexemes printed left ++ ahead)
      fun _ place => place = ahead ∨ IsStuck place := by
  refine (tries.tries nonempty (Nat.le_trans (by decide) tight) enough).weaken
    fun _ place ⟨ends, bare⟩ => ?_
  -- An assignment would be looser than what stands here.
  cases ends with
  | whole => exact .inl rfl
  | stuck isStuck => exact .inr isStuck
  | value assigns =>
    have loose := (tight.trans bare).trans assigns
    exact absurd loose (by decide)

/-- Where something comes behind its left operand that ends no pattern, an expression is tried. -/
theorem tries_behind (tries : TriesBare tape left) (tight : Precedence.conditional ≤ printed)
    (shape : shapeLexemes e.shape = exprLexemes printed left ++ more)
    (isStuck : ∀ ahead, ahead ≠ [] → IsStuck (more ++ ahead)) : TriesBare tape e := by
  intro ahead depth nonempty _ enough
  have stuck := isStuck ahead nonempty
  have behind : more ++ ahead ≠ [] := by simp [nonempty]
  rw [shape, List.append_assoc] at enough ⊢
  refine (tries.tightly behind tight enough).weaken fun _ place shown => ?_
  rcases shown with rfl | elsewhere
  · exact .stuck stuck
  · exact .stuck elsewhere

/-- An expression whose first token starts no pattern is tried. -/
theorem tries_opening (shape : shapeLexemes e.shape = lexeme :: more)
    (noBrace : lexeme.kind ≠ .symbol .braceOpen) (noBracket : lexeme.kind ≠ .symbol .bracketOpen)
    (noName : lexeme.kind.isBindable = false) : TriesBare tape e := by
  intro ahead depth _ _ _
  rw [shape]
  exact tries_noPattern noBrace noBracket noName

/-- A name may be all that is taken for a parameter. -/
theorem tries_id {name : String} (named : IsIdentifier name) :
    TriesBare tape ⟨origin, .id name⟩ := by
  intro ahead depth _ _ _
  have kind : (ofName name).kind = .identifier := (kind_ofName name).trans named.1
  exact (tries_name (by simp [kind]) (by simp [kind]) (by rw [kind]; rfl)).weaken
    fun _ _ there => there ▸ .whole

/-- No arrow function starts with what opens an operand. -/
theorem IsStuck.of_operand {lexemes : List Lexeme} (opens : OpensOperand lexemes) : IsStuck lexemes := by
  obtain ⟨first, rest, rfl, own⟩ := opens
  refine ⟨first, rest, rfl, fun mark mem => ne_of_opensOperand own ?_⟩
  revert mark
  decide

/-- The word of an operator may be read as a name, which leaves its operand behind. -/
theorem tries_unary (isLeading : op.IsLeading) (isOperand : operand.IsOperation) :
    TriesBare tape ⟨origin, .unary op operand⟩ := by
  have kind := isLeading.kind
  -- An operator is neither of the symbols that open a pattern.
  have noBrace : (ofOperator op).kind ≠ .symbol .braceOpen := by
    intro same
    rw [same] at kind
    cases kind
  have noBracket : (ofOperator op).kind ≠ .symbol .bracketOpen := by
    intro same
    rw [same] at kind
    cases kind
  -- An operator that could be a name is read as one, and then the operand is in the way.
  cases isName : (ofOperator op).kind.isBindable with
  | false => exact tries_opening rfl noBrace noBracket isName
  | true =>
    intro ahead depth _ _ _
    refine (tries_name noBrace noBracket isName).weaken fun _ _ there => .stuck (there ▸ ?_)
    exact .of_operand ((isOperand.opens.level _).append _)

/-- Operators other than the comma and the plain assignment end no pattern. -/
theorem IsStuck.of_isInfix (isInfix : op.IsInfix) (noComma : op ≠ .comma) (noAssign : op ≠ .assignment) :
    IsStuck (ofOperator op :: more) := by
  refine ⟨_, _, rfl, fun mark mem same => ?_⟩
  have kind := isInfix.kind
  rw [same] at kind
  simp only [List.mem_cons, List.not_mem_nil, or_false] at mem
  rcases mem with rfl | rfl | rfl | rfl
  · exact noComma (Option.some.inj kind).symm
  · cases kind
  · cases kind
  · exact noAssign (Option.some.inj kind).symm

/-- What is tried of an operator between operands is tried of the left one. -/
theorem tries_binary (isInfix : op.IsInfix) (noAssign : op.isAssignment = false)
    (tries : TriesBare tape left) : TriesBare tape ⟨origin, .binary op left right⟩ := by
  intro ahead depth nonempty (tight : Precedence.yielding ≤ op.precedence) enough
  -- Neither the comma nor the assignment stand at this level, so the left side is tighter than
  -- both.
  have noComma : op ≠ .comma := by
    rintro rfl
    exact absurd tight (by decide)
  have noEquals : op ≠ .assignment := by
    rintro rfl
    cases noAssign
  have other : op.precedence ≠ Precedence.assignment := by
    intro same
    rw [isInfix.precedence.2.2.2.2 same] at noAssign
    cases noAssign
  have above : Precedence.assignment < op.precedence :=
    lt_of_le_of_ne (lt_of_le_of_ne tight isInfix.precedence.2.2.1.symm) other.symm
  have tightLeft : Precedence.conditional ≤ leftOperandLevel op left :=
    (Nat.le_trans above (Operator.precedence_le_leftLevel op)).trans (isInfix.leftLevel_le left)
  exact tries_behind tries tightLeft rfl (fun _ _ => .of_isInfix isInfix noComma noEquals) ahead depth
    nonempty tight enough

/-- Behind a place comes the value that is assigned to it, which is a default if the assignment is a
plain one. -/
theorem tries_assign (assigns : op.isAssignment = true) (tries : TriesBare tape left)
    (isRight : Rereads tape right (rightOperandLevel op right) Precedence.assignment) :
    TriesBare tape ⟨origin, .binary op left right⟩ := by
  have isInfix := Operator.isInfix_of_isAssignment assigns
  have tight : Precedence.conditional ≤ leftOperandLevel op left := by
    refine Nat.le_trans ?_ (isInfix.leftLevel_le left)
    cases op <;> first | decide | cases assigns
  -- Behind the plain operator the value of the assignment follows; all others leave the attempt
  -- stuck.
  by_cases isPlain : op = .assignment
  · subst isPlain
    intro ahead depth nonempty _ enough
    have equals : ofOperator .assignment = ofSymbol .equals := by decide
    have shape : shapeLexemes (.binary .assignment left right) ++ ahead
        = exprLexemes (leftOperandLevel .assignment left) left ++ (ofSymbol .equals
          :: (exprLexemes (rightOperandLevel .assignment right) right ++ ahead)) := by
      rw [shapeLexemes_binary, equals, List.append_assoc, List.cons_append]
    rw [shape] at enough ⊢
    refine (tries.tightly (List.cons_ne_nil _ _) tight enough).weaken fun _ place shown => ?_
    rcases shown with rfl | isStuck
    · refine .value (Nat.le_refl _) fun stops admits ends depth enough => ?_
      exact (isRight stops ahead admits ends depth enough).weaken fun _ _ => trivial
    · exact .stuck isStuck
  · have noComma : op ≠ .comma := by
      rintro rfl
      cases assigns
    exact tries_behind tries tight rfl fun _ _ => .of_isInfix isInfix noComma isPlain

/-- What is tried of an operator behind its operand is tried of the operand. -/
theorem tries_update (isTrailing : op.IsTrailing) (tries : TriesBare tape operand) :
    TriesBare tape ⟨origin, .update op operand⟩ := by
  refine tries_behind tries (by decide) rfl fun _ _ => ⟨_, _, rfl, ?_⟩
  rcases isTrailing with rfl | rfl <;> decide

/-- What is tried of a conditional is tried of its test. -/
theorem tries_cond {test consequent alternate : Expr} (tries : TriesBare tape test) :
    TriesBare tape ⟨origin, .cond test consequent alternate⟩ :=
  tries_behind tries (by decide) rfl fun _ _ => ⟨_, _, rfl, by decide⟩

variable {link : ChainLink} {object : Expr}

/-- The target of a link binds at least as tightly as a conditional. -/
theorem conditional_le_targetLevel (link : ChainLink) (dotFollows : Bool) (object : Expr) :
    Precedence.conditional ≤ targetLevel link dotFollows object :=
  Nat.le_trans (by decide) (update_le_targetLevel link dotFollows object)

/-- What is tried of a member access is tried of its object. -/
theorem tries_member {name : String} (tries : TriesBare tape object) :
    TriesBare tape ⟨origin, .member link object name⟩ := by
  refine tries_behind tries (conditional_le_targetLevel _ _ _) rfl fun _ _ => ⟨_, _, rfl, ?_⟩
  cases link <;> decide

/-- What is tried of a computed access is tried of its object. -/
theorem tries_computed {key : Expr} (tries : TriesBare tape object) :
    TriesBare tape ⟨origin, .computed link object key⟩ := by
  refine tries_behind tries (conditional_le_targetLevel _ _ _) rfl fun _ _ => ⟨_, _, rfl, ?_⟩
  cases link <;> decide

/-- What is tried of a call is tried of its callee. -/
theorem tries_call {args : List Arg} (tries : TriesBare tape object) :
    TriesBare tape ⟨origin, .call link false object args⟩ := by
  refine tries_behind tries (conditional_le_targetLevel _ _ _) rfl fun _ _ => ⟨_, _, rfl, ?_⟩
  cases link <;> decide

end Operations

/-- The parameters of an arrow function are tried, and behind them the attempt fails. -/
theorem tries_arrow (isOperation : e.IsOperation) (params : TriesParams tape e)
    (nonempty : ahead ≠ [])
    (enough : (shapeLexemes e.shape ++ ofSymbol .parenthesisClose :: ahead).length < depth) :
    Tries tape ((grammar depth).arrowExpr {} stops)
      (ofSymbol .parenthesisOpen :: (shapeLexemes e.shape ++ ofSymbol .parenthesisClose :: ahead))
      fun _ _ => False := by
  have areParams := params _ ahead depth .close enough
  -- The list of parameters is not empty, which rules out the empty one.
  obtain ⟨first, rest, opening, -⟩ := isOperation.opens.append (ofSymbol .parenthesisClose :: ahead)
  rw [opening] at areParams ⊢
  have isParams : Tries tape ((grammar depth).arrowParams {})
      (ofSymbol .parenthesisOpen :: first :: rest) fun _ place => place = ahead := by
    refine Tries.reads_bind Reads.peek (Nat.le_refl _) fun token own => ?_
    rw [own.kind]
    refine Tries.reads_bind Reads.symbol (Nat.le_succ _) fun _ _ => ?_
    exact (Tries.loop (areParams [])).bind fun _ _ closes =>
      (tries_close closes).bind fun _ _ there => .pure there
  -- The parameters may well be read, but there is no arrow behind them.
  refine Tries.hopeless_bind (Tries.spanned_hopeless ?_ (List.cons_ne_nil _ _))
  refine Tries.reads_bind Reads.peek2 (Nat.le_refl _) fun ⟨token, second⟩ ⟨own, _⟩ => ?_
  have noAsync : (token.kind == .keyword .asyncKw) = false := by
    rw [own.kind]
    rfl
  simp only [noAsync, Bool.false_and, Bool.false_eq_true, if_false]
  refine isParams.bind fun params place there => ?_
  obtain ⟨next, more, rfl⟩ := List.exists_cons_of_ne_nil nonempty
  subst there
  exact Tries.hopeless_bind Tries.require_arrow

/-- An expression in parentheses is read again: it is no arrow function, and then it is a grouping. -/
theorem rereadsGroup (isOperation : e.IsOperation) (bare : RereadsBare tape e)
    (params : TriesParams tape e) : RereadsGroup tape e := by
  intro stops ahead depth nonempty enough
  have shape : ofSymbol .parenthesisOpen :: (shapeLexemes e.shape ++ [ofSymbol .parenthesisClose])
        ++ ahead
      = ofSymbol .parenthesisOpen :: (shapeLexemes e.shape ++ ofSymbol .parenthesisClose :: ahead) := by
    simp
  rw [shape] at enough ⊢
  refine reads_operand ⟨by simp [ofSymbol], by simp [ofSymbol]⟩ rfl fun start token marks own => ?_
  unfold primary
  rw [own.kind]
  -- An arrow is tried first. That comes to nothing, and what is between the parentheses is read
  -- instead.
  refine (Reads.restore marks (Nat.le_succ _)).bind fun _ _ => ?_
  refine (Reads.giveUp (tries_arrow isOperation params nonempty enough)).bind fun found none => ?_
  subst none
  have whole : ReadsExpr tape Precedence.comma [.symbol .parenthesisClose]
      (shapeLexemes e.shape ++ ofSymbol .parenthesisClose :: ahead)
      (ofSymbol .parenthesisClose :: ahead) e.IsSame :=
    bare.readsExpr isOperation isOperation.fitsAt_comma (by decide) ⟨_, _, rfl, rfl⟩
  exact Reads.symbol.bind fun _ _ => (whole.inner enough).bind fun found same =>
    Reads.symbol.bind fun _ _ => .pure same

end Downlevel.Parser
