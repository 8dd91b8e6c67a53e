import Downlevel.Proofs.Reading.Apart
import Downlevel.Proofs.Reading.Places
import Downlevel.Proofs.Reading.SettledParts

/-! The regions of literals, patterns, functions and members start apart from one another in the
text that was taken for them. -/

namespace Downlevel.Parser

open Lexer

/-- The regions of what a parser gives start apart from one another in the text that it takes. -/
abbrev Lays {α : Type} (regionsOf : α → List Region) (base : Reader) (here : Cursor)
    (parser : Parser α) : Prop :=
  Arrives base here parser fun result place => Apart here.offset place.offset (regionsOf result)

/-- The regions of the items that a loop has so far start apart from one another. -/
abbrev Collected {α : Type} (regionsOf : α → List Region) (first : Nat) (items : List α)
    (place : Cursor) : Prop :=
  Apart first place.offset (items.flatMap regionsOf)

/-- The parts that the rules refer to lay out the regions of what they read. Operators behind an
operand go on with the text of that operand, and statements start where their text does. -/
structure Grammar.Lays (grammar : Grammar) : Prop where
  expr : ∀ {base : Reader} {here : Cursor} {context : Context} {level : Nat}
    {stops : List TokenKind},
    Parser.Lays exprRegions base here (grammar.expr context level stops)
  operand : ∀ {base : Reader} {here : Cursor} {context : Context} {stops : List TokenKind},
    Parser.Lays exprRegions base here (grammar.operand context stops)
  suffix : ∀ {base : Reader} {here : Cursor} {context : Context} {left : Expr} {level first : Nat}
    {stops : List TokenKind}, Apart first here.offset (exprRegions left) →
    Arrives base here (grammar.suffix context left level stops)
      fun result place => Apart first place.offset (exprRegions result)
  pattern : ∀ {base : Reader} {here : Cursor} {context : Context},
    Parser.Lays patternRegions base here (grammar.pattern context)
  stmt : ∀ {base : Reader} {here : Cursor} {context : Context},
    Arrives base here (grammar.stmt context) fun stmt place =>
      here.offset ≤ stmt.span.start ∧ Apart here.offset place.offset (stmtRegions stmt)

variable {grammar : Grammar} {base : Reader} {here place : Cursor} {context : Context}
variable {stops : List TokenKind} {token : Token} {first : Nat}

/-- Items with commas between them, each of which lays out its regions. -/
theorem lays_commaList {α : Type} {regionsOf : α → List Region} {close : Punctuator}
    {item : Parser α} (lays : ∀ place, Lays regionsOf base place item) :
    Lays (fun items => items.flatMap regionsOf) base here (commaList close item) := by
  refine .cycle (Collected regionsOf here.offset) (.none (Nat.le_refl _))
    fun items place soFar => ?_
  refine .nextIs fun isDone => .ite (fun _ => .pure soFar) fun _ => ?_
  refine (lays place).bind fun next behind apart => ?_
  have collected := soFar.snoc apart
  refine (Settles.accept_past (by nofun)).bind fun was further later => ?_
  exact .ite (fun _ => .pure (collected.upTo later.1)) fun _ => .pure (collected.upTo later.1)

/-- A result that is only put into another keeps its regions. -/
theorem lays_map {α β : Type} {regionsOf : α → List Region} {regionsOfResult : β → List Region}
    {parser : Parser α} {wrap : α → β} (lays : Lays regionsOf base here parser)
    (same : ∀ result, regionsOfResult (wrap result) = regionsOf result) :
    Lays regionsOfResult base here (wrap <$> parser) := by
  rw [← bind_pure_comp]
  exact lays.bind fun result behind apart => .pure (by rwa [same])

variable (parts : grammar.Lays)
include parts

section Literals

/-- An expression in parentheses. -/
theorem lays_grouping : Lays exprRegions base here (grammar.grouping context) := by
  refine Settles.symbol.further.bind fun _ start later₁ => ?_
  refine parts.expr.bind fun inner stop apart => ?_
  refine Settles.symbol.further.bind fun _ behind later₂ => ?_
  exact .pure (apart.within (by omega) (by omega))

/-- The scopes of an expression in parentheses that belongs to the head of a statement lie apart in
the text that was taken for it. -/
theorem lays_headExpr : Lays exprRegions base here (grammar.headExpr context) := by
  refine Settles.symbol.further.bind fun _ start later₁ => ?_
  refine parts.expr.bind fun inner stop apart => ?_
  refine Settles.symbol.further.bind fun _ behind later₂ => ?_
  exact .pure (apart.within (by omega) (by omega))

/-- The scopes of the expression after an equals sign, if there is one lie apart in the text that
was taken for it. -/
theorem lays_initializer :
    Lays optionRegions base here (grammar.initializer context stops) := by
  refine (Settles.accept_past (by nofun)).bind fun has start later => ?_
  refine .ite (fun _ => ?_) fun _ => .pure (.none later.1)
  exact parts.expr.bind fun value behind apart => .pure (apart.since later.1)

/-- The scopes of one argument lie apart in the text that was taken for it. -/
theorem lays_argument : Lays argRegions base here (grammar.argument context) := by
  refine (Settles.accept_past (by nofun)).bind fun isSpread start later => ?_
  exact parts.expr.bind fun value behind apart => .pure (apart.since later.1)

/-- The scopes of arguments after the opening parenthesis, through the closing one lie apart in the
text that was taken for it. -/
theorem lays_arguments : Lays argsRegions base here (grammar.arguments context) := by
  refine (lays_commaList fun place => lays_argument parts).bind fun args stop apart => ?_
  refine Settles.symbol.further.bind fun _ behind later => ?_
  exact .pure (by rw [argsRegions_eq]; exact apart.upTo (by omega))

/-- A round over the elements of an array literal adds scopes behind those before. -/
theorem rounds_arrayItems {items : List ArrayItem}
    (soFar : Collected itemRegions first items here) :
    Arrives base here (grammar.arrayRound context items)
      (Round.Known (Collected itemRegions first) (Collected itemRegions first)) := by
  refine (Settles.accept_past (by nofun)).bind fun isHole behind later => ?_
  refine .ite (fun _ => .pure ?_) fun _ => ?_
  · exact soFar.snoc (.none later.1)
  refine .nextIs fun isDone => .ite (fun _ => .pure (soFar.upTo later.1)) fun _ => ?_
  refine (Settles.accept_past (by nofun)).bind fun isSpread start spread => ?_
  refine parts.expr.bind fun value stop apart => ?_
  -- Spread or not, the item has the regions of its value.
  have collected : Collected itemRegions first
      (items ++ [if isSpread then .spread value else .single value]) stop := by
    refine soFar.snoc ?_
    cases isSpread <;> exact apart.since (by omega)
  refine .nextIs fun isDone => .ite (fun _ => .pure collected) fun _ => ?_
  refine Settles.symbol.further.bind fun _ further later => ?_
  exact .pure (collected.upTo (by omega))

/-- The scopes of an array literal lie apart in the text that was taken for it. -/
theorem lays_arrayExpr : Lays exprRegions base here (grammar.arrayExpr context) := by
  -- The brackets are single tokens, and the loop between them collects what it has read.
  have inner : Lays itemsRegions base here (do
      symbol .bracketOpen
      let items ← grammar.arrayItems context.allowIn
      symbol .bracketClose
      return items) := by
    refine Settles.symbol.further.bind fun _ start later₁ => ?_
    have items : Arrives base start (grammar.arrayItems context.allowIn)
        (Collected itemRegions here.offset) :=
      .cycle _ (.none (by omega)) fun items place soFar => rounds_arrayItems parts soFar
    refine items.bind fun items stop apart => ?_
    refine Settles.symbol.further.bind fun _ behind later₂ => ?_
    exact .pure (by rw [itemsRegions_eq]; exact apart.upTo (by omega))
  exact .spannedThen inner fun stop items behind apart => .pure apart

/-- A round over the substitutions of a template adds scopes behind those before. -/
theorem rounds_templateSpans {spans : List TemplateSpan}
    (soFar : Collected spanRegions first spans here) :
    Arrives base here (grammar.templateRound context spans)
      (Round.Known (Collected spanRegions first) (Collected spanRegions first)) := by
  refine parts.expr.bind fun value stop apart => ?_
  refine Settles.symbol.further.bind fun _ start later => ?_
  have further := (before_step .template start).offset_le
  refine .takeIn <| (settles_templateText rfl (by simp)).bind ?_
  rintro ⟨text, isEnd⟩ _ rfl
  have span : Apart here.offset (step .template start).next.offset (spanRegions ⟨value, text⟩) :=
    apart.upTo (by omega)
  refine .pure ?_
  cases isEnd <;> exact soFar.snoc span

/-- Behind the first token of a template. -/
theorem lays_templateRest (mode : LexMode) (read : token = (step mode place).token)
    (outside : mode ≠ .template) :
    Lays (fun found => spansRegions found.2) base here (grammar.templateRest context token) := by
  refine (settles_templateText read (by simp [outside])).bind ?_
  rintro ⟨head, isEnd⟩ start rfl
  refine .ite (fun _ => .pure (.none (Nat.le_refl _))) fun _ => ?_
  have spans : Arrives base start (grammar.templateSpans context.allowIn)
      (Collected spanRegions start.offset) :=
    .cycle _ (.none (Nat.le_refl _)) fun spans place soFar => rounds_templateSpans parts soFar
  exact spans.bind fun spans stop apart => .pure (by simpa [spansRegions_eq] using apart)

/-- The scopes of a template without a tag lie apart in the text that was taken for it. -/
theorem lays_templateExpr (mode : LexMode) (read : token = (step mode place).token)
    (outside : mode ≠ .template) :
    Lays exprRegions base here (grammar.templateExpr context token) := by
  refine (lays_templateRest parts mode read outside).bind fun found behind apart => ?_
  exact .lastEnd fun _ => .pure apart

/-- The scopes of a template behind its tag lie apart in the text that was taken for it. -/
theorem arrives_taggedTemplate {tag : Expr} (mode : LexMode)
    (read : token = (step mode place).token) (outside : mode ≠ .template)
    (soFar : Apart first here.offset (exprRegions tag)) :
    Arrives base here (grammar.taggedTemplate context tag token)
      fun result behind => Apart first behind.offset (exprRegions result) := by
  refine (lays_templateRest parts mode read outside).bind fun found behind apart => ?_
  exact .lastEnd fun _ => .pure (soFar.append apart)

end Literals

section Patterns

/-- The scopes of a key lie apart in the text that was taken for it. -/
theorem lays_key : Lays keyRegions base here (grammar.key context) := by
  refine (Settles.accept_past (by nofun)).bind fun isComputed start later₁ => ?_
  refine .ite (fun _ => ?_) fun _ => ?_
  · refine parts.expr.bind fun value stop apart => ?_
    refine Settles.symbol.further.bind fun _ behind later₂ => ?_
    exact .pure (apart.within later₁.1 (by omega))
  · refine takes_directKey.further.bind fun key behind later₂ => ?_
    exact .pure (.none (by omega))

omit parts in
/-- A shorthand binds a name, without more text and without a scope. -/
theorem arrives_shorthandTarget {key : Key} :
    Arrives base here (shorthandTarget key) fun target place =>
      place = here ∧ patternRegions target = [] := by
  cases key with
  | direct name => exact .ite (fun _ => .pure ⟨rfl, rfl⟩) fun _ => .fail
  | computed value => exact .fail

/-- The scopes of one property of an object pattern lie apart in the text that was taken for it. -/
theorem lays_patternProperty :
    Lays propertyRegions base here (grammar.patternProperty context) := by
  have inner : Lays (fun found : Key × Pattern × Bool × Option Expr =>
      keyRegions found.1 ++ (patternRegions found.2.1 ++ optionRegions found.2.2.2)) base here (do
        let key ← grammar.key context
        let isShorthand := !(← accept (.symbol .colon))
        let target ← if isShorthand then shorthandTarget key else grammar.pattern context
        let default ← grammar.initializer context [.symbol .comma, .symbol .braceClose]
        return (key, target, isShorthand, default)) := by
    refine (lays_key parts).bind fun key second inKey => ?_
    refine (Settles.accept_past (by nofun)).bind fun isLonger start later => ?_
    -- A shorthand reads no target: the key stands for it and has no tokens of its own.
    refine .ite (fun _ => ?_) fun _ => ?_
    · refine arrives_shorthandTarget.bind ?_
      rintro target _ ⟨rfl, none⟩
      refine (lays_initializer parts).bind fun default behind inDefault => ?_
      exact .pure (by simpa [none] using inKey.append (inDefault.since later.1))
    · refine parts.pattern.bind fun target stop inTarget => ?_
      refine (lays_initializer parts).bind fun default behind inDefault => ?_
      exact .pure (inKey.append ((inTarget.append inDefault).since later.1))
  exact .spannedThen inner fun stop found behind apart => .pure apart

/-- A round over the properties of an object pattern adds scopes behind those before. -/
theorem rounds_patternProperties {properties : List PatternProperty}
    (soFar : Collected propertyRegions first properties here) :
    Arrives base here (grammar.propertyRound context properties)
      (Round.Known (Collected propertyRegions first) fun found place =>
        Apart first place.offset (propertiesRegions found.1 ++ patternOptionRegions found.2)) := by
  -- A loop that ends without a rest has the regions of its properties.
  have ends {properties : List PatternProperty} {place : Cursor}
      (soFar : Collected propertyRegions first properties place) :
      Apart first place.offset (propertiesRegions properties ++ patternOptionRegions none) := by
    rw [propertiesRegions_eq, patternOptionRegions, List.append_nil]
    exact soFar
  refine .nextIs fun isDone => .ite (fun _ => .pure (ends soFar)) fun _ => ?_
  refine (Settles.accept_past (by nofun)).bind fun isRest start later => ?_
  refine .ite (fun _ => ?_) fun _ => ?_
  · refine parts.pattern.bind fun rest behind apart => .pure ?_
    show Apart first behind.offset (propertiesRegions properties ++ patternRegions rest)
    rw [propertiesRegions_eq]
    exact soFar.append (apart.since later.1)
  · refine (lays_patternProperty parts).bind fun property stop apart => ?_
    have collected := soFar.snoc (apart.since later.1)
    refine (Settles.accept_past (by nofun)).bind fun isMore behind further => ?_
    exact .ite (fun _ => .pure (collected.upTo further.1)) fun _ =>
      .pure (ends (collected.upTo further.1))

/-- The scopes of an object pattern lie apart in the text that was taken for it. -/
theorem lays_objectPattern : Lays patternRegions base here (grammar.objectPattern context) := by
  have inner : Lays (fun found : List PatternProperty × Option Pattern =>
      propertiesRegions found.1 ++ patternOptionRegions found.2) base here (do
        symbol .braceOpen
        let found ← grammar.patternProperties context.allowIn
        symbol .braceClose
        return found) := by
    refine Settles.symbol.further.bind fun _ start later₁ => ?_
    -- The loop keeps what it has collected apart, and the rest comes behind it.
    have properties : Arrives base start (grammar.patternProperties context.allowIn)
        fun found place => Apart here.offset place.offset
          (propertiesRegions found.1 ++ patternOptionRegions found.2) :=
      .cycle (Collected propertyRegions here.offset) (.none (by omega))
        fun properties place soFar => rounds_patternProperties parts soFar
    refine properties.bind fun found stop apart => ?_
    refine Settles.symbol.further.bind fun _ behind later₂ => ?_
    exact .pure (apart.upTo (by omega))
  exact .spannedThen inner fun stop found behind apart => .pure apart

/-- A round over the elements of an array pattern adds scopes behind those before. -/
theorem rounds_patternSlots {slots : List PatternSlot}
    (soFar : Collected slotRegions first slots here) :
    Arrives base here (grammar.slotRound context slots)
      (Round.Known (Collected slotRegions first) fun found place =>
        Apart first place.offset (slotsRegions found.1 ++ patternOptionRegions found.2)) := by
  -- Every way out of the round leaves without a rest or with the one just read.
  have ends {slots : List PatternSlot} {place : Cursor}
      (soFar : Collected slotRegions first slots place) :
      Apart first place.offset (slotsRegions slots ++ patternOptionRegions none) := by
    rw [slotsRegions_eq, patternOptionRegions, List.append_nil]
    exact soFar
  refine .nextIs fun isDone => .ite (fun _ => .pure (ends soFar)) fun _ => ?_
  refine (Settles.accept_past (by nofun)).bind fun isRest start later => ?_
  refine .ite (fun _ => ?_) fun _ => ?_
  · refine parts.pattern.bind fun rest behind apart => .pure ?_
    show Apart first behind.offset (slotsRegions slots ++ patternRegions rest)
    rw [slotsRegions_eq]
    exact soFar.append (apart.since later.1)
  refine (Settles.accept_past (by nofun)).bind fun isHole second hole => ?_
  refine .ite (fun _ => .pure ?_) fun _ => ?_
  · exact soFar.snoc (.none (by omega))
  refine parts.pattern.bind fun target third inTarget => ?_
  refine (lays_initializer parts).bind fun default stop inDefault => ?_
  have slot : Apart here.offset stop.offset (slotRegions (.slot target default)) :=
    (inTarget.append inDefault).since (by omega)
  have collected := soFar.snoc slot
  refine (Settles.accept_past (by nofun)).bind fun isMore behind further => ?_
  exact .ite (fun _ => .pure (collected.upTo further.1)) fun _ =>
    .pure (ends (collected.upTo further.1))

/-- The scopes of an array pattern lie apart in the text that was taken for it. -/
theorem lays_arrayPattern : Lays patternRegions base here (grammar.arrayPattern context) := by
  have inner : Lays (fun found : List PatternSlot × Option Pattern =>
      slotsRegions found.1 ++ patternOptionRegions found.2) base here (do
        symbol .bracketOpen
        let found ← grammar.patternSlots context.allowIn
        symbol .bracketClose
        return found) := by
    refine Settles.symbol.further.bind fun _ start later₁ => ?_
    -- The loop keeps what it has collected apart, and the rest comes behind it.
    have slots : Arrives base start (grammar.patternSlots context.allowIn)
        fun found place => Apart here.offset place.offset
          (slotsRegions found.1 ++ patternOptionRegions found.2) :=
      .cycle (Collected slotRegions here.offset) (.none (by omega))
        fun slots place soFar => rounds_patternSlots parts soFar
    refine slots.bind fun found stop apart => ?_
    refine Settles.symbol.further.bind fun _ behind later₂ => ?_
    exact .pure (apart.upTo (by omega))
  exact .spannedThen inner fun stop found behind apart => .pure apart

/-- Any pattern. -/
theorem lays_patternRule : Lays patternRegions base here (grammar.patternRule context) := by
  refine .peek <| .ite (fun _ => ?_) fun _ => .ite (fun _ => ?_) fun _ =>
    .ite (fun _ => ?_) fun _ => .fail
  · exact lays_objectPattern parts
  · exact lays_arrayPattern parts
  · exact takes_bindingId.further.bind fun _ _ later => .pure (.none (by omega))

end Patterns

section Functions

omit parts in
/-- A comment statement has no regions. -/
theorem arrives_takeComments {upTo : Nat} :
    Arrives base here (takeComments upTo) fun comments place =>
      place = here ∧ comments.flatMap stmtRegions = [] := by
  rintro reader keeps rfl
  have sound : Reader.Sound { reader with commentsUpTo := max reader.commentsUpTo upTo } :=
    keeps.sound.remarked
  refine .ok { keeps with sound } ⟨rfl, List.flatMap_eq_nil_iff.mpr fun stmt mem => ?_⟩
  obtain ⟨comment, -, rfl⟩ := List.mem_map.mp mem
  rfl

/-- A round over statements adds scopes behind those before. -/
theorem rounds_stmts {ends : List TokenKind} {body : List Stmt}
    (soFar : Collected stmtRegions first body here) :
    Arrives base here (grammar.stmtRound context ends body)
      (Round.Known (Collected stmtRegions first) (Collected stmtRegions first)) := by
  refine .peek <| arrives_takeComments.bind ?_
  rintro comments here ⟨rfl, none⟩
  -- The comments in front of a statement are read again and take up no tokens.
  have collected : Collected stmtRegions first (body ++ comments) here := by
    rw [Collected, List.flatMap_append, none, List.append_nil]
    exact soFar
  refine .ite (fun _ => .pure collected) fun _ => .check fun _ => ?_
  refine parts.stmt.bind fun stmt stop shows => ?_
  refine Settles.skipComments.bind ?_
  rintro _ _ rfl
  exact .pure (collected.snoc shows.2)

/-- The scopes of the statements of a list lie apart in the text that was taken for it. -/
theorem lays_stmtList {ends : List TokenKind} :
    Lays stmtsRegions base here (grammar.stmtList context ends) := by
  refine Settles.skipComments.bind ?_
  rintro _ here rfl
  have stmts : Arrives base here (loop (grammar.stmtRound context ends) [])
      (Collected stmtRegions here.offset) :=
    .cycle _ (.none (Nat.le_refl _)) fun body place soFar => rounds_stmts parts soFar
  exact stmts.weaken fun body place apart => by rw [stmtsRegions_eq]; exact apart

/-- Statements in braces start behind the opening one. -/
theorem arrives_braces :
    Arrives base here (grammar.braces context) fun body place =>
      Apart (startOf here + 1) place.offset (stmtsRegions body) := by
  refine Settles.symbol_past.bind fun _ start later₁ => ?_
  refine (lays_stmtList parts).bind fun body stop apart => ?_
  refine Settles.symbol.further.bind fun _ behind later₂ => ?_
  exact .pure (apart.within later₁ (by omega))

/-- A block has a region that starts with its opening brace. -/
theorem arrives_block :
    Arrives base here (grammar.block context) fun block place =>
      ∃ stop body, block = ⟨⟨startOf here, stop⟩, body⟩
        ∧ Apart (startOf here + 1) place.offset (stmtsRegions body) :=
  .spannedThen (arrives_braces parts) fun stop body _ apart => .pure ⟨stop, body, rfl, apart⟩

/-- The scopes of statements in braces lie apart in the text that was taken for it. -/
theorem lays_block : Lays blockRegions base here (grammar.block context) := by
  refine (arrives_block parts).weaken ?_
  rintro _ place ⟨stop, body, rfl, apart⟩
  exact apart.opens.since (offset_le_startOf here)

/-- The scopes of a parameter lie apart in the text that was taken for it. -/
theorem lays_param : Lays paramRegions base here (grammar.param context) := by
  have inner : Lays (fun found : Bool × Pattern × Option Expr =>
      patternRegions found.2.1 ++ optionRegions found.2.2) base here (do
        let isRest ← accept (.symbol .dotDotDot)
        let pattern ← grammar.pattern context
        let default ← grammar.initializer context [.symbol .comma, .symbol .parenthesisClose]
        return (isRest, pattern, default)) := by
    refine (Settles.accept_past (by nofun)).bind fun isRest start later => ?_
    refine parts.pattern.bind fun pattern stop inPattern => ?_
    refine (lays_initializer parts).bind fun default behind inDefault => ?_
    exact .pure ((inPattern.append inDefault).since later.1)
  exact .spannedThen inner fun stop found behind apart => .pure apart

/-- A round over parameters adds scopes behind those before. -/
theorem rounds_params {params : List Param} (soFar : Collected paramRegions first params here) :
    Arrives base here (grammar.paramRound context params)
      (Round.Known (Collected paramRegions first) (Collected paramRegions first)) := by
  refine .nextIs fun isDone => .ite (fun _ => .pure soFar) fun _ => ?_
  refine (lays_param parts).bind fun param stop apart => ?_
  have collected := soFar.snoc apart
  refine .ite (fun _ => .pure collected) fun _ => ?_
  refine (Settles.accept_past (by nofun)).bind fun isMore behind later => ?_
  exact .ite (fun _ => .pure (collected.upTo later.1)) fun _ => .pure (collected.upTo later.1)

/-- Parameters start behind the opening parenthesis. -/
theorem arrives_params :
    Arrives base here (grammar.params context) fun params place =>
      Apart (startOf here + 1) place.offset (paramsRegions params) := by
  refine Settles.symbol_past.bind fun _ start later₁ => ?_
  have params : Arrives base start (loop (grammar.paramRound context.allowIn) [])
      (Collected paramRegions start.offset) :=
    .cycle _ (.none (Nat.le_refl _)) fun params place soFar => rounds_params parts soFar
  refine params.bind fun params stop apart => ?_
  refine Settles.symbol.further.bind fun _ behind later₂ => ?_
  exact .pure (by rw [paramsRegions_eq]; exact apart.within later₁ (by omega))

/-- The scopes of the statements of a function body lie apart in the text that was taken for it. -/
theorem lays_functionBody :
    Lays stmtsRegions base here (grammar.functionBody context) :=
  (arrives_braces parts).weaken fun _ _ apart =>
    apart.since (Nat.le_succ_of_le (offset_le_startOf here))

/-- The scopes of the parameters and the body of a function that is no arrow lie apart in the text
that was taken for it. -/
theorem lays_functionRest {isAsync isGenerator : Bool} :
    Lays funcRegions base here (grammar.functionRest context isAsync isGenerator) := by
  have inner : Arrives base here (do
      let params ← grammar.params (context.generator isGenerator)
      let body ← grammar.functionBody (context.generator isGenerator)
      return (params, body)) fun found place =>
        Apart (startOf here + 1) place.offset
          (paramsRegions found.1 ++ bodyRegions (.block found.2)) := by
    refine (arrives_params parts).bind fun params stop inParams => ?_
    exact (lays_functionBody parts).bind fun body behind inBody =>
      .pure (inParams.append inBody)
  exact .spannedThen inner fun stop found behind apart =>
    .pure (apart.opens.since (offset_le_startOf here))

/-- The scopes of a function as an expression lie apart in the text that was taken for it. -/
theorem lays_functionExpr : Lays exprRegions base here (grammar.functionExpr context) := by
  have inner : Arrives base here (do
      let head ← functionHead
      let func ← grammar.functionRest context head.isAsync head.isGenerator
      return Shape.function head.name func) fun shape place =>
        ∀ span, Apart here.offset place.offset (shapeRegions span shape) := by
    refine takes_functionHead.further.bind fun head start later => ?_
    exact (lays_functionRest parts).bind fun func behind apart =>
      .pure fun _ => apart.since (by omega)
  exact .spannedThen inner fun stop shape behind apart => .pure (apart _)

/-- The parameters of an arrow start behind the first token, which may be one itself. -/
theorem arrives_arrowParams :
    Arrives base here (grammar.arrowParams context) fun params place =>
      Apart (startOf here + 1) place.offset (paramsRegions params) := by
  refine .peek <| .ite (fun bindable => .take <| .pure ?_) fun _ => arrives_params parts
  refine Apart.none (startOf_lt fun ends => ?_)
  rw [ends] at bindable
  cases bindable

/-- The scopes of an arrow function from its parameters, or the word in front of them, on lie apart
in the text that was taken for it. -/
theorem lays_arrowExpr : Lays exprRegions base here (grammar.arrowExpr context stops) := by
  -- What comes behind the word for asynchronous functions, if that is there.
  have rest (isAsync : Bool) {start : Cursor} (front : startOf here ≤ startOf start) :
      Arrives base start (do
        let params ← grammar.arrowParams context
        let arrow ← require (.symbol .equalsChevronRight)
        if arrow.afterLineBreak then fail (arrow.error .lineBreakBeforeArrow)
        let body ←
          if ← nextIs .braceOpen then
            Body.block <$> grammar.functionBody (context.generator false)
          else Body.value <$> grammar.element (context.generator false) stops
        return (isAsync, params, body)) fun found place =>
          Apart (startOf here + 1) place.offset
            (paramsRegions found.2.1 ++ bodyRegions found.2.2) := by
    refine (arrives_arrowParams parts).bind fun params second inParams => ?_
    refine (Settles.past (by nofun)).bind fun arrow third later => ?_
    have later : second.offset ≤ third.offset := by
      have := offset_le_startOf second
      omega
    refine .check fun _ => ?_
    have finish {body : Body} {behind : Cursor}
        (inBody : Apart third.offset behind.offset (bodyRegions body)) :
        Apart (startOf here + 1) behind.offset (paramsRegions params ++ bodyRegions body) :=
      (inParams.append (inBody.since later)).since (by omega)
    refine .nextIs fun isBlock => .ite (fun _ => ?_) fun _ => ?_
    · have body : Lays bodyRegions base third
          (Body.block <$> grammar.functionBody (context.generator false)) :=
        lays_map (lays_functionBody parts) fun _ => rfl
      exact body.bind fun body behind inBody => .pure (finish inBody)
    · have body : Lays bodyRegions base third
          (Body.value <$> grammar.element (context.generator false) stops) :=
        lays_map parts.expr fun _ => rfl
      exact body.bind fun body behind inBody => .pure (finish inBody)
  refine .spannedThen (.peek2 <| .ite (fun isAsync => .take ?_) fun _ => rest _ (Nat.le_refl _)) ?_
  · refine rest _ ?_
    have async : (step .standard here).token.kind = .keyword .asyncKw := by
      simp only [Bool.and_eq_true, beq_iff_eq] at isAsync
      exact isAsync.1.1
    have later : startOf here < (step .standard here).next.offset :=
      startOf_lt (by rw [async]; nofun)
    exact Nat.le_trans (Nat.le_of_lt later) (offset_le_startOf _)
  · exact fun stop found behind apart => .pure (apart.opens.since (offset_le_startOf here))

/-- An arrow function that may be none: then the reader stands where it stood. -/
theorem arrives_arrowExpr? :
    Arrives base here (grammar.arrowExpr? context stops) fun result place =>
      match result with
      | some arrow => Apart here.offset place.offset (exprRegions arrow)
      | none => place = here := by
  rintro reader keeps rfl
  have ran := @lays_arrowExpr _ reader _ context stops parts reader (.refl keeps.sound) rfl
  rw [arrowExpr?_eq, arrowExpr?_eq]
  generalize grammar.arrowExpr context stops reader = run at ran ⊢
  generalize grammar.arrowExpr context stops (reader.widen 0) = wide at ran ⊢
  -- A malformed attempt is either final, or the reader goes back.
  cases ran with
  | ok goesOn apart => exact .ok (keeps.trans goesOn) apart
  | exhausted isShort => exact .exhausted isShort
  | malformed goesOn =>
    dsimp only
    split
    · exact .malformed (keeps.trans goesOn)
    · obtain ⟨goesBack, stands, -⟩ := goesOn.back
      exact .ok (keeps.trans goesBack) stands

end Functions

section Members

/-- The scopes of a method or an accessor, from its parameters on lie apart in the text that was
taken for it. -/
theorem lays_methodValue {modifiers : Modifiers} :
    Lays memberValueRegions base here (grammar.methodValue context modifiers) := by
  refine (lays_functionRest parts).bind fun func behind apart => .pure ?_
  cases modifiers.kind <;> exact apart

/-- The scopes of a member of an object literal lie apart in the text that was taken for it. -/
theorem arrives_objectMemberContent :
    Arrives base here (grammar.objectMemberContent context) fun member place =>
      ∀ span, Apart here.offset place.offset (objectMemberRegions (member span)) := by
  refine (Settles.accept_past (by nofun)).bind fun isSpread second spread => ?_
  refine .ite (fun _ => ?_) fun _ => ?_
  · -- A spread, a method, a value, or a name on its own, which may have a default.
    exact parts.expr.bind fun value behind apart => .pure fun _ => apart.since spread.1
  refine lasts_modifiers.onward.bind fun modifiers third later₁ => ?_
  refine .peek <| (lays_key parts).bind fun key fourth inKey => ?_
  have inKey : Apart here.offset fourth.offset (keyRegions key) := inKey.since (by omega)
  refine .nextIs fun isMethod => .ite (fun _ => ?_) fun _ => ?_
  · exact (lays_methodValue parts).bind fun value behind apart =>
      .pure fun _ => inKey.append apart
  refine settles_requirePlain.bind ?_
  rintro _ fourth rfl
  refine (Settles.accept_past (by nofun)).bind fun hasValue fifth later₂ => ?_
  refine .ite (fun _ => ?_) fun _ => .check fun _ => ?_
  · exact parts.expr.bind fun value behind apart =>
      .pure fun _ => inKey.append (apart.since later₂.1)
  refine (Settles.accept_past (by nofun)).bind fun hasDefault sixth later₃ => ?_
  refine .ite (fun _ => ?_) fun _ => .pure fun _ => .none (by have := inKey.le; omega)
  exact parts.expr.bind fun value behind apart =>
    .pure fun _ => inKey.append (apart.since (by omega))

/-- The scopes of a member of an object literal lie apart in the text that was taken for it. -/
theorem lays_objectMember :
    Lays objectMemberRegions base here (grammar.objectMember context) :=
  .spannedThen (arrives_objectMemberContent parts) fun _ _ _ apart => .pure (apart _)

/-- The scopes of an object literal lie apart in the text that was taken for it. -/
theorem lays_objectExpr : Lays exprRegions base here (grammar.objectExpr context) := by
  have inner : Lays objectMembersRegions base here (do
      symbol .braceOpen
      let members ← commaList .braceClose (grammar.objectMember context.allowIn)
      symbol .braceClose
      return members) := by
    refine Settles.symbol.further.bind fun _ start later₁ => ?_
    refine (lays_commaList fun place => lays_objectMember parts).bind fun members stop apart => ?_
    refine Settles.symbol.further.bind fun _ behind later₂ => ?_
    exact .pure (by rw [objectMembersRegions_eq]; exact apart.within (by omega) (by omega))
  exact .spannedThen inner fun _ _ _ apart => .pure apart

/-- The scopes of a static initialization block lie apart in the text that was taken for it. -/
theorem lays_staticBlock :
    Lays (fun found => keyRegions found.1 ++ memberValueRegions found.2) base here
      (grammar.staticBlock context) :=
  .spannedThen (arrives_braces parts) fun _ _ _ apart =>
    .pure (apart.opens.since (offset_le_startOf here))

/-- The scopes of the key and the value of a class member lie apart in the text that was taken for
it. -/
theorem lays_classMemberContent :
    Lays (fun found => keyRegions found.1 ++ memberValueRegions found.2) base here
      (grammar.classMemberContent context) := by
  -- What comes behind the words in front of the key.
  have rest (isAccessor : Bool) (modifiers : Modifiers) {start : Cursor}
      (front : here.offset ≤ start.offset) :
      Arrives base start (do
        let key ← grammar.key context
        if !isAccessor && (← nextIs .parenthesisOpen) then
          return (key, ← grammar.methodValue (context.generator false) modifiers)
        requirePlain modifiers
        let init ← grammar.initializer (context.allowIn.generator false)
          [.symbol .semicolon, .symbol .braceClose]
        endStatement
        return (key, if isAccessor then MemberValue.accessor init else .field init))
        fun found place => Apart here.offset place.offset
          (keyRegions found.1 ++ memberValueRegions found.2) := by
    refine (lays_key parts).bind fun key second inKey => ?_
    have inKey := inKey.since front
    refine .nextIs fun isMethod => .ite (fun _ => ?_) fun _ => ?_
    · exact (lays_methodValue parts).bind fun value behind apart => .pure (inKey.append apart)
    refine settles_requirePlain.bind ?_
    rintro _ second rfl
    refine (lays_initializer parts).bind fun init third inInit => ?_
    refine Settles.endStatement.onward.bind fun _ behind later => .pure ?_
    cases isAccessor <;> exact inKey.append (inInit.upTo later)
  have onward := (before_step .standard here).offset_le
  refine settles_accessorFieldNext fun isAccessor => .ite (fun _ => .take ?_) fun _ => ?_
  · refine .ite (fun _ => rest _ _ onward) fun _ => ?_
    exact lasts_modifiers.onward.bind fun modifiers start later => rest _ _ (by omega)
  · refine .ite (fun _ => rest _ _ (Nat.le_refl _)) fun _ => ?_
    exact lasts_modifiers.onward.bind fun modifiers start later => rest _ _ later

/-- The scopes of a member of a class lie apart in the text that was taken for it. -/
theorem lays_classMember :
    Lays classMemberRegions base here (grammar.classMember context) := by
  have inner : Lays (fun found : Bool × Key × MemberValue =>
      keyRegions found.2.1 ++ memberValueRegions found.2.2) base here (do
        let isStatic ← Grammar.staticNext
        if isStatic then
          let _ ← take
          if ← nextIs .braceOpen then
            return (true, ← grammar.staticBlock context)
        return (isStatic, ← grammar.classMemberContent context)) := by
    -- The word `static` may be the name of the member, so it is looked at before it is taken.
    have onward := (before_step .standard here).offset_le
    refine settles_staticNext fun isStatic => .ite (fun _ => .take ?_) fun _ => ?_
    · refine .nextIs fun isBlock => .ite (fun _ => ?_) fun _ => ?_
      · exact (lays_staticBlock parts).bind fun _ _ apart => .pure (apart.since onward)
      · exact (lays_classMemberContent parts).bind fun _ _ apart => .pure (apart.since onward)
    · exact (lays_classMemberContent parts).bind fun _ _ apart => .pure apart
  exact .spannedThen inner fun _ _ _ apart => .pure apart

/-- A round over the members of a class adds scopes behind those before. -/
theorem rounds_classMembers {members : List ClassMember}
    (soFar : Collected classMemberRegions first members here) :
    Arrives base here (grammar.memberRound context members)
      (Round.Known (Collected classMemberRegions first) (Collected classMemberRegions first)) := by
  refine .nextIs fun isDone => .ite (fun _ => .pure soFar) fun _ => ?_
  refine (Settles.accept_past (by nofun)).bind fun isEmpty start later => ?_
  refine .ite (fun _ => .pure (soFar.upTo later.1)) fun _ => ?_
  exact (lays_classMember parts).bind fun member behind apart =>
    .pure (soFar.snoc (apart.since later.1))

/-- The heritage and the members of a class start behind its keyword. -/
theorem arrives_classParts :
    Arrives base here (grammar.classParts context) fun found place =>
      Apart (startOf here + 1) place.offset
        (optionRegions found.2.1 ++ classMembersRegions found.2.2) := by
  -- Name and base class may be missing, but the braces are always there.
  have body (name : Option String) (heritage : Option Expr) {start : Cursor}
      (inHeritage : Apart (startOf here + 1) start.offset (optionRegions heritage)) :
      Arrives base start (do
        symbol .braceOpen
        let members ← grammar.classMembers context
        symbol .braceClose
        return (name, heritage, members)) fun found place =>
          Apart (startOf here + 1) place.offset
            (optionRegions found.2.1 ++ classMembersRegions found.2.2) := by
    refine Settles.symbol.further.bind fun _ second later₁ => ?_
    have members : Arrives base second (grammar.classMembers context)
        (Collected classMemberRegions start.offset) :=
      .cycle _ (.none (by omega)) fun members place soFar => rounds_classMembers parts soFar
    refine members.bind fun members stop apart => ?_
    refine Settles.symbol.further.bind fun _ behind later₂ => .pure ?_
    rw [classMembersRegions_eq]
    exact inHeritage.append (apart.upTo (by omega))
  refine Settles.keyword_past.bind fun _ second later₁ => ?_
  refine lasts_bindingName?.onward.bind fun name third later₂ => ?_
  refine (Settles.accept_past (by nofun)).bind fun isDerived fourth later₃ => ?_
  refine .ite (fun _ => ?_) fun _ => body _ _ (.none (by omega))
  have heritage : Lays optionRegions base fourth
      (some <$> grammar.expr context Precedence.construction [.symbol .braceOpen]) :=
    lays_map parts.expr fun _ => rfl
  exact heritage.bind fun heritage fifth inHeritage => body _ _ (inHeritage.since (by omega))

/-- The scopes of a class as an expression lie apart in the text that was taken for it. -/
theorem lays_classExpr : Lays exprRegions base here (grammar.classExpr context) :=
  .spannedThen (arrives_classParts parts) fun _ _ _ apart =>
    .pure (apart.opens.since (offset_le_startOf here))

end Members

end Downlevel.Parser
