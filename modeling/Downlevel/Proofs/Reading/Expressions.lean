import Downlevel.Proofs.Reading.Names

/-! The expressions that the parser gives are formed, and so are the patterns, functions and members
in them. -/

namespace Downlevel

namespace Parser

section Targets

/-- What ends well after one step and another does so after the first. -/
theorem ok_of_bind {ε α β : Type} {first : Except ε α} {rest : α → Except ε β} {last : β}
    (run : (first >>= rest) = .ok last) : ∃ result, first = .ok result ∧ rest result = .ok last := by
  cases first with
  | error _ => cases run
  | ok result => exact ⟨result, rfl, run⟩

mutual

/-- An expression that is read again as a pattern gives one that is formed. -/
theorem formed_toPattern (e : Expr) (formed : AreFormed (exprNodes e)) {pattern : Pattern}
    (read : e.toPattern = .ok pattern) : AreFormed (patternNodes pattern) := by
  obtain ⟨origin, shape⟩ := e
  have inside := (formed_expr.mp formed).2.2
  -- Accesses outside of chains stay what they are.
  have target {shape : Shape} (own : (Expr.mk origin shape).isPlace = true)
      (inside : AreFormed (exprNodes ⟨origin, shape⟩)) :
      AreFormed (patternNodes (.target origin.span ⟨origin, shape⟩)) := by
    simp only [patternNodes, areFormed_cons]
    exact ⟨own, inside⟩
  cases shape with
  | array items =>
    rw [Expr.toPattern] at read
    obtain ⟨⟨slots, rest⟩, found, same⟩ := ok_of_bind read
    cases same
    obtain ⟨inSlots, inRest⟩ := formed_slotsOfItems _ items inside found
    exact areFormed_cons.mpr ⟨trivial, areFormed_append.mpr ⟨inSlots, inRest⟩⟩
  | object members =>
    rw [Expr.toPattern] at read
    obtain ⟨⟨properties, rest⟩, found, same⟩ := ok_of_bind read
    cases same
    obtain ⟨inProperties, inRest⟩ := formed_propertiesOfMembers members inside found
    exact areFormed_cons.mpr ⟨trivial, areFormed_append.mpr ⟨inProperties, inRest⟩⟩
  | id name =>
    rw [Expr.toPattern] at read
    cases read
    exact areFormed_cons.mpr ⟨(formed_expr.mp formed).2.1, areFormed_nil⟩
  | arrayPattern slots rest =>
    rw [Expr.toPattern] at read
    cases read
    exact areFormed_cons.mpr ⟨trivial, inside⟩
  | objectPattern properties rest =>
    rw [Expr.toPattern] at read
    cases read
    exact areFormed_cons.mpr ⟨trivial, inside⟩
  | member link object name =>
    rw [Expr.toPattern] at read
    split at read
    · cases read
    · cases read
      exact target (by simp [Expr.isPlace, ‹¬_›]) formed
  | computed link object key =>
    rw [Expr.toPattern] at read
    split at read
    · cases read
    · cases read
      exact target (by simp [Expr.isPlace, ‹¬_›]) formed
  | _ => simp [Expr.toPattern, throw, throwThe, MonadExceptOf.throw] at read
termination_by structural e

/-- The slots of an array pattern are formed if the items are. -/
theorem formed_slotsOfItems (span : Span) (items : List ArrayItem)
    (formed : AreFormed (itemsNodes items)) {slots : List PatternSlot} {rest : Option Pattern}
    (read : slotsOfItems span items = .ok (slots, rest)) :
    AreFormed (slotsNodes slots) ∧ AreFormed (patternOptionNodes rest) := by
  cases items with
  | nil =>
    rw [slotsOfItems] at read
    cases read
    exact ⟨areFormed_nil, areFormed_nil⟩
  | cons item later =>
    obtain ⟨own, others⟩ := areFormed_append.mp formed
    cases item with
    | hole =>
      rw [slotsOfItems] at read
      obtain ⟨⟨slots, rest⟩, found, same⟩ := ok_of_bind read
      cases same
      have inLater := formed_slotsOfItems span later others found
      exact inLater
    | spread value =>
      rw [slotsOfItems] at read
      obtain ⟨pattern, found, same⟩ := ok_of_bind read
      split at same
      · cases same
        exact ⟨areFormed_nil, formed_toPattern value own found⟩
      · cases same
    | single value =>
      -- Any value but an assignment is a pattern without a default.
      have plain (noDefault : ∀ origin left right, value ≠ ⟨origin, .binary .assignment left right⟩) :
          AreFormed (slotsNodes slots) ∧ AreFormed (patternOptionNodes rest) := by
        rw [slotsOfItems] at read
        · obtain ⟨target, isTarget, goesOn⟩ := ok_of_bind read
          obtain ⟨⟨slots, rest⟩, found, same⟩ := ok_of_bind goesOn
          cases same
          obtain ⟨inSlots, inRest⟩ := formed_slotsOfItems span later others found
          have inTarget := formed_toPattern value own isTarget
          exact ⟨areFormed_append.mpr ⟨areFormed_append.mpr ⟨inTarget, areFormed_nil⟩, inSlots⟩,
            inRest⟩
        · exact noDefault
      obtain ⟨origin, shape⟩ := value
      cases shape with
      | binary op left right =>
        by_cases isDefault : op = .assignment
        · subst isDefault
          rw [slotsOfItems] at read
          obtain ⟨inLeft, inRight⟩ := areFormed_append.mp (formed_expr.mp own).2.2
          obtain ⟨target, isTarget, goesOn⟩ := ok_of_bind read
          obtain ⟨⟨slots, rest⟩, found, same⟩ := ok_of_bind goesOn
          cases same
          obtain ⟨inSlots, inRest⟩ := formed_slotsOfItems span later others found
          have inTarget := formed_toPattern left inLeft isTarget
          exact ⟨areFormed_append.mpr ⟨areFormed_append.mpr ⟨inTarget, inRight⟩, inSlots⟩, inRest⟩
        · refine plain fun _ _ _ same => isDefault ?_
          cases same
          rfl
      | _ => exact plain nofun
termination_by structural items

/-- The properties of an object pattern are formed if the members are. -/
theorem formed_propertiesOfMembers (members : List ObjectMember)
    (formed : AreFormed (objectMembersNodes members)) {properties : List PatternProperty}
    {rest : Option Pattern} (read : propertiesOfMembers members = .ok (properties, rest)) :
    AreFormed (propertiesNodes properties) ∧ AreFormed (patternOptionNodes rest) := by
  cases members with
  | nil =>
    rw [propertiesOfMembers] at read
    cases read
    exact ⟨areFormed_nil, areFormed_nil⟩
  | cons member later =>
    obtain ⟨own, others⟩ := areFormed_append.mp formed
    cases member with
    | spread span value =>
      rw [propertiesOfMembers] at read
      obtain ⟨pattern, found, same⟩ := ok_of_bind read
      split at same
      · cases same
        exact ⟨areFormed_nil, formed_toPattern value (areFormed_cons.mp own).2 found⟩
      all_goals cases same
    | shorthand span name =>
      rw [propertiesOfMembers] at read
      obtain ⟨⟨properties, rest⟩, found, same⟩ := ok_of_bind read
      cases same
      obtain ⟨inProperties, inRest⟩ := formed_propertiesOfMembers later others found
      refine ⟨areFormed_append.mpr ⟨?_, inProperties⟩, inRest⟩
      have spelled : IsSpelled name := (areFormed_cons.mp own).1
      exact areFormed_append.mpr ⟨areFormed_cons.mpr ⟨spelled, areFormed_nil⟩, areFormed_nil⟩
    | valued span key value =>
      obtain ⟨inKey, inValue⟩ := areFormed_append.mp (areFormed_cons.mp own).2
      cases value with
      | field init =>
        cases init with
        | none => simp [propertiesOfMembers, throw, throwThe, MonadExceptOf.throw] at read
        | some value =>
          -- Any value but an assignment is a pattern without a default.
          have plain (noDefault : ∀ origin left right,
              value ≠ ⟨origin, .binary .assignment left right⟩) :
              AreFormed (propertiesNodes properties) ∧ AreFormed (patternOptionNodes rest) := by
            rw [propertiesOfMembers] at read
            · obtain ⟨target, isTarget, goesOn⟩ := ok_of_bind read
              obtain ⟨⟨properties, rest⟩, found, same⟩ := ok_of_bind goesOn
              cases same
              obtain ⟨inProperties, inRest⟩ := formed_propertiesOfMembers later others found
              have inTarget := formed_toPattern value inValue isTarget
              refine ⟨areFormed_append.mpr ⟨?_, inProperties⟩, inRest⟩
              exact areFormed_append.mpr ⟨areFormed_append.mpr ⟨inKey, inTarget⟩, areFormed_nil⟩
            · exact noDefault
          obtain ⟨origin, shape⟩ := value
          cases shape with
          | binary op left right =>
            by_cases isDefault : op = .assignment
            · subst isDefault
              rw [propertiesOfMembers] at read
              obtain ⟨inLeft, inRight⟩ := areFormed_append.mp (formed_expr.mp inValue).2.2
              obtain ⟨target, isTarget, goesOn⟩ := ok_of_bind read
              obtain ⟨⟨properties, rest⟩, found, same⟩ := ok_of_bind goesOn
              cases same
              obtain ⟨inProperties, inRest⟩ := formed_propertiesOfMembers later others found
              have inTarget := formed_toPattern left inLeft isTarget
              refine ⟨areFormed_append.mpr ⟨?_, inProperties⟩, inRest⟩
              exact areFormed_append.mpr ⟨areFormed_append.mpr ⟨inKey, inTarget⟩, inRight⟩
            · refine plain fun _ _ _ same => isDefault ?_
              cases same
              rfl
          | _ => exact plain nofun
      | _ => simp [propertiesOfMembers, throw, throwThe, MonadExceptOf.throw] at read
termination_by structural members

end

/-- A literal that can be assigned to was read again as a pattern. -/
theorem ok_of_structured {read : Except SyntaxError Pattern} {target : Expr}
    (found : (match read with
      | .ok pattern => if pattern.isStructured then pure pattern.toExpr else throw .broken
      | .error error => throw (.malformed error) : Except ParseFailure Expr) = .ok target) :
    ∃ pattern, read = .ok pattern ∧ pattern.toExpr = target := by
  -- The literal has to be a pattern, and the pattern a structured one.
  cases read with
  | error error => cases found
  | ok pattern =>
    dsimp only at found
    split at found
    · cases found
      exact ⟨pattern, rfl, rfl⟩
    · cases found

/-- The target of an assignment is a place, or a pattern of a plain one. -/
theorem isRead_toTarget {op : Operator} {e target : Expr} (isRead : e.IsRead)
    (read : e.toTarget op = .ok target) :
    target.IsRead ∧ (target.isPlace = true ∨ op = .assignment ∧ target.isPattern = true) := by
  obtain ⟨origin, shape⟩ := e
  -- A name stays one, an access stays one unless it is optional, and only a literal is read again.
  cases shape with
  | id name =>
    cases read
    exact ⟨isRead, .inl rfl⟩
  | member link object name =>
    simp only [Expr.toTarget] at read
    split at read
    · cases read
    · cases read
      exact ⟨isRead, .inl (by simp [Expr.isPlace, ‹¬_›])⟩
  | computed link object key =>
    simp only [Expr.toTarget] at read
    split at read
    · cases read
    · cases read
      exact ⟨isRead, .inl (by simp [Expr.isPlace, ‹¬_›])⟩
  | array items =>
    simp only [Expr.toTarget] at read
    split at read
    · obtain ⟨again, isAgain, same⟩ := ok_of_structured read
      have formed := formed_toPattern _ isRead isAgain
      rw [Expr.toPattern] at isAgain
      obtain ⟨⟨slots, rest⟩, -, isArray⟩ := ok_of_bind isAgain
      cases isArray
      cases same
      exact ⟨isRead_of trivial (areFormed_cons.mp formed).2, .inr ⟨‹_›, rfl⟩⟩
    · cases read
  | object members =>
    simp only [Expr.toTarget] at read
    split at read
    · obtain ⟨again, isAgain, same⟩ := ok_of_structured read
      have formed := formed_toPattern _ isRead isAgain
      rw [Expr.toPattern] at isAgain
      obtain ⟨⟨properties, rest⟩, -, isObject⟩ := ok_of_bind isAgain
      cases isObject
      cases same
      exact ⟨isRead_of trivial (areFormed_cons.mp formed).2, .inr ⟨‹_›, rfl⟩⟩
    · cases read
  | _ => cases read

end Targets

section Partials

/-- What is read so far of an expression: whoever goes on with a chain follows one. -/
structure Grammar.Partial.IsRead (soFar : Grammar.Partial) : Prop where
  left : soFar.left.IsRead
  follows : soFar.link.Follows soFar.left

/-- Outside of a chain nothing goes on with one. -/
theorem isRead_partial {left : Expr} (inLeft : left.IsRead) :
    (⟨left, false⟩ : Grammar.Partial).IsRead :=
  ⟨inLeft, nofun⟩

/-- A chain goes on behind each of its links. -/
theorem Grammar.Partial.IsRead.linked {soFar : Grammar.Partial} {e : Expr}
    (isRead : e.IsRead ∧ e.link = soFar.link) : (⟨e, soFar.inChain⟩ : Grammar.Partial).IsRead := by
  refine ⟨isRead.1, fun goesOn => .inl ?_⟩
  rw [Expr.isChained, isRead.2, show soFar.link = .continues from goesOn]
  rfl

/-- It starts with a link that opens it. -/
theorem isRead_opened {e : Expr} (isRead : e.IsRead ∧ e.link = .opens) :
    (⟨e, true⟩ : Grammar.Partial).IsRead := by
  refine ⟨isRead.1, fun _ => .inl ?_⟩
  rw [Expr.isChained, isRead.2]
  rfl

end Partials

/-- A member of a class was read if its key and its value were. -/
theorem isRead_classMember {key : Key} (inKey : key.IsRead) {value : MemberValue}
    (inValue : AreFormed (memberValueNodes value))
    (isMethod : ∀ func ∈ value.func?, func.isArrow = false ∧ func.body.isBlock = true)
    (span : Span) (isStatic : Bool) : (⟨span, key, isStatic, value⟩ : ClassMember).IsRead := by
  refine ⟨formed_classMember inKey.formed inValue, ?_, isMethod⟩
  -- Only a direct key can be private, and the lexer has spelled it.
  intro name isPrivate
  cases key with
  | direct own =>
    simp only [Key.privateName?] at isPrivate
    split at isPrivate
    · cases isPrivate
      exact (inKey.spelled own rfl).2 ‹_›
    · cases isPrivate
  | computed value => cases isPrivate

section Rules

variable {grammar : Grammar} (reads : grammar.Reads) (context : Context) (stops : List TokenKind)

include reads

section Shared

/-- Whatever is read as a full expression is formed as it has to be. -/
theorem reads_whole : Yields (grammar.whole context stops) Expr.IsRead :=
  reads.expr _ _ _

/-- Whatever is read as an expression between commas is formed as it has to be. -/
theorem reads_element : Yields (grammar.element context stops) Expr.IsRead :=
  reads.expr _ _ _

/-- Whatever is read as an expression in parentheses, of which the tree keeps no trace is formed as
it has to be. -/
theorem reads_grouping : Yields (grammar.grouping context) Expr.IsRead :=
  .next fun _ => (reads_whole reads _ _).bind fun _ isRead => .next fun _ => .pure isRead

/-- Whatever is read as an expression in parentheses that belongs to the head of a statement is
formed as it has to be. -/
theorem reads_headExpr : Yields (grammar.headExpr context) Expr.IsRead :=
  .next fun _ => (reads_whole reads _ _).bind fun _ isRead => .next fun _ => .pure isRead

/-- Whatever is read as the expression after an equals sign, if there is one is formed as it has to
be. -/
theorem reads_initializer :
    Yields (grammar.initializer context stops) fun e => AreFormed (optionNodes e) :=
  .next fun _ => .ite
    (fun _ => (reads_element reads _ _).bind fun _ isRead => .pure isRead)
    fun _ => .pure areFormed_nil

/-- Whatever is read as arguments after the opening parenthesis, through the closing one is formed
as it has to be. -/
theorem reads_arguments :
    Yields (grammar.arguments context) fun args => AreFormed (argsNodes args) := by
  have item : Yields (grammar.argument context) fun arg => AreFormed (argNodes arg) :=
    .next fun _ => (reads_element reads _ _).bind fun _ isRead => .pure isRead
  exact (Yields.commaList item).bind fun _ formed => .next fun _ => .pure (formed_args.mpr formed)

/-- Whatever is read as the statements of a list is formed as it has to be. -/
theorem reads_stmtList (ends : List TokenKind) :
    Yields (grammar.stmtList context ends) fun body => AreFormed (stmtsNodes body) := by
  -- The loop keeps the statements that it has read formed, comments included.
  refine .next fun _ => .loop (fun body => AreFormed (stmtsNodes body)) areFormed_nil
    fun body known => .next fun token => ?_
  refine (yields_takeComments _).bind fun comments inComments => ?_
  have start : ∀ stmt ∈ body ++ comments, AreFormed (stmtNodes stmt) :=
    List.forall_mem_append.mpr ⟨formed_stmts.mp known, inComments⟩
  refine .ite (fun _ => .pure (formed_stmts.mpr start)) fun _ => ?_
  exact .check ((reads.stmt _).bind fun _ own => .next fun _ =>
    .pure (formed_stmts.mpr (forall_mem_snoc start own)))

/-- Whatever is read as statements in braces is formed as it has to be. -/
theorem reads_braces : Yields (grammar.braces context) fun body => AreFormed (stmtsNodes body) :=
  .next fun _ => (reads_stmtList reads _ _).bind fun _ formed => .next fun _ => .pure formed

/-- Whatever is read as statements in braces is formed as it has to be. -/
theorem reads_block : Yields (grammar.block context) fun block => AreFormed (blockNodes block) :=
  .spanned ((reads_braces reads _).weaken fun _ formed _ => .pure formed)

end Shared

section Literals

/-- Whatever is read as a key is formed as it has to be. -/
theorem reads_key : Yields (grammar.key context) Key.IsRead := by
  refine .next fun _ => .ite (fun _ => ?_) fun _ => ?_
  · exact (reads_element reads _ _).bind fun _ isRead => .next fun _ => .pure ⟨isRead, nofun⟩
  · refine yields_directKey.bind fun name spelled => .pure ⟨areFormed_nil, ?_⟩
    rintro _ ⟨⟩
    exact spelled

/-- Whatever is read as the items of an array literal is formed as it has to be. -/
theorem reads_arrayItems :
    Yields (grammar.arrayItems context) fun items => ∀ item ∈ items, AreFormed (itemNodes item) := by
  -- The loop keeps the items that it has read formed, and a hole is formed by itself.
  refine .loop (fun items => ∀ item ∈ items, AreFormed (itemNodes item)) nofun
    fun items known => .next fun _ => ?_
  refine .ite (fun _ => .pure (forall_mem_snoc known areFormed_nil)) fun _ => .next fun _ => ?_
  refine .ite (fun _ => .pure known) fun _ => .next fun isSpread => ?_
  refine (reads_element reads _ _).bind fun value isRead => .next fun _ => ?_
  have own : AreFormed (itemNodes (if isSpread then .spread value else .single value)) := by
    split <;> exact isRead
  exact .ite (fun _ => .pure (forall_mem_snoc known own))
    fun _ => .next fun _ => .pure (forall_mem_snoc known own)

/-- Whatever is read as an array literal is formed as it has to be. -/
theorem reads_arrayExpr : Yields (grammar.arrayExpr context) Expr.IsRead := by
  refine .spanned (.next fun _ => (reads_arrayItems reads _).bind fun _ formed =>
    .next fun _ => .pure fun _ => .pure ?_)
  exact isRead_of trivial (formed_items.mpr formed)

/-- Whatever is read as the substitutions of a template, each with the text behind it is formed as
it has to be. -/
theorem reads_templateSpans :
    Yields (grammar.templateSpans context) fun spans =>
      ∀ span ∈ spans, AreFormed (spanNodes span) := by
  refine .loop (fun spans => ∀ span ∈ spans, AreFormed (spanNodes span)) nofun
    fun spans known => (reads_whole reads _ _).bind fun value isRead => ?_
  refine .next fun _ => .next fun _ => .next fun (text, isEnd) => .pure ?_
  cases isEnd <;> exact forall_mem_snoc known isRead

/-- Whatever is read as the text and the substitutions of a template whose first token is already
taken is formed as it has to be. -/
theorem reads_templateRest (first : Token) :
    Yields (grammar.templateRest context first) fun (_, spans) => AreFormed (spansNodes spans) := by
  refine .next fun (head, isEnd) => .ite (fun _ => .pure areFormed_nil) fun _ => ?_
  exact (reads_templateSpans reads _).bind fun _ formed => .pure (formed_spans.mpr formed)

/-- Whatever is read as a template without a tag is formed as it has to be. -/
theorem reads_templateExpr (first : Token) :
    Yields (grammar.templateExpr context first) Expr.IsRead :=
  (reads_templateRest reads _ first).bind fun _ formed => .next fun _ =>
    .pure (isRead_of trivial formed)

/-- Whatever is read as a template behind its tag is formed as it has to be. -/
theorem reads_taggedTemplate {tag : Expr} (inTag : tag.IsRead) (first : Token) :
    Yields (grammar.taggedTemplate context tag first) fun e => e.IsRead ∧ e.isTagged = true :=
  (reads_templateRest reads _ first).bind fun _ formed => .next fun _ =>
    .pure ⟨isRead_of trivial (areFormed_append.mpr ⟨inTag, formed⟩), rfl⟩

end Literals

section Patterns

/-- Whatever is read as one property of an object pattern is formed as it has to be. -/
theorem reads_patternProperty :
    Yields (grammar.patternProperty context) PatternProperty.IsRead := by
  refine .spanned ((reads_key reads _).bind fun key inKey => .next fun hasColon => ?_)
  -- Wherever the target comes from, a default follows.
  have isRead (target : Pattern) (inTarget : target.IsRead) (span : Span) (isShorthand : Bool)
      (default : Option Expr) (inDefault : AreFormed (optionNodes default)) :
      (⟨span, key, target, isShorthand, default⟩ : PatternProperty).IsRead :=
    ⟨areFormed_append.mpr ⟨areFormed_append.mpr ⟨inKey.formed, inTarget.formed⟩, inDefault⟩,
      inTarget.binds⟩
  refine .ite (fun _ => ?_) fun _ => ?_
  · exact (yields_shorthandTarget inKey).bind fun target inTarget =>
      (reads_initializer reads _ _).bind fun default inDefault => .pure fun _ =>
        .pure (isRead target inTarget _ _ default inDefault)
  · exact (reads.pattern _).bind fun target inTarget =>
      (reads_initializer reads _ _).bind fun default inDefault => .pure fun _ =>
        .pure (isRead target inTarget _ _ default inDefault)

/-- Whatever is read as the properties of an object pattern is formed as it has to be. -/
theorem reads_patternProperties :
    Yields (grammar.patternProperties context) fun (properties, rest) =>
      (∀ property ∈ properties, property.IsRead) ∧ ∀ pattern ∈ rest, pattern.IsRead := by
  -- The loop keeps the properties that it has read, and ends with the rest if there is one.
  refine .loop (fun properties => ∀ property ∈ properties, property.IsRead)
    (List.forall_mem_nil _) fun properties known => .next fun _ => ?_
  refine .ite (fun _ => .pure ⟨known, by simp⟩) fun _ => .next fun _ => ?_
  refine .ite (fun _ => ?_) fun _ => ?_
  · exact (reads.pattern _).bind fun _ inRest => .pure ⟨known, by simpa using inRest⟩
  · refine (reads_patternProperty reads _).bind fun property own => .next fun _ => ?_
    have more := forall_mem_snoc known own
    exact .ite (fun _ => .pure more) fun _ => .pure ⟨more, by simp⟩

/-- Whatever is read as an object pattern is formed as it has to be. -/
theorem reads_objectPattern : Yields (grammar.objectPattern context) Pattern.IsRead :=
  .spanned (.next fun _ => (reads_patternProperties reads _).bind
    fun (_, _) ⟨inProperties, inRest⟩ => .next fun _ => .pure fun _ =>
      .pure (isRead_objectPattern inProperties inRest))

/-- Whatever is read as the elements of an array pattern is formed as it has to be. -/
theorem reads_patternSlots :
    Yields (grammar.patternSlots context) fun (slots, rest) =>
      (∀ slot ∈ slots, slot.IsRead) ∧ ∀ pattern ∈ rest, pattern.IsRead := by
  -- The loop keeps what is known of the slots so far, and leaves with the rest if there is one.
  refine .loop (fun slots => ∀ slot ∈ slots, slot.IsRead)
    (List.forall_mem_nil _) fun slots known => .next fun _ => ?_
  refine .ite (fun _ => .pure ⟨known, by simp⟩) fun _ => .next fun _ => ?_
  refine .ite (fun _ => ?_) fun _ => .next fun _ => .ite (fun _ => ?_) fun _ => ?_
  · exact (reads.pattern _).bind fun _ inRest => .pure ⟨known, by simpa using inRest⟩
  · exact .pure (forall_mem_snoc known ⟨areFormed_nil, rfl⟩)
  · refine (reads.pattern _).bind fun target inTarget =>
      (reads_initializer reads _ _).bind fun default inDefault => .next fun _ => ?_
    have own : (PatternSlot.slot target default).IsRead :=
      ⟨areFormed_append.mpr ⟨inTarget.formed, inDefault⟩, inTarget.binds⟩
    have more := forall_mem_snoc known own
    exact .ite (fun _ => .pure more) fun _ => .pure ⟨more, by simp⟩

/-- Whatever is read as an array pattern is formed as it has to be. -/
theorem reads_arrayPattern : Yields (grammar.arrayPattern context) Pattern.IsRead :=
  .spanned (.next fun _ => (reads_patternSlots reads _).bind
    fun (_, _) ⟨inSlots, inRest⟩ => .next fun _ => .pure fun _ =>
      .pure (isRead_arrayPattern inSlots inRest))

/-- Whatever is read as any binding pattern is formed as it has to be. -/
theorem reads_patternRule : Yields (grammar.patternRule context) Pattern.IsRead := by
  refine .next fun token => .ite (fun _ => reads_objectPattern reads _) fun _ => ?_
  refine .ite (fun _ => reads_arrayPattern reads _) fun _ => .ite (fun _ => ?_) fun _ => .fail
  exact yields_bindingId.bind fun (_, _) spelled => .pure (isRead_namePattern spelled)

end Patterns

section Functions

/-- Whatever is read as a parameter is formed as it has to be. -/
theorem reads_param : Yields (grammar.param context) fun param => AreFormed (paramNodes param) :=
  .spanned (.next fun _ => (reads.pattern _).bind fun _ inPattern =>
    (reads_initializer reads _ _).bind fun _ inDefault => .pure fun _ => .pure
      (areFormed_cons.mpr ⟨inPattern.binds, areFormed_append.mpr ⟨inPattern.formed, inDefault⟩⟩))

/-- Whatever is read as parameters is formed as it has to be. -/
theorem reads_params :
    Yields (grammar.params context) fun params => AreFormed (paramsNodes params) := by
  -- The loop keeps the parameters that it has read formed.
  refine .next fun _ => .bind (.loop (fun params => ∀ param ∈ params, AreFormed (paramNodes param))
    nofun fun params known => .next fun _ => ?_) fun params formed => .next fun _ =>
      .pure (formed_params.mpr formed)
  refine .ite (fun _ => .pure known) fun _ => (reads_param reads _).bind fun param own => ?_
  have more := forall_mem_snoc known own
  refine .ite (fun _ => .pure more) fun _ => .next fun _ => ?_
  exact .ite (fun _ => .pure more) fun _ => .pure more

/-- Whatever is read as the statements of a function body is formed as it has to be. -/
theorem reads_functionBody :
    Yields (grammar.functionBody context) fun body => AreFormed (stmtsNodes body) :=
  reads_braces reads _

/-- Whatever is read as the parameters and the body of a function that is no arrow is formed as it
has to be. -/
theorem reads_functionRest (isAsync isGenerator : Bool) :
    Yields (grammar.functionRest context isAsync isGenerator) Func.IsRead :=
  .spanned ((reads_params reads _).bind fun _ inParams =>
    (reads_functionBody reads _).bind fun _ inBody => .pure fun _ => .pure
      ⟨formed_func inParams inBody, rfl, rfl⟩)

/-- Whatever is read as a function as an expression is formed as it has to be. -/
theorem reads_functionExpr : Yields (grammar.functionExpr context) Expr.IsRead :=
  .spanned (yields_functionHead.bind fun _ spelled => (reads_functionRest reads _ _ _).bind
    fun _ isRead => .pure fun _ => .pure (isRead_of spelled isRead.formed))

/-- Whatever is read as the parameters of an arrow is formed as it has to be. -/
theorem reads_arrowParams :
    Yields (grammar.arrowParams context) fun params => AreFormed (paramsNodes params) := by
  refine .peeked fun token reader isLexed shows => .ite (fun bindable => ?_)
    fun _ => reads_params reads _ reader
  -- The name that is taken is the one that was seen.
  refine .take shows (.pure ?_)
  simpa [paramsNodes, Param.ofName, paramNodes, patternNodes, optionNodes, Node.Formed, hasTarget]
    using isLexed.isBound bindable

/-- Whatever is read as an arrow function from its parameters, or the word in front of them, on is
formed as it has to be. -/
theorem reads_arrowExpr : Yields (grammar.arrowExpr context stops) Expr.IsRead := by
  refine .spanned (.next fun (first, second) => ?_)
  dsimp -zeta only
  extract_lets isAsync afterWord
  refine .maybe ((reads_arrowParams reads _).bind fun params inParams => .next fun arrow => ?_)
  -- Whatever the body is, the arrow holds the parameters and the body, and both are formed.
  have formed (body : Body) (inBody : AreFormed (bodyNodes body)) (span : Span) :
      (Expr.of span (.arrow ⟨span, true, isAsync, false, params, body⟩)).IsRead :=
    isRead_of trivial (formed_func inParams inBody)
  extract_lets afterArrow goOn
  -- The body is either a block or a value.
  refine .check (.next fun _ => .ite (fun _ => ?_) fun _ => ?_)
  · exact .mapped (reads_functionBody reads _) fun body inBody => .pure fun _ =>
      .pure (formed (.block body) inBody _)
  · exact .mapped (reads_element reads _ _) fun result isRead => .pure fun _ =>
      .pure (formed (.value result) isRead _)

/-- Whatever is read as an arrow function, if there is one, is formed as it has to be. -/
theorem reads_arrowExpr? :
    Yields (grammar.arrowExpr? context stops) fun e => ∀ arrow ∈ e, arrow.IsRead := by
  refine .next fun saved => (Yields.attempt (reads_arrowExpr reads _ _)).bind fun tried shown => ?_
  -- What was no arrow is given back, and nothing of it is left in the tree.
  cases tried with
  | ok arrow => exact .pure (by simpa using shown)
  | error failure =>
    cases failure with
    | exhausted => exact .fault
    | malformed error =>
      exact .ite (fun _ => .next fun _ => .next fun _ => .pure nofun)
        fun _ => .next fun _ => .pure nofun

end Functions

section Members

/-- Whatever is read as a method or an accessor, from its parameters on is formed as it has to
be. -/
theorem reads_methodValue (modifiers : Modifiers) :
    Yields (grammar.methodValue context modifiers) fun value =>
      AreFormed (memberValueNodes value) ∧ value.isOfObject = true
        ∧ ∀ func ∈ value.func?, func.isArrow = false ∧ func.body.isBlock = true := by
  refine (reads_functionRest reads _ _ _).bind fun func isRead => .pure ?_
  split <;> exact ⟨isRead.formed, rfl, by rintro _ ⟨⟩; exact isRead.isMethod⟩

/-- Whatever is read as a member of an object literal is formed as it has to be. -/
theorem reads_objectMemberContent :
    Yields (grammar.objectMemberContent context) fun member =>
      ∀ span, AreFormed (objectMemberNodes (member span)) := by
  refine .next fun _ => .ite (fun _ => ?_) fun _ => ?_
  · exact (reads_element reads _ _).bind fun _ isRead => .pure fun _ =>
      areFormed_cons.mpr ⟨trivial, isRead⟩
  refine .next fun modifiers => Yields.peek.bind fun keyToken isLexed =>
    (reads_key reads _).bind fun key ⟨inKey, _⟩ => ?_
  refine .next fun _ => .ite (fun _ => ?_) fun _ => .next fun _ => .next fun _ => ?_
  · exact (reads_methodValue reads _ _).bind fun _ ⟨inValue, isOfObject, _⟩ => .pure fun _ =>
      formed_valued inKey inValue isOfObject
  refine .ite (fun _ => ?_) fun _ => ?_
  · exact (reads_element reads _ _).bind fun _ isRead => .pure fun _ =>
      formed_valued inKey isRead rfl
  refine .checked fun bindable => ?_
  have spelled := isLexed.isBound (by simpa using bindable)
  refine .next fun _ => .ite (fun _ => ?_) fun _ => .pure fun _ => ?_
  · refine (reads_element reads _ _).bind fun default isRead => .pure fun _ =>
      formed_valued inKey ?_ rfl
    -- A name can be assigned to.
    refine formed_expr.mpr ⟨rfl, fun _ => .inl rfl, areFormed_append.mpr ⟨?_, isRead⟩⟩
    exact formed_expr.mpr ⟨rfl, spelled, areFormed_nil⟩
  · exact areFormed_cons.mpr ⟨spelled, areFormed_nil⟩

/-- Whatever is read as a member of an object literal is formed as it has to be. -/
theorem reads_objectMember :
    Yields (grammar.objectMember context) fun member => AreFormed (objectMemberNodes member) :=
  .spanned ((reads_objectMemberContent reads _).weaken fun _ formed span => .pure (formed span))

/-- Whatever is read as an object literal is formed as it has to be. -/
theorem reads_objectExpr : Yields (grammar.objectExpr context) Expr.IsRead := by
  refine .spanned (.next fun _ => (Yields.commaList (reads_objectMember reads _)).bind
    fun _ formed => .next fun _ => .pure fun _ => .pure ?_)
  exact isRead_of trivial (formed_objectMembers.mpr formed)

/-- Whatever is read as a static initialization block is formed as it has to be. -/
theorem reads_staticBlock (isStatic : Bool) :
    Yields (grammar.staticBlock context) fun (key, value) =>
      ∀ span, (⟨span, key, isStatic, value⟩ : ClassMember).IsRead :=
  .spanned ((reads_functionBody reads _).weaken fun _ formed _ => .pure fun _ =>
    ⟨formed_classMember areFormed_nil formed, nofun, nofun⟩)

/-- Whatever is read as the key and the value of a class member is formed as it has to be. -/
theorem reads_classMemberContent (isStatic : Bool) :
    Yields (grammar.classMemberContent context) fun (key, value) =>
      ∀ span, (⟨span, key, isStatic, value⟩ : ClassMember).IsRead := by
  refine .next fun isAccessor => ?_
  extract_lets afterModifiers afterWord
  -- Whatever words stand in front, the rest is the same.
  have inRest (modifiers : Modifiers) : Yields (afterModifiers modifiers) fun (key, value) =>
      ∀ span, (⟨span, key, isStatic, value⟩ : ClassMember).IsRead := by
    refine (reads_key reads _).bind fun key inKey => .next fun _ => .ite (fun _ => ?_) fun _ => ?_
    · exact (reads_methodValue reads _ _).bind fun value ⟨inValue, _, isMethod⟩ => .pure fun _ =>
        isRead_classMember inKey inValue isMethod _ _
    · refine .next fun _ => (reads_initializer reads _ _).bind fun init inInit => .next fun _ => ?_
      refine .pure fun _ => isRead_classMember inKey ?_ ?_ _ _
      · split <;> exact inInit
      · split <;> exact nofun
  exact .maybe (.ite (fun _ => .next inRest) fun _ => .next inRest)

/-- Whatever is read as a member of a class is formed as it has to be. -/
theorem reads_classMember : Yields (grammar.classMember context) ClassMember.IsRead := by
  refine .spanned (.next fun isStatic => ?_)
  refine .ite (fun _ => .next fun _ => .next fun _ => .ite (fun _ => ?_) fun _ => ?_) fun _ => ?_
  · exact (reads_staticBlock reads _ _).bind fun (_, _) isRead => .pure fun _ => .pure (isRead _)
  · exact (reads_classMemberContent reads _ _).bind fun (_, _) isRead => .pure fun _ =>
      .pure (isRead _)
  · exact (reads_classMemberContent reads _ _).bind fun (_, _) isRead => .pure fun _ =>
      .pure (isRead _)

/-- Whatever is read as the members of a class is formed as it has to be. -/
theorem reads_classMembers :
    Yields (grammar.classMembers context) fun members => ∀ member ∈ members, member.IsRead := by
  refine .loop (fun members => ∀ member ∈ members, ClassMember.IsRead member)
    (List.forall_mem_nil _) fun members known => .next fun _ => ?_
  refine .ite (fun _ => .pure known) fun _ => .next fun _ => .ite (fun _ => .pure known) fun _ => ?_
  exact (reads_classMember reads _).bind fun _ own => .pure (forall_mem_snoc known own)

/-- Whatever is read as the name, heritage and members of a class, from its keyword on is formed as
it has to be. -/
theorem reads_classParts :
    Yields (grammar.classParts context) fun (name, heritage, members) =>
      ClassFormed name members
        ∧ AreFormed (optionNodes heritage ++ classMembersNodes members) := by
  refine .next fun _ => yields_bindingName?.bind fun name spelled => .next fun _ => ?_
  -- With or without a base class, the members follow in the same way.
  have inRest (heritage : Option Expr) (inHeritage : AreFormed (optionNodes heritage)) : Yields (do
      symbol .braceOpen
      let members ← grammar.classMembers context
      symbol .braceClose
      return (name, heritage, members)) fun (name, heritage, members) =>
        ClassFormed name members
          ∧ AreFormed (optionNodes heritage ++ classMembersNodes members) := by
    refine .next fun _ => (reads_classMembers reads _).bind fun _ inMembers => .next fun _ =>
      .pure ⟨⟨spelled, fun member mem => (inMembers member mem).fits⟩, areFormed_append.mpr
        ⟨inHeritage, formed_classMembers.mpr fun member mem => (inMembers member mem).formed⟩⟩
  -- The base class is an expression on its own.
  refine .ite (fun _ => ?_) fun _ => inRest none areFormed_nil
  exact .mapped (reads.expr _ _ _) fun heritage isRead => inRest (some heritage) isRead

/-- Whatever is read as a class as an expression is formed as it has to be. -/
theorem reads_classExpr : Yields (grammar.classExpr context) Expr.IsRead :=
  .spanned ((reads_classParts reads _).weaken fun (_, _, _) ⟨own, inside⟩ _ =>
    .pure (isRead_of own inside))

end Members

section Operands

/-- Whatever is read as the access of a computed member is formed as it has to be. -/
theorem reads_computedAccess {object : Expr} (inObject : object.IsRead) {link : ChainLink}
    (follows : link.Follows object) :
    Yields (grammar.computedAccess context object link) fun e => e.IsRead ∧ e.link = link :=
  (reads_whole reads _ _).bind fun _ inKey => .next fun _ =>
    .pure ⟨isRead_of follows (areFormed_append.mpr ⟨inObject, inKey⟩), rfl⟩

/-- Whatever is read as a yield behind its keyword is formed as it has to be. -/
theorem reads_yieldExpr (word : Token) :
    Yields (grammar.yieldExpr context stops word) Expr.IsRead := by
  refine .next fun isDelegated => .next fun next => .ite (fun _ => ?_) fun _ => ?_
  · exact (reads_element reads _ _).bind fun _ isRead => .pure (isRead_of trivial isRead)
  · exact .pure (isRead_of trivial areFormed_nil)

/-- Whatever is read as the accesses and tags that belong to the callee of a constructor call is
formed as it has to be. -/
theorem reads_calleeAccesses {callee : Expr} (inCallee : callee.IsRead) :
    Yields (grammar.calleeAccesses context callee) Expr.IsRead := by
  -- Each access takes the callee along, so it is known of the longer one what was known of it.
  refine .loop Expr.IsRead inCallee fun callee inCallee => .next fun token => ?_
  split
  · exact .next fun _ => (yields_memberAccess inCallee (follows_plain _)).bind fun _ isRead => .pure isRead.1
  · exact .next fun _ => (reads_computedAccess reads _ inCallee (follows_plain _)).bind fun _ isRead =>
      .pure isRead.1
  · exact .next fun _ => (reads_taggedTemplate reads _ inCallee _).bind fun _ isRead =>
      .pure isRead.1
  · exact .next fun _ => (reads_taggedTemplate reads _ inCallee _).bind fun _ isRead =>
      .pure isRead.1
  · exact .pure inCallee

/-- Whatever is read as a constructor call, or the target of one is formed as it has to be. -/
theorem reads_newExpr : Yields (grammar.newExpr context) Expr.IsRead := by
  refine .next fun word => .next fun _ => .ite (fun _ => .next fun _ => ?_) fun _ => ?_
  · exact .pure (isRead_of trivial areFormed_nil)
  refine (reads.operand _ _).bind fun operand inOperand =>
    (reads_calleeAccesses reads _ inOperand).bind fun callee inCallee => .next fun _ => ?_
  refine .ite (fun _ => (reads_arguments reads _).bind fun args inArgs => .next fun _ => ?_)
    fun _ => ?_
  · exact .pure (isRead_of trivial (areFormed_append.mpr ⟨inCallee, inArgs⟩))
  · exact .pure (isRead_of trivial (areFormed_append.mpr ⟨inCallee, areFormed_nil⟩))

/-- Whatever is read as a dynamic import or the metadata of the module, behind the keyword is formed
as it has to be. -/
theorem reads_importExpr (word : Token) :
    Yields (grammar.importExpr context word) Expr.IsRead := by
  refine .next fun _ => .ite (fun _ => .next fun _ => ?_) fun _ => .next fun _ => ?_
  · exact .pure (isRead_of trivial areFormed_nil)
  · exact (reads_element reads _ _).bind fun _ isRead => .next fun _ =>
      .pure (isRead_of trivial isRead)

/-- Whatever is read as an operand that starts with the word for asynchronous functions is formed as
it has to be. -/
theorem reads_asyncExpr (start : Checkpoint) {word : Token} (spelled : IsSpelled word.text) :
    Yields (grammar.asyncExpr context stops start word) Expr.IsRead := by
  refine .next fun next => .ite (fun _ => .pure (isRead_id spelled)) fun _ => ?_
  refine .ite (fun _ => .next fun _ => reads_functionExpr reads _) fun _ => ?_
  refine .ite (fun _ => .next fun _ => reads_arrowExpr reads _ _) fun _ => ?_
  refine .ite (fun _ => .next fun _ => ?_) fun _ => .pure (isRead_id spelled)
  refine (reads_arrowExpr? reads _ _).bind fun found shown => ?_
  -- Without an arrow behind it the word is a name.
  cases found with
  | some arrow => exact .pure (shown arrow rfl)
  | none => exact .next fun _ => .pure (isRead_id spelled)

/-- Whatever is read as an operand that starts with a parenthesis is formed as it has to be. -/
theorem reads_parenthesized : Yields (grammar.parenthesized context stops) Expr.IsRead := by
  refine (reads_arrowExpr? reads _ _).bind fun found shown => ?_
  cases found with
  | some arrow => exact .pure (shown arrow rfl)
  | none => exact reads_grouping reads _

/-- Whatever is read as an operand that starts with a name is formed as it has to be. -/
theorem reads_nameExpr (start : Checkpoint) {name : Token} (spelled : IsSpelled name.text) :
    Yields (grammar.nameExpr context stops start name) Expr.IsRead :=
  .next fun _ => .ite (fun _ => .next fun _ => reads_arrowExpr reads _ _)
    fun _ => .pure (isRead_id spelled)

/-- Whatever is read as an operand that no operator stands in front of is formed as it has to be. -/
theorem reads_primary (start : Checkpoint) {token : Token} (isLexed : token.IsLexed) :
    Yields (grammar.primary context stops start token) Expr.IsRead := by
  -- What is a single token is formed.
  have single {shape : Shape} (own : (Node.shape shape).Formed) (inside : shapeNodes shape = []) :
      (Expr.of token.span shape).IsRead :=
    isRead_of own (inside ▸ areFormed_nil)
  unfold Grammar.primary
  split
  · exact .next fun _ => reads_newExpr reads _
  · rename_i isWord
    exact reads_asyncExpr reads _ _ _ (isLexed.isSpelled (by rw [isWord]; rfl))
  · exact .next fun _ => reads_parenthesized reads _ _
  · exact .next fun _ => reads_arrayExpr reads _
  · exact .next fun _ => reads_objectExpr reads _
  · exact .next fun _ => reads_functionExpr reads _
  · exact .next fun _ => reads_classExpr reads _
  · exact .pure (single trivial rfl)
  · exact .pure (single trivial rfl)
  · exact reads_importExpr reads _ _
  · exact .pure (single trivial rfl)
  · exact .pure (single trivial rfl)
  · exact .pure (single trivial rfl)
  · exact .pure (single trivial rfl)
  · exact .next fun _ => .pure (single trivial rfl)
  · exact .next fun _ => .pure (single trivial rfl)
  · exact .pure (single trivial rfl)
  · exact reads_templateExpr reads _ _
  · exact reads_templateExpr reads _ _
  · rename_i isName
    exact .pure (isRead_id (isLexed.isSpelled (by rw [isName]; rfl)))
  · exact .fail
  · exact .ite (fun bindable => reads_nameExpr reads _ _ _ (isLexed.isBound bindable))
      fun _ => .fail

/-- Whatever is read as an operand with the operators in front of it is formed as it has to be. -/
theorem reads_operandRule : Yields (grammar.operandRule context stops) Expr.IsRead := by
  refine .next fun start => Yields.takeIn.bind fun token isLexed => ?_
  split
  · rename_i op isLeading
    refine (reads.expr _ _ _).bind fun operand isRead => .pure ?_
    refine isRead_of ?_ isRead
    trivial
  · exact .ite (fun _ => reads_yieldExpr reads _ _ _) fun _ => reads_primary reads _ _ _ isLexed

end Operands

section Suffixes

/-- Whatever is read as a call behind its opening parenthesis is formed as it has to be. -/
theorem reads_callSuffix {callee : Expr} (inCallee : callee.IsRead) {link : ChainLink}
    (follows : link.Follows callee) :
    Yields (grammar.callSuffix context callee link) fun e => e.IsRead ∧ e.link = link :=
  .next fun _ => (reads_arguments reads _).bind fun _ inArgs => .next fun _ =>
    .pure ⟨isRead_of follows (areFormed_append.mpr ⟨inCallee, inArgs⟩), rfl⟩

/-- Whatever is read as a conditional behind its question mark is formed as it has to be. -/
theorem reads_condSuffix {test : Expr} (inTest : test.IsRead) :
    Yields (grammar.condSuffix context test stops) Expr.IsRead :=
  (reads_element reads _ _).bind fun _ inConsequent => .next fun _ =>
    (reads_element reads _ _).bind fun _ inAlternate => .pure (isRead_of trivial
      (areFormed_append.mpr ⟨areFormed_append.mpr ⟨inTest, inConsequent⟩,
        inAlternate⟩))

/-- Whatever is read as an assignment behind its operator is formed as it has to be. -/
theorem reads_assignSuffix {left : Expr} (inLeft : left.IsRead) (op : Operator) :
    Yields (grammar.assignSuffix context left op stops) Expr.IsRead := by
  unfold Grammar.assignSuffix
  -- What cannot be assigned to is a syntax error, so the left side that is kept is a place or a
  -- pattern.
  split
  · exact .fault
  · rename_i target read
    obtain ⟨inTarget, isTarget⟩ := isRead_toTarget inLeft read
    exact (reads_element reads _ _).bind fun _ inRight => .pure
      (isRead_of (fun _ => isTarget) (areFormed_append.mpr ⟨inTarget, inRight⟩))

/-- Whatever is read as a binary operation behind its operator is formed as it has to be. -/
theorem reads_binarySuffix {left : Expr} (inLeft : left.IsRead) {op : Operator}
    (noAssign : op.isAssignment = false) (token : Token) (level : Nat) :
    Yields (grammar.binarySuffix context left op token level stops) Expr.IsRead := by
  refine .maybe ((reads.expr _ _ _).bind fun right inRight => ?_)
  -- The operator assigns nothing, so any expression may be its left side.
  have joined (span : Span) : (Expr.binary span op left right).IsRead :=
    isRead_of (fun assigns => by simp [noAssign] at assigns)
      (areFormed_append.mpr ⟨inLeft, inRight⟩)
  refine .ite (fun _ => ?_) fun _ => .pure (joined _)
  exact (reads.suffix _ _ _ _ (joined _)).bind fun _ isRead => .next fun _ => .maybe (.pure isRead)

/-- Whatever is read as an operator between operands is formed as it has to be. -/
theorem reads_infixRound {soFar : Grammar.Partial} (inLeft : soFar.left.IsRead) (level : Nat)
    (token : Token) :
    Yields (grammar.infixRound context soFar level stops token)
      (Round.Holds Grammar.Partial.IsRead Expr.IsRead) := by
  unfold Grammar.infixRound
  -- No operator, one of the wrong level, or an assignment or another operation on what there is so
  -- far.
  split
  · exact .pure inLeft
  · rename_i op isInfix
    refine .ite (fun _ => .pure inLeft) fun _ => .next fun _ => .ite (fun _ => ?_) fun noAssign => ?_
    · exact (reads_assignSuffix reads _ _ inLeft _).bind fun _ isRead => .pure (isRead_partial isRead)
    · exact (reads_binarySuffix reads _ _ inLeft (Bool.eq_false_iff.mpr noAssign) _ _).bind
        fun _ isRead => .pure (isRead_partial isRead)

/-- Whatever is read as what may stand behind an operand is formed as it has to be. -/
theorem reads_suffixRound (level : Nat) {soFar : Grammar.Partial} (isRead : soFar.IsRead) :
    Yields (grammar.suffixRound context level stops soFar)
      (Round.Holds Grammar.Partial.IsRead Expr.IsRead) := by
  obtain ⟨inLeft, follows⟩ := isRead
  refine .next fun token => .ite (fun _ => .pure inLeft) fun _ => ?_
  -- What counts up or down is an expression outside of chains, and a tagged template may end one.
  have counts (op : Operator) (span : Span) :
      (⟨Expr.of span (.update op soFar.left), false⟩ : Grammar.Partial).IsRead :=
    isRead_partial (isRead_of trivial inLeft)
  have tagged {e : Expr} (isRead : e.IsRead ∧ e.isTagged = true) :
      (⟨e, soFar.inChain⟩ : Grammar.Partial).IsRead :=
    ⟨isRead.1, fun _ => .inr isRead.2⟩
  -- One case for each token that can go on with an expression, with and without a question mark.
  split
  · exact .next fun _ => (yields_memberAccess inLeft follows).bind fun _ isRead => .pure (.linked isRead)
  · exact .next fun _ => .next fun _ => .check
      ((yields_memberAccess inLeft (follows_opens _)).bind fun _ isRead => .pure (isRead_opened isRead))
  · exact .next fun _ => (reads_computedAccess reads _ inLeft follows).bind fun _ isRead =>
      .pure (.linked isRead)
  · exact .next fun _ => (reads_computedAccess reads _ inLeft (follows_opens _)).bind fun _ isRead =>
      .pure (isRead_opened isRead)
  · exact .next fun _ => (reads_callSuffix reads _ inLeft follows).bind fun _ isRead =>
      .pure (.linked isRead)
  · exact .next fun _ => (reads_callSuffix reads _ inLeft (follows_opens _)).bind fun _ isRead =>
      .pure (isRead_opened isRead)
  · exact .next fun _ => (reads_taggedTemplate reads _ inLeft _).bind fun _ isRead =>
      .pure (tagged isRead)
  · exact .next fun _ => (reads_taggedTemplate reads _ inLeft _).bind fun _ isRead =>
      .pure (tagged isRead)
  · exact .ite (fun _ => .pure inLeft) fun _ => .next fun _ =>
      (reads_condSuffix reads _ _ inLeft).bind fun _ isRead => .pure (isRead_partial isRead)
  · exact .ite (fun _ => .pure inLeft) fun _ => .next fun _ => .pure (counts _ _)
  · exact .ite (fun _ => .pure inLeft) fun _ => .next fun _ => .pure (counts _ _)
  · exact .ite (fun _ => .pure inLeft) fun _ => reads_infixRound reads _ _ inLeft _ _
  · exact reads_infixRound reads _ _ inLeft _ _

/-- Whatever is read as everything behind an operand is formed as it has to be. -/
theorem reads_suffixRule (level : Nat) {left : Expr} (inLeft : left.IsRead) :
    Yields (grammar.suffixRule context left level stops) Expr.IsRead :=
  .loop Grammar.Partial.IsRead (isRead_partial inLeft) fun _ isRead =>
    reads_suffixRound reads _ _ _ isRead

/-- Whatever is read as an operand and everything behind it is formed as it has to be. -/
theorem reads_exprRule (level : Nat) : Yields (grammar.exprRule context level stops) Expr.IsRead :=
  (reads_operandRule reads _ _).bind fun _ isRead => reads_suffixRule reads _ _ _ isRead

end Suffixes

end Rules

end Parser

end Downlevel
