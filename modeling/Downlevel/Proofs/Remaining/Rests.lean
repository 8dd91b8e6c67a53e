import Downlevel.Lowering.ObjectRest
import Downlevel.Proofs.Remaining.Frames

/-! The rest of an object pattern is split off, or reported. -/

namespace Downlevel

open Lowering

namespace Ending

variable {ending : Ending} {site : Site}

/-- Of a pattern itself, only the place that it writes matters. -/
theorem accounts_pattern {pattern : Pattern} :
    ending.Accounts site (.pattern pattern)
      ↔ ∀ span place, pattern = .target span place → place.isObjectPattern = false := by
  constructor
  · rintro accounts span place rfl
    exact accounts.placed span place rfl
  · intro placed
    refine ⟨by simp [Node.rewritable?], by simp [Node.asynchronous?], nofun, trivial, ?_,
      allowed_plain nofun nofun, nofun⟩
    rintro span place ⟨⟩
    exact placed span place rfl

/-- A pattern that is just a name may remain. -/
@[simp] theorem keeps_idPattern {span : Span} {name : String} :
    ending.Keeps site (patternNodes (.id span name)) := by
  simp [patternNodes, accounts_pattern]

/-- An object pattern may remain if its parts may. -/
@[simp] theorem keeps_objectPattern {span : Span} {properties : List PatternProperty}
    {rest : Option Pattern} :
    ending.Keeps site (patternNodes (.object span properties rest))
      ↔ ending.Keeps site (propertiesNodes properties)
        ∧ ending.Keeps site (patternOptionNodes rest) := by
  simp [patternNodes, accounts_pattern]

/-- An array pattern may remain if its parts may. -/
@[simp] theorem keeps_arrayPattern {span : Span} {slots : List PatternSlot}
    {rest : Option Pattern} :
    ending.Keeps site (patternNodes (.array span slots rest))
      ↔ ending.Keeps site (slotsNodes slots) ∧ ending.Keeps site (patternOptionNodes rest) := by
  simp [patternNodes, accounts_pattern]

/-- A place as a pattern may remain if the place may and is no object pattern. -/
@[simp] theorem keeps_targetPattern {span : Span} {place : Expr} :
    ending.Keeps site (patternNodes (.target span place))
      ↔ place.isObjectPattern = false ∧ ending.Keeps site (exprNodes place) := by
  simp [patternNodes, accounts_pattern]

/-- Where the target has rests of objects, all of them may remain. -/
theorem admitsRests_of_supports {pattern : Pattern}
    (supported : ending.target.supports .objectRestSpread = true) : ending.AdmitsRests pattern :=
  fun _ => .inl supported

/-- A declarator of which only the rests of its pattern are left to deal with. -/
structure Declares (ending : Ending) (site : Site) (declarator : Declarator) : Prop where
  declared : ending.AdmitsDeclared declarator.pattern
  pattern : ending.Keeps site (patternNodes declarator.pattern)
  init : ending.Keeps site (optionNodes declarator.init)

/-- A declarator may remain if its parts may, where its pattern takes only rests that may remain. -/
theorem keeps_declarator {declarator : Declarator} :
    ending.Keeps site (declaratorNodes declarator)
      ↔ ending.Declares site declarator ∧ ending.AdmitsRests declarator.pattern := by
  -- A declarator is never rewritten, asynchronous or chained, so all it accounts for is how its
  -- pattern is announced.
  obtain ⟨pattern, init⟩ := declarator
  constructor
  · simp only [declaratorNodes, throughout_cons, throughout_append, Site.into_own_false]
    rintro ⟨accounts, inPattern, inInit⟩
    exact ⟨⟨accounts.announced.1, inPattern, inInit⟩, accounts.announced.2⟩
  · rintro ⟨⟨declared, inPattern, inInit⟩, rests⟩
    simp only [declaratorNodes, throughout_cons, throughout_append, Site.into_own_false]
    refine ⟨⟨?_, ?_, ?_, ⟨declared, rests⟩, ?_, allowed_plain ?_ ?_, List.forall_mem_nil _⟩,
      inPattern, inInit⟩
    · simp [Node.rewritable?]
    · simp [Node.asynchronous?]
    · rintro ⟨⟩
    · rintro _ _ ⟨⟩
    all_goals rintro ⟨⟩

/-- Whatever becomes of the first property, the others follow in the same way. -/
theorem leaves_restKeys_cons {more : List PatternProperty} (property first : PatternProperty)
    (key : Expr) (rests : propertyHasRest first = propertyHasRest property)
    (others : ending.Leaves site (restKeys more) fun (picked, keys) =>
      propertiesHaveRest picked = propertiesHaveRest more
        ∧ (ending.Keeps site (propertiesNodes more) →
          ending.Keeps site (propertiesNodes picked)
            ∧ ∀ key ∈ keys, ending.Keeps site (exprNodes key))) :
    ending.Leaves site
      (do
        let (properties, keys) ← restKeys more
        return (first :: properties, key :: keys)) fun (picked, keys) =>
      (ending.Keeps site (propertyNodes property) →
        ending.Keeps site (propertyNodes first) ∧ ending.Keeps site (exprNodes key)) →
      propertiesHaveRest picked = propertiesHaveRest (property :: more)
        ∧ (ending.Keeps site (propertiesNodes (property :: more)) →
          ending.Keeps site (propertiesNodes picked)
            ∧ ∀ key ∈ keys, ending.Keeps site (exprNodes key)) := by
  -- The property that is picked is rewritten in its key alone, so whether it has a rest is
  -- unchanged.
  refine others.bind ?_
  rintro ⟨picked, keys⟩
  refine .pure ?_
  rintro ⟨same, others⟩ keeps
  constructor
  · simp [propertiesHaveRest, rests, same]
  · simp only [propertiesNodes, throughout_append, List.mem_cons, forall_eq_or_imp]
    rintro ⟨own, outside⟩
    exact ⟨⟨(keeps own).1, (others outside).1⟩, (keeps own).2, (others outside).2⟩

/-- The keys that are left out may remain, and so may the properties, which have the same rests. -/
theorem leaves_restKeys (properties : List PatternProperty) :
    ending.Leaves site (restKeys properties) fun (picked, keys) =>
      propertiesHaveRest picked = propertiesHaveRest properties
        ∧ (ending.Keeps site (propertiesNodes properties) →
          ending.Keeps site (propertiesNodes picked)
            ∧ ∀ key ∈ keys, ending.Keeps site (exprNodes key)) := by
  -- Along the properties: a written key is its own name, a computed one is captured unless it may
  -- be evaluated twice.
  induction properties with
  | nil => exact .pure ⟨rfl, by simp [propertiesNodes]⟩
  | cons property more ih =>
    obtain ⟨span, key, target, isShorthand, default⟩ := property
    rw [restKeys]
    cases key with
    | direct name =>
      refine (leaves_restKeys_cons _ _ _ rfl ih).weaken fun _ shown => ?_
      exact shown fun keeps => ⟨keeps, keeps_str⟩
    | computed value =>
      have written (keeps : ending.Keeps site
          (propertyNodes ⟨span, .computed value, target, isShorthand, default⟩)) :
          ending.Keeps site (exprNodes value) := by
        simp only [propertyNodes, keyNodes, throughout_append] at keeps
        exact keeps.1.1
      dsimp only
      split
      · refine (leaves_restKeys_cons _ _ _ rfl ih).weaken fun _ shown => ?_
        exact shown fun keeps => ⟨keeps, written keeps⟩
      · refine (leaves_restKeys_cons _ _ _ rfl ih).weaken fun _ shown => ?_
        exact shown fun keeps => ⟨keeps, written keeps⟩
      · refine (leaves_capture value).bind ?_
        rintro ⟨first, again⟩
        refine (leaves_restKeys_cons ⟨span, .computed value, target, isShorthand, default⟩
          ⟨span, .computed first, target, isShorthand, default⟩ (.helper span "__restKey" [again])
          rfl ih).weaken fun _ shown captured => ?_
        refine shown fun keeps => ?_
        obtain ⟨once, later⟩ := captured (written keeps)
        refine ⟨?_, by simpa using later⟩
        simp only [propertyNodes, keyNodes, throughout_append] at keeps ⊢
        exact ⟨⟨once, keeps.1.2⟩, keeps.2⟩

/-- The parts that a pattern with a rest is split into may remain, each with its value. Rests that
are not at the root stay where they are. -/
theorem leaves_splitRest (span : Span) (properties : List PatternProperty) (rest : Pattern)
    (source : Expr) :
    ending.Leaves site (splitRest span properties rest source) fun parts =>
      ending.Keeps site (propertiesNodes properties) → ending.Keeps site (patternNodes rest) →
      ending.Keeps site (exprNodes source) → hasNestedRest properties rest = false →
      ∀ part ∈ parts, ending.Keeps site (patternNodes part.1)
        ∧ ending.Keeps site (exprNodes part.2) ∧ hasObjectRest part.1 = false := by
  refine (leaves_restKeys properties).bind fun (picked, keys) => ?_
  have taken (inKeys : ∀ key ∈ keys, ending.Keeps site (exprNodes key))
      (inSource : ending.Keeps site (exprNodes source)) :
      ending.Keeps site (exprNodes (.helper span "__objRest" [source, .array span keys])) := by
    simpa using ⟨inSource, inKeys⟩
  -- Without properties before it, the rest takes the whole source; otherwise the properties are
  -- taken from the source and the rest from what they leave.
  refine .ite (fun _ => .pure ?_) fun _ => .pure ?_
  · intro ⟨same, keeps⟩ inProperties inRest inSource noRest part mem
    obtain rfl := List.mem_singleton.mp mem
    obtain ⟨-, inKeys⟩ := keeps inProperties
    simp only [hasNestedRest, Bool.or_eq_false_iff] at noRest
    exact ⟨inRest, taken inKeys inSource, noRest.2⟩
  · intro ⟨same, keeps⟩ inProperties inRest inSource noRest part mem
    obtain ⟨inPicked, inKeys⟩ := keeps inProperties
    simp only [hasNestedRest, Bool.or_eq_false_iff] at noRest
    simp only [List.mem_cons, List.not_mem_nil, or_false] at mem
    rcases mem with rfl | rfl
    · refine ⟨?_, inSource, ?_⟩
      · simp [inPicked, patternOptionNodes]
      · simp [hasObjectRest, optionHasRest, same, noRest.1]
    · exact ⟨inRest, taken inKeys inSource, noRest.2⟩

/-- An assignment may remain if the rests of its pattern may. -/
theorem keeps_assignment {origin : Origin} {left right : Expr}
    (inLeft : ending.Keeps site (exprNodes left)) (inRight : ending.Keeps site (exprNodes right))
    (rests : ∀ span properties rest, left.shape = .objectPattern properties rest →
      ending.AdmitsRests (.object span properties rest)) :
    ending.Keeps site (exprNodes ⟨origin, .binary .assignment left right⟩) := by
  have parts : ending.Keeps site (shapeNodes (.binary .assignment left right)) := by
    simpa [shapeNodes] using ⟨inLeft, inRight⟩
  -- Only an object pattern on the left is announced, and then by its rests.
  by_cases isPattern : left.isObjectPattern = true
  · obtain ⟨leftOrigin, shape⟩ := left
    cases shape <;> simp only [Expr.isObjectPattern, Bool.false_eq_true] at isPattern
    refine keeps_expr.mpr
      ⟨⟨?_, ?_, ?_, fun span => rests span _ _ rfl, ?_, allowed_plain ?_ ?_,
        List.forall_mem_nil _⟩, parts⟩
    · simp [Node.rewritable?, Operator.rewritable?]
    · simp [Node.asynchronous?]
    · rintro ⟨⟩
    · rintro _ _ ⟨⟩
    all_goals rintro ⟨⟩
  · exact (keeps_plain (by simp [Shape.isPlain, Operator.rewritable?, isPattern])).mpr parts

/-- A pattern may remain as the left side of an assignment. -/
theorem keeps_toExpr {pattern : Pattern} (keeps : ending.Keeps site (patternNodes pattern)) :
    ending.Keeps site (exprNodes pattern.toExpr) := by
  cases pattern with
  | id span name => exact keeps_id
  | array span slots rest =>
    refine (keeps_plain rfl).mpr ?_
    simpa [Pattern.toExpr, Expr.of, shapeNodes] using keeps
  | object span properties rest =>
    refine (keeps_plain rfl).mpr ?_
    simpa [Pattern.toExpr, Expr.of, shapeNodes] using keeps
  | target span place => exact (keeps_targetPattern.mp keeps).2

/-- An assignment to a pattern without rests may remain. -/
theorem keeps_assignPattern {span : Span} {pattern : Pattern} {value : Expr}
    (inPattern : ending.Keeps site (patternNodes pattern))
    (inValue : ending.Keeps site (exprNodes value)) (noRest : hasObjectRest pattern = false) :
    ending.Keeps site (exprNodes (.assign span pattern.toExpr value)) := by
  refine keeps_assignment (keeps_toExpr inPattern) inValue fun other properties rest isPattern => ?_
  -- Of the patterns only an object one becomes an object pattern on the left; a target was checked
  -- to be none.
  cases pattern with
  | id span name => cases isPattern
  | array span slots rest => cases isPattern
  | object span properties rest =>
    cases isPattern
    intro hasRest
    simp only [hasObjectRest] at noRest hasRest
    rw [noRest] at hasRest
    cases hasRest
  | target span place =>
    have noPattern := (keeps_targetPattern.mp inPattern).1
    simp only [Pattern.toExpr] at isPattern
    simp [Expr.isObjectPattern, isPattern] at noPattern

/-- The rest is split off an assigned pattern, or else all its rests may remain. -/
theorem leaves_splitAssignedRest? (span : Span) (properties : List PatternProperty)
    (rest : Option Pattern) (value : Expr) :
    ending.Leaves site (splitAssignedRest? span properties rest value) fun split =>
      ending.Keeps site (propertiesNodes properties) →
      ending.Keeps site (patternOptionNodes rest) → ending.Keeps site (exprNodes value) →
      match split with
      | some e => ending.Keeps site (exprNodes e)
      | none => ∀ span, ending.AdmitsRests (.object span properties rest) := by
  -- The rest that cannot be split is reported; the one that can is split on a name that holds the
  -- source.
  cases rest with
  | none =>
    refine .ite (fun _ => ?_) fun noRest => .pure ?_
    · refine (leaves_unsupported span _).bind fun _ => .pure fun reported _ _ _ _ _ => ?_
      exact .inr reported
    · intro _ _ _ _ hasRest
      simp only [hasObjectRest, optionHasRest, Option.isSome_none, Bool.false_or, Bool.or_false]
        at hasRest
      exact absurd hasRest noRest
  | some rest =>
    refine .ite (fun _ => ?_) fun noRest => ?_
    · refine (leaves_unsupported span _).bind fun _ => .pure fun reported _ _ _ _ _ => ?_
      exact .inr reported
    · refine leaves_alloc.bind fun name => ?_
      refine (leaves_splitRest span properties rest _).bind fun parts => .pure ?_
      intro inParts _ inProperties inRest inValue
      have split := inParts inProperties (by simpa [patternOptionNodes] using inRest) keeps_id
        (by simpa using noRest)
      simp only [keeps_sequence, keeps_assign_id, List.mem_append, List.mem_map,
        List.mem_singleton]
      refine ⟨inValue, ?_⟩
      rintro item (⟨⟨target, part⟩, mem, rfl⟩ | rfl)
      · obtain ⟨inTarget, inPart, noRest⟩ := split _ mem
        exact keeps_assignPattern inTarget inPart noRest
      · exact keeps_id

/-- The declarators that a rest splits into may remain if there are no rests below. -/
theorem leaves_splitParts {span : Span} {properties : List PatternProperty} {rest : Pattern}
    (init : Option Expr) (source : Expr) (noRest : hasNestedRest properties rest = false) :
    ending.Leaves site (splitRest span properties rest source) fun split =>
      ending.Declares site ⟨.object span properties (some rest), init⟩ →
      ending.Keeps site (exprNodes source) →
      ∀ part ∈ split.map fun (target, value) => (⟨target, some value⟩ : Declarator),
        ending.Keeps site (declaratorNodes part) := by
  refine (leaves_splitRest span properties rest source).weaken fun split shown => ?_
  rintro ⟨declared, inPattern, -⟩ inSource part mem
  obtain ⟨⟨target, value⟩, inSplit, rfl⟩ := List.mem_map.mp mem
  obtain ⟨inProperties, inRest⟩ := keeps_objectPattern.mp inPattern
  obtain ⟨inTarget, inValue, without⟩ :=
    shown inProperties (by simpa [patternOptionNodes] using inRest) inSource noRest _ inSplit
  -- Each part is declared as the whole was, and none of them has a rest left.
  refine keeps_declarator.mpr ⟨⟨fun _ => declared rfl, inTarget, ?_⟩, fun hasRest => ?_⟩
  · simpa [optionNodes] using inValue
  · simp only [without, Bool.false_eq_true] at hasRest

/-- A declarator is split so that all it declares may remain. -/
theorem leaves_splitDeclarator (declarator : Declarator) :
    ending.Leaves site (splitDeclarator declarator) fun split =>
      ending.Declares site declarator →
        ∀ part ∈ split, ending.Keeps site (declaratorNodes part) := by
  -- A declarator that stays as it is may remain if its rests may.
  have stays (rests : ending.AdmitsRests declarator.pattern)
      (declares : ending.Declares site declarator) :
      ∀ part ∈ [declarator], ending.Keeps site (declaratorNodes part) := by
    intro part mem
    obtain rfl := List.mem_singleton.mp mem
    exact keeps_declarator.mpr ⟨declares, rests⟩
  unfold splitDeclarator
  split
  · rename_i span properties rest init
    dsimp only
    refine .ite (fun _ => ?_) fun noRest => ?_
    · exact (leaves_unsupported _ _).bind fun _ => .pure fun reported =>
        stays fun _ => .inr reported
    · have noRest : hasNestedRest properties rest = false := by simpa using noRest
      refine .ite (fun _ => ?_) fun _ => ?_
      · refine (leaves_splitParts (some init) init noRest).bind fun split => .pure fun shown declares => ?_
        exact shown declares (by simpa [optionNodes] using declares.init)
      · refine leaves_allocBound.bind fun name => ?_
        refine (leaves_splitParts (some init) _ noRest).bind fun split => .pure fun shown _ declares => ?_
        simp only [List.mem_cons, forall_eq_or_imp]
        refine ⟨keeps_declarator.mpr ⟨⟨?_, ?_, declares.init⟩, ?_⟩, shown declares keeps_id⟩
        · rintro ⟨⟩
        · simp [Declarator.ofName]
        · rintro ⟨⟩
  · refine .ite (fun _ => ?_) fun noRest => .pure ?_
    · exact (leaves_unsupported _ _).bind fun _ => .pure fun reported =>
        stays fun _ => .inr reported
    · exact stays fun hasRest => absurd hasRest noRest

/-- All declarators are split so that what they declare may remain. -/
theorem leaves_splitDeclarators (declarators : List Declarator) :
    ending.Leaves site (splitDeclarators declarators) fun split =>
      (∀ declarator ∈ declarators, ending.Declares site declarator) →
        ∀ part ∈ split, ending.Keeps site (declaratorNodes part) := by
  refine (Leaves.mapM fun declarator _ => leaves_splitDeclarator declarator).bind fun parts =>
    .pure fun ⟨each, _⟩ declare part mem => ?_
  obtain ⟨own, inParts, inOwn⟩ := List.mem_flatten.mp mem
  obtain ⟨declarator, isDeclared, shown⟩ := each own inParts
  exact shown (declare declarator isDeclared) part inOwn

/-- A parameter of which only the rests of its pattern are left to deal with. -/
structure Receives (ending : Ending) (site : Site) (param : Param) : Prop where
  rest : param.isRest = true → ending.Admits .restArgument .restArguments ∨ param.IsPlaceholder
  default : param.default.isSome = true → ending.Admits .defaultArgument .defaultArguments
  declared : ending.AdmitsDeclared param.pattern
  pattern : ending.Keeps site (patternNodes param.pattern)
  init : ending.Keeps site (optionNodes param.default)

/-- A parameter may remain if its parts may, where its pattern takes only rests that may remain. -/
theorem keeps_param {param : Param} :
    ending.Keeps site (paramNodes param)
      ↔ ending.Receives site param ∧ ending.AdmitsRests param.pattern := by
  -- A parameter is never rewritten, asynchronous or chained, so all it accounts for is how it is
  -- announced.
  obtain ⟨span, isRest, pattern, default⟩ := param
  constructor
  · simp only [paramNodes, throughout_cons, throughout_append, Site.into_own_false]
    rintro ⟨accounts, inPattern, inDefault⟩
    obtain ⟨rest, hasDefault, declared, rests⟩ := accounts.announced
    exact ⟨⟨rest, hasDefault, declared, inPattern, inDefault⟩, rests⟩
  · rintro ⟨⟨rest, hasDefault, declared, inPattern, inDefault⟩, rests⟩
    simp only [paramNodes, throughout_cons, throughout_append, Site.into_own_false]
    refine ⟨⟨?_, ?_, ?_, ⟨rest, hasDefault, declared, rests⟩, ?_, allowed_plain ?_ ?_,
      List.forall_mem_nil _⟩, inPattern, inDefault⟩
    · simp [Node.rewritable?]
    · simp [Node.asynchronous?]
    · rintro ⟨⟩
    · rintro _ _ ⟨⟩
    all_goals rintro ⟨⟩

/-- A lone name can be a parameter for every target. -/
@[simp] theorem keeps_nameParam {span : Span} {name : String} :
    ending.Keeps site (paramNodes (.ofName span name)) := by
  refine keeps_param.mpr ⟨⟨nofun, nofun, nofun, ?_, ?_⟩, nofun⟩
  · simp [Param.ofName]
  · simp [Param.ofName, optionNodes]

/-- A parameter is split so that it may remain, and so may what is declared in its place. -/
theorem leaves_splitParam (param : Param) :
    ending.Leaves site (splitParam param) fun (kept, declarator) =>
      ending.Receives site param →
        ending.Keeps site (paramNodes kept) ∧ (∀ own ∈ declarator, ending.Declares site own)
          ∧ (declarator = none → kept = param) := by
  obtain ⟨span, isRest, pattern, default⟩ := param
  -- A parameter that stays as it is may remain if its rests may.
  have stays (rests : ending.AdmitsRests pattern)
      (receives : ending.Receives site ⟨span, isRest, pattern, default⟩) :
      ending.Keeps site (paramNodes ⟨span, isRest, pattern, default⟩)
        ∧ (∀ own ∈ (none : Option Declarator), ending.Declares site own)
        ∧ ((none : Option Declarator) = none →
          (⟨span, isRest, pattern, default⟩ : Param) = ⟨span, isRest, pattern, default⟩) :=
    ⟨keeps_param.mpr ⟨receives, rests⟩, nofun, fun _ => rfl⟩
  unfold splitParam
  dsimp only
  split
  · rename_i patternSpan properties rest
    refine .ite (fun _ => ?_) fun noRest => ?_
    · exact (leaves_unsupported _ _).bind fun _ => .pure fun reported =>
        stays fun _ => .inr reported
    · refine leaves_allocBound.bind fun name => .pure fun _ receives => ⟨?_, ?_, nofun⟩
      · refine keeps_param.mpr ⟨⟨?_, receives.default, nofun, keeps_idPattern, receives.init⟩, nofun⟩
        intro isRest
        rcases receives.rest isRest with admitted | ⟨index, named⟩
        · exact .inl admitted
        · cases named
      · simp only [Option.mem_def, Option.some.injEq, forall_eq']
        exact ⟨receives.declared, receives.pattern, @keeps_id ending site span name⟩
  · refine .ite (fun _ => ?_) fun noRest => .pure ?_
    · exact (leaves_unsupported _ _).bind fun _ => .pure fun reported =>
        stays fun _ => .inr reported
    · exact stays fun hasRest => absurd hasRest noRest

/-- Parameters are split so that they may remain, and so may the statement that declares their
rests. -/
theorem leaves_splitParams (params : List Param) :
    ending.Leaves site (splitParams params) fun (kept, declaration) =>
      (∀ param ∈ params, ending.Receives site param) →
        ending.Keeps site (paramsNodes kept)
          ∧ ∀ stmt ∈ declaration, ending.Keeps site (stmtNodes stmt) := by
  refine (Leaves.mapM fun param _ => leaves_splitParam param).bind fun split => ?_
  cases found : split.filterMap (·.2) with
  | nil =>
    refine .pure fun ⟨_, each⟩ receive => ⟨?_, nofun⟩
    -- Nothing was split off, so every parameter is the one that was left.
    rw [paramsNodes_eq]
    refine throughout_flatMap.mpr fun param mem => ?_
    obtain ⟨⟨kept, declarator⟩, inSplit, shown⟩ := each param mem
    obtain ⟨keeps, -, same⟩ := shown (receive param mem)
    have isNone : declarator = none := List.filterMap_eq_nil_iff.mp found _ inSplit
    rw [← same isNone]
    exact keeps
  | cons first more =>
    refine (leaves_splitDeclarators (first :: more)).bind fun declarators => .pure ?_
    intro inDeclarators ⟨each, _⟩ receive
    refine ⟨?_, ?_⟩
    · rw [paramsNodes_eq]
      refine throughout_flatMap.mpr fun kept mem => ?_
      obtain ⟨pair, inSplit, rfl⟩ := List.mem_map.mp mem
      obtain ⟨param, isParam, shown⟩ := each pair inSplit
      exact (shown (receive param isParam)).1
    · simp only [Option.mem_def, Option.some.injEq, forall_eq']
      refine keeps_varStmt.mpr (inDeclarators fun declarator mem => ?_)
      rw [← found] at mem
      obtain ⟨pair, inSplit, isOwn⟩ := List.mem_filterMap.mp mem
      obtain ⟨param, isParam, shown⟩ := each pair inSplit
      exact (shown (receive param isParam)).2.1 declarator isOwn

/-- A pattern that cannot be split may remain, since its rests are reported. -/
theorem leaves_unsplittableRest (pattern : Pattern) :
    ending.Leaves site (unsplittableRest pattern) fun _ => ending.AdmitsUnsplit pattern := by
  refine .ite (fun _ => ?_) fun noRest => .pure fun hasRest => absurd hasRest noRest
  exact (leaves_require _ _ _).weaken fun _ admits _ => admits

end Ending

end Downlevel
