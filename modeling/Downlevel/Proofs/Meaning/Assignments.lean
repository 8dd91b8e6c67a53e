import Downlevel.Proofs.Meaning.Operators

/-! Assignments to members do the same when they are written with other operators. -/

namespace Downlevel

namespace Meaning

open Lowering

variable {W : World} {setting : Setting} {env vars vars' : Vars W}
  {first second third fourth : Progress} {scopes : ScopeTree} {origin origin' : Origin}

/-- A test for a value that is there chooses by whether the value is nullish. -/
theorem find_ifThere (span : Span) (tested there missing : Expr) :
    find (W := W) (.cond span (.binary span .inequality tested (.null span)) there missing) = do
      let value := (Found.settle (← find tested)).value
      if W.isNullish value then
        return some (.plain (Found.settle (← find missing)).value)
      else
        return some (.plain (Found.settle (← find there)).value) := by
  -- A test against null is the question whether the value is nullish.
  simp only [Expr.cond, Expr.binary, Expr.of, find, findShape, Expr.null, isNullLiteral,
    bind_assoc, if_true, pure_bind, Found.settle_some, Found.plain_value, W.isTrue_bool]
  congr 1
  funext found
  by_cases missing : W.isNullish (Found.settle found).value = true <;> simp [missing]

/-- The left value unless it is nullish, made from a left value that is captured. -/
theorem nullishOr_yields {progress : Progress} {span : Span} {left right : Expr}
    (ready : Ready setting.scopes progress)
    (fixed : isReusable left = true → Fixed setting.scopes progress left) :
    Yields setting progress (nullishOr span left right) fun after lowered =>
      ∃ tested again, Captured setting.scopes progress after left tested again ∧
        lowered = .cond span (.binary span .inequality tested (.null span)) again right :=
  .next (capture_yields ready fixed) fun _ _ ready' _ captured =>
    .done ready' ⟨_, _, captured, rfl⟩

/-- Choosing the right value if the left one is nullish does what `??` does. -/
theorem sim_nullishOr {left left' right right' tested again : Expr}
    (begins : Extends scopes first second) (goesOn : Extends scopes second third)
    (ends : Extends scopes third fourth) (sim : Sim scopes env SameValue first second left left')
    (simRight : Sim scopes env SameValue second third right right')
    (captured : Captured scopes third fourth left' tested again) (span : Span) :
    Sim scopes env SameReach first fourth ⟨origin, .binary .nullishCoalescing left right⟩
      (.cond span (.binary span .inequality tested (.null span)) again right') := by
  intro vars holds
  rw [find_logical (.inr (.inr rfl)), find_ifThere]
  -- The capture evaluates the left side once; from there both sides hold the same value and branch
  -- alike.
  refine (captured.run (sim.run (goesOn.trans ends) holds)).next ?_
  rintro found found' vars' ⟨_, vars₀, ⟨same, kept, holds₀⟩, settled, reads, kept'⟩
  have keptBoth : Keeps scopes first fourth vars vars' :=
    (kept.later (goesOn.trans ends)).twice (kept'.earlier (begins.trans goesOn))
  have holds' := holds₀.kept (.refl _) kept'
  simp only [settled, Found.plain, show _ = _ from same]
  refine .branch (fun _ => ?_) fun _ => ?_
  · refine (simRight.run ends holds').next ?_
    rintro _ _ vars'' ⟨same', kept'', _⟩
    refine .done ⟨?_, ?_⟩
    · rw [SameReach, show _ = _ from same']
    · exact keptBoth.twice (kept''.wide begins ends)
  · -- The value is there: the second name reads what the capture stored.
    refine Agree.stepLowered (find_atom captured.guarded.1 vars') (.done ⟨?_, keptBoth⟩)
    rw [SameReach, reads, show _ = _ from same]
    rfl

/-- The expression that reads a place. -/
def placeExpr (span : Span) : Lowering.Place → Expr
  | .identifier name => .id span name
  | .member object name => .member span object name
  | .computed object key => .computed span object key

/-- The place that parts which can be repeated make up. -/
def readPlace (vars : Vars W) : Lowering.Place → Ref W
  | .identifier name => .variable name
  | .member object name => .property (readAtom vars object) (W.str name)
  | .computed object key => .property (readAtom vars object) (readAtom vars key)

/-- All parts of a place can be repeated, and code that is lowered later does not change them. -/
def PlaceGuarded (scopes : ScopeTree) (known : Progress) : Lowering.Place → Prop
  | .identifier _ => False
  | .member object _ => ∃ made, Guarded scopes made known object
  | .computed object key => (∃ made, Guarded scopes made known object) ∧
      ∃ made, Guarded scopes made known key

/-- A place is a member that is not private. -/
def IsPublic : Lowering.Place → Prop
  | .identifier _ => False
  | .member _ name => isPrivateName name = false
  | .computed .. => True

/-- Reading a place that is not private. -/
theorem read_eq {place : Lowering.Place} (isPublic : IsPublic place) (span : Span) :
    place.read span = pure (placeExpr span place) := by
  cases place with
  | identifier | computed => rfl
  | member object name =>
    simp [Lowering.Place.read, memberOrPrivate, privateBinding?_eq isPublic, placeExpr]

/-- Writing a place that is not private. -/
theorem write_eq {place : Lowering.Place} (isPublic : IsPublic place) (span : Span) (value : Expr) :
    place.write span value = pure (.assign span (placeExpr span place) value) := by
  cases place with
  | identifier | computed => rfl
  | member object name =>
    simp [Lowering.Place.write, assignMemberOrPrivate, privateBinding?_eq isPublic, placeExpr]

/-- The object that a place is a property of. -/
def Ref.object : Ref W → W.Value
  | .variable _ => W.undefined
  | .property object _ => object

/-- Reading a member is reading the place that it is. -/
theorem find_placeExpr {place : Lowering.Place} (isPublic : IsPublic place) (span : Span) :
    find (W := W) (placeExpr span place) = do
      let ref ← findRef (placeExpr span place)
      let value ← ref.read
      return some ⟨value, ref.object⟩ := by
  -- A place that is read again is the reference it names, and then the reading of it.
  cases place with
  | identifier => exact isPublic.elim
  | member object name =>
    simp [placeExpr, Expr.member, Expr.of, find, findShape, findRef, Found.follow, Ref.read,
      Ref.object]
  | computed object key =>
    simp [placeExpr, Expr.computed, Expr.of, find, findShape, findRef, Found.follow, Ref.read,
      Ref.object]

/-- Parts that can be repeated make up a place without doing anything. -/
theorem findRef_placeExpr {known : Progress} {place : Lowering.Place}
    (guarded : PlaceGuarded scopes known place) (span : Span) (vars : Vars W) (hidden : W.State) :
    findRef (placeExpr span place) ⟨vars, hidden⟩
      = (.value (readPlace vars place), ⟨vars, hidden⟩) := by
  -- The parts of the place are atoms, so they are read off the variables and change nothing.
  cases place with
  | identifier => exact guarded.elim
  | member object name =>
    obtain ⟨made, isGuarded⟩ := guarded
    rw [placeExpr, Expr.member, Expr.of, findRef]
    change Run.next _ _ _ = _
    rw [Run.next, find_atom isGuarded.1]
    rfl
  | computed object key =>
    obtain ⟨⟨made, isGuarded⟩, made', isGuarded'⟩ := guarded
    rw [placeExpr, Expr.computed, Expr.of, findRef]
    change Run.next _ _ _ = _
    rw [Run.next, find_atom isGuarded.1]
    change Run.next _ _ _ = _
    rw [Run.next, find_atom isGuarded'.1]
    rfl

/-- Code that is lowered later does not change which place it is. -/
theorem PlaceGuarded.kept {known : Progress} {place : Lowering.Place}
    (guarded : PlaceGuarded scopes known place) (begins : Extends scopes known first)
    (goesOn : Extends scopes first second) (kept : Keeps scopes first second vars vars') :
    readPlace vars' place = readPlace vars place := by
  cases place with
  | identifier => rfl
  | member object name =>
    obtain ⟨made, isGuarded⟩ := guarded
    rw [readPlace, readPlace, isGuarded.after begins goesOn kept]
  | computed object key =>
    obtain ⟨⟨made, isGuarded⟩, made', isGuarded'⟩ := guarded
    rw [readPlace, readPlace, isGuarded.after begins goesOn kept,
      isGuarded'.after begins goesOn kept]

/-- The lowered expression is the same property as its source, and the variables are as demanded
once it is known which one. -/
def SimRef (scopes : ScopeTree) (env : Vars W) (before after : Progress) (e lowered : Expr)
    (demand : Ref W → Vars W → Prop) : Prop :=
  ∀ vars, Holds scopes after env vars →
    Agree env vars (findRef e) (findRef lowered) fun ref ref' vars' =>
      (∃ object key, ref = .property object key) ∧ ref' = ref ∧ demand ref vars' ∧
        Keeps scopes before after vars vars'

namespace SimRef

variable {demand : Ref W → Vars W → Prop} {final : Progress} {e lowered : Expr}

/-- Within a larger piece of lowered code, what stands for something else goes on doing so. -/
theorem run (sim : SimRef scopes env first second e lowered demand)
    (goesOn : Extends scopes second final) (holds : Holds scopes final env vars) :
    Agree env vars (findRef e) (findRef lowered) fun ref ref' vars' =>
      (∃ object key, ref = .property object key) ∧ ref' = ref ∧ demand ref vars' ∧
        Keeps scopes first second vars vars' ∧ Holds scopes final env vars' :=
  (sim vars (holds.earlier goesOn)).weaken fun _ _ _ ⟨isProperty, same, demanded, kept⟩ =>
    ⟨isProperty, same, demanded, kept, holds.kept goesOn kept⟩

end SimRef

/-- A member of the same object is the same place. -/
theorem simRef_member {object object' : Expr} {name : String}
    (sim : Sim scopes env SameValue first second object object') :
    SimRef scopes env first second ⟨origin, .member .plain object name⟩
      ⟨origin', .member .plain object' name⟩ fun _ _ => True := by
  intro vars holds
  rw [findRef, findRef]
  refine (sim vars holds).next ?_
  rintro _ _ vars' ⟨same, kept⟩
  exact .done ⟨⟨_, _, rfl⟩, by rw [show _ = _ from same], trivial, kept⟩

/-- A computed member of the same object with the same key is the same place. -/
theorem simRef_computed {object object' key key' : Expr} (begins : Extends scopes first second)
    (goesOn : Extends scopes second third)
    (sim : Sim scopes env SameValue first second object object')
    (simKey : Sim scopes env SameValue second third key key') :
    SimRef scopes env first third ⟨origin, .computed .plain object key⟩
      ⟨origin', .computed .plain object' key'⟩ fun _ _ => True := by
  intro vars holds
  rw [findRef, findRef]
  -- The object, then the key; the reference is made of their values.
  refine (sim.run goesOn holds).next ?_
  rintro _ _ vars' ⟨same, kept, holds'⟩
  refine (simKey vars' holds').next ?_
  rintro _ _ vars'' ⟨sameKey, kept'⟩
  refine .done ⟨⟨_, _, rfl⟩, ?_, trivial, kept.trans begins goesOn kept'⟩
  rw [show _ = _ from same, show _ = _ from sameKey]

/-- A member whose object is captured is the same place, also for the second time. -/
theorem simRef_capturedMember {object object' tested again : Expr} {name : String}
    (begins : Extends scopes first second) (goesOn : Extends scopes second third)
    (sim : Sim scopes env SameValue first second object object')
    (captured : Captured scopes second third object' tested again) (span : Span) :
    SimRef scopes env first third ⟨origin, .member .plain object name⟩
      (placeExpr span (.member tested name))
      fun ref vars' => readPlace vars' (.member again name) = ref := by
  intro vars holds
  rw [placeExpr, Expr.member, Expr.of, findRef, findRef]
  -- The capture stores the object, so the second spelling of the place reads the same object again.
  refine (captured.run (sim.run goesOn holds)).next ?_
  rintro found found' vars' ⟨_, vars₀, ⟨same, kept, _⟩, settled, reads, kept'⟩
  refine .done ⟨⟨_, _, rfl⟩, ?_, ?_, kept.trans begins goesOn kept'⟩
  · rw [settled, Found.plain_value, show _ = _ from same]
  · simp only [readPlace, reads, show _ = _ from same]

/-- A computed member whose object and key are captured is the same place, also for the second
time. -/
theorem simRef_capturedComputed {fifth : Progress}
    {object object' tested again key key' testedKey againKey : Expr}
    (begins : Extends scopes first second) (captures : Extends scopes second third)
    (goesOn : Extends scopes third fourth) (ends : Extends scopes fourth fifth)
    (sim : Sim scopes env SameValue first second object object')
    (captured : Captured scopes second third object' tested again)
    (simKey : Sim scopes env SameValue third fourth key key')
    (capturedKey : Captured scopes fourth fifth key' testedKey againKey) (span : Span) :
    SimRef scopes env first fifth ⟨origin, .computed .plain object key⟩
      (placeExpr span (.computed tested testedKey))
      fun ref vars' => readPlace vars' (.computed again againKey) = ref := by
  intro vars holds
  rw [placeExpr, Expr.computed, Expr.of, findRef, findRef]
  refine (captured.run (sim.run (captures.trans (goesOn.trans ends)) holds)).next ?_
  rintro found found' vars₁ ⟨_, vars₀, ⟨same, kept₀, holds₀⟩, settled, reads, kept₁⟩
  have holds₁ := holds₀.kept (goesOn.trans ends) kept₁
  refine (capturedKey.run (simKey.run ends holds₁)).next ?_
  rintro key key' vars₃ ⟨_, vars₂, ⟨sameKey, kept₂, _⟩, settledKey, readsKey, kept₃⟩
  -- The key's own evaluation and capture leave the object's name alone, so it still reads the same
  -- object.
  have stays : readAtom vars₃ again = readAtom vars₁ again := by
    rw [captured.guarded.after goesOn ends kept₃, captured.guarded.after (.refl _) goesOn kept₂]
  refine .done ⟨⟨_, _, rfl⟩, ?_, ?_, ?_⟩
  · rw [settled, settledKey, Found.plain_value, Found.plain_value, show _ = _ from same,
      show _ = _ from sameKey]
  · simp only [readPlace, stays, reads, readsKey, show _ = _ from same, show _ = _ from sameKey]
  · exact (kept₀.trans begins captures kept₁).trans (begins.trans captures) (goesOn.trans ends)
      (kept₂.trans goesOn ends kept₃)

/-- Writing the same property on both sides, and then whatever agrees. -/
theorem agree_write {α β : Type} {related : α → β → Vars W → Prop} {ref : Ref W} {value : W.Value}
    {rest : W.Value → Run W α} {rest' : W.Value → Run W β}
    (isProperty : ∃ object key, ref = .property object key)
    (goesOn : Agree env vars (rest value) (rest' value) related) :
    Agree env vars (ref.write value >>= rest) (ref.write value >>= rest') related := by
  obtain ⟨object, key, rfl⟩ := isProperty
  simp only [Ref.write, bind_assoc, pure_bind]
  exact .operate fun _ => goesOn

/-- Reading the same property on both sides, and then whatever agrees. -/
theorem agree_read {α β : Type} {related : α → β → Vars W → Prop} {ref : Ref W}
    {rest : W.Value → Run W α} {rest' : W.Value → Run W β}
    (isProperty : ∃ object key, ref = .property object key)
    (goesOn : ∀ value, Agree env vars (rest value) (rest' value) related) :
    Agree env vars (ref.read >>= rest) (ref.read >>= rest') related := by
  obtain ⟨object, key, rfl⟩ := isProperty
  exact .operate goesOn

/-- A plain assignment finds the place first, and then the value. -/
theorem find_assignment (left right : Expr) :
    find (W := W) ⟨origin, .binary .assignment left right⟩ = do
      let ref ← findRef left
      let value := Found.settle (← find right)
      return some (.plain (← ref.write value.value)) := by
  rw [find, findShape]

/-- Assignments of the same value to the same place are the same. -/
theorem sim_assignment {left left' right right' : Expr} {demand : Ref W → Vars W → Prop}
    (begins : Extends scopes first second) (goesOn : Extends scopes second third)
    (sim : SimRef scopes env first second left left' demand)
    (simRight : Sim scopes env SameValue second third right right') :
    Sim scopes env SameReach first third ⟨origin, .binary .assignment left right⟩
      ⟨origin', .binary .assignment left' right'⟩ := by
  intro vars holds
  rw [find_assignment, find_assignment]
  -- The reference first, then the right side, then the write: the order of the source.
  refine (sim.run goesOn holds).next ?_
  rintro ref _ vars' ⟨isProperty, rfl, _, kept, holds'⟩
  refine (simRight vars' holds').next fun _ _ vars'' ⟨same, kept'⟩ => ?_
  simp only [show _ = _ from same]
  exact agree_write isProperty (.done ⟨rfl, kept.trans begins goesOn kept'⟩)

/-- The assignments that happen depending on what the place holds, with the operator that decides in
the same way. -/
def LogicalPair (op plain : Operator) : Prop :=
  op = .assignmentLogicalAnd ∧ plain = .logicalAnd ∨ op = .assignmentLogicalOr ∧ plain = .logicalOr ∨
    op = .assignmentNullishCoalescing ∧ plain = .nullishCoalescing

/-- What an assignment does that happens depending on what the place holds. -/
theorem find_logicalAssignment {op plain : Operator} (pair : LogicalPair op plain)
    (left right : Expr) :
    find (W := W) ⟨origin, .binary op left right⟩ = do
      let ref ← findRef left
      let old ← ref.read
      if goesRight W plain old then
        let value := Found.settle (← find right)
        return some (.plain (← ref.write value.value))
      else
        return some (.plain old) := by
  rcases pair with ⟨rfl, rfl⟩ | ⟨rfl, rfl⟩ | ⟨rfl, rfl⟩ <;> rw [find, findShape] <;> rfl

/-- The same assignment to the same place, depending on what it holds. -/
theorem sim_logicalAssignment {op plain : Operator} (pair : LogicalPair op plain)
    {left left' right right' : Expr} {demand : Ref W → Vars W → Prop}
    (begins : Extends scopes first second) (goesOn : Extends scopes second third)
    (sim : SimRef scopes env first second left left' demand)
    (simRight : Sim scopes env SameValue second third right right') :
    Sim scopes env SameReach first third ⟨origin, .binary op left right⟩
      ⟨origin', .binary op left' right'⟩ := by
  intro vars holds
  rw [find_logicalAssignment pair, find_logicalAssignment pair]
  refine (sim.run goesOn holds).next ?_
  rintro ref _ vars' ⟨isProperty, rfl, _, kept, holds'⟩
  -- The old value decides; where it is kept, the right side is not evaluated and nothing is
  -- written.
  refine agree_read isProperty fun old => .branch (fun _ => ?_) fun _ => ?_
  · refine (simRight vars' holds').next fun _ _ vars'' ⟨same, kept'⟩ => ?_
    simp only [show _ = _ from same]
    exact agree_write isProperty (.done ⟨rfl, kept.trans begins goesOn kept'⟩)
  · exact .done ⟨rfl, kept.later goesOn⟩

/-- What a power does that is assigned to its base. -/
theorem find_powerAssignment (left right : Expr) :
    find (W := W) ⟨origin, .binary .assignmentExponentiation left right⟩ = do
      let ref ← findRef left
      let old ← ref.read
      let exponent := Found.settle (← find right)
      let value ← .operate (W.pow old exponent.value)
      return some (.plain (← ref.write value)) := by
  rw [find, findShape]

/-- The same power assigned to the same place. -/
theorem sim_powerAssignment {left left' right right' : Expr} {demand : Ref W → Vars W → Prop}
    (begins : Extends scopes first second) (goesOn : Extends scopes second third)
    (sim : SimRef scopes env first second left left' demand)
    (simRight : Sim scopes env SameValue second third right right') :
    Sim scopes env SameReach first third ⟨origin, .binary .assignmentExponentiation left right⟩
      ⟨origin', .binary .assignmentExponentiation left' right'⟩ := by
  intro vars holds
  rw [find_powerAssignment, find_powerAssignment]
  refine (sim.run goesOn holds).next ?_
  rintro ref _ vars' ⟨isProperty, rfl, _, kept, holds'⟩
  -- The old value is read before the right side is evaluated.
  refine agree_read isProperty fun old => ?_
  refine (simRight vars' holds').next fun _ _ vars'' ⟨same, kept'⟩ => ?_
  simp only [show _ = _ from same]
  refine .operate fun _ => agree_write isProperty (.done ⟨rfl, kept.trans begins goesOn kept'⟩)

section Split

variable {place again : Lowering.Place} {left right right' : Expr} {span : Span}

/-- Writing to the parts of a place that were kept writes the place, and then whatever agrees. -/
theorem agree_writeAgain {α β : Type} {related : α → β → Vars W → Prop} {ref : Ref W}
    {rest : W.Value → Run W α} {rest' : Option (Found W) → Run W β}
    (guarded : PlaceGuarded scopes second again)
    (isProperty : ∃ object key, ref = .property object key) (reads : readPlace vars again = ref)
    (holds : Holds scopes third env vars)
    (simRight : Sim scopes env SameValue second third right right')
    (goesOn : ∀ value vars', Keeps scopes second third vars vars' →
      Agree env vars' (rest value) (rest' (some (.plain value))) related) :
    Agree env vars (do
        let found ← find right
        let value ← ref.write (Found.settle found).value
        rest value)
      (find (.assign span (placeExpr span again) right') >>= rest') related := by
  rw [Expr.assign, Expr.binary, Expr.of, find_assignment]
  simp only [bind_assoc, pure_bind]
  -- The second spelling of the place is made of atoms, so it costs no step before the right side.
  refine Agree.stepLowered (findRef_placeExpr guarded span vars) ?_
  rw [reads]
  refine (simRight vars holds).next ?_
  rintro _ _ vars' ⟨same, kept⟩
  simp only [show _ = _ from same]
  exact agree_write isProperty (goesOn _ vars' kept)

/-- Reading a place and then writing it again, depending on what it holds. -/
theorem sim_logicalSplit {op plain : Operator} (pair : LogicalPair op plain)
    (begins : Extends scopes first second) (goesOn : Extends scopes second third)
    (isPublic : IsPublic place) (guarded : PlaceGuarded scopes second again)
    (sim : SimRef scopes env first second left (placeExpr span place)
      fun ref vars' => readPlace vars' again = ref)
    (simRight : Sim scopes env SameValue second third right right') :
    Sim scopes env SameReach first third ⟨origin, .binary op left right⟩
      (.binary span plain (placeExpr span place) (.assign span (placeExpr span again) right')) := by
  intro vars holds
  have isLogical : IsLogical plain := by
    rcases pair with ⟨_, rfl⟩ | ⟨_, rfl⟩ | ⟨_, rfl⟩
    · exact .inl rfl
    · exact .inr (.inl rfl)
    · exact .inr (.inr rfl)
  rw [find_logicalAssignment pair, Expr.binary, Expr.of, find_logical isLogical,
    find_placeExpr isPublic]
  simp only [bind_assoc, pure_bind, Found.settle_some]
  refine (sim.run goesOn holds).next ?_
  rintro ref _ vars' ⟨isProperty, rfl, reads, kept, holds'⟩
  -- The branch is that of the plain operator on the old value; it writes through the second
  -- spelling or keeps the value.
  refine agree_read isProperty fun old => .branch (fun _ => ?_) fun _ => ?_
  · refine agree_writeAgain guarded isProperty reads holds' simRight fun value vars'' kept' => ?_
    exact .done ⟨rfl, kept.trans begins goesOn kept'⟩
  · exact .done ⟨rfl, kept.later goesOn⟩

/-- Reading a place and then writing it again if what it holds is nullish. -/
theorem sim_nullishSplit {tested againValue : Expr} (begins : Extends scopes first second)
    (goesOn : Extends scopes second third) (ends : Extends scopes third fourth)
    (isPublic : IsPublic place) (guarded : PlaceGuarded scopes second again)
    (sim : SimRef scopes env first second left (placeExpr span place)
      fun ref vars' => readPlace vars' again = ref)
    (simRight : Sim scopes env SameValue second third right right')
    (captured : Captured scopes third fourth (placeExpr span place) tested againValue) :
    Sim scopes env SameReach first fourth ⟨origin, .binary .assignmentNullishCoalescing left right⟩
      (.cond span (.binary span .inequality tested (.null span)) againValue
        (.assign span (placeExpr span again) right')) := by
  intro vars holds
  let readOld : Run W (Ref W × W.Value) :=
    findRef left >>= fun ref => ref.read >>= fun old => pure (ref, old)
  have splits : find (W := W) ⟨origin, .binary .assignmentNullishCoalescing left right⟩ = do
      let (ref, old) ← readOld
      if W.isNullish old then
        let found ← find right
        let value ← ref.write (Found.settle found).value
        return some (.plain value)
      else
        return some (.plain old) := by
    rw [find_logicalAssignment (.inr (.inr ⟨rfl, rfl⟩))]
    simp only [readOld, bind_assoc, pure_bind]
    rfl
  -- The place is read once, into a name.
  have old : Agree env vars readOld (find (placeExpr span place)) fun pair found vars' =>
      (∃ object key, pair.1 = .property object key) ∧ (Found.settle found).value = pair.2 ∧
        readPlace vars' again = pair.1 ∧ Keeps scopes first second vars vars' ∧
        Holds scopes fourth env vars' := by
    rw [find_placeExpr isPublic]
    refine (sim.run (goesOn.trans ends) holds).next ?_
    rintro ref _ vars' ⟨isProperty, rfl, reads, kept, holds'⟩
    exact agree_read isProperty fun old => .done ⟨isProperty, rfl, reads, kept, holds'⟩
  rw [splits, find_ifThere]
  refine (captured.run old).next ?_
  rintro ⟨ref, old⟩ found vars' ⟨_, vars₀, ⟨isProperty, same, reads, kept, holds₀⟩, settled,
    readsValue, kept'⟩
  have holds' := holds₀.kept (.refl _) kept'
  have keptBoth : Keeps scopes first fourth vars vars' :=
    (kept.later (goesOn.trans ends)).twice (kept'.earlier (begins.trans goesOn))
  have stays : readPlace vars' again = ref := by
    rw [guarded.kept goesOn ends kept', reads]
  simp only [settled, Found.plain_value, same]
  refine .branch (fun _ => ?_) fun _ => ?_
  · refine agree_writeAgain guarded isProperty stays (holds'.earlier ends) simRight ?_
    intro value vars'' kept''
    exact .done ⟨rfl, keptBoth.twice (kept''.wide begins ends)⟩
  · refine Agree.stepLowered (find_atom captured.guarded.1 vars') (.done ⟨?_, keptBoth⟩)
    rw [SameReach, readsValue, same]
    rfl

/-- Finding a place and then assigning a power of what it holds. -/
theorem sim_powerSplit {value : Expr}
    (finds : find (W := W) value
      = find ⟨origin', .binary .exponentiation (placeExpr span again) right'⟩)
    (begins : Extends scopes first second) (goesOn : Extends scopes second third)
    (isPublic : IsPublic again) (guarded : PlaceGuarded scopes second again)
    (sim : SimRef scopes env first second left (placeExpr span place)
      fun ref vars' => readPlace vars' again = ref)
    (simRight : Sim scopes env SameValue second third right right') :
    Sim scopes env SameReach first third ⟨origin, .binary .assignmentExponentiation left right⟩
      (.assign span (placeExpr span place) value) := by
  intro vars holds
  rw [find_powerAssignment, Expr.assign, Expr.binary, Expr.of, find_assignment, finds, find_power,
    find_placeExpr isPublic]
  simp only [bind_assoc, pure_bind, Found.settle_some, Found.plain_value]
  refine (sim.run goesOn holds).next ?_
  rintro ref _ vars' ⟨isProperty, rfl, reads, kept, holds'⟩
  -- The place is found before its old value is read, the right side comes after, and the write is
  -- last.
  refine Agree.stepLowered (findRef_placeExpr guarded span vars') ?_
  rw [reads]
  refine agree_read isProperty fun old => ?_
  refine (simRight vars' holds').next ?_
  rintro _ _ vars'' ⟨same, kept'⟩
  simp only [show _ = _ from same]
  exact .operate fun _ => agree_write isProperty (.done ⟨rfl, kept.trans begins goesOn kept'⟩)

end Split

end Meaning

end Downlevel
