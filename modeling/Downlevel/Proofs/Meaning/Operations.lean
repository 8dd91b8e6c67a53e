import Downlevel.Proofs.Meaning.Assignments

/-! Lowering an operator gives an expression that does the same. -/

namespace Downlevel

namespace Meaning

open Lowering

variable {W : World} {setting : Setting} {env : Vars W} {origin : Origin} {e left right : Expr}
  {leftForms rightForms : ExprForms}

/-- A lowered expression that reaches the same as its source, and is neither a sequence nor
something that can be repeated. -/
theorem Valued.ofReach {before after : Progress} {lowered : Expr}
    (sim : Sim setting.scopes env SameReach before after e lowered)
    (notReusable : isReusable lowered = false)
    (notComma : ∀ left right, lowered.shape ≠ .binary .comma left right)
    (notVoid : ∀ operand, lowered.shape ≠ .unary .void operand)
    (sameSpan : lowered.span = e.span) (notNullish : ¬IsNullish setting e) :
    Valued setting env before after e lowered := by
  refine .ofCallee (sim.weaken fun _ _ same => congrArg _ same) ?_ (by simp [notReusable])
    fun isNullish => absurd isNullish notNullish
  obtain ⟨origin, shape⟩ := lowered
  exact .ofStop notComma notVoid (Nat.le_of_eq (congrArg Span.stop sameSpan))

/-- Choices are lowered part by part. -/
theorem lowers_cond {test consequent alternate : Expr}
    (lowersTest : Lowers setting env test (exprForms test).value)
    (lowersYes : Lowers setting env consequent (exprForms consequent).value)
    (lowersNo : Lowers setting env alternate (exprForms alternate).value) :
    Lowers setting env ⟨origin, .cond test consequent alternate⟩
      (exprForms ⟨origin, .cond test consequent alternate⟩).value := by
  intro progress ready
  -- The operands in the order of the source; each keeps what the ones before it established.
  refine .next (lowersTest _ ready) fun test' _ ready₁ extended₁ valued₁ => ?_
  refine .next (lowersYes _ ready₁) fun consequent' _ ready₂ extended₂ valued₂ => ?_
  refine .next (lowersNo _ ready₂) fun alternate' _ ready₃ extended₃ valued₃ => .done ready₃ ?_
  refine .ofReach ?_ rfl (by simp) (by simp) rfl (by rintro ⟨⟩)
  exact sim_cond extended₁ extended₂ extended₃ valued₁.value valued₂.value valued₃.value

/-- The operand of `void` is lowered. -/
theorem lowers_void {operand : Expr} (ends : operand.span.stop ≤ origin.span.stop)
    (lowers : Lowers setting env operand (exprForms operand).value) :
    Lowers setting env ⟨origin, .unary .void operand⟩
      (exprForms ⟨origin, .unary .void operand⟩).value := by
  intro progress ready
  rw [exprForms_unary, plainForms]
  -- The result is undefined whatever the operand is, so the void also settles a chain based on it.
  refine .next (lowers _ ready) fun operand' _ ready' extended valued => .done ready' ?_
  refine .ofCallee ((sim_void valued.value).weaken ?_) ?_ (by simp [isReusable])
    fun _ => ⟨.void fun reusable => (valued.fixed reusable).1, (sim_void valued.value).weaken ?_⟩
  · rintro _ _ ⟨rfl, rfl⟩
    rfl
  · rw [EndsBy]
    exact ⟨Nat.le_refl _, valued.ends.later ends⟩
  · rintro _ _ ⟨rfl, rfl⟩
    exact ⟨rfl, W.isNullish_undefined⟩

/-- Sequences are lowered part by part. -/
theorem lowers_comma (noPrivate : privateMember? leftForms = pure none)
    (endsLeft : left.span.stop ≤ origin.span.stop) (endsRight : right.span.stop ≤ origin.span.stop)
    (lowersLeft : Lowers setting env left leftForms.value)
    (lowersRight : Lowers setting env right rightForms.value) :
    Lowers setting env ⟨origin, .binary .comma left right⟩
      (binary origin .comma leftForms rightForms) := by
  intro progress ready
  unfold binary
  simp only [noPrivate, pure_bind, Operator.compound?, plainBinary, reduceCtorEq, if_false, false_and]
  refine .next (lowersLeft _ ready) fun left' _ ready₁ extended₁ valued₁ => ?_
  refine .next (lowersRight _ ready₁) fun right' _ ready₂ extended₂ valued₂ => ?_
  refine .lacks (.lacks (.done ready₂ ?_))
  -- The comma's value and its settling are those of the right operand.
  refine .ofCallee ((sim_comma extended₁ extended₂ valued₁.value valued₂.value).weaken ?_) ?_
    (by simp [isReusable]) fun isNullish => ?_
  · rintro _ _ ⟨_, _, same, rfl, rfl⟩
    simp only [SameCallee, Found.settle_some, show _ = _ from same]
  · rw [EndsBy]
    exact ⟨Nat.le_refl _, valued₁.ends.later endsLeft, valued₂.ends.later endsRight⟩
  · obtain ⟨settles, simRight⟩ := valued₂.nullish (by simpa [IsNullish, Lowering.isNullish] using isNullish)
    refine ⟨.comma settles, (sim_comma extended₁ extended₂ valued₁.value simRight).weaken ?_⟩
    rintro _ _ ⟨_, _, ⟨same, nullish⟩, rfl, rfl⟩
    exact ⟨same, nullish⟩

/-- Logical operations are lowered part by part, or test for a nullish value instead. -/
theorem lowers_logical {op : Operator} (isLogical : IsLogical op)
    (noPrivate : privateMember? leftForms = pure none)
    (lowersLeft : Lowers setting env left leftForms.value)
    (lowersRight : Lowers setting env right rightForms.value) :
    Lowers setting env ⟨origin, .binary op left right⟩
      (binary origin op leftForms rightForms) := by
  intro progress ready
  -- A logical operator is no assignment, so the plain lowering applies; what is special about it is
  -- the test the target may lack.
  have plain : binary origin op leftForms rightForms
      = plainBinary origin op leftForms rightForms := by
    unfold binary
    rcases isLogical with rfl | rfl | rfl <;> simp [noPrivate, Operator.compound?]
  have notComma : op ≠ .comma := by rcases isLogical with rfl | rfl | rfl <;> simp
  have notPower : op ≠ .exponentiation := by rcases isLogical with rfl | rfl | rfl <;> simp
  have notNullish : ¬IsNullish setting ⟨origin, .binary op left right⟩ := by
    rcases isLogical with rfl | rfl | rfl <;> nofun
  rw [plain, plainBinary]
  refine .next (lowersLeft _ ready) fun left' _ ready₁ extended₁ valued₁ => ?_
  refine .next (lowersRight _ ready₁) fun right' _ ready₂ extended₂ valued₂ => ?_
  refine .lacks ?_
  split
  · next tests =>
    obtain ⟨rfl, _⟩ := tests
    -- The left operand is reused after the right one is lowered, so it must stay fixed until then.
    have fixed := fun reusable => (valued₁.fixed reusable).later extended₂
    refine .weaken (nullishOr_yields ready₂ fixed) ?_
    rintro after _ extended₃ ⟨tested, again, captured, rfl⟩
    refine .ofReach ?_ rfl (by simp [Expr.cond, Expr.of]) (by simp [Expr.cond, Expr.of]) rfl nofun
    exact sim_nullishOr extended₁ extended₂ extended₃ valued₁.value valued₂.value captured _
  · refine .lacks ?_
    simp only [notPower, false_and, if_false]
    refine .done ready₂ (.ofReach ?_ rfl (by simp [notComma]) (by simp) rfl notNullish)
    exact sim_logical isLogical extended₁ extended₂ valued₁.value valued₂.value

/-- Powers are lowered part by part, or become calls. -/
theorem lowers_power (noPrivate : privateMember? leftForms = pure none)
    (lowersLeft : Lowers setting env left leftForms.value)
    (lowersRight : Lowers setting env right rightForms.value) :
    Lowers setting env ⟨origin, .binary .exponentiation left right⟩
      (binary origin .exponentiation leftForms rightForms) := by
  intro progress ready
  unfold binary
  simp only [noPrivate, pure_bind, Operator.compound?, plainBinary, reduceCtorEq, if_false, false_and]
  refine .next (lowersLeft _ ready) fun left' _ ready₁ extended₁ valued₁ => ?_
  refine .next (lowersRight _ ready₁) fun right' _ ready₂ extended₂ valued₂ => ?_
  refine .lacks (.lacks ?_)
  -- Without the operator the call of the power function takes its place, with the same meaning.
  split
  · refine .done ready₂ (.ofReach ?_ rfl (by simp [Expr.helper, Expr.call, Expr.of])
      (by simp [Expr.helper, Expr.call, Expr.of]) rfl nofun)
    refine sim_power rfl ?_ extended₁ extended₂ valued₁.value valued₂.value
    rw [find_powHelper, find_power]
  · refine .done ready₂ (.ofReach ?_ rfl (by simp) (by simp) rfl nofun)
    exact sim_power rfl rfl extended₁ extended₂ valued₁.value valued₂.value

/-- Lowering a place to be written gives the same place. -/
def Targets (setting : Setting) (env : Vars W) (e : Expr) (step : Lower Expr) : Prop :=
  ∀ progress, Ready setting.scopes progress →
    Yields setting progress step fun after lowered =>
      SimRef setting.scopes env progress after e lowered (fun _ _ => True) ∧
        ∀ properties rest, lowered.shape ≠ .objectPattern properties rest

/-- Splitting a place to be read and written gives the same place twice. -/
def Splits (setting : Setting) (env : Vars W) (e : Expr)
    (step : Lower (Lowering.Place × Lowering.Place)) : Prop :=
  ∀ progress, Ready setting.scopes progress →
    Yields setting progress step fun after pair =>
      IsPublic pair.1 ∧ IsPublic pair.2 ∧ PlaceGuarded setting.scopes after pair.2 ∧
        ∀ span, SimRef setting.scopes env progress after e (placeExpr span pair.1)
          fun ref vars => readPlace vars pair.2 = ref

/-- A member is split by capturing its object. -/
theorem splits_member {object : Expr} {value : Lower Expr} {name : String}
    (isPublic : isPrivateName name = false) (lowers : Lowers setting env object value) :
    Splits setting env ⟨origin, .member .plain object name⟩ (do
      let (object, again) ← capture (← value)
      return (.member object name, .member again name)) := by
  intro progress ready
  refine .next (lowers _ ready) fun object' _ ready₁ extended₁ valued => ?_
  refine .next (capture_yields ready₁ valued.fixed) fun pair _ ready₂ extended₂ captured => ?_
  refine .done ready₂ ⟨isPublic, isPublic, ⟨_, captured.guarded⟩, fun span => ?_⟩
  exact simRef_capturedMember extended₁ extended₂ valued.value captured span

/-- A computed member is split by capturing its object and its key. -/
theorem splits_computed {object key : Expr} {value keyValue : Lower Expr}
    (lowers : Lowers setting env object value) (lowersKey : Lowers setting env key keyValue) :
    Splits setting env ⟨origin, .computed .plain object key⟩ (do
      let (object, objectAgain) ← capture (← value)
      let (key, keyAgain) ← capture (← keyValue)
      return (.computed object key, .computed objectAgain keyAgain)) := by
  intro progress ready
  refine .next (lowers _ ready) fun object' _ ready₁ extended₁ valued => ?_
  refine .next (capture_yields ready₁ valued.fixed) fun pair _ ready₂ extended₂ captured => ?_
  refine .next (lowersKey _ ready₂) fun key' _ ready₃ extended₃ valuedKey => ?_
  refine .next (capture_yields ready₃ valuedKey.fixed) fun _ _ ready₄ extended₄ capturedKey => ?_
  -- The object's name must hold until the key is captured.
  have guarded := captured.guarded.later (extended₃.trans extended₄)
  refine .done ready₄ ⟨trivial, trivial, ⟨⟨_, guarded⟩, _, capturedKey.guarded⟩, fun span => ?_⟩
  exact simRef_capturedComputed extended₁ extended₂ extended₃ extended₄ valued.value captured
    valuedKey.value capturedKey span

section Assignments

variable {split : Lower (Lowering.Place × Lowering.Place)}
  (noPrivate : privateMember? leftForms = pure none)
  (splitForms : leftForms.place.split? = some split)
  (targets : Targets setting env left leftForms.target) (splits : Splits setting env left split)
  (lowersRight : Lowers setting env right rightForms.value)

include noPrivate targets lowersRight

/-- A plain assignment is lowered part by part. -/
theorem lowers_assignment :
    Lowers setting env ⟨origin, .binary .assignment left right⟩
      (binary origin .assignment leftForms rightForms) := by
  intro progress ready
  unfold binary
  simp only [noPrivate, pure_bind, plainAssignment, if_true]
  refine .next (targets _ ready) fun target _ ready₁ extended₁ ⟨simLeft, notPattern⟩ => ?_
  refine .next (lowersRight _ ready₁) fun right' _ ready₂ extended₂ valued => ?_
  split
  · next found => exact absurd found (notPattern _ _)
  · refine .done ready₂ (.ofReach ?_ rfl (by simp) (by simp) rfl nofun)
    exact sim_assignment extended₁ extended₂ simLeft valued.value

include splitForms splits

/-- An assignment that depends on what the place holds stays, or reads and then writes the place. -/
theorem lowers_logicalAssignment {op plain : Operator} (pair : LogicalPair op plain) :
    Lowers setting env ⟨origin, .binary op left right⟩
      (binary origin op leftForms rightForms) := by
  intro progress ready
  have chooses : binary origin op leftForms rightForms = do
      if ← lacks .logicalAssignment then logicalAssignment origin.span op split rightForms.value
      else
        let target ← leftForms.target
        let value ← rightForms.value
        return ⟨origin, .binary op target value⟩ := by
    unfold binary
    rcases pair with ⟨rfl, rfl⟩ | ⟨rfl, rfl⟩ | ⟨rfl, rfl⟩ <;>
      simp [noPrivate, splitForms, Operator.compound?, isLogicalAssignment]
  have notComma : op ≠ .comma := by rcases pair with ⟨rfl, rfl⟩ | ⟨rfl, rfl⟩ | ⟨rfl, rfl⟩ <;> simp
  have notNullish : ¬IsNullish setting ⟨origin, .binary op left right⟩ := by
    rcases pair with ⟨rfl, rfl⟩ | ⟨rfl, rfl⟩ | ⟨rfl, rfl⟩ <;> nofun
  rw [chooses]
  refine .lacks ?_
  split
  · rw [logicalAssignment]
    refine .next (splits _ ready) fun ⟨place, again⟩ _ ready₁ extended₁ split => ?_
    obtain ⟨isPublic, isPublic', guarded, simLeft⟩ := split
    refine .next (lowersRight _ ready₁) fun right' second ready₂ extended₂ valued => ?_
    simp only [read_eq isPublic, write_eq isPublic', pure_bind]
    -- All three operators may stay, and only the last one may have to go as well.
    have stays : Valued setting env progress second ⟨origin, .binary op left right⟩
        (.binary origin.span plain (placeExpr origin.span place)
          (.assign origin.span (placeExpr origin.span again) right')) := by
      refine .ofReach (sim_logicalSplit pair extended₁ extended₂ isPublic guarded (simLeft _)
        valued.value) rfl ?_ (by simp [Expr.binary, Expr.of]) rfl notNullish
      rcases pair with ⟨_, rfl⟩ | ⟨_, rfl⟩ | ⟨_, rfl⟩ <;> simp [Expr.binary, Expr.of]
    rcases pair with ⟨rfl, rfl⟩ | ⟨rfl, rfl⟩ | ⟨rfl, rfl⟩
    · exact .done ready₂ stays
    · exact .done ready₂ stays
    · refine .lacks ?_
      split
      · have unrepeatable : isReusable (placeExpr origin.span place) = false := by
          cases place with
          | identifier => exact isPublic.elim
          | member | computed => rfl
        refine .weaken (nullishOr_yields ready₂ (by simp [unrepeatable])) ?_
        rintro after _ extended₃ ⟨tested, againValue, captured, rfl⟩
        refine .ofReach ?_ rfl (by simp [Expr.cond, Expr.of]) (by simp [Expr.cond, Expr.of]) rfl
          notNullish
        exact sim_nullishSplit extended₁ extended₂ extended₃ isPublic guarded (simLeft _)
          valued.value captured
      · exact .done ready₂ stays
  · refine .next (targets _ ready) ?_
    rintro target _ ready₁ extended₁ ⟨simLeft, _⟩
    refine .next (lowersRight _ ready₁) fun right' _ ready₂ extended₂ valued => ?_
    refine .done ready₂ (.ofReach ?_ rfl (by simp [notComma]) (by simp) rfl notNullish)
    exact sim_logicalAssignment pair extended₁ extended₂ simLeft valued.value

/-- A power that is assigned to its base stays, or becomes a call whose value is assigned. -/
theorem lowers_powerAssignment :
    Lowers setting env ⟨origin, .binary .assignmentExponentiation left right⟩
      (binary origin .assignmentExponentiation leftForms rightForms) := by
  intro progress ready
  -- An assignment with the operator splits its place only where the operator is missing.
  have chooses : binary origin .assignmentExponentiation leftForms rightForms = do
      if ← lacks .exponentOperator then
        compoundAssignment origin.span .exponentiation split rightForms.value
      else
        let target ← leftForms.target
        let value ← rightForms.value
        return ⟨origin, .binary .assignmentExponentiation target value⟩ := by
    unfold binary
    simp [noPrivate, splitForms, Operator.compound?, isLogicalAssignment]
  rw [chooses]
  refine .lacks ?_
  split
  · next isLacking =>
    rw [compoundAssignment]
    -- The split gives two spellings of one place: the first is written, the second is read.
    refine .next (splits _ ready) fun ⟨place, again⟩ _ ready₁ extended₁ split => ?_
    obtain ⟨isPublic, isPublic', guarded, simLeft⟩ := split
    refine .next (lowersRight _ ready₁) fun right' _ ready₂ extended₂ valued => ?_
    simp only [read_eq isPublic', write_eq isPublic, pure_bind]
    refine .lacks (.done ready₂ ?_)
    simp only [isLacking, true_and, if_true]
    refine .ofReach (sim_powerSplit (?_ : _ = find ⟨origin, _⟩) extended₁ extended₂ isPublic' guarded
      (simLeft _) valued.value) rfl (by simp [Expr.assign, Expr.binary, Expr.of])
      (by simp [Expr.assign, Expr.binary, Expr.of]) rfl (by rintro ⟨⟩)
    rw [find_powHelper, find_power]
  · refine .next (targets _ ready) ?_
    rintro target _ ready₁ extended₁ ⟨simLeft, _⟩
    refine .next (lowersRight _ ready₁) fun right' _ ready₂ extended₂ valued => ?_
    refine .done ready₂ (.ofReach ?_ rfl (by simp) (by simp) rfl (by rintro ⟨⟩))
    exact sim_powerAssignment extended₁ extended₂ simLeft valued.value

end Assignments

end Meaning

end Downlevel
