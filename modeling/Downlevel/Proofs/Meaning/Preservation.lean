import Downlevel.Proofs.Meaning.Accesses

/-! Lowering an expression does not change what it means. -/

namespace Downlevel

namespace Meaning

open Lowering

variable {W : World} {setting : Setting} {env : Vars W} {origin : Origin}

/-- The logical operators and the power. -/
def IsOperator (op : Operator) : Prop :=
  IsLogical op ∨ op = .exponentiation

/-- The plain assignment and those that read before they write. -/
def IsAssignment (op : Operator) : Prop :=
  op = .assignment ∨ op = .assignmentExponentiation ∨ ∃ plain, LogicalPair op plain

/-- The expressions whose meaning is looked at: names of the file, `this` and literals, accesses and
calls in a chain or outside of one, `void` and `delete`, and the operators and assignments that may
have to be lowered. Every part ends no later than the whole, and a callee ends before the call. -/
inductive Covered (scopes : ScopeTree) : Expr → Prop
  | id {origin : Origin} {name : String} (recorded : name ∈ scopes.names.names) :
      Covered scopes ⟨origin, .id name⟩
  | this {origin : Origin} : Covered scopes ⟨origin, .this⟩
  | null {origin : Origin} : Covered scopes ⟨origin, .null⟩
  | bool {origin : Origin} {value : Bool} : Covered scopes ⟨origin, .bool value⟩
  | num {origin : Origin} {text : String} : Covered scopes ⟨origin, .num text⟩
  | str {origin : Origin} {value : String} : Covered scopes ⟨origin, .str value⟩
  | bigint {origin : Origin} {digits : String} : Covered scopes ⟨origin, .bigint digits⟩
  | member {origin : Origin} {link : ChainLink} {object : Expr} {name : String}
      (isPublic : isPrivateName name = false) (goesOn : link = .continues → object.isChained = true)
      (stops : object.span.stop ≤ origin.span.stop) (covered : Covered scopes object) :
      Covered scopes ⟨origin, .member link object name⟩
  | computed {origin : Origin} {link : ChainLink} {object key : Expr}
      (goesOn : link = .continues → object.isChained = true)
      (stops : object.span.stop ≤ origin.span.stop) (covered : Covered scopes object)
      (coveredKey : Covered scopes key) : Covered scopes ⟨origin, .computed link object key⟩
  /-- A call outside of a chain is not on a chain. -/
  | call {origin : Origin} {link : ChainLink} {isPure : Bool} {callee : Expr} {args : List Arg}
      (goesOn : link = .continues → callee.isChained = true)
      (unchained : link = .plain → callee.isChained = false)
      (stops : callee.span.stop < origin.span.stop) (unspread : ∀ arg ∈ args, arg.isSpread = false)
      (covered : Covered scopes callee) (coveredArgs : ∀ arg ∈ args, Covered scopes arg.value) :
      Covered scopes ⟨origin, .call link isPure callee args⟩
  | void {origin : Origin} {operand : Expr} (stops : operand.span.stop ≤ origin.span.stop)
      (covered : Covered scopes operand) : Covered scopes ⟨origin, .unary .void operand⟩
  | delete {origin : Origin} {operand : Expr} (isAccess : isAccess operand = true)
      (stops : operand.span.stop ≤ origin.span.stop) (covered : Covered scopes operand) :
      Covered scopes ⟨origin, .unary .delete operand⟩
  | cond {origin : Origin} {test consequent alternate : Expr} (coveredTest : Covered scopes test)
      (coveredYes : Covered scopes consequent) (coveredNo : Covered scopes alternate) :
      Covered scopes ⟨origin, .cond test consequent alternate⟩
  | comma {origin : Origin} {left right : Expr} (stopsLeft : left.span.stop ≤ origin.span.stop)
      (stopsRight : right.span.stop ≤ origin.span.stop) (coveredLeft : Covered scopes left)
      (coveredRight : Covered scopes right) : Covered scopes ⟨origin, .binary .comma left right⟩
  | operator {origin : Origin} {op : Operator} {left right : Expr} (isOperator : IsOperator op)
      (coveredLeft : Covered scopes left) (coveredRight : Covered scopes right) :
      Covered scopes ⟨origin, .binary op left right⟩
  | assignMember {origin place : Origin} {op : Operator} {object right : Expr} {name : String}
      (isAssignment : IsAssignment op) (isPublic : isPrivateName name = false)
      (covered : Covered scopes object) (coveredRight : Covered scopes right) :
      Covered scopes ⟨origin, .binary op ⟨place, .member .plain object name⟩ right⟩
  | assignComputed {origin place : Origin} {op : Operator} {object key right : Expr}
      (isAssignment : IsAssignment op) (covered : Covered scopes object)
      (coveredKey : Covered scopes key) (coveredRight : Covered scopes right) :
      Covered scopes ⟨origin, .binary op ⟨place, .computed .plain object key⟩ right⟩

/-- What is found was not found on any object. -/
def IsPlain (run : Run W (Option (Found W))) : Prop :=
  ∃ values : Run W W.Value, run = values >>= fun value => pure (some (.plain value))

namespace IsPlain

/-- A value that is there already. -/
theorem done (value : W.Value) : IsPlain (pure (some (.plain value)) : Run W _) :=
  ⟨pure value, by simp⟩

/-- What comes last decides. -/
theorem next {α : Type} {run : Run W α} {rest : α → Run W (Option (Found W))}
    (plain : ∀ result, IsPlain (rest result)) : IsPlain (run >>= rest) := by
  refine ⟨run >>= fun result => Classical.choose (plain result), ?_⟩
  rw [bind_assoc]
  congr 1
  funext result
  exact Classical.choose_spec (plain result)

/-- Both branches decide. -/
theorem branch {condition : Bool} {yes no : Run W (Option (Found W))} (plainYes : IsPlain yes)
    (plainNo : IsPlain no) : IsPlain (if condition then yes else no) := by
  cases condition with
  | true => exact plainYes
  | false => exact plainNo

end IsPlain

/-- Expressions that are neither accesses nor calls are preserved if their values are. -/
theorem preserved_plain {e : Expr} (unchained : e.isChained = false) (notAccess : isAccess e = false)
    (notSuper : isSuper e = false)
    (place : (exprForms e).place = .other ∨ ∃ name, (exprForms e).place = .identifier name)
    (plain : IsPlain (find (W := W) e)) (lowers : Lowers setting env e (exprForms e).value) :
    Preserved setting env e := by
  -- Neither a name nor a form without a place is a private access or splits into object and key.
  have unprivate : privateMember? (exprForms e) = pure none := by
    rcases place with other | ⟨name, identifier⟩
    · simp [privateMember?, other]
    · simp [privateMember?, identifier]
  have plainly : splitCallee (exprForms e) = (·, none) <$> (exprForms e).value := by
    rcases place with other | ⟨name, identifier⟩
    · simp [splitCallee, exprForms_source, unchained, unprivate, other]
    · simp [splitCallee, exprForms_source, unchained, unprivate, identifier]
  exact ⟨unprivate, notSuper, lowers, by simp [unchained],
    fun _ => heads_value lowers plainly plain, by simp [unchained], by simp [notAccess]⟩

/-- An assignment gives the value that was written, or the one that was there. -/
theorem isPlain_assignment {op : Operator} (isAssignment : IsAssignment op) (left right : Expr) :
    IsPlain (find (W := W) ⟨origin, .binary op left right⟩) := by
  rcases isAssignment with rfl | rfl | ⟨plain, pair⟩
  · rw [find_assignment]
    exact .next fun _ => .next fun _ => .next fun _ => .done _
  · rw [find_powerAssignment]
    exact .next fun _ => .next fun _ => .next fun _ => .next fun _ => .next fun _ => .done _
  · rw [find_logicalAssignment pair]
    exact .next fun _ => .next fun _ =>
      .branch (.next fun _ => .next fun _ => .done _) (.done _)

/-- Assignments are preserved if their place and their right side are. -/
theorem preserved_assignment {op : Operator} {left right : Expr}
    {split : Lower (Lowering.Place × Lowering.Place)}
    (isAssignment : IsAssignment op) (noPrivate : privateMember? (exprForms left) = pure none)
    (splitForms : (exprForms left).place.split? = some split)
    (targets : Targets setting env left (exprForms left).target)
    (splits : Splits setting env left split)
    (lowersRight : Lowers setting env right (exprForms right).value) :
    Preserved setting env ⟨origin, .binary op left right⟩ := by
  refine preserved_plain rfl rfl rfl (.inl rfl)
    (isPlain_assignment isAssignment left right) ?_
  rw [exprForms_binary, plainForms]
  -- The three kinds of assignment have their own lowering; all of them lower the right side as a
  -- value.
  rcases isAssignment with rfl | rfl | ⟨plain, pair⟩
  · exact lowers_assignment noPrivate targets lowersRight
  · exact lowers_powerAssignment noPrivate splitForms targets splits lowersRight
  · exact lowers_logicalAssignment noPrivate splitForms targets splits lowersRight pair

/-- A member that is written stays. -/
theorem targets_member {place : Origin} {object : Expr} {name : String}
    (isPublic : isPrivateName name = false)
    (lowers : Lowers setting env object (exprForms object).value) :
    Targets setting env ⟨place, .member .plain object name⟩
      (exprForms ⟨place, .member .plain object name⟩).target := by
  intro progress ready
  rw [exprForms_member, memberForms, linkForms, if_neg (by decide)]
  simp only [privateBinding?_eq isPublic, pure_bind]
  refine .next (lowers progress ready) fun object' _ ready' _ valued => .done ready' ?_
  exact ⟨simRef_member valued.value, by simp⟩

/-- A computed member that is written stays. -/
theorem targets_computed {place : Origin} {object key : Expr}
    (lowers : Lowers setting env object (exprForms object).value)
    (lowersKey : Lowers setting env key (exprForms key).value) :
    Targets setting env ⟨place, .computed .plain object key⟩
      (exprForms ⟨place, .computed .plain object key⟩).target := by
  intro progress ready
  rw [exprForms_computed, computedForms, linkForms, if_neg (by decide)]
  refine .next (lowers progress ready) fun object' _ ready₁ extended₁ valued => ?_
  refine .next (lowersKey _ ready₁) fun key' _ ready₂ extended₂ valuedKey => .done ready₂ ?_
  exact ⟨simRef_computed extended₁ extended₂ valued.value valuedKey.value, by simp⟩

/-- Everything about how a covered expression is lowered follows from the same about its parts. -/
theorem Covered.preserved
    (unbound : setting.scopes.declares "undefined" = false → env "undefined" = W.undefined)
    {e : Expr} (covered : Covered setting.scopes e) : Preserved setting env e := by
  -- One constructor of the covered forms at a time; each asks for the value of its operands, and
  -- the links for what their objects are.
  induction covered with
  | id recorded =>
    refine preserved_plain rfl rfl rfl (.inr ⟨_, rfl⟩) ?_
      (lowers_id recorded unbound)
    rw [find, findShape]
    exact .next fun _ => .done _
  | this =>
    refine preserved_plain rfl rfl rfl (.inl rfl) ?_ lowers_this
    rw [find, findShape]
    exact .done _
  | null | bool | num | str =>
    refine preserved_plain rfl rfl rfl (.inl rfl) ?_ ?_
    · rw [find, findShape]
      exact .done _
    · refine lowers_literal ⟨rfl, rfl⟩ (by simp) ?_
      -- Of the literals only null is nullish.
      first | exact fun _ => W.isNullish_null | rintro ⟨⟩
  | bigint =>
    refine preserved_plain rfl rfl rfl (.inl rfl) ?_ lowers_bigint
    rw [find, findShape]
    exact .done _
  | @member origin link object name isPublic goesOn stops _ ih =>
    exact @preserved_link _ _ _ origin _ _ (.member origin.span name) rfl isPublic ih (.member isPublic) goesOn
      stops (by simp [Link.isCall]) (by simp [Link.isCall])
  | @computed origin link object key goesOn stops _ _ ih ihKey =>
    exact @preserved_link _ _ _ origin _ _ (.computed origin.span key) rfl trivial ih (.computed ihKey.value)
      goesOn stops (by simp [Link.isCall]) (by simp [Link.isCall])
  | @call origin link isPure callee args goesOn unchained stops unspread _ _ ih ihArgs =>
    refine @preserved_link _ _ _ origin _ _ (.call origin.span isPure args) rfl trivial ih
      (.call fun _ ready => ?_) goesOn (Nat.le_of_lt stops) (fun _ => stops) fun _ => unchained
    exact lowers_args unspread (fun arg member => (ihArgs arg member).value) ready
  | void stops _ ih =>
    refine preserved_plain rfl rfl rfl (.inl rfl) ?_
      (lowers_void stops ih.value)
    rw [find, findShape]
    exact .next fun _ => .done _
  | @delete origin operand isAccess stops _ ih =>
    refine preserved_plain rfl rfl rfl (.inl rfl) ?_ ?_
    · -- A delete asks its operand for the removal, which the links provide.
      rw [find_delete]
      exact .next fun _ => .done _
    · rw [exprForms_unary, plainForms]
      exact ih.removed isAccess origin stops
  | cond _ _ _ ihTest ihYes ihNo =>
    refine preserved_plain rfl rfl rfl (.inl rfl) ?_
      (lowers_cond ihTest.value ihYes.value ihNo.value)
    rw [find, findShape]
    exact .next fun _ => .branch (.next fun _ => .done _) (.next fun _ => .done _)
  | comma stopsLeft stopsRight _ _ ihLeft ihRight =>
    refine preserved_plain rfl rfl rfl (.inl rfl) ?_ ?_
    · rw [find, findShape]
      exact .next fun _ => .next fun _ => .done _
    · rw [exprForms_binary, plainForms]
      exact lowers_comma ihLeft.unprivate stopsLeft stopsRight ihLeft.value ihRight.value
  | operator isOperator _ _ ihLeft ihRight =>
    refine preserved_plain rfl rfl rfl (.inl rfl) ?_ ?_
    · rcases isOperator with isLogical | rfl
      · rw [find_logical isLogical]
        exact .next fun _ => .branch (.next fun _ => .done _) (.done _)
      · rw [find_power]
        exact .next fun _ => .next fun _ => .next fun _ => .done _
    · rw [exprForms_binary, plainForms]
      rcases isOperator with isLogical | rfl
      · exact lowers_logical isLogical ihLeft.unprivate ihLeft.value ihRight.value
      · exact lowers_power ihLeft.unprivate ihLeft.value ihRight.value
  | @assignMember origin place op object right name isAssignment isPublic _ _ ih ihRight =>
    refine preserved_assignment isAssignment
      (@privateMember?_link place _ .plain (.member place.span name) isPublic) ?_
      (targets_member isPublic ih.value) (splits_member isPublic ih.value) ihRight.value
    rw [exprForms_member, memberForms, linkForms, if_neg (by decide)]
    rfl
  | @assignComputed origin place op object key right isAssignment _ _ _ ih ihKey ihRight =>
    refine preserved_assignment isAssignment
      (@privateMember?_link place _ .plain (.computed place.span key) trivial) ?_
      (targets_computed ih.value ihKey.value) (splits_computed ih.value ihKey.value) ihRight.value
    rw [exprForms_computed, computedForms, linkForms, if_neg (by decide)]
    rfl

/-- What agrees has one ending and one hidden state. -/
theorem Matches.same {ended ended' : Ending W W.Value × Memory W}
    (matched : Matches env (fun value value' _ => value' = value) ended ended') :
    ended'.1 = ended.1 ∧ ended'.2.hidden = ended.2.hidden ∧ ended.1 ≠ .unknown := by
  cases matched with
  | value same => exact ⟨by rw [same], rfl, by simp⟩
  | thrown => exact ⟨rfl, rfl, by simp⟩

/-- A covered expression is always lowered, and to one that means the same: from every hidden state
on, both end with the same value or the same error and leave the same hidden state. The variables of
lowered code hold what the source says of the names of the file and what other names stand for, and
anything at all under names that lowering made up. -/
theorem eval_lowered {setting : Setting} {progress : Progress} {e : Expr}
    (ready : Ready setting.scopes progress) (covered : Covered setting.scopes e) :
    ∃ lowered after, (exprForms e).value setting progress = .ok (lowered, after) ∧
      ∀ (W : World) (env vars : Vars W),
        (setting.scopes.declares "undefined" = false → env "undefined" = W.undefined) →
        Holds setting.scopes after env vars → ∀ hidden,
          (eval lowered ⟨vars, hidden⟩).1 = (eval e ⟨env, hidden⟩).1 ∧
          (eval lowered ⟨vars, hidden⟩).2.hidden = (eval e ⟨env, hidden⟩).2.hidden ∧
          (eval e ⟨env, hidden⟩).1 ≠ .unknown := by
  -- Lowering does not look at any values, so it ends in the same way for all of them.
  have lowers : ∀ (W : World) (env : Vars W),
      (setting.scopes.declares "undefined" = false → env "undefined" = W.undefined) →
      Yields setting progress (exprForms e).value fun after lowered =>
        Valued setting env progress after e lowered :=
    fun W env unbound => (covered.preserved unbound).value progress ready
  let any : World :=
    { Value := Bool, State := Unit, this := true, undefined := false, null := false, bool := id
      num := fun _ => true, str := fun _ => true, bigint := id, isNullish := not, isTrue := id
      get := fun _ _ _ => (.ok true, ()), set := fun _ _ _ _ => (.ok (), ())
      delete := fun _ _ _ => (.ok true, ()), call := fun _ _ _ _ => (.ok true, ())
      pow := fun _ _ _ => (.ok true, ()), isNullish_undefined := rfl, isNullish_null := rfl
      isTrue_bool := fun _ => rfl }
  obtain ⟨lowered, after, ends, -⟩ := lowers any (fun _ => any.undefined) fun _ => rfl
  refine ⟨lowered, after, ends, fun W env vars unbound holds hidden => ?_⟩
  obtain ⟨lowered', after', ends', _, _, valued⟩ := lowers W env unbound
  obtain ⟨rfl, rfl⟩ : lowered = lowered' ∧ after = after' := by
    simpa using ends.symm.trans ends'
  have agree : Agree env vars (eval e) (eval lowered) fun value value' _ => value' = value :=
    (valued.value vars holds).next fun _ _ _ ⟨same, _⟩ => .done same
  exact (agree hidden).same

/-- The call `a?.b(c)`. -/
def optionalCall : Expr :=
  .of ⟨0, 7⟩ (.call .continues false
    (.of ⟨0, 4⟩ (.member .opens (.id ⟨0, 1⟩ "a") "b")) [⟨false, .id ⟨5, 6⟩ "c"⟩])

/-- Lowering for the oldest edition, in a file with two names. -/
def oldestSetting : Setting :=
  { options := { target := { edition := .es5 } }, scopes := { names := ⟨["a", "c"]⟩ } }

/-- The call means the same after it has become a conditional. -/
theorem eval_lowered_optionalCall :
    ∃ lowered after, (exprForms optionalCall).value oldestSetting {} = .ok (lowered, after) ∧
      ∀ (W : World) (env vars : Vars W),
        (oldestSetting.scopes.declares "undefined" = false → env "undefined" = W.undefined) →
        Holds oldestSetting.scopes after env vars → ∀ hidden,
          (eval lowered ⟨vars, hidden⟩).1 = (eval optionalCall ⟨env, hidden⟩).1 ∧
          (eval lowered ⟨vars, hidden⟩).2.hidden = (eval optionalCall ⟨env, hidden⟩).2.hidden ∧
          (eval optionalCall ⟨env, hidden⟩).1 ≠ .unknown := by
  -- The constructors of the covered form, with the spans evaluated.
  refine eval_lowered ⟨by simp, ?_⟩ (.call (by simp [Expr.isChained, Expr.link, Expr.of,
    ChainLink.isChained]) (by simp) (by decide) (by simp) ?_ ?_)
  · rintro (_ | _) name ⟨owner, member, named⟩ <;> simp_all [Aliased.name?]
  · exact .member (by decide) (by simp) (by decide) (.id (by simp [oldestSetting]))
  · simpa using .id (by simp [oldestSetting])

end Meaning

end Downlevel
