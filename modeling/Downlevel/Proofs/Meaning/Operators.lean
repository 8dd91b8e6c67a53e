import Downlevel.Proofs.Forms
import Downlevel.Proofs.Meaning.Simulation

/-! Expressions whose parts do the same do the same themselves. -/

namespace Downlevel

namespace Meaning

open Lowering

variable {W : World} {setting : Setting} {env : Vars W} {first second third : Progress}
  {scopes : ScopeTree} {origin origin' : Origin}

/-- Repeatable expressions that give the same can take each other's place. -/
theorem valued_atom {before after : Progress} {e lowered : Expr} (isAtom : IsAtom e)
    (isAtom' : IsAtom lowered) (sameSpan : lowered.span = e.span)
    (fixed : Fixed setting.scopes after lowered)
    (same : ∀ vars, Holds setting.scopes after env vars → readAtom vars lowered = readAtom env e)
    (nullish : IsNullish setting e → W.isNullish (readAtom env e) = true) :
    Valued setting env before after e lowered := by
  -- Both sides are atoms, so neither run changes anything and both give what the variables hold.
  have agree : ∀ vars, Holds setting.scopes after env vars →
      Agree env vars (find e) (find lowered) fun found found' vars' =>
        found = some (.plain (readAtom env e)) ∧ found' = found ∧ vars' = vars := by
    intro vars holds hidden
    rw [find_atom isAtom, find_atom isAtom', same vars holds]
    exact .value ⟨rfl, rfl, rfl⟩
  refine .ofCallee (fun vars holds => ?_) ?_ (fun _ => fixed)
    fun isNullish => ⟨.atom isAtom', fun vars holds => ?_⟩
  · refine (agree vars holds).weaken ?_
    rintro _ _ _ ⟨rfl, rfl, rfl⟩
    exact ⟨rfl, .refl _⟩
  · obtain ⟨origin, shape⟩ := lowered
    refine .ofStop ?_ ?_ (Nat.le_of_eq (congrArg Span.stop sameSpan))
    · rintro left right rfl
      simp [IsAtom, isReusable] at isAtom'
    · rintro operand rfl
      simp [IsAtom, isReusable] at isAtom'
  · refine (agree vars holds).weaken ?_
    rintro _ _ _ ⟨rfl, rfl, rfl⟩
    exact ⟨⟨rfl, nullish isNullish⟩, .refl _⟩

/-- Literals stay. -/
theorem lowers_literal {e : Expr} (isAtom : IsAtom e) (notId : ∀ name, e.shape ≠ .id name)
    (nullish : IsNullish setting e → W.isNullish (readAtom env e) = true) :
    Lowers setting env e (pure e) := by
  intro progress ready
  refine .done ready (valued_atom isAtom isAtom rfl ?_ (fun vars _ => ?_) nullish)
  · exact ⟨isAtom.2, fun name found => absurd found (notId name)⟩
  · exact readAtom_congr fun name found => absurd found (notId name)

/-- `this` is written as itself or as a name that stands for it. -/
theorem lowers_this : Lowers setting env ⟨origin, .this⟩ (exprForms ⟨origin, .this⟩).value := by
  intro progress ready
  refine .next (resolveThis_yields ready) fun name? after ready' _ found => ?_
  -- A lifted function reads `this` through the name that holds it; elsewhere it stays.
  cases name? with
  | none =>
    exact .done ready' (valued_atom ⟨rfl, rfl⟩ ⟨rfl, rfl⟩ rfl ⟨rfl, by simp⟩ (by intros; rfl)
      (by rintro ⟨⟩))
  | some name =>
    have held := found name rfl
    refine .done ready' (valued_atom ⟨rfl, rfl⟩ ⟨rfl, rfl⟩ rfl ⟨rfl, ?_⟩ ?_ (by rintro ⟨⟩))
    · intro other same
      cases same
      exact .inr ⟨.this, held⟩
    · exact fun vars holds => holds.this name held

/-- A name is written as itself, or `arguments` as a name that stands for it. -/
theorem lowers_id {name : String} (recorded : name ∈ setting.scopes.names.names)
    (unbound : setting.scopes.declares "undefined" = false → env "undefined" = W.undefined) :
    Lowers setting env ⟨origin, .id name⟩ (exprForms ⟨origin, .id name⟩).value := by
  intro progress ready
  -- The name reads as undefined only where nothing declares it, which is what the nullish test
  -- asks.
  have nullish : IsNullish setting ⟨origin, .id name⟩ → W.isNullish (env name) = true := by
    intro isNullish
    simp only [IsNullish, Lowering.isNullish, isBareNullish, Bool.and_eq_true, beq_iff_eq,
      Bool.not_eq_true'] at isNullish
    rw [isNullish.1, unbound isNullish.2, W.isNullish_undefined]
  have itself : ∀ {before after : Progress},
      Valued setting env before after ⟨origin, .id name⟩ ⟨origin, .id name⟩ := by
    intro before after
    refine valued_atom ⟨rfl, rfl⟩ ⟨rfl, rfl⟩ rfl ⟨rfl, ?_⟩
      (fun vars holds => holds.file name recorded) nullish
    intro other same
    cases same
    exact .inl recorded
  rw [exprForms_id, nameForms]
  -- Only `arguments` may be replaced by a held name; every other name stays itself.
  by_cases isArguments : name = "arguments"
  · simp only [isArguments, ne_eq, not_true_eq_false, if_false]
    refine .next (resolveArguments_yields ready) fun name? after ready' _ found => ?_
    cases name? with
    | none => exact .done ready' (isArguments ▸ itself)
    | some other =>
      have held := found other rfl
      refine .done ready' (valued_atom ⟨rfl, rfl⟩ ⟨rfl, rfl⟩ rfl ⟨rfl, ?_⟩ ?_ (isArguments ▸ nullish))
      · intro other same
        cases same
        exact .inr ⟨.arguments, held⟩
      · exact fun vars holds => holds.arguments other held
  · simp only [ne_eq, isArguments, not_false_eq_true, if_true]
    exact .done ready itself

/-- The digits that are passed on are those that are written. -/
theorem withoutSeparators_eq (digits : String) :
    withoutSeparators digits = writtenDigits digits.toList := by
  unfold withoutSeparators
  induction digits.toList with
  | nil => rfl
  | cons c rest ih =>
    rw [List.filter_cons, writtenDigits, ih]
    by_cases separates : c = '_' <;> simp [separates]

/-- The call that makes a large integer out of its digits. -/
theorem find_bigintCall (span : Span) (digits : String) :
    find (W := W) (bigintCall span digits)
      = pure (some (.plain (W.bigint (W.str (String.ofList (writtenDigits digits.toList)))))) := by
  rw [← withoutSeparators_eq]
  simp [bigintCall, Expr.of, Expr.id, Expr.str, find, findShape, isMade, isNamed, findHelper,
    findArgs, Helper.call, Expr.span, Found.settle, Found.plain]

/-- A large integer may become a call that makes it. -/
theorem lowers_bigint {digits : String} :
    Lowers setting env ⟨origin, .bigint digits⟩ (exprForms ⟨origin, .bigint digits⟩).value := by
  intro progress ready
  change Yields setting progress
    (if !setting.options.target.supports .bigint then pure (bigintCall origin.span digits)
      -- The target without big integers gets a call that the world evaluates alike.
      else pure ⟨origin, .bigint digits⟩ : Lower Expr) _
  cases setting.options.target.supports .bigint with
  | true =>
    exact lowers_literal (e := ⟨origin, .bigint digits⟩) ⟨rfl, rfl⟩ (by simp) (by rintro ⟨⟩)
      progress ready
  | false =>
    refine .done ready (.ofCallee (fun vars _ => ?_) (.ofStop (by simp) (by simp) ?_) ?_
      (by rintro ⟨⟩))
    · rw [find_bigintCall, find, findShape]
      exact .done ⟨rfl, .refl _⟩
    · exact Nat.le_refl _
    · simp [isReusable, bigintCall, Expr.of]

/-- Evaluating lowered arguments does what evaluating the arguments does. -/
def SimArgs (scopes : ScopeTree) (env : Vars W) (before after : Progress)
    (args lowered : List Arg) : Prop :=
  ∀ vars, Holds scopes after env vars →
    Agree env vars (findArgs args) (findArgs lowered) fun values values' vars' =>
      values' = values ∧ Keeps scopes before after vars vars'

/-- Arguments that are part of a longer piece of code. -/
theorem SimArgs.wide {begin before after final : Progress} {args lowered : List Arg}
    (sim : SimArgs scopes env before after args lowered) (begins : Extends scopes begin before)
    (goesOn : Extends scopes after final) : SimArgs scopes env begin final args lowered :=
  fun vars holds => (sim vars (holds.earlier goesOn)).weaken fun _ _ _ shown =>
    ⟨shown.1, shown.2.wide begins goesOn⟩

/-- Arguments can be lowered if each of them can. -/
theorem lowers_args {args : List Arg} (unspread : ∀ arg ∈ args, arg.isSpread = false)
    (lowers : ∀ arg ∈ args, Lowers setting env arg.value (exprForms arg.value).value)
    {progress : Progress} (ready : Ready setting.scopes progress) :
    Yields setting progress (argsStep args) (SimArgs setting.scopes env progress · args) := by
  -- Along the arguments: each keeps what the ones before it established.
  induction args generalizing progress with
  | nil => exact .done ready fun vars _ => .done ⟨rfl, .refl _⟩
  | cons arg rest ih =>
    obtain ⟨isSpread, value⟩ := arg
    simp only [List.mem_cons, forall_eq_or_imp] at unspread lowers
    obtain ⟨rfl, unspread⟩ := unspread
    simp only [argsStep, argStep, bind_assoc, pure_bind]
    refine .next (lowers.1 progress ready) fun value' middle ready' extended valued => ?_
    refine .next (ih unspread lowers.2 ready') fun rest' after ready'' extended' sim => ?_
    refine .done ready'' fun vars holds => ?_
    rw [findArgs, findArgs]
    refine (valued.value.run extended' holds).next fun _ _ vars' ⟨same, kept, holds'⟩ => ?_
    refine (sim vars' holds').next fun _ _ vars'' ⟨sameRest, kept'⟩ => ?_
    exact .done ⟨by rw [sameRest, show _ = _ from same], kept.trans extended extended' kept'⟩

/-- A choice whose test and branches are the same is the same. -/
theorem sim_cond {fourth : Progress} {test test' consequent consequent' alternate alternate' : Expr}
    (begins : Extends scopes first second) (goesOn : Extends scopes second third)
    (ends : Extends scopes third fourth) (sim : Sim scopes env SameValue first second test test')
    (simYes : Sim scopes env SameValue second third consequent consequent')
    (simNo : Sim scopes env SameValue third fourth alternate alternate') :
    Sim scopes env SameReach first fourth ⟨origin, .cond test consequent alternate⟩
      ⟨origin', .cond test' consequent' alternate'⟩ := by
  intro vars holds
  rw [find, find, findShape, findShape]
  refine (sim.run (goesOn.trans ends) holds).next ?_
  rintro _ _ vars' ⟨same, kept, holds'⟩
  simp only [show _ = _ from same]
  -- The branches agree one by one; the branch not taken leaves its names alone.
  refine .branch (fun _ => ?_) fun _ => ?_
  · refine (simYes.run ends holds').next ?_
    rintro _ _ _ ⟨same', kept', _⟩
    refine .done ⟨?_, ?_⟩
    · rw [SameReach, show _ = _ from same']
    · exact (kept.trans begins goesOn kept').later ends
  · refine (simNo vars' holds').next ?_
    rintro _ _ _ ⟨same', kept'⟩
    refine .done ⟨?_, ?_⟩
    · rw [SameReach, show _ = _ from same']
    · exact (kept.later goesOn).trans (begins.trans goesOn) ends kept'

/-- `void` gives undefined once its operand has run. -/
theorem sim_void {operand operand' : Expr}
    (sim : Sim scopes env SameValue first second operand operand') :
    Sim scopes env (fun found found' => found = some (.plain W.undefined) ∧ found' = found)
      first second ⟨origin, .unary .void operand⟩ ⟨origin', .unary .void operand'⟩ := by
  intro vars holds
  rw [find, find, findShape, findShape]
  refine (sim vars holds).next ?_
  rintro _ _ vars' ⟨_, kept⟩
  exact .done ⟨⟨rfl, rfl⟩, kept⟩

/-- Sequences whose parts are the same are the same, and have what their right parts have. -/
theorem sim_comma {same : Option (Found W) → Option (Found W) → Prop} {left left' right right' : Expr}
    (begins : Extends scopes first second) (goesOn : Extends scopes second third)
    (sim : Sim scopes env SameValue first second left left')
    (simRight : Sim scopes env same second third right right') :
    Sim scopes env (fun found found' => ∃ last last', same last last' ∧
        found = some (.plain (Found.settle last).value) ∧
        found' = some (.plain (Found.settle last').value))
      first third ⟨origin, .binary .comma left right⟩ ⟨origin', .binary .comma left' right'⟩ := by
  intro vars holds
  rw [find, find, findShape, findShape]
  -- The left value is dropped, so the relation is that of the right operand.
  refine (sim.run goesOn holds).next ?_
  rintro _ _ vars' ⟨_, kept, holds'⟩
  refine (simRight vars' holds').next ?_
  rintro last last' vars'' ⟨same, kept'⟩
  exact .done ⟨⟨last, last', same, rfl, rfl⟩, kept.trans begins goesOn kept'⟩

/-- The operators that decide by their left operand whether the right one runs. -/
def IsLogical (op : Operator) : Prop :=
  op = .logicalAnd ∨ op = .logicalOr ∨ op = .nullishCoalescing

/-- What a logical operation does. -/
theorem find_logical {op : Operator} (isLogical : IsLogical op) (left right : Expr) :
    find (W := W) ⟨origin, .binary op left right⟩ = do
      let left := Found.settle (← find left)
      if goesRight W op left.value then
        return some (.plain (Found.settle (← find right)).value)
      else
        return some (.plain left.value) := by
  rcases isLogical with rfl | rfl | rfl <;> rw [find, findShape]

/-- Logical operations whose operands are the same are the same. -/
theorem sim_logical {op : Operator} (isLogical : IsLogical op) {left left' right right' : Expr}
    (begins : Extends scopes first second) (goesOn : Extends scopes second third)
    (sim : Sim scopes env SameValue first second left left')
    (simRight : Sim scopes env SameValue second third right right') :
    Sim scopes env SameReach first third ⟨origin, .binary op left right⟩
      ⟨origin', .binary op left' right'⟩ := by
  intro vars holds
  rw [find_logical isLogical, find_logical isLogical]
  refine (sim.run goesOn holds).next fun _ _ vars' ⟨same, kept, holds'⟩ => ?_
  simp only [show _ = _ from same]
  -- The branch without the right operand keeps what the left one established.
  refine .branch (fun _ => ?_) fun _ => .done ⟨rfl, kept.later goesOn⟩
  refine (simRight vars' holds').next fun _ _ vars'' ⟨same', kept'⟩ => ?_
  exact .done ⟨by rw [SameReach, show _ = _ from same'], kept.trans begins goesOn kept'⟩

/-- What a power does. -/
theorem find_power (left right : Expr) :
    find (W := W) ⟨origin, .binary .exponentiation left right⟩ = do
      let base := Found.settle (← find left)
      let exponent := Found.settle (← find right)
      return some (.plain (← .operate (W.pow base.value exponent.value))) := by
  rw [find, findShape]

/-- The helper that takes the place of a power does the same. -/
theorem find_powHelper (span : Span) (left right : Expr) :
    find (W := W) (.helper span "__pow" [left, right]) = do
      let base := Found.settle (← find left)
      let exponent := Found.settle (← find right)
      return some (.plain (← .operate (W.pow base.value exponent.value))) := by
  simp [Expr.helper, Expr.call, Expr.of, Expr.id, find, findShape, isMade, isNamed, findHelper,
    findArgs, Helper.call, Expr.span]

/-- Powers whose operands are the same are the same, however they are written. -/
theorem sim_power {e lowered left left' right right' : Expr}
    (finds : find (W := W) e = find ⟨origin, .binary .exponentiation left right⟩)
    (finds' : find (W := W) lowered = find ⟨origin, .binary .exponentiation left' right'⟩)
    (begins : Extends scopes first second) (goesOn : Extends scopes second third)
    (sim : Sim scopes env SameValue first second left left')
    (simRight : Sim scopes env SameValue second third right right') :
    Sim scopes env SameReach first third e lowered := by
  intro vars holds
  rw [finds, finds', find_power, find_power]
  refine (sim.run goesOn holds).next fun _ _ vars' ⟨same, kept, holds'⟩ => ?_
  -- Both operands are evaluated before the world is asked.
  refine (simRight vars' holds').next fun _ _ vars'' ⟨same', kept'⟩ => ?_
  simp only [show _ = _ from same, show _ = _ from same']
  exact .operate fun _ => .done ⟨rfl, kept.trans begins goesOn kept'⟩

end Meaning

end Downlevel
