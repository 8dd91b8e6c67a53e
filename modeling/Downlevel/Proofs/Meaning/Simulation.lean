import Downlevel.Lowering.Walk
import Downlevel.Proofs.Meaning.Steps

/-! What it means that a lowered expression does the same as its source, where a value that is needed
again is kept in a name that nothing overwrites. -/

namespace Downlevel

namespace Meaning

open Lowering

variable {W : World} {scopes : ScopeTree} {setting : Setting}

/-- What an expression that can be repeated gives. -/
def readAtom (vars : Vars W) (e : Expr) : W.Value :=
  match e.shape with
  | .id name => vars name
  | .this => W.this
  | .null => W.null
  | .bool value => W.bool value
  | .num text => W.num text
  | .str value => W.str value
  | .bigint digits => W.bigint (W.str (String.ofList (writtenDigits digits.toList)))
  | _ => W.undefined

/-- An expression that can be repeated and has a value. -/
def IsAtom (e : Expr) : Prop :=
  isReusable e = true ∧ isSuper e = false

/-- An expression that can be repeated changes nothing. -/
theorem find_atom {e : Expr} (isAtom : IsAtom e) (vars : Vars W) (hidden : W.State) :
    find e ⟨vars, hidden⟩ = (.value (some (.plain (readAtom vars e))), ⟨vars, hidden⟩) := by
  obtain ⟨origin, shape⟩ := e
  obtain ⟨reusable, notSuper⟩ := isAtom
  cases shape <;> simp [isReusable, isSuper] at reusable notSuper <;> rw [find, findShape] <;> rfl

/-- An expression that can be repeated gives the same as long as its name holds the same. -/
theorem readAtom_congr {e : Expr} {vars vars' : Vars W}
    (same : ∀ name, e.shape = .id name → vars' name = vars name) :
    readAtom vars' e = readAtom vars e := by
  unfold readAtom
  split
  · next name found => exact same name found
  all_goals rfl

/-- Lowered code never writes what the expression mentions. -/
def Fixed (scopes : ScopeTree) (progress : Progress) (e : Expr) : Prop :=
  isSuper e = false ∧ ∀ name, e.shape = .id name →
    name ∈ scopes.names.names ∨ ∃ what, HasAlias progress what name

/-- What is never written stays so. -/
theorem Fixed.later {first second : Progress} {e : Expr} (fixed : Fixed scopes first e)
    (goesOn : Extends scopes first second) : Fixed scopes second e :=
  ⟨fixed.1, fun name found => (fixed.2 name found).imp id
    fun ⟨what, held⟩ => ⟨what, goesOn.keeps what name held⟩⟩

/-- Code that was lowered before one moment or after another never writes what the expression
mentions. -/
def Guarded (scopes : ScopeTree) (made known : Progress) (e : Expr) : Prop :=
  IsAtom e ∧ ∀ name, e.shape = .id name →
    name ∈ scopes.names.names ∨ (∃ what, HasAlias known what name) ∨ IsNew scopes made known name

namespace Guarded

variable {first second made known : Progress} {e : Expr} {vars vars' : Vars W}

/-- Code that was lowered before leaves it alone. -/
theorem before (guarded : Guarded scopes made known e) (begins : Extends scopes second made)
    (captures : Extends scopes made known) (kept : Keeps scopes first second vars vars') :
    readAtom vars' e = readAtom vars e := by
  refine readAtom_congr fun name found => kept name fun writable => ?_
  rcases guarded.2 name found with recorded | ⟨what, held⟩ | new
  · exact writable.2.1 (.inr (.inl recorded))
  · rcases (begins.trans captures).fresh what name held with old | unknown
    · exact writable.2.2 what old
    · exact unknown writable.1
  · exact new.1 (begins.knows name writable.1)

/-- Code that is lowered later leaves it alone. -/
theorem after (guarded : Guarded scopes made known e) (begins : Extends scopes known first)
    (goesOn : Extends scopes first second) (kept : Keeps scopes first second vars vars') :
    readAtom vars' e = readAtom vars e := by
  refine readAtom_congr fun name found => kept name fun writable => ?_
  rcases guarded.2 name found with recorded | ⟨what, held⟩ | new
  · exact writable.2.1 (.inr (.inl recorded))
  · exact writable.2.2 what (goesOn.keeps what name (begins.keeps what name held))
  · exact writable.2.1 (begins.knows name new.2.1)

/-- What is guarded stays so. -/
theorem later {final : Progress} (guarded : Guarded scopes made known e)
    (goesOn : Extends scopes known final) : Guarded scopes made final e := by
  refine ⟨guarded.1, fun name found => ?_⟩
  rcases guarded.2 name found with recorded | ⟨what, held⟩ | new
  · exact .inl recorded
  · exact .inr (.inl ⟨what, goesOn.keeps what name held⟩)
  · refine .inr (.inr ⟨new.1, goesOn.knows name new.2.1, fun what held => ?_⟩)
    rcases goesOn.fresh what name held with old | unknown
    · exact new.2.2 what old
    · exact unknown new.2.1

end Guarded

/-- The first evaluation is that of the expression itself, and puts the value where it can be read
again. -/
structure Captured (scopes : ScopeTree) (before after : Progress) (e first again : Expr) :
    Prop where
  guarded : Guarded scopes before after again
  firstSpan : first.span = e.span
  againSpan : again.span = e.span
  run : ∀ {W : World} {env vars : Vars W} {α : Type} {source : Run W α}
    {related : α → Option (Found W) → Vars W → Prop}, Agree env vars source (find e) related →
    Agree env vars source (find first) fun result found vars' =>
      ∃ found' vars'', related result found' vars'' ∧
        Found.settle found = .plain (Found.settle found').value ∧
        readAtom vars' again = (Found.settle found').value ∧
        Keeps scopes before after vars'' vars'

/-- Assigning to a name evaluates the right side and keeps its value there. -/
theorem find_assign (span : Span) (name : String) (e : Expr) :
    find (W := W) (.assign span (.id span name) e) = do
      let found ← find e
      Run.writeVar name (Found.settle found).value
      return some (.plain (Found.settle found).value) := by
  rw [Expr.assign, Expr.binary, Expr.of, find, findShape, Expr.id, Expr.of, findRef]
  simp [Ref.write]

/-- Every value can be captured; what is guarded already stays where it is. -/
theorem recapture_yields {before progress : Progress} {e : Expr}
    (begins : Extends setting.scopes before progress) (ready : Ready setting.scopes progress)
    (guarded : isReusable e = true → Guarded setting.scopes before progress e) :
    Yields setting progress (capture e) fun after pair =>
      Captured setting.scopes before after e pair.1 pair.2 := by
  unfold capture
  cases reusable : isReusable e with
  | true =>
    refine .done ready ⟨guarded reusable, rfl, rfl, fun {_ env _ _ source _} holds hidden => ?_⟩
    have shown := holds hidden
    rw [find_atom (guarded reusable).1] at shown ⊢
    generalize source ⟨env, hidden⟩ = ended at shown ⊢
    cases shown with
    | value holds => exact .value ⟨_, _, holds, rfl, rfl, .refl _⟩
  | false =>
    refine .next (alloc_yields ready) fun name after ready' extended isNew => .done ready' ?_
    have unknown : ¬Knows setting.scopes before name := fun known =>
      isNew.1 (begins.knows name known)
    refine ⟨⟨⟨rfl, rfl⟩, fun other found => ?_⟩, rfl, rfl, fun holds => ?_⟩
    · cases found
      exact .inr (.inr ⟨unknown, isNew.2⟩)
    · rw [find_assign]
      refine holds.moreLowered fun result found vars' related => ?_
      refine Agree.writeLowered (.done ⟨found, vars', related, rfl, if_pos rfl, ?_⟩)
      intro other unwritable
      -- Only the new name was written, and that one may be.
      refine if_neg fun same => unwritable ?_
      rw [same]
      exact ⟨isNew.2.1, unknown, isNew.2.2⟩

/-- Every value can be captured. -/
theorem capture_yields {progress : Progress} {e : Expr} (ready : Ready setting.scopes progress)
    (fixed : isReusable e = true → Fixed setting.scopes progress e) :
    Yields setting progress (capture e) fun after pair =>
      Captured setting.scopes progress after e pair.1 pair.2 := by
  refine recapture_yields (.refl _) ready fun reusable => ?_
  exact ⟨⟨reusable, (fixed reusable).1⟩, fun name found =>
    ((fixed reusable).2 name found).imp id .inl⟩

/-- Neither an expression nor what a sequence or `void` puts together ends behind the limit. -/
def EndsBy (limit : Nat) : Expr → Prop
  | ⟨origin, .binary .comma left right⟩ =>
    origin.span.stop ≤ limit ∧ EndsBy limit left ∧ EndsBy limit right
  | ⟨origin, .unary .void operand⟩ => origin.span.stop ≤ limit ∧ EndsBy limit operand
  | ⟨origin, _⟩ => origin.span.stop ≤ limit

namespace EndsBy

/-- The expression itself ends by the limit. -/
theorem stop {limit : Nat} {e : Expr} (ends : EndsBy limit e) : e.span.stop ≤ limit := by
  unfold EndsBy at ends
  split at ends
  · exact ends.1
  · exact ends.1
  · exact ends

/-- The limit may be later. -/
theorem later {limit limit' : Nat} {e : Expr} (ends : EndsBy limit e) (le : limit ≤ limit') :
    EndsBy limit' e := by
  -- Along the recursion of the bound: each end it compares may only grow.
  induction e using EndsBy.induct with
  | case1 origin left right ihLeft ihRight =>
    rw [EndsBy] at ends ⊢
    exact ⟨Nat.le_trans ends.1 le, ihLeft ends.2.1, ihRight ends.2.2⟩
  | case2 origin operand ih =>
    rw [EndsBy] at ends ⊢
    exact ⟨Nat.le_trans ends.1 le, ih ends.2⟩
  | case3 origin shape notComma notVoid =>
    rw [EndsBy.eq_3 _ _ _ notComma notVoid] at ends ⊢
    exact Nat.le_trans ends le

/-- An expression that puts nothing together only has to end by the limit itself. -/
theorem ofStop {limit : Nat} {origin : Origin} {shape : Shape}
    (notComma : ∀ left right, shape ≠ .binary .comma left right)
    (notVoid : ∀ operand, shape ≠ .unary .void operand) (ends : origin.span.stop ≤ limit) :
    EndsBy limit ⟨origin, shape⟩ := by
  rw [EndsBy.eq_3 _ _ _ notComma notVoid]
  exact ends

end EndsBy

namespace Keeps

variable {first second begin final : Progress} {vars vars' vars'' : Vars W}

/-- Code that is part of a longer piece of code. -/
theorem wide (begins : Extends scopes begin first) (goesOn : Extends scopes second final)
    (kept : Keeps scopes first second vars vars') : Keeps scopes begin final vars vars' :=
  (kept.later goesOn).earlier begins

/-- Writing twice between the same moments. -/
theorem twice (kept : Keeps scopes begin final vars vars')
    (kept' : Keeps scopes begin final vars' vars'') : Keeps scopes begin final vars vars'' :=
  fun name unwritable => (kept' name unwritable).trans (kept name unwritable)

end Keeps

/-- Two ways to reach the same, also when the chain is cut short. -/
def SameReach (found found' : Option (Found W)) : Prop :=
  found' = found

/-- The same value and the same receiver for a call of it. -/
def SameCallee (found found' : Option (Found W)) : Prop :=
  Found.settle found' = Found.settle found

/-- The same value. -/
def SameValue (found found' : Option (Found W)) : Prop :=
  (Found.settle found').value = (Found.settle found).value

/-- Evaluating the lowered expression, which was made between two moments, does what evaluating its
source does, and writes only names that came up between these moments. -/
def Sim (scopes : ScopeTree) (env : Vars W)
    (same : Option (Found W) → Option (Found W) → Prop) (before after : Progress)
    (e lowered : Expr) : Prop :=
  ∀ vars, Holds scopes after env vars →
    Agree env vars (find e) (find lowered) fun found found' vars' =>
      same found found' ∧ Keeps scopes before after vars vars'

namespace Sim

variable {env vars : Vars W} {same same' : Option (Found W) → Option (Found W) → Prop}
  {before after final : Progress} {e lowered : Expr}

/-- Less is demanded of the results. -/
theorem weaken (sim : Sim scopes env same before after e lowered)
    (implies : ∀ found found', same found found' → same' found found') :
    Sim scopes env same' before after e lowered :=
  fun vars holds => (sim vars holds).weaken fun _ _ _ shown =>
    ⟨implies _ _ shown.1, shown.2⟩

/-- Within a larger piece of lowered code, what stands for something else goes on doing so. -/
theorem run (sim : Sim scopes env same before after e lowered)
    (goesOn : Extends scopes after final) (holds : Holds scopes final env vars) :
    Agree env vars (find e) (find lowered) fun found found' vars' =>
      same found found' ∧ Keeps scopes before after vars vars' ∧ Holds scopes final env vars' :=
  (sim vars (holds.earlier goesOn)).weaken fun _ _ _ shown =>
    ⟨shown.1, shown.2, holds.kept goesOn shown.2⟩

/-- Code that is part of a longer piece of code. -/
theorem wide {begin : Progress} (sim : Sim scopes env same before after e lowered)
    (begins : Extends scopes begin before) (goesOn : Extends scopes after final) :
    Sim scopes env same begin final e lowered :=
  fun _ holds => (sim.run goesOn holds).weaken fun _ _ _ shown =>
    ⟨shown.1, shown.2.1.wide begins goesOn⟩

end Sim

/-- The same value, which is nullish. -/
def SameNullish (found found' : Option (Found W)) : Prop :=
  SameValue found found' ∧ W.isNullish (Found.settle found).value = true

/-- All that the expression does can be read off its parts, and its value is known without it. -/
inductive Settles : Expr → Prop
  | void {origin : Origin} {operand : Expr}
      (notSuper : isReusable operand = true → isSuper operand = false) :
      Settles ⟨origin, .unary .void operand⟩
  | comma {origin : Origin} {left right : Expr} (settles : Settles right) :
      Settles ⟨origin, .binary .comma left right⟩
  | atom {e : Expr} (isAtom : IsAtom e) : Settles e

/-- The expression is always nullish, whatever it does before. -/
def IsNullish (setting : Setting) (e : Expr) : Prop :=
  isNullish (setting.scopes.declares "undefined") e = true

/-- A lowered expression that can take the place of its source. -/
structure Valued (setting : Setting) (env : Vars W) (before after : Progress) (e lowered : Expr) :
    Prop where
  value : Sim setting.scopes env SameValue before after e lowered
  /-- Lowering a chain loses the receiver of its last access. -/
  callee : e.isChained = false ∨ setting.options.target.supports .optionalChain = true →
    Sim setting.scopes env SameCallee before after e lowered
  ends : EndsBy e.span.stop lowered
  fixed : isReusable lowered = true → Fixed setting.scopes after lowered
  nullish : IsNullish setting e →
    Settles lowered ∧ Sim setting.scopes env SameNullish before after e lowered

/-- The lowering of an expression always gives one that can take its place. -/
def Lowers (setting : Setting) (env : Vars W) (e : Expr) (step : Lower Expr) : Prop :=
  ∀ progress, Ready setting.scopes progress →
    Yields setting progress step fun after lowered => Valued setting env progress after e lowered

/-- A lowered expression that also has the receiver of its source can take its place. -/
theorem Valued.ofCallee {env : Vars W} {before after : Progress} {e lowered : Expr}
    (callee : Sim setting.scopes env SameCallee before after e lowered)
    (ends : EndsBy e.span.stop lowered)
    (fixed : isReusable lowered = true → Fixed setting.scopes after lowered)
    (nullish : IsNullish setting e →
      Settles lowered ∧ Sim setting.scopes env SameNullish before after e lowered) :
    Valued setting env before after e lowered :=
  ⟨callee.weaken fun _ _ same => congrArg Found.value same, fun _ => callee, ends, fixed, nullish⟩

end Meaning

end Downlevel
