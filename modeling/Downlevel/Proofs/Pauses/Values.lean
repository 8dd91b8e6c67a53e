import Downlevel.Lowering.Statement
import Downlevel.Proofs.Forms
import Downlevel.Proofs.Pauses.Functions
import Downlevel.Proofs.StateSteps

/-! What the value of an expression looks like tells what a chain or a statement may leave out of it
without a pause getting lost. -/

namespace Downlevel

open Lowering

/-- Nothing is left of a chain that was collapsed. -/
def Expr.IsWhole (e : Expr) : Prop :=
  e.origin.collapsed = false

/-- What lowering puts together and evaluates whatever becomes of the value, once; it has the given
origin or is whole. -/
structure Expr.Stays (origin : Origin) (e : Expr) : Prop where
  whole : origin.collapsed = false → e.IsWhole
  isKept : Purity.isRemovable e = false
  isOnce : isReusable e = false

/-- As a statement, the expression has all its pauses. -/
def Expr.IsNeat (e : Expr) : Prop :=
  ∀ span, stmtsPauses .all (exprStmt span e) = exprPauses .all e

namespace Ending

variable {origin : Origin} {span : Span} {link : ChainLink} {object left right : ExprForms}

section Removable

/-- A sequence need not be evaluated if none of its parts has to be. -/
theorem isRemovable_sequence (first : Expr) (rest : List Expr) :
    Purity.isRemovable (.sequence first rest)
      = (Purity.isRemovable first && rest.all Purity.isRemovable) := by
  induction rest generalizing first with
  | nil => simp [Expr.sequence]
  | cons second rest ih =>
    have step : Expr.sequence first (second :: rest) = Expr.sequence (first.andThen second) rest := rfl
    have both : Purity.isRemovable (first.andThen second)
        = (Purity.isRemovable first && Purity.isRemovable second) := rfl
    rw [step, ih, both, List.all_cons, Bool.and_assoc]

/-- The same for a value that something may stand in front of. -/
theorem isRemovable_inSequence (exprs : List Expr) (last : Expr) :
    Purity.isRemovable (inSequence exprs last)
      = (exprs.all Purity.isRemovable && Purity.isRemovable last) := by
  cases exprs with
  | nil => rfl
  | cons first rest => simp [inSequence, isRemovable_sequence, Bool.and_assoc]

/-- Only a comma need not be evaluated if its operands need not. -/
theorem isRemovable_binary {op : Operator} (notComma : op ≠ .comma) {first second : Expr} :
    Purity.isRemovable ⟨origin, .binary op first second⟩ = false := by
  cases op <;> first | rfl | exact absurd rfl notComma

end Removable

section Built

/-! What most expressions become is put together by lowering, and is left out nowhere. -/

/-- A sequence that has to be evaluated stays. -/
theorem stays_sequence {first last : Expr} {rest : List Expr}
    (isKept : Purity.isRemovable (.sequence first (rest ++ [last])) = false) :
    (Expr.sequence first (rest ++ [last])).Stays origin := by
  refine ⟨fun _ => ?_, isKept, ?_⟩ <;> rw [Expr.sequence, List.foldl_append] <;> rfl

/-- A value with something in front of it stays if it has to be evaluated. -/
theorem stays_inSequence {exprs : List Expr} {last : Expr}
    (isKept : Purity.isRemovable (inSequence exprs last) = false)
    (ends : exprs = [] → last.Stays origin) : (inSequence exprs last).Stays origin := by
  cases exprs with
  | nil => exact ends rfl
  | cons first rest => exact stays_sequence isKept

/-- Reading a private field is a call or an access. -/
theorem stays_read {binding : PrivateBinding} {e : Expr} : (binding.read span e).Stays origin := by
  unfold PrivateBinding.read
  split <;> exact ⟨fun _ => rfl, rfl, rfl⟩

/-- Writing a private field is a call or an assignment. -/
theorem stays_write {binding : PrivateBinding} {e value : Expr} :
    (binding.write span e value).Stays origin := by
  unfold PrivateBinding.write
  split <;> exact ⟨fun _ => rfl, rfl, rfl⟩

/-- A member that is private or not. -/
theorem stays_privateBinding? {name : String} {rest : Option PrivateBinding → Lower Expr}
    (plain : Ensures (rest none) (Expr.Stays origin))
    (found : ∀ binding, Ensures (rest (some binding)) (Expr.Stays origin)) :
    Ensures (privateBinding? name >>= rest) (Expr.Stays origin) :=
  .next fun binding => by
    cases binding with
    | none => exact plain
    | some binding => exact found binding

/-- Writing a place is an assignment, or the call that writes a private field. -/
theorem stays_writePlace (value : Expr) (place : Lowering.Place) :
    Ensures (place.write span value) (Expr.Stays origin) := by
  cases place with
  | identifier name => exact .done ⟨fun _ => rfl, rfl, rfl⟩
  | member object name =>
    exact stays_privateBinding? (.done ⟨fun _ => rfl, rfl, rfl⟩) fun _ => .done stays_write
  | computed object key => exact .done ⟨fun _ => rfl, rfl, rfl⟩

/-- A value that stands in for a nullish one is behind a test. -/
theorem stays_nullishOr (left right : Expr) : Ensures (nullishOr span left right) (Expr.Stays origin) :=
  .next fun _ => .done ⟨fun _ => rfl, rfl, rfl⟩

/-- An assignment that depends on the place assigns behind a test. -/
theorem stays_logicalAssignment (op : Operator) (split : Lower (Lowering.Place × Lowering.Place))
    (right : Lower Expr) : Ensures (logicalAssignment span op split right) (Expr.Stays origin) := by
  refine .next fun (first, again) => .next fun right => .next fun read => .next fun write => ?_
  split
  · exact .done ⟨fun _ => rfl, rfl, rfl⟩
  · exact .done ⟨fun _ => rfl, rfl, rfl⟩
  · refine .next fun isLacking => ?_
    split
    · exact stays_nullishOr read write
    · exact .done ⟨fun _ => rfl, rfl, rfl⟩
  · exact .fails

/-- A compound assignment becomes one that writes the place. -/
theorem stays_compoundAssignment (op : Operator)
    (split : Lower (Lowering.Place × Lowering.Place)) (right : Lower Expr) :
    Ensures (compoundAssignment span op split right) (Expr.Stays origin) :=
  .next fun (first, _) => .next fun _ => .next fun _ => .next fun _ => stays_writePlace _ first

/-- A pattern that is split assigns to a made-up name first. -/
theorem stays_splitAssignedRest? (origin : Origin) (properties : List PatternProperty)
    (rest : Option Pattern) (value : Expr) :
    Ensures (splitAssignedRest? span properties rest value) fun split =>
      ∀ e ∈ split, e.Stays origin := by
  unfold splitAssignedRest?
  -- Without a rest of its own the pattern is only checked, and with one it is split unless it is
  -- too deep.
  cases rest with
  | none =>
    dsimp only
    split
    · exact .next fun _ => .done nofun
    · exact .done nofun
  | some rest =>
    dsimp only
    split
    · exact .next fun _ => .done nofun
    · refine .next fun name => .next fun parts => .done ?_
      rintro e ⟨⟩
      exact stays_sequence (isRemovable_sequence _ _)

/-- An assignment stays one, whatever becomes of its left side. -/
theorem stays_plainAssignment (right : Lower Expr) :
    Ensures (plainAssignment origin left right) (Expr.Stays origin) := by
  refine .next fun found => ?_
  -- A private member is written by its helper; any other target may hold a rest to split.
  cases found with
  | some found =>
    obtain ⟨binding, object⟩ := found
    exact .next fun object => .next fun value => .done stays_write
  | none =>
    refine .next fun target => .next fun value => ?_
    extract_lets stays
    have inStays : Ensures (stays ()) (Expr.Stays origin) := .done ⟨id, rfl, rfl⟩
    split
    · refine .next fun isLacking => ?_
      split
      · refine (stays_splitAssignedRest? origin _ _ _).bind fun split isSplit => ?_
        cases split with
        | none => exact inStays
        | some e => exact .done (isSplit e rfl)
      · exact inStays
    · exact inStays

/-- Any operator that is neither a comma nor an assignment. -/
theorem stays_plainBinary {op : Operator}
    (notComma : op ≠ .comma) : Ensures (plainBinary origin op left right) (Expr.Stays origin) := by
  refine .next fun first => .next fun second => .next fun _ => ?_
  split
  · exact stays_nullishOr first second
  · refine .next fun _ => ?_
    split
    · exact .done ⟨fun _ => rfl, rfl, rfl⟩
    · exact .done ⟨id, isRemovable_binary notComma, rfl⟩

/-- An operator other than a comma. -/
theorem stays_binary {op : Operator} (notComma : op ≠ .comma) :
    Ensures (binary origin op left right) (Expr.Stays origin) := by
  refine .next fun found => ?_
  -- An assignment has its own rules, one per operator class, and only `in` looks at a private name.
  split
  · exact stays_plainAssignment right.value
  · have stays : Ensures (do
        let target ← left.target
        return ⟨origin, .binary op target (← right.value)⟩) (Expr.Stays origin) :=
      .next fun _ => .next fun _ => .done ⟨id, isRemovable_binary notComma, rfl⟩
    split
    · split
      · refine .next fun isLacking => ?_
        split
        · exact stays_logicalAssignment _ _ _
        · exact stays
      · refine .next fun isLacking => ?_
        split
        · exact stays_compoundAssignment _ _ _
        · exact stays
    · exact stays
    · split
      · exact stays_privateBinding? (stays_plainBinary notComma) fun _ =>
          .next fun _ => .done ⟨fun _ => rfl, rfl, rfl⟩
      · exact stays_plainBinary notComma

/-- Waiting is done for what it does. -/
theorem stays_awaited (promise : Expr) : Ensures (awaited span promise) (Expr.Stays origin) := by
  refine .next fun owner => ?_
  split <;> exact .done ⟨fun _ => rfl, rfl, rfl⟩

/-- A tagged template becomes a call. -/
theorem stays_taggedToCall (tag : Expr) (receiver : Option Expr) (head : String)
    (spans : List TemplateSpan) :
    Ensures (taggedToCall span tag receiver head spans) (Expr.Stays origin) := by
  refine .next fun strings => .next fun name => ?_
  cases receiver <;> exact .done ⟨fun _ => rfl, rfl, rfl⟩

/-- Members that are added to others are added by a call. -/
theorem stays_spreadMembers {sofar : Option Expr} (stays : ∀ e ∈ sofar, e.Stays origin)
    (collected members : List ObjectMember) :
    (spreadMembers span sofar collected members).Stays origin := by
  fun_induction spreadMembers span sofar collected members with
  | case1 sofar collected spreadSpan value rest base ih =>
    refine ih fun e isOwn => ?_
    obtain rfl := Option.mem_some.mp isOwn
    exact ⟨fun _ => rfl, rfl, rfl⟩
  | case2 sofar collected member rest noSpread ih => exact ih stays
  | case3 sofar => exact stays sofar rfl
  | case4 sofar collected => cases sofar <;> exact ⟨fun _ => rfl, rfl, rfl⟩

/-- An object literal stays one or becomes a call. -/
theorem stays_objectLiteral (members : List ObjectMember) :
    Ensures (objectLiteral origin members) (Expr.Stays origin) := by
  refine .next fun isLacking => ?_
  split
  · exact .done (stays_spreadMembers (fun _ isOwn => by cases isOwn) [] members)
  · exact .done ⟨id, rfl, rfl⟩

/-- A sum is one also when more is added. -/
theorem stays_sum (operands : List Expr) {first : Expr} (stays : first.Stays origin) :
    (operands.foldl (.binary span .addition) first).Stays origin := by
  induction operands generalizing first with
  | nil => exact stays
  | cons operand operands ih => exact ih ⟨fun _ => rfl, rfl, rfl⟩

/-- A template with a substitution becomes an addition. -/
theorem stays_templateSum {head : String} {part : TemplateSpan} {rest : List TemplateSpan} :
    (Templates.sum span head (part :: rest)).Stays origin := by
  rw [Templates.sum, Templates.operands, List.flatMap_cons, List.cons_append, List.foldl_cons]
  exact stays_sum _ ⟨fun _ => rfl, rfl, rfl⟩

/-- A template is never left over of a chain. -/
theorem isWhole_templateSum {head : String} {spans : List TemplateSpan} :
    (Templates.sum span head spans).IsWhole := by
  cases spans with
  | nil => rfl
  | cons part rest =>
    have stays : (Templates.sum span head (part :: rest)).Stays ⟨span, false⟩ := stays_templateSum
    exact stays.whole rfl

/-- A class is one, or is assigned to the made-up name that it is known by. -/
theorem stays_classExpression (name : Option String) (heritage : Option (Lower Expr))
    (source : List ClassMember) (forms : List ClassMemberForms) :
    Ensures (classExpression span name heritage source forms) (Expr.Stays origin) := by
  refine .next fun lowered => ?_
  split
  · refine .done (stays_inSequence ?_ fun _ => ⟨fun _ => rfl, rfl, rfl⟩)
    rw [isRemovable_inSequence]
    exact Bool.and_false _
  · refine .next fun temp => ?_
    -- The class is assigned to a made-up name.
    have isKept (behind : List Expr) (made : Expr) :
        Purity.isRemovable (inSequence (lowered.before
            ++ .assign span (.id span temp) made :: behind) (.id span temp)) = false := by
      rw [isRemovable_inSequence]
      exact Bool.and_false _
    have ends {behind : List Expr} {made : Expr} (none : lowered.before ++ made :: behind = []) :
        (Expr.id span temp).Stays origin := by
      simp at none
    cases name <;> exact .done (stays_inSequence (isKept _ _) ends)

/-- The operands of a comma stay its operands. -/
theorem ensures_comma {isFirst isLast demand : Expr → Prop} (first : Ensures left.value isFirst)
    (last : Ensures right.value isLast)
    (holds : ∀ first last, isFirst first → isLast last →
      demand ⟨origin, .binary .comma first last⟩) :
    Ensures (binary origin .comma left right) demand := by
  have plain : Ensures (plainBinary origin .comma left right) demand :=
    first.bind fun first isFirst => last.bind fun last isLast => .next fun _ => .next fun _ =>
      .done (holds first last isFirst isLast)
  -- A comma assigns nothing, so whether the left side is private makes no difference.
  exact .next fun _ => plain

end Built

section Neat

/-- A statement leaves out only what is left over of a chain. -/
theorem isNeat_of_whole {e : Expr} (whole : e.IsWhole) : e.IsNeat := by
  intro span
  simp [exprStmt, show e.origin.collapsed = false from whole]

/-- What is left of a collapsed chain has its pauses in front of its value. -/
theorem isNeat_collapse (mode : ChainMode) (base : Expr) : (collapse span mode base).IsNeat := by
  intro stmtSpan
  rw [pauses_collapse]
  -- What a chain leaves behind is a fold over its effects: with none of them only the end remains.
  cases effects : nullishEffects base with
  | nil =>
    unfold collapse cutShort
    rw [effects]
    cases mode <;> rfl
  | cons first rest =>
    unfold collapse
    rw [effects]
    simp only [Expr.sequence, List.foldl_append]
    have inFront : exprPauses .all (rest.foldl Expr.andThen first)
        = (first :: rest).flatMap (exprPauses .all) := by
      simpa [Expr.sequence] using @pauses_sequence .all first rest
    simpa [exprStmt, Expr.andThen, Expr.binary, Expr.of] using inFront

/-- A chain becomes a test, or what is left over when it never runs. -/
theorem neat_lowerChain (mode : ChainMode) (chain : ChainForms) :
    Ensures (lowerChain span mode chain) fun lowered => lowered.1.IsNeat := by
  unfold lowerChain
  cases chain.base with
  | none => exact .fails
  | some base =>
    refine .next fun bound => ?_
    -- A base that is nullish at once collapses the chain; any other becomes a test.
    split
    · exact .next fun value => .next fun _ => .done (isNeat_collapse mode value)
    · extract_lets isCalled goOn
      have ends (callee : Expr × Option Expr) :
          Ensures (goOn callee) fun lowered => lowered.1.IsNeat :=
        .next fun _ => .next fun _ => .next fun _ => .done (isNeat_of_whole rfl)
      split <;> exact .next ends

/-- A link of a chain, which is lowered along with the chain if it is part of one. -/
theorem neat_linkForms {forms : ExprForms}
    (natively : link.isChained = true → Ensures forms.natively Expr.IsWhole)
    (value : link.isChained = false → Ensures forms.value Expr.IsWhole) :
    Ensures (linkForms link forms).value Expr.IsNeat := by
  unfold linkForms
  split
  · rename_i isChained
    have inChain : Ensures (optionalChain forms .value) fun lowered => lowered.1.IsNeat := by
      refine .next fun isLowered => ?_
      split
      · exact neat_lowerChain .value forms.chain
      · exact (natively isChained).bind fun e whole => .done (isNeat_of_whole whole)
    exact inChain.bind fun lowered isNeat => .done isNeat
  · rename_i plain
    exact (value (Bool.eq_false_iff.mpr plain)).imp fun _ => isNeat_of_whole

/-- An operator in front of its operand has all its pauses, also if it deletes the end of a chain. -/
theorem neat_unary (whole : origin.collapsed = false) (op : Operator) (operand : ExprForms) :
    Ensures (unary origin op operand) Expr.IsNeat := by
  have stays {step : Lower Expr} :
      Ensures (do return ⟨origin, .unary op (← step)⟩) Expr.IsNeat :=
    .next fun _ => .done (isNeat_of_whole whole)
  unfold unary
  -- Only `delete` looks into the chain below it, and only `await` reads the function it stands in.
  split
  · split
    · refine .next fun isLowered => ?_
      split
      · exact (neat_lowerChain .delete operand.chain).bind fun lowered isNeat => .done isNeat
      · exact .next fun _ => .done (isNeat_of_whole whole)
    · exact stays
  · exact stays
  · exact stays
  · refine .next fun promise => .next fun owner => .next fun isLacking => ?_
    extract_lets goOn
    have waits : Ensures (goOn ()) Expr.IsNeat := by
      unfold goOn
      split
      · exact .done (isNeat_of_whole whole)
      · exact (stays_awaited promise).imp fun _ stays => isNeat_of_whole (stays.whole whole)
    split
    · exact .next fun _ => waits
    · exact waits
  · exact stays

/-- As a statement, the value of an expression that was read has all its pauses. -/
theorem neat_shape (whole : origin.collapsed = false) (shape : Shape) :
    Ensures (shapeForms origin shape).value Expr.IsNeat := by
  have plainly {step : Lower Expr} (holds : Ensures step Expr.IsWhole) :
      Ensures step Expr.IsNeat := holds.imp fun _ => isNeat_of_whole
  have built {step : Lower Expr} (holds : Ensures step (Expr.Stays origin)) : Ensures step Expr.IsNeat :=
    plainly (holds.imp fun _ stays => stays.whole whole)
  -- One case per constructor: almost all build a node of their own origin, which is whole.
  cases shape with
  | arrow func =>
    refine plainly (.next fun func => .next fun isLacking => ?_)
    split
    · exact .done rfl
    · exact .done whole
  | binary op left right =>
    by_cases isComma : op = .comma
    · subst isComma
      exact plainly (ensures_comma .anyhow .anyhow fun _ _ _ _ => whole)
    · exact built (stays_binary isComma)
  | call link isPure callee args =>
    have isCall : shapeForms origin (.call link isPure callee args)
        = callForms origin link isPure (exprForms callee) args (argsStep args) := rfl
    rw [isCall, callForms_eq]
    refine neat_linkForms (fun _ => .next fun _ => .next fun _ => .done whole) fun _ => ?_
    refine .next fun (function, receiver) => .next fun args => ?_
    cases receiver with
    | some receiver => exact .done rfl
    | none => exact .done whole
  | classExpr name heritage members => exact built (stays_classExpression _ _ _ _)
  | computed link object key =>
    refine neat_linkForms (fun _ => .next fun _ => .next fun _ => .done whole) fun _ => ?_
    exact .next fun _ => .next fun _ => .done whole
  | cond test consequent alternate =>
    exact plainly (.next fun _ => .next fun _ => .next fun _ => .done whole)
  | function name func => exact plainly (.next fun _ => .done whole)
  | id name =>
    have inName : Ensures (nameForms origin name).value Expr.IsWhole := by
      unfold nameForms
      dsimp only
      split
      · exact .done whole
      · refine .next fun found => ?_
        cases found with
        | some other => exact .done rfl
        | none => exact .done whole
    exact plainly inName
  | importCall module => exact plainly (.next fun _ => .done whole)
  | member link object name =>
    refine neat_linkForms (fun _ => .next fun _ => .done whole) fun _ => ?_
    refine .next fun binding => ?_
    cases binding with
    | none => exact .next fun _ => .done whole
    | some binding => exact .next fun _ => .done (stays_read.whole whole)
  | new callee args => exact plainly (.next fun _ => .next fun _ => .done whole)
  | tagged tag head spans =>
    refine plainly (.next fun (tag, receiver) => .next fun spans => .next fun _ => ?_)
    split
    · exact .done whole
    · exact (stays_taggedToCall _ _ _ _).imp fun _ stays => stays.whole whole
  | this =>
    refine plainly (.next fun found => ?_)
    cases found with
    | some name => exact .done rfl
    | none => exact .done whole
  | unary op operand => exact neat_unary whole op _
  | update op operand => exact plainly (.next fun _ => .done whole)
  | yield isDelegated operand =>
    refine plainly (.next fun operand => ?_)
    cases operand with
    | some operand =>
      dsimp only
      split
      · exact .next fun _ => .done whole
      · exact .done whole
    | none => exact .done whole
  | array items => exact plainly (.next fun _ => .done whole)
  | bigint digits =>
    refine plainly (.next fun isLacking => ?_)
    split
    · exact .done rfl
    · exact .done whole
  | object members => exact built (.next fun members => stays_objectLiteral members)
  | template head spans =>
    refine plainly (.next fun spans => .next fun isLacking => ?_)
    split
    · rw [templateToSum_eq]
      exact .done isWhole_templateSum
    · exact .done whole
  | arrayPattern slots rest | objectPattern properties rest =>
    exact plainly (.next fun _ => .next fun _ => .done whole)
  | importMeta | newTarget | super | bool | null | num | regex | str => exact plainly (.done whole)

end Neat

section Covers

/-- An expression without pauses has none besides its value. -/
theorem covers_of_calm {e : Expr} (none : exprPauses .all e = []) : Covers e := by
  simp [Covers, none]

/-- `void` gives no value, and its operand is what it does besides. -/
theorem covers_void (operand : Expr) : Covers ⟨origin, .unary .void operand⟩ := by
  intro pause mem
  rw [nullishEffects]
  split
  · rename_i reusable
    simp [pauses_reusable reusable] at mem
  · simpa using mem

/-- What is in front of a comma is done besides the value behind it. -/
theorem covers_comma {first last : Expr} (covers : Covers last) :
    Covers ⟨origin, .binary .comma first last⟩ := by
  intro pause mem
  rw [nullishEffects, List.flatMap_append, pauses_commaParts]
  rcases List.mem_append.mp mem with isFirst | isLast
  · exact List.mem_append_left _ isFirst
  · exact List.mem_append_right _ (covers pause isLast)

/-- An expression that is always nullish has all its pauses in what it does besides. -/
theorem covers_value (bound : Bool) (e : Expr) (nullish : isNullish bound e = true) :
    Ensures (exprForms e).value Covers := by
  -- The induction is the one of the check itself: under a comma only the last operand must be
  -- nullish.
  fun_induction isNullish bound e with
  | case1 origin operand =>
    have isVoid : (exprForms ⟨origin, .unary .void operand⟩).value
        = (do return ⟨origin, .unary .void (← (exprForms operand).value)⟩) := rfl
    rw [isVoid]
    exact .next fun operand => .done (covers_void operand)
  | case2 origin left right ih =>
    exact ensures_comma .anyhow (ih nullish) fun _ _ _ covers => covers_comma covers
  | case3 e notVoid notComma =>
    obtain ⟨origin, shape⟩ := e
    cases shape with
    | null => exact .done (covers_of_calm rfl)
    | id name =>
      have isUndefined : name ≠ "arguments" := by
        rintro rfl
        simp [isBareNullish] at nullish
      have stays : (exprForms ⟨origin, .id name⟩).value = pure ⟨origin, .id name⟩ := if_pos isUndefined
      rw [stays]
      exact .done (covers_of_calm rfl)
    | _ => cases nullish

end Covers

section Vanish

/-! Lowering leaves out what need not be evaluated only if that was so before. -/

/-- What an expression becomes may be left out or repeated only if the expression itself may, or is
just a name. -/
structure Resembles (source e : Expr) : Prop where
  vanishes : Vanishes source e
  repeats : isReusable e = true → source.mayVanish = true ∨ ∃ name, source.shape = .id name

/-- What remains of an expression that is always nullish may be left out only if the expression
itself may. -/
def Empties (source e : Expr) : Prop :=
  (nullishEffects e).all Purity.isRemovable = true → source.emptiesOut false = true

/-- The value of an expression resembles it, also as the base of a chain. -/
structure ResemblesForms (forms : ExprForms) : Prop where
  value : Ensures forms.value (Resembles forms.source)
  empties : ∀ bound, isNullish bound forms.source = true →
    Ensures forms.value (Empties forms.source)
  base : ∀ base ∈ forms.chain.base, base.source = forms.source.chainBase
    ∧ ∀ bound, isNullish bound base.source = true → Ensures base.value (Empties base.source)

/-- What an expression becomes resembles it, if its forms do. -/
theorem ResemblesForms.ofSource {e : Expr} (resembles : ResemblesForms (exprForms e)) :
    Ensures (exprForms e).value (Resembles e) := by
  have inValue := resembles.value
  rwa [exprForms_source] at inValue

/-- The value of the forms may be left out only if their source may. -/
theorem ResemblesForms.vanishes {forms : ExprForms} (resembles : ResemblesForms forms) :
    Ensures forms.value (Vanishes forms.source) :=
  resembles.value.imp fun _ => Resembles.vanishes

variable {source e : Expr}

/-- An expression that is neither left out nor repeated resembles everything. -/
theorem resembles_kept (isKept : Purity.isRemovable e = false) (isOnce : isReusable e = false) :
    Resembles source e where
  vanishes removable := absurd (isKept.symm.trans removable) Bool.false_ne_true
  repeats reusable := absurd (isOnce.symm.trans reusable) Bool.false_ne_true

/-- An expression that stays resembles everything. -/
theorem resembles_stays (stays : e.Stays origin) : Resembles source e :=
  resembles_kept stays.isKept stays.isOnce

/-- Everything resembles an expression that may be left out. -/
theorem resembles_vanishing (mayVanish : source.mayVanish = true) : Resembles source e where
  vanishes _ := mayVanish
  repeats _ := .inl mayVanish

/-- The expressions of a sequence need not be evaluated if the sequence need not. -/
theorem all_commaParts (e : Expr) :
    (commaParts e).all Purity.isRemovable = Purity.isRemovable e := by
  fun_induction commaParts e with
  | case1 origin left right ihLeft ihRight =>
    rw [List.all_append, ihLeft, ihRight]
    rfl
  | case2 origin shape other => exact Bool.and_true _

/-- The base of a chain says whether the chain may be left out. -/
theorem emptiesOut_chainBase (e : Expr) : e.chainBase.emptiesOut false = e.emptiesOut true := by
  obtain ⟨_, shape⟩ := e
  cases shape with
  | member link object name | computed link object key | call link isPure object args =>
    cases link with
    | continues => exact emptiesOut_chainBase object
    | _ => rfl
  | unary op operand => cases op <;> rfl
  | binary op left right => cases op <;> rfl
  | _ => rfl

/-- The same, from a link on. -/
theorem emptiesOut_base {object : Expr} :
    object.emptiesOut (link == .continues) = (link.base object).emptiesOut false := by
  cases link with
  | continues => exact (emptiesOut_chainBase object).symm
  | _ => rfl

/-- What is left of a collapsed chain need not be evaluated if none of what is in front of its value
has to be. -/
theorem isRemovable_collapse (mode : ChainMode) (base : Expr) :
    Purity.isRemovable (collapse span mode base)
      = (nullishEffects base).all Purity.isRemovable := by
  -- The end of a cut chain is a literal, so the effects decide alone.
  have ends : Purity.isRemovable (cutShort span mode) = true := by
    cases mode <;> rfl
  have relabelled (e : Expr) (origin : Origin) :
      Purity.isRemovable { e with origin } = Purity.isRemovable e := by
    cases e
    rfl
  unfold collapse
  rw [relabelled]
  split
  · rename_i none
    simp [none, ends]
  · rename_i first rest effects
    simp [effects, isRemovable_sequence, ends]

/-- Only a value that nothing is in front of is left to be repeated. -/
theorem isRemovable_of_isReusable_collapse {mode : ChainMode} {base : Expr}
    (reusable : isReusable (collapse span mode base) = true) :
    Purity.isRemovable (collapse span mode base) = true := by
  cases effects : nullishEffects base with
  | nil => simp [isRemovable_collapse, effects]
  | cons first rest =>
    simp [collapse, effects, Expr.sequence, isReusable, Expr.andThen, Expr.binary, Expr.of]
      at reusable

/-- What is left over of a chain may be left out only if the base says so. -/
theorem resembles_collapse {mode : ChainMode} {base : Expr} {inFront : Expr}
    (empties : Empties inFront base)
    (ends : inFront.emptiesOut false = true → source.mayVanish = true) :
    Resembles source (collapse span mode base) where
  vanishes removable := ends (empties (by rwa [isRemovable_collapse] at removable))
  repeats reusable :=
    .inl (ends (empties (by
      rw [← @isRemovable_collapse span mode]
      exact isRemovable_of_isReusable_collapse reusable)))

/-- A lowered chain may be left out only if its base is nullish and does nothing besides. -/
theorem resembles_lowerChain (mode : ChainMode) {chain : ChainForms}
    (base : ∀ base ∈ chain.base,
      (∀ bound, isNullish bound base.source = true → Ensures base.value (Empties base.source))
        ∧ (base.source.emptiesOut false = true → source.mayVanish = true)) :
    Ensures (lowerChain span mode chain) fun lowered => Resembles source lowered.1 := by
  -- Where the base is nullish the whole chain becomes its effects; otherwise a test stays, and a
  -- test is never removable.
  unfold lowerChain
  cases isBase : chain.base with
  | none => exact .fails
  | some inFront =>
    obtain ⟨empties, ends⟩ := base inFront isBase
    refine .next fun bound => ?_
    split
    · rename_i nullish
      exact (empties bound nullish).bind fun value empties => .next fun _ =>
        .done (resembles_collapse empties ends)
    · extract_lets isCalled goOn
      have tests (callee : Expr × Option Expr) :
          Ensures (goOn callee) fun lowered => Resembles source lowered.1 :=
        .next fun _ => .next fun _ => .next fun _ => .done (resembles_kept rfl rfl)
      split <;> exact .next tests

/-- The base of the chain of a link. -/
theorem base_chainOn (inObject : ResemblesForms object) (part : LinkForms) :
    ∀ base ∈ (chainOn link object part).base, base.source = link.base object.source
      ∧ ∀ bound, isNullish bound base.source = true →
        Ensures base.value (Empties base.source) := by
  unfold chainOn ChainLink.base
  split
  · exact inObject.base
  · rintro base ⟨⟩
    exact ⟨rfl, inObject.empties⟩

/-- A link, which is lowered along with its chain if it is part of one. -/
theorem resembles_linkForms {forms : ExprForms} {part : LinkForms}
    (inObject : ResemblesForms object) (chain : forms.chain = chainOn link object part)
    (base : forms.source.chainBase = link.base object.source)
    (ends : link.isChained = true → object.source.emptiesOut (link == .continues) = true →
      forms.source.mayVanish = true)
    (notNullish : ∀ bound, isNullish bound forms.source = false)
    (natively : Ensures forms.natively (Resembles forms.source))
    (value : Ensures forms.value (Resembles forms.source)) :
    ResemblesForms (linkForms link forms) := by
  have inBase := @base_chainOn link object inObject part
  -- A link ends a chain or continues one: the base handed on is that of the object either way.
  refine ⟨?_, fun bound nullish => ?_, ?_⟩
  · rw [linkForms_source]
    unfold linkForms
    split
    · rename_i isChained
      have lowered : Ensures (optionalChain forms .value) fun lowered =>
          Resembles forms.source lowered.1 := by
        refine .next fun isLowered => ?_
        split
        · refine resembles_lowerChain .value fun base mem => ?_
          rw [chain] at mem
          obtain ⟨isBase, empties⟩ := inBase base mem
          refine ⟨empties, fun emptied => ends isChained ?_⟩
          rwa [emptiesOut_base, ← isBase]
        · exact natively.bind fun e resembles => .done resembles
      exact lowered.bind fun _ resembles => .done resembles
    · exact value
  · rw [linkForms_source, notNullish] at nullish
    cases nullish
  · rw [linkForms_source, base]
    unfold linkForms
    split <;>
    · rw [chain]
      exact inBase

/-- An expression that is no link and not nullish. -/
theorem resembles_plainForms {value : Lower Expr} (holds : Ensures value (Resembles source))
    (notNullish : ∀ bound, isNullish bound source = false) :
    ResemblesForms (plainForms source value) where
  value := holds
  empties bound nullish := absurd ((notNullish bound).symm.trans nullish) Bool.false_ne_true
  base _ mem := nomatch mem

/-- An operand may be left out along with an operator that does nothing by itself. -/
theorem mayVanish_unary {op : Operator} (sign : op.isRemovableSign = true)
    (mayVanish : source.mayVanish = true) : Expr.mayVanish ⟨origin, .unary op source⟩ = true := by
  obtain ⟨inner, shape⟩ := source
  cases op with
  | typeof => cases shape <;> first | rfl | exact mayVanish
  | unaryPlus | unaryNegation | logicalNot | bitwiseNot | void => exact mayVanish
  | _ => cases sign

/-- An operator need not be evaluated if it does nothing by itself, or asks for the type of a name. -/
theorem sign_of_isRemovable {op : Operator}
    (removable : Purity.isRemovable ⟨origin, .unary op e⟩ = true) :
    (op = .typeof ∧ ∃ name, e.shape = .id name)
      ∨ op.isRemovableSign = true ∧ Purity.isRemovable e = true := by
  obtain ⟨inner, shape⟩ := e
  by_cases isTypeof : op = .typeof
  · subst isTypeof
    cases shape with
    | id name => exact .inl ⟨rfl, name, rfl⟩
    | _ => exact .inr (Bool.and_eq_true_iff.mp removable)
  · rw [Purity.isRemovable, Purity.isRemovableShape] at removable
    · exact .inr (Bool.and_eq_true_iff.mp removable)
    · exact fun _ _ isSame => absurd isSame isTypeof

/-- An operator other than `delete` that stays in front of what its operand becomes. -/
theorem resembles_operand {op : Operator} (resembles : Resembles source e) :
    Resembles ⟨origin, .unary op source⟩ ⟨origin, .unary op e⟩ where
  vanishes removable := by
    rcases sign_of_isRemovable removable with ⟨rfl, name, isName⟩ | ⟨sign, removable⟩
    · have reusable : isReusable e = true := by rw [isReusable, isName]
      rcases resembles.repeats reusable with mayVanish | ⟨own, isOwn⟩
      · exact mayVanish_unary rfl mayVanish
      · obtain ⟨inner, shape⟩ := source
        obtain rfl : shape = .id own := isOwn
        rfl
    · exact mayVanish_unary sign (resembles.vanishes removable)
  repeats reusable := nomatch reusable

/-- What an operator in front of its operand becomes. -/
theorem resembles_unary (op : Operator) {operand : ExprForms} (inOperand : ResemblesForms operand) :
    Ensures (unary origin op operand) (Resembles ⟨origin, .unary op operand.source⟩) := by
  unfold unary
  -- `void` is the one operator that vanishes together with its operand.
  split
  · split
    · rename_i isChained
      refine .next fun isLowered => ?_
      split
      · have inChain : Ensures (lowerChain operand.source.span .delete operand.chain) fun lowered =>
            Resembles ⟨origin, .unary .delete operand.source⟩ lowered.1 := by
          refine resembles_lowerChain .delete fun base mem => ?_
          obtain ⟨isBase, empties⟩ := inOperand.base base mem
          refine ⟨empties, fun emptied => Bool.and_eq_true_iff.mpr ⟨isChained, ?_⟩⟩
          rwa [← emptiesOut_chainBase, ← isBase]
        exact inChain.bind fun lowered resembles => .done resembles
      · exact .next fun _ => .done (resembles_kept rfl rfl)
    · exact .next fun _ => .done (resembles_kept rfl rfl)
  · exact .next fun _ => .done (resembles_kept rfl rfl)
  · exact .next fun _ => .done (resembles_kept rfl rfl)
  · refine .next fun promise => .next fun owner => .next fun isLacking => ?_
    extract_lets goOn
    have waits : Ensures (goOn ()) (Resembles ⟨origin, .unary .await operand.source⟩) := by
      unfold goOn
      split
      · exact .done (resembles_kept rfl rfl)
      · have built : Ensures (awaited origin.span promise) (Expr.Stays origin) :=
          stays_awaited promise
        exact built.imp fun _ => resembles_stays
    split
    · exact .next fun _ => waits
    · exact waits
  · exact inOperand.value.bind fun e resembles => .done (resembles_operand resembles)

/-- What `void` leaves over of its operand. -/
theorem empties_void (resembles : Resembles source e) :
    Empties ⟨origin, .unary .void source⟩ ⟨origin, .unary .void e⟩ := by
  intro removable
  refine Bool.or_eq_true_iff.mpr ?_
  rw [nullishEffects] at removable
  split at removable
  · rename_i reusable
    refine (resembles.repeats reusable).symm.imp_left fun ⟨name, isName⟩ => ?_
    rw [isReusable, isName]
  · exact .inr (resembles.vanishes (by simpa using removable))

/-- What is left over in front of a value behind a comma. -/
theorem empties_comma {first last : Expr} {first' last' : Expr} (resembles : Resembles first first')
    (empties : Empties last last') :
    Empties ⟨origin, .binary .comma first last⟩ ⟨origin, .binary .comma first' last'⟩ := by
  intro removable
  rw [nullishEffects, List.all_append, all_commaParts] at removable
  obtain ⟨inFront, behind⟩ := Bool.and_eq_true_iff.mp removable
  exact Bool.and_eq_true_iff.mpr ⟨resembles.vanishes inFront, empties behind⟩

/-- A call that stays, with other arguments. -/
theorem resembles_call {isPure : Bool} {callee function : Expr} {args lowered : List Arg}
    (vanishes : Purity.areRemovableArgs lowered = true → Expr.mayAllVanish args = true) :
    Resembles ⟨origin, .call link isPure callee args⟩ ⟨origin, .call link isPure function lowered⟩ where
  vanishes removable := by
    obtain ⟨pure, removable⟩ := Bool.and_eq_true_iff.mp removable
    exact Bool.or_eq_true_iff.mpr (.inl (Bool.and_eq_true_iff.mpr ⟨pure, vanishes removable⟩))
  repeats reusable := nomatch reusable

mutual

/-- What an expression becomes is left out only if the expression itself may be. -/
theorem resembles_expr (e : Expr) : ResemblesForms (exprForms e) := by
  obtain ⟨origin, shape⟩ := e
  exact resembles_shape origin shape

/-- The same for a shape. -/
theorem resembles_shape (origin : Origin) (shape : Shape) :
    ResemblesForms (shapeForms origin shape) := by
  have kept {source : Expr} {value : Lower Expr}
      (holds : Ensures value fun e => Purity.isRemovable e = false ∧ isReusable e = false)
      (notNullish : ∀ bound, isNullish bound source = false) :
      ResemblesForms (plainForms source value) :=
    resembles_plainForms (holds.imp fun _ ⟨isKept, isOnce⟩ => resembles_kept isKept isOnce) notNullish
  have built {source : Expr} {value : Lower Expr} (holds : Ensures value (Expr.Stays origin))
      (notNullish : ∀ bound, isNullish bound source = false) :
      ResemblesForms (plainForms source value) :=
    resembles_plainForms (holds.imp fun _ => resembles_stays) notNullish
  have vanishing {source : Expr} {value : Lower Expr} (mayVanish : source.mayVanish = true)
      (notNullish : ∀ bound, isNullish bound source = false) :
      ResemblesForms (plainForms source value) :=
    resembles_plainForms (Ensures.anyhow.imp fun _ _ => resembles_vanishing mayVanish) notNullish
  -- Kept nodes are never removable, vanishing ones were removable in the source; the rest is
  -- decided by the parts.
  cases shape with
  | arrow | function | this | super | bigint | bool | num | regex | str =>
    exact vanishing rfl fun _ => rfl
  | null => exact ⟨.done (resembles_vanishing rfl), fun _ _ => .done fun _ => rfl, fun _ mem => nomatch mem⟩
  | importMeta | newTarget => exact kept (.done ⟨rfl, rfl⟩) fun _ => rfl
  | importCall | update => exact kept (.next fun _ => .done ⟨rfl, rfl⟩) fun _ => rfl
  | new callee args => exact kept (.next fun _ => .next fun _ => .done ⟨rfl, rfl⟩) fun _ => rfl
  | arrayPattern slots rest | objectPattern properties rest =>
    exact kept (.next fun _ => .next fun _ => .done ⟨rfl, rfl⟩) fun _ => rfl
  | classExpr name heritage members => exact built (stays_classExpression _ _ _ _) fun _ => rfl
  | object members => exact built (.next fun _ => stays_objectLiteral _) fun _ => rfl
  | id name =>
    have isName {e : Expr} (isKept : Purity.isRemovable e = false) : Resembles ⟨origin, .id name⟩ e :=
      ⟨fun removable => absurd (isKept.symm.trans removable) Bool.false_ne_true,
        fun _ => .inr ⟨name, rfl⟩⟩
    refine ⟨?_, fun bound nullish => Ensures.anyhow.imp fun _ _ _ => ?_, fun _ mem => nomatch mem⟩
    · show Ensures (nameForms origin name).value (Resembles ⟨origin, .id name⟩)
      unfold nameForms
      dsimp only
      split
      · exact .done (isName rfl)
      · refine .next fun found => ?_
        cases found with
        | some other => exact .done (isName rfl)
        | none => exact .done (isName rfl)
    · exact (Bool.and_eq_true_iff.mp nullish).1
  | binary op left right =>
    by_cases isComma : op = .comma
    · subst isComma
      refine ⟨ensures_comma (resembles_expr left).ofSource (resembles_expr right).ofSource ?_,
        fun bound nullish => ensures_comma (resembles_expr left).ofSource ?_ fun _ _ => empties_comma,
        fun _ mem => nomatch mem⟩
      · refine fun first last isFirst isLast => ⟨fun removable => ?_, nofun⟩
        obtain ⟨inFront, behind⟩ := Bool.and_eq_true_iff.mp removable
        exact Bool.and_eq_true_iff.mpr ⟨isFirst.vanishes inFront, isLast.vanishes behind⟩
      · have inLast := (resembles_expr right).empties bound
        rw [exprForms_source] at inLast
        exact inLast nullish
    · exact built (stays_binary isComma) fun _ => by
        cases op <;> first | exact absurd rfl isComma | rfl
  | unary op operand =>
    have inUnary : Ensures (unary origin op (exprForms operand)) _ :=
      resembles_unary op (resembles_expr operand)
    rw [exprForms_source] at inUnary
    refine ⟨inUnary, fun bound nullish => ?_, fun _ mem => nomatch mem⟩
    by_cases isVoid : op = .void
    · subst isVoid
      exact (resembles_expr operand).ofSource.bind fun e resembles => .done (empties_void resembles)
    · cases op <;> first | exact absurd rfl isVoid | cases nullish
  | cond test consequent alternate =>
    refine resembles_plainForms ((resembles_expr test).ofSource.bind fun _ inTest =>
      (resembles_expr consequent).ofSource.bind fun _ inConsequent =>
      (resembles_expr alternate).ofSource.bind fun _ inAlternate => .done ⟨fun removable => ?_, nofun⟩)
      fun _ => rfl
    obtain ⟨both, alternately⟩ := Bool.and_eq_true_iff.mp removable
    obtain ⟨first, consequently⟩ := Bool.and_eq_true_iff.mp both
    exact Bool.and_eq_true_iff.mpr ⟨Bool.and_eq_true_iff.mpr
      ⟨inTest.vanishes first, inConsequent.vanishes consequently⟩, inAlternate.vanishes alternately⟩
  | call link isPure callee args =>
    have inLink : ResemblesForms (linkForms link (callLink origin link isPure (exprForms callee) args
        (argsStep args))) := by
      refine resembles_linkForms (resembles_expr callee) rfl (by cases link <;> rfl)
        (fun isChained emptied => ?_) (fun _ => rfl) ?_ ?_
      · exact Bool.or_eq_true_iff.mpr (.inr (Bool.and_eq_true_iff.mpr ⟨isChained, emptied⟩))
      · exact .next fun _ => (vanishes_args args).bind fun _ vanishes => .done (resembles_call vanishes)
      · refine .next fun (function, receiver) => (vanishes_args args).bind fun _ vanishes => ?_
        cases receiver with
        | some receiver => exact .done (resembles_kept rfl rfl)
        | none => exact .done (resembles_call vanishes)
    exact ⟨inLink.value, inLink.empties, inLink.base⟩
  | computed link object key =>
    refine resembles_linkForms (resembles_expr object) rfl (by cases link <;> rfl)
      (fun isChained emptied => Bool.and_eq_true_iff.mpr ⟨isChained, emptied⟩) (fun _ => rfl) ?_ ?_
    · exact .next fun _ => .next fun _ => .done (resembles_kept rfl rfl)
    · exact .next fun _ => .next fun _ => .done (resembles_kept rfl rfl)
  | member link object name =>
    refine resembles_linkForms (resembles_expr object) rfl (by cases link <;> rfl)
      (fun isChained emptied => Bool.and_eq_true_iff.mpr ⟨isChained, emptied⟩) (fun _ => rfl) ?_ ?_
    · exact .next fun _ => .done (resembles_kept rfl rfl)
    · refine .next fun binding => ?_
      cases binding with
      | none => exact .next fun _ => .done (resembles_kept rfl rfl)
      | some binding =>
        have built {e : Expr} : (binding.read origin.span e).Stays origin := stays_read
        exact .next fun _ => .done (resembles_stays built)
  | tagged tag head spans =>
    refine kept (.next fun (tag, receiver) => .next fun spans => .next fun _ => ?_) fun _ => rfl
    split
    · exact .done ⟨rfl, rfl⟩
    · refine (stays_taggedToCall _ _ _ _).imp fun _ (stays : Expr.Stays origin _) => ?_
      exact ⟨stays.isKept, stays.isOnce⟩
  | yield isDelegated operand =>
    refine kept (.next fun operand => ?_) fun _ => rfl
    cases operand with
    | some operand =>
      dsimp only
      split
      · exact .next fun _ => .done ⟨rfl, rfl⟩
      · exact .done ⟨rfl, rfl⟩
    | none => exact .done ⟨rfl, rfl⟩
  | array items =>
    exact resembles_plainForms ((vanishes_items items).bind fun _ vanishes => .done ⟨vanishes, nofun⟩)
      fun _ => rfl
  | template head spans =>
    cases spans with
    | nil => exact vanishing rfl fun _ => rfl
    | cons part rest =>
      have some : Ensures (spansStep (part :: rest)) fun spans =>
          ∃ part rest, spans = part :: rest :=
        .next fun part => .next fun rest => .done ⟨part, rest, rfl⟩
      refine kept (some.bind ?_) fun _ => rfl
      rintro _ ⟨part, rest, rfl⟩
      refine .next fun isLacking => ?_
      split
      · have stays : (Templates.sum origin.span head (part :: rest)).Stays origin :=
          stays_templateSum
        rw [templateToSum_eq]
        exact .done ⟨stays.isKept, stays.isOnce⟩
      · exact .done ⟨rfl, rfl⟩

/-- Arguments need not be evaluated only if they may be left out. -/
theorem vanishes_args (args : List Arg) :
    Ensures (argsStep args) fun lowered =>
      Purity.areRemovableArgs lowered = true → Expr.mayAllVanish args = true := by
  -- Arguments vanish only if each of them does and none is a spread.
  cases args with
  | nil => exact .done fun _ => rfl
  | cons arg rest =>
    obtain ⟨isSpread, value⟩ := arg
    have inArg : Ensures (argStep ⟨isSpread, value⟩) fun lowered =>
        Purity.isRemovableArg lowered = true → Expr.mayArgVanish ⟨isSpread, value⟩ = true := by
      refine (resembles_expr value).ofSource.bind fun e resembles => .done fun removable => ?_
      obtain ⟨noSpread, removable⟩ := Bool.and_eq_true_iff.mp removable
      exact Bool.and_eq_true_iff.mpr ⟨noSpread, resembles.vanishes removable⟩
    refine inArg.bind fun arg vanishes => (vanishes_args rest).bind fun rest vanish => .done ?_
    intro removable
    obtain ⟨first, others⟩ := Bool.and_eq_true_iff.mp removable
    exact Bool.and_eq_true_iff.mpr ⟨vanishes first, vanish others⟩

/-- The same for the elements of an array literal. -/
theorem vanishes_items (items : List ArrayItem) :
    Ensures (itemsStep items) fun lowered =>
      Purity.areRemovableItems lowered = true → Expr.mayItemsVanish items = true := by
  -- A spread never vanishes and a hole always does.
  cases items with
  | nil => exact .done fun _ => rfl
  | cons item rest =>
    have inItem : Ensures (itemStep item) fun lowered =>
        Purity.isRemovableItem lowered = true → Expr.mayItemVanish item = true := by
      cases item with
      | single value =>
        exact (resembles_expr value).ofSource.bind fun e resembles => .done resembles.vanishes
      | spread value => exact .next fun _ => .done nofun
      | hole => exact .done fun _ => rfl
    refine inItem.bind fun item vanishes => (vanishes_items rest).bind fun rest vanish => .done ?_
    intro removable
    obtain ⟨first, others⟩ := Bool.and_eq_true_iff.mp removable
    exact Bool.and_eq_true_iff.mpr ⟨vanishes first, vanish others⟩

end

end Vanish

end Ending

end Downlevel
