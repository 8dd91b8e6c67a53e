import Downlevel.Proofs.Pauses.Operations
import Downlevel.Proofs.Remaining.Functions

/-! A function keeps the pauses of its body, in a generator if it moves into one, and those of its
parameters are all inside of other functions. Literals keep the pauses of their parts. -/

namespace Downlevel

open Lowering

/-- The pauses of a key. -/
def Lowering.KeyForms.pauses (key : KeyForms) (extent : Extent) : List Pause :=
  match key with
  | .direct _ => []
  | .computed value => exprPauses extent value.source

namespace Ending

variable {ending : Ending} {site : Site} {span : Span} {extent : Extent}

section Bodies

variable {body : Body} {stmts : List Stmt} {temps : List Temp}

/-- What is inside of one thing is not inside of another one as well. -/
@[simp] theorem into_comp_into (inner home : Home) :
    Pause.into home ∘ Pause.into inner = Pause.into inner :=
  funext fun _ => Pause.into_inside Pause.into_home_ne_none home

/-- Made-up names start out without a pause. -/
theorem pauses_declaration (plain : ∀ temp ∈ temps, temp.IsPlain) :
    stmtPauses .all (Temp.declaration span temps) = [] := by
  -- A temporary starts without a value, or with `this` or a name, and none of these pauses.
  have none (temp : Temp) (mem : temp ∈ temps) : optionPauses .all temp.init = [] := by
    have starts := plain temp mem
    cases init : temp.init with
    | none => rfl
    | some value =>
      obtain ⟨origin, shape⟩ := value
      rcases starts ⟨origin, shape⟩ (by simp [init]) with isThis | ⟨name, isName⟩
      · obtain rfl : shape = .this := isThis
        rfl
      · obtain rfl : shape = .id name := isName
        rfl
  simpa [Temp.declaration, declaratorsPauses_eq, List.flatMap_map] using none

/-- A statement behind the first ones of a body adds its pauses. -/
theorem pauses_inserted (p : Stmt → Bool) (stmts : List Stmt) (inserted : Stmt) :
    SamePauses (stmtsPauses .all (stmts.takeWhile p ++ inserted :: stmts.dropWhile p))
      (stmtsPauses .all stmts ++ stmtPauses .all inserted) := by
  intro pause
  conv_rhs => rw [← List.takeWhile_append_dropWhile (p := p) (l := stmts)]
  simp only [pauses_append, stmtsPauses, List.mem_append]
  grind

/-- A body has the same pauses when it declares made-up names. -/
theorem pauses_declareInBody (plain : ∀ temp ∈ temps, temp.IsPlain) (body : Body) :
    SamePauses (bodyPauses .all (declareInBody span temps body)) (bodyPauses .all body) := by
  unfold declareInBody
  split
  · exact samePauses_refl _
  · unfold Temp.declareIn
    rename_i isSome
    rw [if_neg isSome]
    intro pause
    have same := pauses_inserted Temp.isPrologue body.stmts (Temp.declaration span temps) pause
    rw [pauses_declaration plain, pauses_bodyStmts, List.append_nil] at same
    exact same

/-- Parameters without the rests that move into the body, and the body, which has those pauses
then. -/
theorem carries_moveParamRests (params : List Param) (body : Body) :
    ending.Leaves site (moveParamRests params body) fun (kept, rest) => ∃ moved,
      SamePauses (paramsPauses .all kept ++ moved) (paramsPauses .all params)
        ∧ SamePauses (bodyPauses .all rest) (bodyPauses .all body ++ moved) := by
  -- What leaves the parameters is named, since it enters the body at another place.
  have stays : ∃ moved, SamePauses (paramsPauses .all params ++ moved) (paramsPauses .all params)
      ∧ SamePauses (bodyPauses .all body) (bodyPauses .all body ++ moved) :=
    ⟨[], by simpa using samePauses_refl _, by simpa using samePauses_refl _⟩
  refine (leaves_supports .objectRestSpread).andThen fun _ => .ite (fun _ => .pure stays) fun _ => ?_
  refine (carries_splitParams params).bind fun (kept, declaration) => ?_
  cases declaration with
  | none => exact .pure fun same => ⟨[], same, by simpa using samePauses_refl _⟩
  | some stmt =>
    refine .pure fun same => ⟨stmtPauses .all stmt, same, ?_⟩
    have same := pauses_inserted Temp.isPrologue body.stmts stmt
    rwa [pauses_bodyStmts] at same

/-- Pauses of parameters are all inside of something, so it does not matter which of them move into the
body. -/
theorem samePauses_moved {home : Home} {params kept moved body rest : List Pause}
    (inside : ∀ pause ∈ params, pause.home ≠ none) (sameParams : SamePauses (kept ++ moved) params)
    (sameBody : SamePauses rest (body ++ moved)) :
    SamePauses (kept.map (.into .barred) ++ rest.map (.into home))
      (params ++ body.map (.into home)) := by
  -- Everything in the parameters has a home already, so moving it into the body changes no home.
  have inKept : kept.map (.into .barred) = kept :=
    map_into fun pause mem => inside pause ((sameParams pause).mp (List.mem_append_left _ mem))
  have inMoved : moved.map (.into home) = moved :=
    map_into fun pause mem => inside pause ((sameParams pause).mp (List.mem_append_right _ mem))
  have inRest (pause : Pause) : pause ∈ rest.map (Pause.into home)
      ↔ pause ∈ body.map (Pause.into home) ++ moved := by
    rw [← inMoved, ← List.map_append]
    exact sameBody.map home pause
  intro pause
  rw [List.mem_append, List.mem_append, inRest, inKept, ← sameParams pause]
  simp only [List.mem_append]
  grind

end Bodies

section Functions

variable {func : Func}

/-- The pauses of a function that moves into a generator are those of the generator. -/
theorem pauses_toGenerator (driver : String) (forwards usesThis : Bool) (func : Func) :
    funcPauses .all (toGenerator driver forwards usesThis func)
      = (paramsPauses .all func.params).map (.into .barred)
        ++ (bodyPauses .all func.body).map (.into (.body func.span false true)) := by
  have noParams {α : Type} (items : List α) (name : α → String) :
      paramsPauses .all (items.map fun item => .ofName func.span (name item)) = [] := by
    simp [paramsPauses_eq, List.flatMap_map]
  have noForwarding : paramsPauses .all (arrowForwarding func.span func.params).1 = [] := by
    simp [arrowForwarding, paramsPauses_eq, List.flatMap_map, Param.ofName]
  have noArgs : exprPauses .all (arrowForwarding func.span func.params).2 = [] := by
    simp [arrowForwarding, itemsPauses_eq, List.flatMap_map, Expr.of]
  -- The three choices only add parameters and arguments, which are names.
  unfold toGenerator
  cases forwards <;> cases isArrow : func.isArrow <;> cases usesThis
    <;> simp [funcPauses, Expr.of, noParams, noForwarding, noArgs]

/-- A function as an expression in place of an arrow has its pauses. -/
theorem pauses_arrowToFunction (func : Func) :
    exprPauses extent (arrowToFunction span func) = funcPauses extent func := by
  obtain ⟨funcSpan, isArrow, isAsync, isGenerator, params, body⟩ := func
  simp [arrowToFunction, Expr.of, funcPauses]

/-- A function moves into a generator if it is one that does. -/
theorem carries_funcMode (span : Span) (isAsync isGenerator : Bool) :
    ending.Leaves site (funcMode span isAsync isGenerator) fun mode =>
      ending.target.lifts isAsync isGenerator = !decide (mode = .native) := by
  refine (leaves_supports .generator).bind fun generators => ?_
  -- One case per kind of function: what is missing in the target decides, and a report leaves it
  -- native.
  cases isAsync with
  | false =>
    cases isGenerator with
    | false => exact .pure fun _ => rfl
    | true =>
      dsimp only
      refine .ite (fun _ => ?_) fun _ => .pure fun _ => rfl
      exact (leaves_unsupported span _).andThen fun _ => .pure fun _ => rfl
  | true =>
    cases isGenerator with
    | false =>
      refine (leaves_supports .asyncAwait).bind fun has => .ite (fun isNative => .pure ?_) fun _ => ?_
      · intro knownHas _
        simp [Target.lifts, ← knownHas, isNative]
      · refine .ite (fun isMade => .pure fun knownHas known => ?_) fun missing => ?_
        · simp_all [Target.lifts]
        · refine (leaves_unsupported span _).andThen fun _ => .pure fun knownHas known => ?_
          simp_all [Target.lifts]
    | true =>
      refine (leaves_supports .asyncGenerator).bind fun has =>
        .ite (fun isNative => .pure ?_) fun _ => ?_
      · intro knownHas _
        simp [Target.lifts, ← knownHas, isNative]
      · refine .ite (fun isMade => .pure fun knownHas known => ?_) fun missing => ?_
        · simp_all [Target.lifts]
        · have native {mode : FuncMode} (isNative : mode = .native)
              (knownHas : has = ending.target.supports .asyncGenerator)
              (known : generators = ending.target.supports .generator) :
              ending.target.lifts true true = !decide (mode = .native) := by
            simp_all [Target.lifts]
          refine (leaves_lacks .asyncAwait).andThen fun isLacking => .ite (fun _ => ?_) fun _ => ?_
          · exact (leaves_unsupported span _).andThen fun _ => .pure (native rfl)
          · exact (leaves_unsupported span _).andThen fun _ => .pure (native rfl)

/-- A name that is made up around a value adds no pause, and keeps those that are inside of
something. -/
theorem pauses_hostName {name : String} {body : Expr}
    (inside : ∀ pause ∈ exprPauses .all body, pause.home ≠ none) :
    exprPauses .all (hostName span name body) = exprPauses .all body := by
  simp [hostName, Expr.of, funcPauses, map_into inside]

/-- A default value or a key keeps its pauses, wherever it belongs to. -/
theorem carries_rooted {forms : ExprForms}
    (calm : Calm site (exprPauses .all forms.source))
    (inValue : ending.CarriesExpr site (exprPauses · forms.source) forms.value) :
    ending.CarriesExpr site (exprPauses · forms.source) (rooted forms) := by
  refine leaves_read.bind fun setting => .ite (fun inParams => ?_) fun _ => ?_
  · refine leaves_get.andThen fun progress => ?_
    have outside : ending.CarriesExpr site (exprPauses · forms.source)
        (withReader (fun (setting : Setting) => { setting with inParams := false }) forms.value) :=
      inValue.withReader fun _ _ fits => { fits with params := nofun }
    refine outside.inFrame.bind fun (value, declared) => .pure ?_
    rintro ⟨carries, -⟩ asked
    have barred : site.isBarred = true := by
      rw [asked.1 inParams]
      rfl
    have inside := (carries.calm calm).inside barred
    -- Each declared name wraps the value in one more arrow.
    have hosted (declared : List Temp) : exprPauses .all
        (declared.foldr (fun temp body => hostName forms.source.span temp.name body) value)
          = exprPauses .all value := by
      induction declared with
      | nil => rfl
      | cons temp declared ih =>
        rw [List.foldr_cons, pauses_hostName (by rwa [ih]), ih]
    rw [hosted]
    exact carries
  · exact inValue.weaken fun _ carries _ => carries

/-- A lowered function keeps its pauses. -/
theorem carries_func {source : Func} {params : Lower (List Param)} {body : Lower Body}
    (calm : Calm (.inside .barred) (paramsPauses .all source.params))
    (inParams : ending.Leaves (.inside .barred) params fun params =>
      ending.Carries (.inside .barred) (paramsPauses · source.params) (paramsPauses .all params))
    (inBody : ∀ mode : FuncMode, (mode ≠ .native → source.isAsync = true) →
      let ground := bodyGround mode source.isAsync source.isGenerator
      ending.Leaves (.inside ground) body fun body =>
        ending.Carries (.inside ground) (bodyPauses · source.body) (bodyPauses .all body)) :
    ending.Leaves site (lowerFunc source params body) fun func =>
      ending.Carries site (funcPauses · source) (funcPauses .all func) := by
  unfold lowerFunc
  refine (carries_funcMode _ _ _).bindKnowing (fun ending => leaves_funcMode_async _ _ _) ?_
  intro mode onlyAsync
  refine leaves_read.andThen fun setting => ?_
  refine (leaves_lacks _).andThen fun losesArrow => (leaves_supports _).andThen fun isKept => ?_
  extract_lets inside
  let ground := bodyGround mode source.isAsync source.isGenerator
  let home : Home := .body source.span source.isAsync source.isGenerator
  -- What the parts of the lowered function have to have, whatever generator they move into.
  let whole (params : List Param) (body : Body) : Prop :=
    ending.target.lifts source.isAsync source.isGenerator = !decide (mode = .native) →
      ending.Carries site (funcPauses · source)
        ((paramsPauses .all params).map (.into .barred)
          ++ (bodyPauses .all body).map (.into (home.lowered ending.target)))
  have inInside : ending.Leaves site inside fun inside => whole inside.1.1 inside.1.2 := by
    refine leaves_get.andThen fun progress => ?_
    extract_lets owner
    have suits : Site.Suits (.inside ground) owner := by
      have notModule : owner.kind ≠ .module := by
        simp only [owner]
        split <;> decide
      cases mode <;> exact ⟨notModule, by simp [owner, FuncMode.awaitForm]⟩
    have moves : ending.Leaves (.inside ground)
        (do
          let params ← Lowering.inParams params
          let body ← body
          moveParamRests params body) fun parts => whole parts.1 parts.2 := by
      refine inParams.inParams.ofBarred.bind fun params => ?_
      refine (inBody mode onlyAsync).bind fun body => ?_
      refine (carries_moveParamRests params body).weaken ?_
      rintro ⟨kept, rest⟩ ⟨moved, sameParams, sameBody⟩ carriesBody carriesParams isLifted
      have lifted : (Site.inside ground).isLifted = home.isLifted ending.target := by
        simp only [home, Home.isLifted, isLifted]
        cases mode <;> rfl
      have together : ending.Carries site
          (fun extent => (paramsPauses extent source.params).map (.into .barred)
            ++ (bodyPauses extent source.body).map (.into home))
          (paramsPauses .all params
            ++ (bodyPauses .all body).map (.into (home.lowered ending.target))) :=
        (carriesParams.anywhere calm rfl).append (carriesBody.body lifted)
      refine Carries.congr ?_ (samePauses_moved ((carriesParams.calm calm).inside rfl) sameParams
        sameBody)
      obtain ⟨span, isArrow, isAsync, isGenerator, params, body⟩ := source
      simpa only [funcPauses] using together
    exact (moves.inOwner suits (by simp)).weaken fun _ shown => shown
  refine inInside.inFrame.bind ?_
  rintro ⟨⟨⟨params, body⟩, owner⟩, temps⟩
  dsimp only
  have declared (shown : whole params body) (plain : ∀ temp ∈ temps, temp.IsPlain) :
      whole params (declareInBody source.span temps body) := fun isLifted =>
    (shown isLifted).congr fun pause => by
      have same : SamePauses (bodyPauses .all (declareInBody source.span temps body))
          (bodyPauses .all body) := pauses_declareInBody plain body
      rw [List.mem_append, List.mem_append, same.map (home.lowered ending.target) pause]
  refine .ite (fun isNative => .pure ?_) fun isMoved => (leaves_driver mode).andThen fun _ => .pure ?_
  · rintro ⟨shown, plain⟩ isLifted
    have stays : home.lowered ending.target = home := by
      simp only [home, Home.lowered, isLifted, isNative]
      rfl
    have carries := declared shown plain isLifted
    rw [stays] at carries
    exact carries
  · rintro ⟨shown, plain⟩ isLifted
    have moves : home.lowered ending.target = .body source.span false true := by
      simp [home, Home.lowered, isLifted, isMoved]
    have carries := declared shown plain isLifted
    rw [moves] at carries
    rw [pauses_toGenerator]
    exact carries

end Functions

section Literals

/-- If an expression need not be evaluated, what it was made of may be left out. -/
def Vanishes (source e : Expr) : Prop :=
  Purity.isRemovable e = true → source.mayVanish = true

/-- A default value or a key that need not be evaluated is made of one that may be left out. -/
theorem ensures_rooted {forms : ExprForms}
    (vanishes : Ensures forms.value (Vanishes forms.source)) :
    Ensures (rooted forms) (Vanishes forms.source) := by
  refine .next fun setting => ?_
  split
  · refine .next fun progress => (Ensures.withReader vanishes).inFrame.bind ?_
    rintro ⟨value, declared⟩ vanishes
    -- A call of an arrow that lowering writes is never left out.
    cases declared with
    | nil => exact .done vanishes
    | cons temp declared => exact .done fun removable => nomatch removable
  · exact vanishes

variable (ending site) in
/-- A computed key carries its pauses, wherever it is evaluated. -/
structure CarriesComputed (forms : ExprForms) : Prop where
  calm : Calm site (exprPauses .all forms.source)
  value : ending.CarriesExpr site (exprPauses · forms.source) forms.value
  vanishes : Ensures forms.value (Vanishes forms.source)

variable (ending site) in
/-- A key carries its pauses. -/
def CarriesKey : KeyForms → Prop
  | .direct _ => True
  | .computed forms => ending.CarriesComputed site forms

/-- What a lowered key is made of may be left out if the key need not be evaluated. -/
def KeyVanishes (key : KeyForms) (lowered : Key) : Prop :=
  ∀ value, lowered = .computed value → Purity.isRemovable value = true →
    ∃ forms, key = .computed forms ∧ forms.source.mayVanish = true

/-- A lowered key keeps its pauses. -/
theorem carries_lowerKey {key : KeyForms} (inKey : ending.CarriesKey site key) :
    ending.Leaves site (lowerKey key) fun lowered =>
      ending.Carries site key.pauses (keyPauses .all lowered) ∧ KeyVanishes key lowered := by
  -- A direct key holds no pause, also where a large integer becomes a string.
  cases key with
  | computed value =>
    refine ((carries_rooted inKey.calm inKey.value).ensuring (ensures_rooted inKey.vanishes)).bind
      fun e => .pure fun ⟨carries, vanishes⟩ => ⟨carries, ?_⟩
    rintro _ ⟨⟩ removable
    exact ⟨value, rfl, vanishes removable⟩
  | direct name =>
    unfold lowerKey
    refine (leaves_lacks .bigint).andThen fun isLacking => .ite (fun _ => ?_) fun _ => ?_
    · cases bigintValue? name.text with
      | some value => exact .pure ⟨carries_nil rfl, nofun⟩
      | none => exact .pure ⟨carries_nil rfl, nofun⟩
    · exact .pure ⟨carries_nil rfl, nofun⟩

/-- The sum of operands has their pauses. -/
theorem pauses_sum (operands : List Expr) (first : Expr) :
    exprPauses extent (operands.foldl (.binary span .addition) first)
      = exprPauses extent first ++ operands.flatMap (exprPauses extent) := by
  induction operands generalizing first with
  | nil => simp
  | cons operand operands ih => simp [ih]

/-- A template has the same pauses as a sum. -/
theorem pauses_templateSum (head : String) (spans : List TemplateSpan) :
    exprPauses extent (Templates.sum span head spans) = spansPauses extent spans := by
  -- The text behind a substitution adds a literal at most.
  have ofPart (part : TemplateSpan) :
      (part.value :: if part.text.isEmpty then [] else [Templates.partValue span part.text]).flatMap
        (exprPauses extent) = spanPauses extent part := by
    obtain ⟨value, text⟩ := part
    dsimp only
    split <;> simp [Templates.partValue]
  have inOperands : (Templates.operands span spans).flatMap (exprPauses extent)
      = spansPauses extent spans := by
    rw [Templates.operands, List.flatMap_assoc, spansPauses_eq]
    exact List.flatMap_congr fun part _ => ofPart part
  rw [Templates.sum, pauses_sum, inOperands]
  simp [Templates.partValue]

/-- The strings of a template do not pause. -/
theorem pauses_templateStrings (texts : List String) :
    (Templates.strings span texts).flatMap (exprPauses extent) = [] := by
  have cooked (raw : String) : exprPauses extent (Templates.cookedValue span raw) = [] := by
    unfold Templates.cookedValue
    cases Text.cook? raw <;> simp
  unfold Templates.strings
  dsimp only
  split <;> simp [cooked]

/-- The substitutions of a template have its pauses. -/
theorem pauses_substitutions (spans : List TemplateSpan) :
    (spans.map (·.value)).flatMap (exprPauses extent) = spansPauses extent spans := by
  rw [spansPauses_eq, List.flatMap_map]
  exact List.flatMap_congr fun part _ => by cases part; rfl

/-- A tagged template has the same pauses as a call. -/
theorem carries_taggedToCall (span : Span) (tag : Expr) (receiver : Option Expr) (head : String)
    (spans : List TemplateSpan) :
    ending.Leaves site (taggedToCall span tag receiver head spans) fun e =>
      (∀ own ∈ receiver, exprPauses .all own = []) →
        exprPauses .all e = exprPauses .all tag ++ spansPauses .all spans := by
  unfold taggedToCall
  rw [templateStrings_eq, pure_bind]
  refine (leaves_allocIn 0 none (by simp) true).andThen fun name => ?_
  cases receiver with
  | some receiver =>
    refine .pure fun noReceiver => ?_
    simp [-List.map_map, noReceiver receiver rfl, pauses_templateStrings, ← pauses_substitutions]
  | none => exact .pure fun _ => by simp [pauses_templateStrings, ← pauses_substitutions]

/-- A tagged template keeps its pauses. -/
theorem carries_taggedTemplate (origin : Origin) {tag : ExprForms} (head : String)
    {spans : Lower (List TemplateSpan)} {source : List TemplateSpan}
    (inTag : ending.CarriesForms site tag)
    (inSpans : ending.Leaves site spans fun spans =>
      ending.Carries site (spansPauses · source) (spansPauses .all spans)) :
    ending.CarriesExpr site
      (fun extent => exprPauses extent tag.source ++ spansPauses extent source)
      (taggedTemplate origin tag head spans) := by
  refine (carries_calledExpr inTag).bind fun (tag, receiver) => inSpans.bind fun spans => ?_
  -- The tag keeps its receiver either way, and the strings of the call hold no pause.
  refine (leaves_supports .templateLiteral).andThen fun _ => .ite (fun _ => .pure ?_) fun _ => ?_
  · exact fun carries parts => by simpa using parts.function.append carries
  · refine (carries_taggedToCall _ _ _ _ _).weaken fun e same carries parts => ?_
    rw [same parts.receiver]
    exact parts.function.append carries

/-- Members that are added to what was made so far add their pauses. -/
@[simp] theorem pauses_addMembers (sofar : Option Expr) (members : List ObjectMember) :
    exprPauses extent (addMembers span sofar members)
      = optionPauses extent sofar ++ objectMembersPauses extent members := by
  cases sofar <;> simp [addMembers, Expr.of]

/-- Members from the first spread on have their pauses as calls that add them. -/
theorem pauses_spreadMembers (sofar : Option Expr) (collected members : List ObjectMember) :
    exprPauses extent (spreadMembers span sofar collected members)
      = optionPauses extent sofar ++ objectMembersPauses extent collected
        ++ objectMembersPauses extent members := by
  -- The induction is on the members, with what was collected so far written in front.
  fun_induction spreadMembers span sofar collected members with
  | case1 sofar collected spreadSpan value rest base ih =>
    have inBase : exprPauses extent base
        = optionPauses extent sofar ++ objectMembersPauses extent collected := by
      unfold base
      split
      · split
        · rename_i isEmpty
          simp [List.isEmpty_iff.mp isEmpty]
        · simp
      · simp
    simp [ih, inBase]
  | case2 sofar collected member rest noSpread ih => simp [ih, objectMembersPauses_eq]
  | case3 sofar => simp
  | case4 sofar collected => simp

/-- An object literal keeps the pauses of its members. -/
theorem carries_objectLiteral (origin : Origin) (members : List ObjectMember) :
    ending.Leaves site (objectLiteral origin members) fun e =>
      exprPauses .all e = objectMembersPauses .all members := by
  refine (leaves_lacks .objectRestSpread).andThen fun isLacking => .ite (fun _ => ?_) fun _ => ?_
  · exact .pure (by simp [pauses_spreadMembers])
  · exact .pure rfl

/-- A member that stands for itself does not pause. -/
theorem carries_shorthandMember (span : Span) (name : String) :
    ending.Leaves site (shorthandMember span name) fun member =>
      objectMemberPauses .all member = [] := by
  unfold shorthandMember
  refine .ite (fun _ => ?_) fun _ => .pure rfl
  refine leaves_resolveArguments.bind fun found => ?_
  cases found with
  | none => exact .pure fun _ => rfl
  | some other => exact .pure fun _ => rfl

end Literals

end Ending

end Downlevel
