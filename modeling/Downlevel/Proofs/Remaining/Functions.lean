import Downlevel.Lowering.Function
import Downlevel.Proofs.Remaining.Chains
import Downlevel.Proofs.Remaining.Frames
import Downlevel.Proofs.Remaining.Rests
import Downlevel.Proofs.Templates

/-! Functions remain as they are where the target has them or they were reported, and become
generators only for a target that has those. Literals become calls and sums where the target lacks
them. -/

namespace Downlevel

open Lowering

namespace Ending

variable {ending : Ending} {site : Site} {span : Span}

/-- A function of the kind may remain. -/
structure AdmitsKind (ending : Ending) (isAsync isGenerator : Bool) : Prop where
  synchronous : ending.target.supports .generator = true → isAsync = true →
    ending.target.supports (if isGenerator then .asyncGenerator else .asyncAwait) = true
  admits : ending.AdmitsFunc isAsync isGenerator

/-- A function is accounted for by its kind and what is inside, wherever it stands. -/
theorem keeps_func {func : Func} :
    ending.Keeps site (funcNodes func)
      ↔ ending.AdmitsKind func.isAsync func.isGenerator
        ∧ ending.Keeps (.inside .barred) (paramsNodes func.params)
        ∧ ending.Keeps (.inside (.body func.isAsync func.isGenerator)) (bodyNodes func.body) := by
  obtain ⟨span, isArrow, isAsync, isGenerator, params, body⟩ := func
  -- What the node itself accounts for is the kind of the function; its parameters and its body are
  -- looked at on their own.
  have own : ending.Accounts (.inside .barred)
        (.func ⟨span, isArrow, isAsync, isGenerator, params, body⟩)
      ↔ ending.AdmitsKind isAsync isGenerator := by
    constructor
    · intro accounts
      refine ⟨fun generators isAsync => accounts.synchronous generators _ ?_, accounts.announced⟩
      subst isAsync
      cases isGenerator <;> rfl
    · rintro ⟨synchronous, admits⟩
      refine ⟨by simp [Node.rewritable?], fun generators feature found => ?_, nofun, admits, nofun,
        allowed_plain nofun nofun, nofun⟩
      cases isAsync <;> cases isGenerator <;> cases found <;> exact synchronous generators rfl
  have inside (ground : Ground) : site.into (.inside ground) = .inside ground := rfl
  simp only [funcNodes, throughout_cons, throughout_into, throughout_append, inside, own]

/-- What is neither asynchronous nor a generator may always remain. -/
theorem admitsKind_plain : ending.AdmitsKind false false :=
  ⟨nofun, trivial⟩

/-- Generators may remain where the target has them. -/
theorem admitsKind_generator (generators : ending.target.supports .generator = true) :
    ending.AdmitsKind false true :=
  ⟨nofun, .inl generators⟩

/-- A function that stays may remain, and others become generators that the target has. -/
theorem leaves_funcMode (span : Span) (isAsync isGenerator : Bool) :
    ending.Leaves site (funcMode span isAsync isGenerator) fun mode =>
      if mode = .native then ending.AdmitsKind isAsync isGenerator
      else ending.target.supports .generator = true := by
  refine (leaves_supports .generator).bind fun generators => ?_
  -- The kinds in turn. A native mode asks the target for the kind; a function that cannot be made
  -- is reported, so it is accounted for.
  cases isAsync with
  | false =>
    cases isGenerator with
    | false => exact .pure fun _ => admitsKind_plain
    | true =>
      dsimp only
      refine .ite (fun _ => ?_) fun has => .pure fun known => ?_
      · exact (leaves_unsupported span _).bind fun _ => .pure fun reported _ => ⟨nofun, .inr reported⟩
      · exact admitsKind_generator (by simpa [known] using has)
  | true =>
    cases isGenerator with
    | false =>
      refine (leaves_supports .asyncAwait).bind fun has => .ite (fun isNative => .pure ?_) fun _ => ?_
      · intro knownHas _
        have native : ending.target.supports .asyncAwait = true := by rw [← knownHas, isNative]
        exact ⟨fun _ _ => native, .inl native⟩
      · refine .ite (fun isMade => .pure fun _ known => ?_) fun missing => ?_
        · exact known.symm.trans isMade
        · refine (leaves_unsupported span _).bind fun _ => .pure fun reported _ known => ?_
          exact ⟨fun generators => absurd (known.trans generators) missing, .inr reported⟩
    | true =>
      refine (leaves_supports .asyncGenerator).bind fun has => .ite (fun isNative => .pure ?_) fun _ => ?_
      · intro knownHas _
        have native : ending.target.supports .asyncGenerator = true := by rw [← knownHas, isNative]
        exact ⟨fun _ _ => native, .inl native⟩
      · refine .ite (fun isMade => .pure fun _ known => ?_) fun missing => ?_
        · exact known.symm.trans isMade
        · refine (leaves_lacks .asyncAwait).bind fun isLacking => .ite (fun lacks => ?_) fun has => ?_
          · refine (leaves_unsupported span _).bind fun _ => .pure fun reported knownLacks _ known => ?_
            refine ⟨fun generators => absurd (known.trans generators) missing, .inr ?_⟩
            simpa [show ending.target.supports .asyncAwait = false by simp_all] using reported
          · refine (leaves_unsupported span _).bind fun _ => .pure fun reported knownLacks _ known => ?_
            refine ⟨fun generators => absurd (known.trans generators) missing, .inr ?_⟩
            simpa [show ending.target.supports .asyncAwait = true by simp_all] using reported

/-- Only asynchronous functions become generators. -/
theorem leaves_funcMode_async (span : Span) (isAsync isGenerator : Bool) :
    ending.Leaves site (funcMode span isAsync isGenerator) fun mode =>
      mode ≠ .native → isAsync = true := by
  -- Only an async function is ever lifted.
  cases isAsync with
  | true => exact (leaves_funcMode span true isGenerator).weaken fun _ _ _ => rfl
  | false =>
    refine (leaves_supports .generator).andThen fun generators => ?_
    cases isGenerator with
    | false => exact .pure (absurd rfl)
    | true =>
      dsimp only
      refine .ite (fun _ => ?_) fun _ => .pure (absurd rfl)
      exact (leaves_unsupported span _).andThen fun _ => .pure (absurd rfl)

/-- A name is made up around a value inside of a function. -/
theorem keeps_hostName {name : String} {body : Expr}
    (inBody : ending.Keeps (.inside .barred) (exprNodes body)) :
    ending.Keeps site (exprNodes (hostName span name body)) := by
  -- The name is a parameter of an arrow without a kind of its own, so there is nothing else to
  -- account for.
  have inFunc : ending.Keeps site
      (funcNodes ⟨span, true, false, false, [.ofName span name], .value body⟩) := by
    refine keeps_func.mpr ⟨admitsKind_plain, ?_, keeps_moved inBody (Site.barred_movesTo _)⟩
    simp [paramsNodes]
  have inArrow : ending.Keeps site
      (exprNodes (.of span (.arrow ⟨span, true, false, false, [.ofName span name], .value body⟩))) := by
    refine keeps_of.mpr
      ⟨⟨?_, ?_, ?_, .inr rfl, ?_, allowed_plain ?_ ?_, List.forall_mem_nil _⟩, inFunc⟩
    · simp [Node.rewritable?]
    · simp [Node.asynchronous?]
    · rintro ⟨⟩
    · rintro _ _ ⟨⟩
    all_goals rintro ⟨⟩
  simpa [hostName] using inArrow

/-- A value whose made-up names become parameters may remain inside of a function. -/
theorem leaves_hosted (span : Span) {step : Lower Expr} (inStep : ending.LeavesExpr site step) :
    ending.Leaves site (hosted span step) fun e =>
      site = .inside .barred → ending.Keeps site (exprNodes e) := by
  refine leaves_get.bind fun progress => ?_
  have outside : ending.LeavesExpr site
      (withReader (fun (setting : Setting) => { setting with inParams := false }) step) :=
    inStep.withReader fun _ _ fits => { fits with params := nofun }
  refine outside.inFrame.bind fun (value, declared) => .pure ?_
  rintro ⟨inValue, -⟩ - rfl
  -- Each declared name wraps the value in one more arrow.
  induction declared with
  | nil => exact inValue
  | cons temp declared ih => exact keeps_hostName ih

/-- A default value or a key may remain, wherever it belongs to. -/
theorem leaves_rooted {forms : ExprForms} (inValue : ending.LeavesExpr site forms.value) :
    ending.LeavesExpr site (rooted forms) := by
  refine leaves_read.bind fun setting => .ite (fun inParams => ?_) fun _ => ?_
  · exact (leaves_hosted _ inValue).weaken fun _ keeps asked => keeps (asked.1 inParams)
  · exact inValue.weaken fun _ keeps _ => keeps

/-- A pattern that declares may remain as such. -/
theorem leaves_declaredPattern {forms : PatternForms} (inForms : ending.LeavesPattern site forms) :
    ending.Leaves site (declaredPattern forms) fun pattern =>
      ending.Keeps site (patternNodes pattern) ∧ ending.AdmitsDeclared pattern := by
  unfold declaredPattern
  extract_lets goOn
  refine .when (fun _ => leaves_require _ _ _) ?_
  refine inForms.bound.weaken fun pattern ⟨keeps, unnamed⟩ admits => ⟨keeps, fun noName => ?_⟩
  exact admits (by simp [unnamed noName])

/-- A default value may remain if there is one. -/
theorem leaves_default {default : Option ExprForms}
    (inDefault : ∀ forms ∈ default, ending.LeavesExpr site forms.value) :
    ending.Leaves site (default.mapM rooted) fun lowered =>
      ending.Keeps site (optionNodes lowered) ∧ lowered.isSome = default.isSome := by
  cases default with
  | none => exact .pure ⟨throughout_nil, rfl⟩
  | some forms =>
    exact Leaves.map ((leaves_rooted (inDefault forms rfl)).weaken fun _ keeps => ⟨keeps, rfl⟩)

/-- A parameter may remain but for the rests of its pattern. -/
theorem leaves_param {source : Param} {pattern : PatternForms} {default : Option ExprForms}
    (inPattern : ending.LeavesPattern site pattern)
    (inDefault : ∀ forms ∈ default, ending.LeavesExpr site forms.value) :
    ending.Leaves site (lowerParam source pattern default) (ending.Receives site) := by
  unfold lowerParam
  extract_lets afterDefault afterRest
  refine .when (fun _ => leaves_require .restArgument _ .restArguments) ?_
  refine .when (fun _ => leaves_require .defaultArgument _ .defaultArguments) ?_
  -- The pattern and the default are lowered after their requirements, and both requirements are
  -- reported if the target lacks them.
  refine (leaves_declaredPattern inPattern).bind fun pattern => ?_
  refine (leaves_default inDefault).bind fun default => .pure ?_
  intro ⟨inDefault, same⟩ ⟨inPattern, declared⟩ hasDefault rest
  exact ⟨fun isRest => .inl (rest isRest), fun isSome => hasDefault (same ▸ isSome), declared,
    inPattern, inDefault⟩

/-- Statements that all may remain. -/
theorem keeps_stmts {stmts : List Stmt} :
    ending.Keeps site (stmtsNodes stmts) ↔ ∀ stmt ∈ stmts, ending.Keeps site (stmtNodes stmt) := by
  rw [stmtsNodes_eq]
  exact throughout_flatMap

/-- A body as statements may remain if the body may. -/
theorem keeps_bodyStmts {body : Body} (inBody : ending.Keeps site (bodyNodes body)) :
    ending.Keeps site (stmtsNodes body.stmts) := by
  cases body with
  | block stmts => exact inBody
  | value result => exact keeps_stmts.mpr (by simpa [Body.stmts, bodyNodes] using inBody)

/-- A statement behind the first ones of a body may remain along with them. -/
theorem keeps_inserted {p : Stmt → Bool} {stmts : List Stmt} {inserted : Stmt}
    (inStmts : ending.Keeps site (stmtsNodes stmts))
    (inInserted : ending.Keeps site (stmtNodes inserted)) :
    ending.Keeps site (stmtsNodes (stmts.takeWhile p ++ inserted :: stmts.dropWhile p)) := by
  rw [keeps_stmts] at inStmts ⊢
  intro stmt mem
  rcases List.mem_append.mp mem with isFirst | isLater
  · exact inStmts stmt (List.takeWhile_subset _ isFirst)
  · rcases List.mem_cons.mp isLater with rfl | isLast
    · exact inInserted
    · exact inStmts stmt (List.dropWhile_subset _ isLast)

/-- Made-up names can be declared for every target. -/
theorem keeps_declaration {temps : List Temp} (plain : ∀ temp ∈ temps, temp.IsPlain) :
    ending.Keeps site (stmtNodes (Temp.declaration span temps)) := by
  refine keeps_varStmt.mpr fun declarator mem => ?_
  obtain ⟨temp, inTemps, rfl⟩ := List.mem_map.mp mem
  refine keeps_declarator.mpr ⟨⟨nofun, keeps_idPattern, ?_⟩, nofun⟩
  simp only [Declarator.ofName]
  -- A temporary starts as `this`, as a name or as nothing, and none of these accounts for anything.
  have starts := plain temp inTemps
  cases init : temp.init with
  | none => exact throughout_nil
  | some value =>
    rcases starts value (by simp [init]) with isThis | ⟨name, isName⟩
    · exact (keeps_plain (by simp [isThis, Shape.isPlain])).mpr (by simp [isThis, shapeNodes])
    · exact (keeps_plain (by simp [isName, Shape.isPlain])).mpr (by simp [isName, shapeNodes])

/-- A body that declares made-up names may remain. -/
theorem keeps_declareIn {temps : List Temp} {body : List Stmt}
    (plain : ∀ temp ∈ temps, temp.IsPlain) (inBody : ending.Keeps site (stmtsNodes body)) :
    ending.Keeps site (stmtsNodes (Temp.declareIn span temps body)) := by
  unfold Temp.declareIn
  split
  · exact inBody
  · exact keeps_inserted inBody (keeps_declaration plain)

/-- A body may remain with made-up names declared in it. -/
theorem keeps_declareInBody {temps : List Temp} {body : Body}
    (plain : ∀ temp ∈ temps, temp.IsPlain) (inBody : ending.Keeps site (bodyNodes body)) :
    ending.Keeps site (bodyNodes (declareInBody span temps body)) := by
  unfold declareInBody
  split
  · exact inBody
  · exact keeps_declareIn plain (keeps_bodyStmts inBody)

/-- Parameters may remain without the rests that move into the body, and so may the body. -/
theorem leaves_moveParamRests {ground : Ground} (params : List Param) (body : Body) :
    ending.Leaves (.inside ground) (moveParamRests params body) fun (kept, rest) =>
      (∀ param ∈ params, ending.Receives (.inside .barred) param) →
        ending.Keeps (.inside ground) (bodyNodes body) →
        ending.Keeps (.inside .barred) (paramsNodes kept)
          ∧ ending.Keeps (.inside ground) (bodyNodes rest) := by
  -- The target has rests in patterns, or the rests move into the body's first statement.
  refine (leaves_supports .objectRestSpread).bind fun has => .ite (fun isKept => .pure ?_) fun _ => ?_
  · intro known receive inBody
    refine ⟨?_, inBody⟩
    rw [paramsNodes_eq]
    refine throughout_flatMap.mpr fun param mem => keeps_param.mpr ⟨receive param mem, ?_⟩
    exact admitsRests_of_supports (known.symm.trans isKept)
  · refine (leaves_splitParams params).ofBarred.bind fun (kept, declaration) => ?_
    cases declaration with
    | none => exact .pure fun shown _ receive inBody => ⟨(shown receive).1, inBody⟩
    | some stmt =>
      refine .pure fun shown _ receive inBody => ⟨(shown receive).1, ?_⟩
      refine keeps_inserted (keeps_bodyStmts inBody) ?_
      exact keeps_moved ((shown receive).2 stmt rfl) (Site.barred_movesTo ground)

/-- A function as an expression may remain if it may by itself. -/
theorem keeps_function {origin : Origin} {name : Option String} {func : Func} :
    ending.Keeps site (exprNodes ⟨origin, .function name func⟩)
      ↔ ending.Keeps site (funcNodes func) :=
  keeps_plain rfl

/-- An arrow may remain where the target has arrows. -/
theorem keeps_arrow {origin : Origin} {func : Func}
    (arrows : ending.target.supports .arrow = true)
    (inFunc : ending.Keeps site (funcNodes func)) :
    ending.Keeps site (exprNodes ⟨origin, .arrow func⟩) := by
  refine keeps_expr.mpr ⟨⟨?_, ?_, nofun, .inl arrows, nofun, allowed_plain nofun nofun, nofun⟩, inFunc⟩
  · simp [Node.rewritable?]
  · simp [Node.asynchronous?]

/-- An arrow may remain as a function. -/
theorem keeps_arrowToFunction {func : Func} (inFunc : ending.Keeps site (funcNodes func)) :
    ending.Keeps site (exprNodes (arrowToFunction span func)) := by
  obtain ⟨kind, inParams, inBody⟩ := keeps_func.mp inFunc
  exact keeps_function.mpr (keeps_func.mpr ⟨kind, inParams, keeps_bodyStmts inBody⟩)

/-- Names that stand in for parameters can be parameters for every target. -/
theorem keeps_nameParams {names : List String} :
    ∀ param ∈ names.map (Param.ofName span), ending.Keeps site (paramNodes param) := by
  intro param mem
  obtain ⟨name, -, rfl⟩ := List.mem_map.mp mem
  exact keeps_nameParam

/-- The parameters that stay on an arrow outside may remain. -/
theorem keeps_forwardingParams (params : List Param) :
    ending.Keeps site (paramsNodes (arrowForwarding span params).1) := by
  rw [paramsNodes_eq]
  refine throughout_flatMap.mpr fun param mem => ?_
  rcases List.mem_append.mp mem with isName | isRest
  · exact keeps_nameParams param isName
  · obtain rfl := List.mem_singleton.mp isRest
    -- The rest parameter is one that lowering made up.
    refine keeps_param.mpr ⟨⟨fun _ => .inr ⟨_, rfl⟩, nofun, nofun, ?_, throughout_nil⟩, nofun⟩
    exact keeps_idPattern

/-- The array of the arguments of an arrow may remain. -/
theorem keeps_forwardedArgs (params : List Param) :
    ending.Keeps site (exprNodes (arrowForwarding span params).2) := by
  refine (keeps_plain rfl).mpr ?_
  simp only [arrowForwarding, Expr.of, shapeNodes, itemsNodes_eq]
  refine throughout_flatMap.mpr fun item mem => ?_
  rcases List.mem_append.mp mem with isName | isRest
  · obtain ⟨name, -, rfl⟩ := List.mem_map.mp isName
    exact @keeps_id ending site span name
  · obtain rfl := List.mem_singleton.mp isRest
    exact @keeps_id ending site span (placeholderName (arity params))

/-- A function whose body moves into a generator may remain where the target has those. -/
theorem keeps_toGenerator {driver : String} {forwards usesThis : Bool} {func : Func}
    (generators : ending.target.supports .generator = true)
    (inParams : ending.Keeps (.inside .barred) (paramsNodes func.params))
    (inBody : ending.Keeps (.inside .standIn) (bodyNodes func.body)) :
    ending.Keeps site (funcNodes (toGenerator driver forwards usesThis func)) := by
  -- Which parameters stay outside, which move inside, and what is passed on.
  obtain ⟨outer, inner, args, same, inOuter, inInner, inArgs⟩ :
      ∃ outer inner args, (if !forwards then (func.params, [], Expr.null func.span)
          else if func.isArrow then
            ((arrowForwarding func.span func.params).1, func.params,
              (arrowForwarding func.span func.params).2)
          else
            ((List.range (arity func.params)).map fun index =>
                .ofName func.span (placeholderName index), func.params,
              Expr.id func.span "arguments")) = (outer, inner, args)
        ∧ ending.Keeps (.inside .barred) (paramsNodes outer)
        ∧ ending.Keeps (.inside .barred) (paramsNodes inner)
        ∧ ending.Keeps (.inside (.body false false)) (exprNodes args) := by
    split
    · exact ⟨_, _, _, rfl, inParams, throughout_nil, keeps_null⟩
    · split
      · exact ⟨_, _, _, rfl, keeps_forwardingParams _, inParams, keeps_forwardedArgs _⟩
      · refine ⟨_, _, _, rfl, ?_, inParams, keeps_id⟩
        rw [paramsNodes_eq]
        refine throughout_flatMap.mpr fun param mem => ?_
        obtain ⟨index, -, rfl⟩ := List.mem_map.mp mem
        exact keeps_nameParam
  unfold toGenerator
  simp only [same]
  have inGenerator : ending.Keeps (.inside (.body false false))
      (funcNodes ⟨func.span, false, false, true, inner, .block func.body.stmts⟩) := by
    refine keeps_func.mpr ⟨admitsKind_generator generators, inInner, ?_⟩
    exact keeps_moved (keeps_bodyStmts inBody) Site.standIn_movesTo
  have inReceiver (uses : Bool) : ending.Keeps (.inside (.body false false))
      (exprNodes (if uses then Expr.this func.span else .null func.span)) := by
    split <;> simp
  have inCall (uses : Bool) : ending.Keeps (.inside (.body false false))
      (exprNodes (.helper func.span driver
        [if uses then Expr.this func.span else .null func.span, args,
          .of func.span (.function none
            ⟨func.span, false, false, true, inner, .block func.body.stmts⟩)])) := by
    simp only [keeps_helper, List.mem_cons, List.not_mem_nil, or_false, forall_eq_or_imp, forall_eq]
    exact ⟨inReceiver uses, inArgs, keeps_function.mpr inGenerator⟩
  refine keeps_func.mpr ⟨admitsKind_plain, inOuter, ?_⟩
  dsimp only
  split
  · exact inCall _
  · refine keeps_stmts.mpr fun stmt mem => ?_
    obtain rfl := List.mem_singleton.mp mem
    exact keeps_returns.mpr (inCall _)

/-- Of the helper that drives a generator nothing need be known. -/
theorem leaves_driver (mode : FuncMode) : ending.Leaves site mode.driver fun _ => True := by
  cases mode with
  | native => exact .fault
  | async => exact .pure trivial
  | asyncGenerator => exact .pure trivial

/-- Where the body of a function is lowered. -/
def bodyGround (mode : FuncMode) (isAsync isGenerator : Bool) : Ground :=
  if mode = .native then .body isAsync isGenerator else .standIn

/-- A lowered function may remain. -/
theorem leaves_func {source : Func} {params : Lower (List Param)} {body : Lower Body}
    (inParams : ending.Leaves (.inside .barred) params fun params =>
      ∀ param ∈ params, ending.Receives (.inside .barred) param)
    (inBody : ∀ mode : FuncMode, (mode ≠ .native → source.isAsync = true) →
      let ground := bodyGround mode source.isAsync source.isGenerator
      ending.Leaves (.inside ground) body fun body =>
        ending.Keeps (.inside ground) (bodyNodes body)) :
    ending.Leaves site (lowerFunc source params body) fun func =>
      ending.Keeps site (funcNodes func) := by
  unfold lowerFunc
  -- The function runs in the mode chosen for its kind; the ground its body stands on follows from
  -- it.
  refine (leaves_funcMode _ _ _).bindKnowing (fun ending => leaves_funcMode_async _ _ _) ?_
  intro mode onlyAsync
  refine leaves_read.bind fun setting => ?_
  refine (leaves_lacks _).bind fun losesArrow => (leaves_supports _).bind fun isKept => ?_
  extract_lets inside
  -- The body may await as the mode's form says, wherever the function itself stands.
  let ground := bodyGround mode source.isAsync source.isGenerator
  have inInside : ending.Leaves site inside fun ((params, body), _) =>
      ending.Keeps (.inside .barred) (paramsNodes params)
        ∧ ending.Keeps (.inside ground) (bodyNodes body) := by
    refine leaves_get.bind fun progress => ?_
    extract_lets owner
    have suits : Site.Suits (.inside ground) owner := by
      have notModule : owner.kind ≠ .module := by
        simp only [owner]
        split <;> decide
      cases mode <;> exact ⟨notModule, by simp [owner, FuncMode.awaitForm]⟩
    have moves : ending.Leaves (.inside ground)
        (do
          let params ← Lowering.inParams params
          let body ← body
          moveParamRests params body) fun (params, body) =>
        ending.Keeps (.inside .barred) (paramsNodes params)
          ∧ ending.Keeps (.inside ground) (bodyNodes body) := by
      refine inParams.inParams.ofBarred.bind fun params => ?_
      refine (inBody mode onlyAsync).bind fun body => ?_
      exact (leaves_moveParamRests params body).weaken fun _ moved inBody inParams =>
        moved inParams inBody
    exact (moves.inOwner suits (by simp)).weaken fun _ shown _ => shown
  refine inInside.inFrame.bind fun (((params, body), owner), temps) => ?_
  dsimp only
  -- A native function keeps its kind; a stand-in is a plain function, and the driver around it a
  -- call.
  refine .ite (fun isNative => .pure ?_) fun isMoved => (leaves_driver mode).andThen fun _ => .pure ?_
  · rintro ⟨⟨inParams, inBody⟩, plain⟩ - - - kind
    rw [if_pos isNative] at kind
    rw [show ground = .body _ _ from if_pos isNative] at inBody
    exact keeps_func.mpr ⟨kind, inParams, keeps_declareInBody plain inBody⟩
  · rintro ⟨⟨inParams, inBody⟩, plain⟩ - - - generators
    rw [if_neg isMoved] at generators
    rw [show ground = .standIn from if_neg isMoved] at inBody
    exact keeps_toGenerator generators inParams (keeps_declareInBody plain inBody)

/-- A lowered key may remain. -/
theorem leaves_key {key : KeyForms} (inKey : ending.LeavesKey site key) :
    ending.Leaves site (lowerKey key) fun key => ending.Keeps site (keyNodes key) := by
  cases key with
  | computed value => exact (leaves_rooted inKey).bind fun _ => .pure fun keeps => keeps
  | direct name =>
    unfold lowerKey
    refine (leaves_lacks .bigint).bind fun isLacking => .ite (fun _ => ?_) fun _ => ?_
    · cases bigintValue? name.text with
      | some value => exact .pure fun _ => throughout_nil
      | none => exact .pure fun _ => throughout_nil
    · exact .pure fun _ => throughout_nil

/-- The call that makes a large integer may remain. -/
theorem keeps_bigintCall {digits : String} :
    ending.Keeps site (exprNodes (bigintCall span digits)) := by
  simp [bigintCall, argsNodes, argNodes]

/-- The sum of operands may remain if all of them may. -/
theorem keeps_sum {operands : List Expr} {first : Expr}
    (inFirst : ending.Keeps site (exprNodes first))
    (inOperands : ∀ operand ∈ operands, ending.Keeps site (exprNodes operand)) :
    ending.Keeps site (exprNodes (operands.foldl (.binary span .addition) first)) := by
  induction operands generalizing first with
  | nil => exact inFirst
  | cons operand operands ih =>
    refine ih ?_ fun other mem => inOperands other (by simp [mem])
    exact (keeps_binary rfl (by decide)).mpr ⟨inFirst, inOperands operand (by simp)⟩

/-- The values that are substituted into a template may remain. -/
theorem keeps_substitutions {spans : List TemplateSpan} :
    ending.Keeps site (spansNodes spans)
      ↔ ∀ part ∈ spans, ending.Keeps site (exprNodes part.value) := by
  rw [spansNodes_eq]
  refine throughout_flatMap.trans (forall₂_congr fun part _ => ?_)
  cases part
  rw [spanNodes]

/-- A template may remain as a sum. -/
theorem keeps_templateSum {head : String} {spans : List TemplateSpan}
    (inSpans : ending.Keeps site (spansNodes spans)) :
    ending.Keeps site (exprNodes (Templates.sum span head spans)) := by
  refine keeps_sum keeps_str fun operand mem => ?_
  obtain ⟨part, isPart, isOperand⟩ := List.mem_flatMap.mp mem
  rcases List.mem_cons.mp isOperand with rfl | isText
  · exact keeps_substitutions.mp inSpans part isPart
  · split at isText
    · cases isText
    · obtain rfl := List.mem_singleton.mp isText
      exact keeps_str

/-- The strings of a template may remain. -/
theorem keeps_templateStrings {texts : List String} :
    ∀ strings ∈ Templates.strings span texts, ending.Keeps site (exprNodes strings) := by
  have inCooked (raw : String) :
      ending.Keeps site (exprNodes (Templates.cookedValue span raw)) := by
    unfold Templates.cookedValue
    cases Text.cook? raw <;> simp
  unfold Templates.strings
  dsimp only
  split <;> simp [inCooked]

/-- A tagged template may remain as a call. -/
theorem leaves_taggedToCall {tag : Expr} {receiver : Option Expr} {head : String}
    {spans : List TemplateSpan} :
    ending.Leaves site (taggedToCall span tag receiver head spans) fun e =>
      ending.KeepsCallee site (tag, receiver) → ending.Keeps site (spansNodes spans) →
        ending.Keeps site (exprNodes e) := by
  unfold taggedToCall
  rw [templateStrings_eq, pure_bind]
  refine (leaves_allocIn 0 none (by simp) true).bind fun name => ?_
  -- The strings are made where they are used for the first time.
  have inStrings : ending.Keeps site (exprNodes (.binary span .logicalOr (.id span name)
      (.assign span (.id span name)
        (.helper span "__template" (Templates.strings span (head :: spans.map (·.text))))))) := by
    refine (keeps_binary rfl (by decide)).mpr ⟨keeps_id, ?_⟩
    rw [keeps_assign_id, keeps_helper]
    exact keeps_templateStrings
  have inArgs (inSpans : ending.Keeps site (spansNodes spans)) :
      ∀ arg ∈ (.binary span .logicalOr (.id span name)
        (.assign span (.id span name)
          (.helper span "__template" (Templates.strings span (head :: spans.map (·.text))))))
        :: spans.map (·.value), ending.Keeps site (exprNodes arg) := by
    simp only [List.mem_cons, List.mem_map, forall_eq_or_imp]
    refine ⟨inStrings, ?_⟩
    rintro _ ⟨part, isPart, rfl⟩
    exact keeps_substitutions.mp inSpans part isPart
  cases receiver with
  | some receiver =>
    refine .pure fun _ inTag inSpans => ?_
    exact keeps_callWithThis.mpr
      ⟨inTag.function, inTag.receiver receiver rfl, keeps_plainArgs.mpr (inArgs inSpans)⟩
  | none =>
    refine .pure fun _ inTag inSpans => ?_
    exact keeps_call.mpr ⟨inTag.function, inArgs inSpans⟩

/-- A tagged template may remain, or the call that it was lowered to. -/
theorem leaves_taggedTemplate (origin : Origin) {tag : ExprForms} (head : String)
    {spans : Lower (List TemplateSpan)} (inTag : ending.LeavesForms site tag)
    (inSpans : ending.Leaves site spans fun spans => ending.Keeps site (spansNodes spans)) :
    ending.LeavesExpr site (taggedTemplate origin tag head spans) := by
  refine (leaves_calledExpr inTag).bind fun (tag, receiver) => inSpans.bind fun spans => ?_
  -- A template that stays needs the target's templates; otherwise the tag becomes a call.
  refine (leaves_supports .templateLiteral).bind fun has => .ite (fun stays => .pure ?_) fun _ => ?_
  · intro known inSpans inTag
    have templates : ending.target.supports .templateLiteral = true := by rw [← known, stays.2]
    refine keeps_expr.mpr ⟨⟨?_, ?_, nofun, trivial, nofun, allowed_plain nofun nofun, nofun⟩, ?_⟩
    · simpa [Node.rewritable?] using templates
    · simp [Node.asynchronous?]
    · simpa [shapeNodes] using ⟨inTag.function, inSpans⟩
  · exact leaves_taggedToCall.weaken fun _ keeps _ inSpans inTag => keeps inTag inSpans

/-- A member of an object literal is one that every target has, unless it is a spread. -/
theorem accounts_objectMember {member : ObjectMember} (noSpread : isSpread member = false) :
    ending.Accounts site (.objectMember member) := by
  refine ⟨?_, ?_, nofun, trivial, nofun, allowed_plain nofun nofun, nofun⟩
  · cases member <;> simp_all [Node.rewritable?, isSpread]
  · simp [Node.asynchronous?]

/-- A member of an object literal that may remain; of a spread, only the value is known to. -/
def KeepsMember (ending : Ending) (site : Site) : ObjectMember → Prop
  | .spread _ value => ending.Keeps site (exprNodes value)
  | member => ending.Keeps site (objectMemberNodes member)

/-- A member may remain if the target has spreads or it is none. -/
theorem keeps_objectMember {member : ObjectMember} (keeps : ending.KeepsMember site member)
    (spreads : isSpread member = true → ending.target.supports .objectRestSpread = true) :
    ending.Keeps site (objectMemberNodes member) := by
  -- Only a spread asks for something of the target.
  cases member with
  | valued span key value => exact keeps
  | shorthand span name => exact keeps
  | spread span value =>
    simp only [objectMemberNodes, throughout_cons, Site.into_own_false]
    refine ⟨⟨?_, ?_, ?_, trivial, ?_, allowed_plain ?_ ?_, List.forall_mem_nil _⟩, keeps⟩
    · simpa [Node.rewritable?] using spreads rfl
    · simp [Node.asynchronous?]
    · rintro ⟨⟩
    · rintro _ _ ⟨⟩
    all_goals rintro ⟨⟩

/-- An object literal may remain if its members may. -/
theorem keeps_object {origin : Origin} {members : List ObjectMember}
    (keeps : ∀ member ∈ members, ending.Keeps site (objectMemberNodes member)) :
    ending.Keeps site (exprNodes ⟨origin, .object members⟩) := by
  refine (keeps_plain rfl).mpr ?_
  simp only [shapeNodes, objectMembersNodes_eq]
  exact throughout_flatMap.mpr keeps

/-- Members that are added may remain if they and what they are added to may. -/
theorem keeps_addMembers {sofar : Option Expr} {members : List ObjectMember}
    (inSofar : ∀ base ∈ sofar, ending.Keeps site (exprNodes base))
    (inMembers : ∀ member ∈ members, ending.Keeps site (objectMemberNodes member)) :
    ending.Keeps site (exprNodes (addMembers span sofar members)) := by
  cases sofar with
  | none => exact keeps_object inMembers
  | some base =>
    simp only [addMembers, keeps_helper, List.mem_cons, List.not_mem_nil, or_false,
      forall_eq_or_imp, forall_eq]
    exact ⟨inSofar base rfl, keeps_object inMembers⟩

/-- Members from the first spread on may remain as calls that add them. -/
theorem keeps_spreadMembers {sofar : Option Expr} {collected members : List ObjectMember}
    (inSofar : ∀ base ∈ sofar, ending.Keeps site (exprNodes base))
    (inCollected : ∀ member ∈ collected, ending.Keeps site (objectMemberNodes member))
    (inMembers : ∀ member ∈ members, ending.KeepsMember site member) :
    ending.Keeps site (exprNodes (spreadMembers span sofar collected members)) := by
  induction members generalizing sofar collected with
  | nil =>
    unfold spreadMembers
    split
    · contradiction
    · contradiction
    · exact inSofar _ rfl
    · exact keeps_addMembers inSofar inCollected
  | cons member members ih =>
    have inOthers : ∀ member ∈ members, ending.KeepsMember site member :=
      fun other mem => inMembers other (by simp [mem])
    have own := inMembers member (by simp)
    -- A member that is no spread is collected.
    have collects (noSpread : isSpread member = false) :
        ending.Keeps site
          (exprNodes (spreadMembers span sofar (collected ++ [member]) members)) := by
      refine ih inSofar (fun other mem => ?_) inOthers
      rcases List.mem_append.mp mem with before | isMember
      · exact inCollected other before
      · obtain rfl := List.mem_singleton.mp isMember
        exact keeps_objectMember own (by simp [noSpread])
    cases member with
    | valued memberSpan key value => exact collects rfl
    | shorthand memberSpan name => exact collects rfl
    | spread memberSpan value =>
      refine ih (fun base isBase => ?_) (List.forall_mem_nil _) inOthers
      obtain rfl := Option.mem_some.mp isBase
      simp only [keeps_helper, List.mem_cons, List.not_mem_nil, or_false, forall_eq_or_imp,
        forall_eq]
      refine ⟨?_, own⟩
      split
      · split
        · exact inSofar _ rfl
        · exact keeps_addMembers inSofar inCollected
      · exact keeps_addMembers (by simp) inCollected

/-- An object literal may remain, or the calls that it was lowered to. -/
theorem leaves_objectLiteral (origin : Origin) (members : List ObjectMember) :
    ending.Leaves site (objectLiteral origin members) fun e =>
      (∀ member ∈ members, ending.KeepsMember site member) →
        ending.Keeps site (exprNodes e) := by
  refine (leaves_lacks .objectRestSpread).bind fun isLacking => .ite (fun _ => .pure ?_) fun has => ?_
  · exact fun _ inMembers => keeps_spreadMembers nofun nofun inMembers
  · refine .pure fun known inMembers => keeps_object fun member mem => ?_
    refine keeps_objectMember (inMembers member mem) fun isSpread => ?_
    have isAny : members.any Lowering.isSpread = true := List.any_eq_true.mpr ⟨member, mem, isSpread⟩
    simpa [isAny, known] using has

/-- A member that stands for itself may remain. -/
theorem leaves_shorthandMember (span : Span) (name : String) :
    ending.Leaves site (shorthandMember span name) (ending.KeepsMember site) := by
  have stays : ending.KeepsMember site (.shorthand span name) := by
    have own : ending.Accounts site (.objectMember (.shorthand span name)) :=
      accounts_objectMember rfl
    simpa [KeepsMember, objectMemberNodes] using own
  unfold shorthandMember
  -- A shorthand stays unless it is `arguments` and a lifted function holds that under another name.
  refine .ite (fun _ => ?_) fun _ => .pure stays
  refine leaves_resolveArguments.bind fun found => ?_
  cases found with
  | none => exact .pure fun _ => stays
  | some other =>
    refine .pure fun _ => ?_
    have own : ending.Accounts site (.objectMember
        (.valued span (.direct ⟨span, name, .identifier⟩) (.field (some (.id span other))))) :=
      accounts_objectMember rfl
    simpa [KeepsMember, objectMemberNodes, keyNodes, memberValueNodes, optionNodes] using own

end Ending

end Downlevel
