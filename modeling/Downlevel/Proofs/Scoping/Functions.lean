import Downlevel.Lowering.Literal
import Downlevel.Proofs.Scoping.Operations

/-! Functions: the made-up names of a body are declared at its start, those of a parameter become
parameters of functions around its value, and what stands for `this` or `arguments` is all that a
parameter mentions of the body. -/

namespace Downlevel

open Lowering

section Declared

variable {stem : String} {world : World} {span : Span} {temps : List Temp} {name : String}

/-- The other names in two lists of nodes are those in each. -/
@[simp] theorem aliases_append {nodes more : List Occurrence} :
    aliases (nodes ++ more) = aliases nodes ++ aliases more :=
  List.filterMap_append

/-- Where a node belongs makes no difference to its other names. -/
@[simp] theorem aliases_into {site : Site} {nodes : List Occurrence} :
    aliases (nodes.map (.into site)) = aliases nodes := by
  simp [aliases, Occurrence.into, Function.comp_def]

/-- Another name is that of some node. -/
theorem mem_aliases {nodes : List Occurrence} :
    name ∈ aliases nodes ↔ ∃ found ∈ nodes, found.node.alias? = some name :=
  List.mem_filterMap

/-- Whatever a statement makes up to stand for something, the statements around it do. -/
theorem mem_aliases_of_stmt {stmt : Stmt} {stmts : List Stmt} (mem : stmt ∈ stmts)
    (isAlias : name ∈ aliases (stmtNodes stmt)) : name ∈ aliases (stmtsNodes stmts) := by
  obtain ⟨found, inStmt, isOwn⟩ := mem_aliases.mp isAlias
  rw [stmtsNodes_eq]
  exact mem_aliases.mpr ⟨found, List.mem_flatMap.mpr ⟨stmt, mem, inStmt⟩, isOwn⟩

/-- Where a name is declared does not matter for what it stands for. -/
theorem alias?_ofName {temp : Temp} :
    (Declarator.ofName span temp.name temp.init).alias? = temp.alias? := by
  obtain ⟨owner, own, seq, init⟩ := temp
  rcases init with - | ⟨origin, shape⟩
  · rfl
  · cases shape <;> rfl

/-- The declaration of made-up names declares those that stand for something as such. -/
theorem mem_aliases_declaration (mem : name ∈ temps.filterMap Temp.alias?) :
    name ∈ aliases (stmtNodes (Temp.declaration span temps)) := by
  obtain ⟨temp, isTemp, isAlias⟩ := List.mem_filterMap.mp mem
  have node : Occurrence.here (.declarator (.ofName span temp.name temp.init))
      ∈ stmtNodes (Temp.declaration span temps) := by
    rw [Temp.declaration, stmtNodes, stmtShapeNodes, declaratorsNodes_eq]
    refine List.mem_cons_of_mem _ (List.mem_flatMap.mpr ⟨.ofName span temp.name temp.init, ?_, ?_⟩)
    · exact List.mem_map.mpr ⟨temp, isTemp, rfl⟩
    · rw [Declarator.ofName, declaratorNodes]
      exact List.mem_cons_self
  exact mem_aliases.mpr ⟨_, node, alias?_ofName.trans isAlias⟩

/-- The declaration of made-up names binds them all. -/
theorem names_declaration {isNested : Bool} :
    stmtNames isNested (Temp.declaration span temps) = temps.map (·.name) := by
  rw [Temp.declaration, stmtNames_mk, stmtShapeNames, if_neg (by simp)]
  induction temps with
  | nil => rfl
  | cons temp rest ih => simp [ih]

/-- The declaration of made-up names needs nothing around it. -/
theorem meets_declaration (arguments : world "arguments")
    (sound : ∀ temp ∈ temps, temp.IsSound stem) :
    Meets stem world (stmtUses (Temp.declaration span temps)) := by
  rw [Temp.declaration, stmtUses_mk, stmtShapeUses, declaratorsUses_eq, meets_flatMap]
  intro declarator mem
  obtain ⟨temp, isTemp, rfl⟩ := List.mem_map.mp mem
  -- A temporary starts as `this`, as `arguments` or as nothing, and the world has `arguments`.
  obtain ⟨writable, starts⟩ := sound temp isTemp
  rw [declaratorUses_ofName, meets_cons]
  refine ⟨writable, ?_⟩
  cases init : temp.init with
  | none => exact meets_nil
  | some e =>
    rw [optionUses, exprUses_shape]
    rcases starts e init with isThis | isArguments
    · simp [isThis, shapeUses]
    · simp [isArguments, shapeUses, arguments]

/-- Declaring names in front of statements binds them there. -/
theorem meets_declareIn {stmts : List Stmt} (arguments : world "arguments")
    (sound : ∀ temp ∈ temps, temp.IsSound stem)
    (meets : Meets stem world (stmtsUses stmts)) :
    Meets stem world (stmtsUses (Temp.declareIn span temps stmts)) := by
  rw [Temp.declareIn]
  split
  · exact meets
  · rw [List.append_cons, meets_splice]
    exact ⟨by simpa using meets_declaration arguments sound, meets⟩

/-- Declared names are bound, along with those before. -/
theorem mem_names_declareIn {stmts : List Stmt} {isNested : Bool} :
    name ∈ stmtsNames isNested (Temp.declareIn span temps stmts)
      ↔ name ∈ temps.map (·.name) ∨ name ∈ stmtsNames isNested stmts := by
  rw [Temp.declareIn]
  split
  · rename_i isEmpty
    simp [List.isEmpty_iff.mp isEmpty]
  · rw [List.append_cons, mem_names_splice]
    simp [names_declaration]

/-- Declaring names in front of statements declares those that stand for something as such. -/
theorem mem_aliases_declareIn {stmts : List Stmt} (mem : name ∈ temps.filterMap Temp.alias?) :
    name ∈ aliases (stmtsNodes (Temp.declareIn span temps stmts)) := by
  have notEmpty : temps.isEmpty = false := by
    cases temps <;> simp_all
  rw [Temp.declareIn, if_neg (by simp [notEmpty])]
  have own : name ∈ aliases (stmtNodes (Temp.declaration span temps)) := mem_aliases_declaration mem
  exact mem_aliases_of_stmt (by simp) own

end Declared

namespace Realm

variable {realm : Realm} {mayBeParams : Bool} {world : World} {span : Span}

section Hosted

/-- A name that a function around an expression binds is not needed around the function. -/
theorem meets_hostName {name : String} {body : Expr} (writable : Writable realm.stem name)
    (meets : Meets realm.stem (world.plus realm.stem [name]) (exprUses body)) :
    Meets realm.stem world (exprUses (hostName span name body)) := by
  simpa [hostName, shapeUses, funcUses, paramsUses, bodyUses, bodyNames, writable] using meets

/-- Names that functions around an expression bind are not needed around the functions. -/
theorem meets_hostNames {temps : List Temp} {value : Expr}
    (sound : ∀ temp ∈ temps, temp.IsSound realm.stem)
    (meets : Meets realm.stem (world.plus realm.stem (temps.map (·.name))) (exprUses value)) :
    Meets realm.stem world
      (exprUses (temps.foldr (fun temp body => hostName span temp.name body) value)) := by
  -- Each declared name is bound by one more arrow around the value.
  induction temps generalizing world with
  | nil => simpa using meets
  | cons temp rest ih =>
    obtain ⟨own, others⟩ := List.forall_mem_cons.mp sound
    apply meets_hostName own.writable
    apply ih others
    simpa using meets

/-- An expression whose made-up names are bound by functions around it. -/
theorem works_hosted (span : Span) {step : Lower Expr} (inStep : realm.WorksExpr step) :
    realm.Works true (hosted span step) fun world e => Meets realm.stem world (exprUses e) := by
  apply works_get.andThen
  intro progress
  apply inStep.freshOutside.inFrame.bind
  rintro ⟨value, declared⟩
  apply Works.pure
  rintro world _ ⟨sound, meets⟩
  exact meets_hostNames sound meets

/-- A default value or a key works, also if it belongs to a parameter. -/
theorem works_rooted {forms : ExprForms} (inForms : realm.WorksExpr forms.value) :
    realm.Works mayBeParams (rooted forms) fun world e => Meets realm.stem world (exprUses e) := by
  apply Works.ofParams
  intro setting before fits
  have asked : rooted forms setting before
      = (if setting.inParams then hosted forms.source.span forms.value else forms.value)
        setting before := rfl
  rw [asked]
  -- Inside parameters the value is hosted, outside of them it is lowered where it stands.
  split
  · exact works_hosted _ inForms setting before fits
  · rename_i outside
    exact inForms setting before { fits with params := fun inParams => absurd inParams outside }

end Hosted

section Parameters

/-- Lowering a declared pattern works. -/
theorem works_declaredPattern {forms : PatternForms} (inForms : realm.WorksPattern forms)
    (noTarget : mayBeParams = true → hasTarget forms.source = false) :
    realm.Works mayBeParams (declaredPattern forms) fun world pattern =>
      Meets realm.stem world (patternUses false pattern) := by
  unfold declaredPattern
  apply Works.when
  · exact works_require _ _ _
  · exact inForms.bound mayBeParams noTarget

/-- A pattern that is declared outside of parameters may write members. -/
theorem works_declared {forms : PatternForms} (inForms : realm.WorksPattern forms) :
    realm.Works false (declaredPattern forms) fun world pattern =>
      Meets realm.stem world (patternUses false pattern) :=
  works_declaredPattern inForms (by simp)

/-- A parameter needs what its pattern and its default value do. -/
theorem works_param {source : Param} {pattern : PatternForms} {default : Option ExprForms}
    (inPattern : realm.WorksPattern pattern) (noTarget : hasTarget pattern.source = false)
    (inDefault : ∀ forms ∈ default, realm.WorksExpr forms.value) :
    realm.Works true (lowerParam source pattern default) fun world param =>
      Meets realm.stem world (paramUses param) := by
  have rest : realm.Works true
      (do
        let pattern ← declaredPattern pattern
        let default ← default.mapM rooted
        return { source with pattern, default }) fun world param =>
      Meets realm.stem world (paramUses param) := by
    apply (works_declaredPattern inPattern fun _ => noTarget).bind
    intro pattern
    have lowered : realm.Works true (default.mapM rooted) fun world default =>
        Meets realm.stem world (optionUses default) := by
      cases default with
      | none => exact .pure fun _ _ => by simp [optionUses]
      | some forms =>
        exact .map ((works_rooted (inDefault forms rfl)).weaken fun _ _ _ meets => by
          simpa [optionUses] using meets)
    apply lowered.bind
    intro default
    apply Works.pure
    intro world _ inDefault inPattern
    rw [paramUses, meets_append]
    exact ⟨meets_binding pattern inPattern, inDefault⟩
  unfold lowerParam
  -- The requirements ask the target; what they report changes nothing in the parameter.
  apply Works.when
  · exact works_require _ _ _
  · apply Works.when
    · exact works_require _ _ _
    · exact rest

/-- A parameter without the rest of its pattern needs what it did, and what is declared instead is
bound by the parameter. -/
theorem works_splitParam (param : Param) :
    realm.Works false (splitParam param) fun world (kept, declarator) =>
      (∀ narrow : World, Meets realm.stem narrow (paramUses param) →
        Meets realm.stem narrow (paramUses kept))
      ∧ (Meets realm.stem world (paramUses param) → ∀ own ∈ declarator,
        MeetsDeclarator realm.stem world (world.plus realm.stem (patternNames kept.pattern)) own) := by
  obtain ⟨span, isRest, pattern, default⟩ := param
  unfold splitParam
  dsimp only
  -- An object pattern with a rest is taken out of the parameter and leaves a name there; any other
  -- stays.
  split
  · rename_i patternSpan properties rest
    apply Works.ite
    · intro _
      apply (works_unsupported _ _).andThen
      exact fun _ => .pure fun _ _ => ⟨fun _ => id, by simp⟩
    · intro _
      apply works_allocBound.bind
      intro name
      apply Works.pure
      intro world _ writable
      constructor
      · intro narrow meets
        simp only [paramUses, meets_append] at meets ⊢
        exact ⟨by simpa using writable, meets.2⟩
      · intro meets
        simp only [paramUses, meets_append] at meets
        simp only [Option.mem_def, Option.some.injEq, forall_eq']
        refine ⟨meets.1, ?_⟩
        have named : world.plus realm.stem [name] name := .inr ⟨by simp, writable⟩
        simpa [optionUses] using named
  · apply Works.when
    · exact works_unsupported _ _
    · exact .pure fun _ _ => ⟨fun _ => id, by simp⟩

/-- Parameters without the rests of their patterns need what they did, and the statement that
declares those needs the names of the parameters as well. -/
theorem works_splitParams (params : List Param) :
    realm.Works false (splitParams params) fun world (kept, declaration) =>
      (∀ narrow : World, Meets realm.stem narrow (paramsUses params) →
        Meets realm.stem narrow (paramsUses kept))
      ∧ (Meets realm.stem world (paramsUses params) → ∀ stmt ∈ declaration,
        Meets realm.stem
          (world.plus realm.stem (paramsNames kept ++ stmtNames false stmt)) (stmtUses stmt)) := by
  apply (Works.mapM fun param _ => works_splitParam param).bind
  intro split
  -- Without anything taken out the parameters stay as they are; otherwise one declaration holds all
  -- that was taken out.
  cases found : split.filterMap (·.2) with
  | nil => exact .pure fun _ _ _ => ⟨fun _ => id, fun _ => nofun⟩
  | cons first more =>
    apply (works_splitDeclarators (first :: more)).bind
    intro declarators
    apply Works.pure
    rintro world _ inDeclarators ⟨each, -⟩
    constructor
    · intro narrow meets
      rw [paramsUses_eq, meets_flatMap] at meets ⊢
      intro kept mem
      obtain ⟨pair, inSplit, rfl⟩ := List.mem_map.mp mem
      obtain ⟨param, isParam, shown⟩ := each pair inSplit
      exact shown.1 narrow (meets param isParam)
    · intro meets
      rw [paramsUses_eq, meets_flatMap] at meets
      simp only [Option.mem_def, Option.some.injEq, forall_eq']
      -- The declaration is read where the names left in the parameters are bound.
      have own : ∀ declarator ∈ first :: more, MeetsDeclarator realm.stem world
          (world.plus realm.stem (paramsNames (split.map (·.1)))) declarator := by
        intro declarator mem
        rw [← found] at mem
        obtain ⟨pair, inSplit, isOwn⟩ := List.mem_filterMap.mp mem
        obtain ⟨param, isParam, shown⟩ := each pair inSplit
        obtain ⟨inPattern, inInit⟩ := shown.2 (meets param isParam) declarator isOwn
        refine ⟨inPattern, inInit.mono (World.plus_mono (fun _ => id) fun name isName => ?_)⟩
        exact List.mem_flatMap.mpr ⟨pair.1, List.mem_map.mpr ⟨pair, inSplit, rfl⟩, isName⟩
      have parts := inDeclarators _ (fun _ => World.plus_of_world) own
      rw [stmtUses_mk, stmtNames_mk, stmtShapeUses, stmtShapeNames, if_neg (by simp),
        ← World.plus_append]
      exact meets_declarators (fun _ holds => .inl (.inl holds)) parts

end Parameters

section Bodies

/-- A function's parameters need what is bound around it and what stands for `this` or `arguments`
in its body, and the body needs what is bound around it, by the parameters and by itself. -/
structure MeetsFunc (stem : String) (world : World) (names : List String) (params : List Param)
    (body : Body) : Prop where
  inParams : Meets stem (world.plus stem names) (paramsUses params)
  inBody : Meets stem (world.plus stem (paramsNames params ++ bodyNames body)) (bodyUses body)
  areAliases : ∀ name ∈ names, name ∈ aliases (bodyNodes body)

/-- A function needs what its parts do. -/
theorem MeetsFunc.meets {stem : String} {names : List String} {params : List Param} {body : Body}
    (holds : MeetsFunc stem world names params body) (isArrow isAsync isGenerator : Bool) :
    Meets stem world (funcUses ⟨span, isArrow, isAsync, isGenerator, params, body⟩) := by
  rw [funcUses, meets_append, meets_enclosed, meets_enclosed]
  exact ⟨holds.inParams.mono (World.plus_mono (fun _ => id) holds.areAliases), holds.inBody⟩

/-- A statement that is put into a body adds to it what it needs. -/
theorem works_moveParamRests (params : List Param) (body : Body) :
    realm.Works false (moveParamRests params body) fun world (kept, rest) =>
      (∀ narrow : World, Meets realm.stem narrow (paramsUses params) →
        Meets realm.stem narrow (paramsUses kept))
      ∧ (Meets realm.stem world (paramsUses params) →
        Meets realm.stem (world.plus realm.stem (bodyNames body)) (bodyUses body) →
        Meets realm.stem (world.plus realm.stem (paramsNames kept ++ bodyNames rest))
          (bodyUses rest))
      ∧ (body.isBlock = true → rest.isBlock = true) := by
  -- A body that stays as it is needs what it did.
  have stays {world : World} {kept : List Param}
      (meets : Meets realm.stem (world.plus realm.stem (bodyNames body)) (bodyUses body)) :
      Meets realm.stem (world.plus realm.stem (paramsNames kept ++ bodyNames body))
        (bodyUses body) :=
    meets.mono (World.plus_mono (fun _ => id) fun _ => List.mem_append_right _)
  apply (works_supports .objectRestSpread).andThen
  intro isSupported
  apply Works.ite
  · exact fun _ => .pure fun _ _ => ⟨fun _ => id, fun _ => stays, id⟩
  · intro _
    apply (works_splitParams params).bind
    rintro ⟨kept, declaration⟩
    cases declaration with
    | none => exact .pure fun _ _ shown => ⟨shown.1, fun _ => stays, id⟩
    | some stmt =>
      apply Works.pure
      intro world _ shown
      refine ⟨shown.1, fun inParams inBody => ?_, fun _ => rfl⟩
      have inStmt := shown.2 inParams stmt rfl
      have inserted (name : String) :
          name ∈ bodyNames (insertInBody stmt body)
            ↔ name ∈ stmtNames false stmt ∨ name ∈ bodyNames body := by
        rw [insertInBody, bodyNames, List.append_cons, mem_names_splice, bodyNames_stmts]
        simp
      have uses : bodyUses (insertInBody stmt body)
          = stmtsUses (body.stmts.takeWhile Temp.isPrologue ++ [stmt]
            ++ body.stmts.dropWhile Temp.isPrologue) := by
        rw [insertInBody, bodyUses, List.append_cons]
      rw [uses, meets_splice, bodyUses_stmts]
      constructor
      · rw [stmtsUses_cons, stmtsUses_nil, List.append_nil]
        refine inStmt.mono (World.plus_mono (fun _ => id) fun name mem => ?_)
        exact List.mem_append.mpr ((List.mem_append.mp mem).imp_right fun own =>
          (inserted name).mpr (.inl own))
      · refine inBody.mono (World.plus_mono (fun _ => id) fun name mem => ?_)
        exact List.mem_append_right _ ((inserted name).mpr (.inr mem))

/-- Declaring made-up names in a body binds them there. -/
theorem meetsFunc_declareInBody {temps : List Temp} {params : List Param} {body : Body}
    (grounds : realm.Grounds world) (sound : ∀ temp ∈ temps, temp.IsSound realm.stem)
    (inParams : Meets realm.stem (world.plus realm.stem (temps.filterMap Temp.alias?))
      (paramsUses params))
    (inBody : Meets realm.stem
      ((world.plus realm.stem (temps.map (·.name))).plus realm.stem
        (paramsNames params ++ bodyNames body)) (bodyUses body)) :
    MeetsFunc realm.stem world (temps.filterMap Temp.alias?) params (declareInBody span temps body) := by
  rw [World.plus_append] at inBody
  unfold declareInBody
  -- Nothing to declare leaves the body alone; otherwise the declaration stands in front of it and
  -- binds the names.
  split
  · rename_i isEmpty
    obtain rfl := List.isEmpty_iff.mp isEmpty
    exact ⟨inParams, inBody, nofun⟩
  · refine ⟨inParams, ?_, fun name mem => mem_aliases_declareIn mem⟩
    apply meets_declareIn (.inl (grounds.runtime "arguments" (by decide))) sound
    rw [bodyUses_stmts]
    refine inBody.mono (World.plus_mono (fun _ => id) fun name mem => ?_)
    simp only [List.mem_append] at mem ⊢
    rcases mem with isTemp | isParam | inBody
    · exact .inr (mem_names_declareIn.mpr (.inl isTemp))
    · exact .inl isParam
    · exact .inr (mem_names_declareIn.mpr (.inr (bodyNames_stmts ▸ inBody)))

/-- A statement that returns an expression makes up the names that the expression does. -/
theorem aliases_returns {e : Expr} :
    aliases (stmtsNodes [.returns span e]) = aliases (exprNodes e) := by
  simp [stmtsNodes, Stmt.returns, stmtNodes, stmtShapeNodes, optionNodes, aliases, Occurrence.here,
    Node.alias?]

/-- The nodes of a body that becomes a block make up the same names. -/
theorem aliases_stmts {body : Body} :
    aliases (stmtsNodes body.stmts) = aliases (bodyNodes body) := by
  cases body with
  | block stmts => rw [Body.stmts, bodyNodes]
  | value e => exact aliases_returns

/-- What a generator makes up to stand for something is made up by the call that drives it. -/
theorem mem_aliases_driven {driver name : String} {receiver args : Expr} {inner : List Param}
    {body : Body} (isAlias : name ∈ aliases (bodyNodes body)) :
    name ∈ aliases (exprNodes (.helper span driver
      [receiver, args, .of span (.function none ⟨span, false, false, true, inner, .block body.stmts⟩)]))
    := by
  have inGenerator : name ∈ aliases (funcNodes
      ⟨span, false, false, true, inner, .block body.stmts⟩) := by
    rw [funcNodes, bodyNodes, ← List.singleton_append, aliases_append, aliases_append,
      aliases_into, aliases_into, aliases_stmts]
    exact List.mem_append_right _ (List.mem_append_right _ isAlias)
  -- The node with the alias is inside the generator, which is an argument of the driver.
  obtain ⟨found, mem, isOwn⟩ := mem_aliases.mp inGenerator
  refine mem_aliases.mpr ⟨found, ?_, isOwn⟩
  simp [Expr.helper, Expr.call, Expr.of, exprNodes, shapeNodes, argsNodes, argNodes, mem]

/-- A call that drives a generator needs what the generator does, and its own arguments. -/
theorem meets_driven {driver : String} (names : List String) {params : List Param} {body : Body}
    {receiver args : Expr} (runs : world driver) (noUses : exprUses receiver = [])
    (inArgs : Meets realm.stem world (exprUses args))
    (inParams : Meets realm.stem (world.plus realm.stem names) (paramsUses params))
    (inBody : Meets realm.stem (world.plus realm.stem (paramsNames params ++ bodyNames body))
      (bodyUses body))
    (areAliases : ∀ name ∈ names, name ∈ aliases (bodyNodes body)) :
    Meets realm.stem world (exprUses (.helper span driver
      [receiver, args, .of span (.function none ⟨span, false, false, true, params, .block body.stmts⟩)]))
    := by
  have inGenerator : MeetsFunc realm.stem world names params (.block body.stmts) := by
    refine ⟨inParams, ?_, fun name mem => ?_⟩
    · rwa [bodyNames, bodyUses, bodyNames_stmts, bodyUses_stmts]
    · rw [bodyNodes, aliases_stmts]
      -- The generator is the function itself, with its body moved.
      exact areAliases name mem
  have generator : Meets realm.stem world
      (funcUses ⟨span, false, false, true, params, .block body.stmts⟩) :=
    inGenerator.meets false false true
  simpa [runs, noUses, inArgs, shapeUses] using generator

/-- A function that only makes a call needs what its parameters and the call do. -/
theorem meets_calling {call : Expr} {outer : List Param} {isArrow : Bool}
    (inParams : Meets realm.stem (world.plus realm.stem (aliases (exprNodes call)))
      (paramsUses outer))
    (inCall : Meets realm.stem (world.plus realm.stem (paramsNames outer)) (exprUses call)) :
    Meets realm.stem world (funcUses ⟨span, isArrow, false, false, outer,
      if isArrow then .value call else .block [.returns span call]⟩) := by
  rw [funcUses, meets_append, meets_enclosed, meets_enclosed]
  -- An arrow gives the call as its value, a function returns it; neither adds a name.
  cases isArrow with
  | true => exact ⟨by simpa [bodyNodes] using inParams, by simpa [bodyNames, bodyUses] using inCall⟩
  | false =>
    constructor
    · simpa [bodyNodes, aliases_returns] using inParams
    · simpa [bodyNames, bodyUses] using inCall

/-- A placeholder for a parameter can be written. -/
theorem writable_placeholderName {stem : String} (index : Nat) :
    Writable stem (placeholderName index) :=
  (writable_of_head (c := '_') rfl (by decide)).append _

/-- The parameters that take the place of others only bind names. -/
theorem meets_placeholders (count : Nat) :
    Meets realm.stem world (paramsUses ((List.range count).map fun index =>
      .ofName span (placeholderName index))) := by
  simp [paramsUses_eq, List.flatMap_map, writable_placeholderName]

variable (realm world span) in
/-- An arrow function that passes its arguments on binds them all. -/
theorem meets_arrowForwarding (params : List Param) :
    Meets realm.stem world (paramsUses (arrowForwarding span params).1)
      ∧ Meets realm.stem (world.plus realm.stem (paramsNames (arrowForwarding span params).1))
        (exprUses (arrowForwarding span params).2) := by
  constructor
  · simp [arrowForwarding, paramsUses_eq, List.flatMap_map, Param.ofName, paramUses, optionUses,
      writable_placeholderName]
  · -- The parameters passed on are placeholders, one for each argument that is counted and one for
    -- the rest.
    have isBound (index : Nat) (mem : index ≤ arity params) :
        world.plus realm.stem (paramsNames (arrowForwarding span params).1)
          (placeholderName index) := by
      refine World.plus_of_mem (List.mem_flatMap.mpr ?_) (writable_placeholderName index)
      rcases Nat.lt_or_eq_of_le mem with earlier | rfl
      · refine ⟨.ofName span (placeholderName index), ?_, by simp⟩
        simp only [arrowForwarding, List.mem_append, List.mem_map, List.mem_range]
        exact .inl ⟨_, ⟨index, earlier, rfl⟩, rfl⟩
      · exact ⟨{ Param.ofName span (placeholderName (arity params)) with isRest := true },
          by simp [arrowForwarding], by simp [Param.ofName]⟩
    have args : exprUses (arrowForwarding span params).2
        = ((List.range (arity params)).map fun index => .free (placeholderName index))
          ++ [.free (placeholderName (arity params))] := by
      simp [arrowForwarding, shapeUses, itemsUses_eq, itemUses, List.flatMap_map,
        ← List.map_eq_flatMap]
    rw [args]
    simp only [meets_append, meets_cons, meets_nil, and_true, makesSense_free]
    refine ⟨fun use mem => ?_, isBound _ (Nat.le_refl _)⟩
    obtain ⟨index, earlier, rfl⟩ := List.mem_map.mp mem
    exact isBound index (Nat.le_of_lt (List.mem_range.mp earlier))

/-- The function that a generator stands in for needs what its parts do. -/
theorem meets_toGenerator {driver : String} {names : List String} {func : Func}
    (grounds : realm.Grounds world) (isRuntime : driver ∈ runtimeNames)
    (holds : MeetsFunc realm.stem world names func.params func.body) (forwards usesThis : Bool) :
    Meets realm.stem world (funcUses (toGenerator driver forwards usesThis func)) := by
  obtain ⟨inParams, inBody, areAliases⟩ := holds
  have runs {names : List String} : world.plus realm.stem names driver :=
    .inl (grounds.runtime driver isRuntime)
  have noUses : exprUses (if !func.isArrow || usesThis then .this func.span else .null func.span)
      = [] := by
    split <;> simp
  -- Parameters that move along with the body are as well off inside of the outer ones.
  have moved {outer : List Param} {args : Expr}
      (inOuter : Meets realm.stem world (paramsUses outer))
      (inArgs : Meets realm.stem (world.plus realm.stem (paramsNames outer)) (exprUses args)) :
      Meets realm.stem world (funcUses ⟨func.span, func.isArrow, false, false, outer,
        let call := .helper func.span driver
          [if !func.isArrow || usesThis then .this func.span else .null func.span, args,
            .of func.span (.function none
              ⟨func.span, false, false, true, func.params, .block func.body.stmts⟩)]
        if func.isArrow then .value call else .block [.returns func.span call]⟩) := by
    apply meets_calling inOuter.plus
    apply meets_driven names runs noUses inArgs
    · exact inParams.mono (World.plus_mono (fun _ => .inl) fun _ => id)
    · exact inBody.mono (World.plus_mono (fun _ => .inl) fun _ => id)
    · exact areAliases
  cases forwards with
  | false =>
    -- The parameters stay outside, so nothing else has to be passed on.
    apply meets_calling
    · refine inParams.mono (World.plus_mono (fun _ => id) fun name mem => ?_)
      exact mem_aliases_driven (areAliases name mem)
    · apply meets_driven [] runs noUses (by simp) (by simp [paramsUses])
      · rw [World.plus_append]
        simpa using inBody
      · simp
  | true =>
    by_cases isArrow : func.isArrow = true
    · obtain ⟨inOuter, inArgs⟩ := meets_arrowForwarding realm world func.span func.params
      simpa [toGenerator, isArrow] using moved inOuter inArgs
    · have inArgs {names : List String} : Meets realm.stem (world.plus realm.stem names)
          (exprUses (.id func.span "arguments")) := by
        simpa using World.plus_of_world (grounds.runtime "arguments" (by decide))
      simpa [toGenerator, isArrow] using moved (meets_placeholders (arity func.params)) inArgs

end Bodies

section Functions

/-- A function is asynchronous or stays, and what drives its generator is there. -/
theorem works_driver {mode : FuncMode} (drives : mode ≠ .native) :
    realm.Works mayBeParams mode.driver fun _ driver => driver ∈ runtimeNames := by
  cases mode with
  | native => exact absurd rfl drives
  | async => exact .pure fun _ _ => by decide
  | asyncGenerator => exact .pure fun _ _ => by decide

/-- Deciding how a function waits works. -/
theorem works_funcMode (span : Span) (isAsync isGenerator : Bool) :
    realm.Works mayBeParams (funcMode span isAsync isGenerator) fun _ _ => True := by
  have stays : realm.Works mayBeParams (Pure.pure FuncMode.native : Lower FuncMode) fun _ _ => True :=
    .pure fun _ _ => trivial
  have reports (construct : Construct) :
      realm.Works mayBeParams (do unsupported span construct; return FuncMode.native)
        fun _ _ => True :=
    (works_unsupported span construct).andThen fun _ => stays
  apply (works_supports .generator).andThen
  intro generators
  -- The kinds in turn; whichever mode is chosen, and whatever is reported, no name is involved.
  cases isAsync <;> cases isGenerator
  · exact stays
  · exact .when (works_unsupported _ _) stays
  · apply (works_supports .asyncAwait).andThen
    intro isNative
    apply Works.ite (fun _ => stays)
    intro _
    exact .ite (fun _ => .pure fun _ _ => trivial) fun _ => reports _
  · apply (works_supports .asyncGenerator).andThen
    intro isNative
    apply Works.ite (fun _ => stays)
    intro _
    apply Works.ite (fun _ => .pure fun _ _ => trivial)
    intro _
    apply (works_lacks .asyncAwait).andThen
    intro isLacking
    exact .ite (fun _ => reports _) fun _ => reports _

/-- The parameters need what is bound in the narrow world, and the body, which still has its braces,
what is bound in the wide one, by the parameters and by itself. -/
structure MeetsParts (stem : String) (hadBraces : Prop) (narrow wide : World)
    (parts : List Param × Body) : Prop where
  inParams : Meets stem narrow (paramsUses parts.1)
  inBody : Meets stem (wide.plus stem (paramsNames parts.1 ++ bodyNames parts.2)) (bodyUses parts.2)
  braces : hadBraces → parts.2.isBlock = true

/-- What is in the frame of a function, seen from around the frame. -/
theorem works_insideFunc {hadBraces : Prop} {params : Lower (List Param)} {body : Lower Body}
    {owner : Progress → Owner} (noPlaceholder : ∀ progress, (owner progress).kind ≠ .staticInit)
    (own : ∀ progress, (owner progress).AliasesIn progress.temps)
    (inParams : realm.Works true params fun world params =>
      Meets realm.stem world (paramsUses params))
    (inBody : realm.Works false body fun world body =>
      Meets realm.stem (world.plus realm.stem (bodyNames body)) (bodyUses body)
        ∧ (hadBraces → body.isBlock = true)) :
    realm.WorksFresh false
      (do
        let progress ← get
        inOwner (owner progress) do
          let params ← Lowering.inParams params
          let body ← body
          moveParamRests params body) fun world declared (parts, _) =>
        MeetsParts realm.stem hadBraces (world.plus realm.stem (declared.filterMap Temp.alias?))
          (world.plus realm.stem (declared.map (·.name))) parts := by
  -- The parameters see the aliases of the frame, the body all that the frame declares.
  apply WorksFresh.inOwner noPlaceholder own
  apply inParams.freshParams (MeetsParts realm.stem hadBraces)
  intro params
  apply inBody.bind
  intro body
  apply (works_moveParamRests params body).weaken
  rintro wide _ ⟨kept, rest⟩ ⟨inKept, inRest, braces⟩ ⟨meets, hasBraces⟩ narrow grows meets'
  exact ⟨inKept narrow meets', inRest (meets'.mono grows) meets, braces ∘ hasBraces⟩

/-- Declaring made-up names keeps the braces of a body. -/
theorem isBlock_declareInBody {temps : List Temp} {body : Body} (braces : body.isBlock = true) :
    (declareInBody span temps body).isBlock = true := by
  rw [declareInBody]
  split
  · exact braces
  · rfl

/-- A function works if its parameters and its body do. A method still is one with statements. -/
theorem works_func {source : Func} {params : Lower (List Param)} {body : Lower Body}
    (inParams : realm.Works true params fun world params =>
      Meets realm.stem world (paramsUses params))
    (inBody : realm.Works false body fun world body =>
      Meets realm.stem (world.plus realm.stem (bodyNames body)) (bodyUses body)
        ∧ (source.body.isBlock = true → body.isBlock = true)) :
    realm.Works false (lowerFunc source params body) fun world func =>
      Meets realm.stem world (funcUses func)
        ∧ (source.isArrow = false → source.body.isBlock = true → func.body.isBlock = true) := by
  apply (works_funcMode _ _ _).andThen
  intro mode
  apply works_read.andThen
  intro setting
  apply (works_lacks .arrow).andThen
  intro lacksArrow
  apply (works_supports _).andThen
  intro isKept
  apply (works_insideFunc _ _ inParams inBody).inFrame.bind
  · rintro ⟨⟨⟨params, body⟩, owner⟩, temps⟩
    -- The function as it is, unless a generator stands in for it.
    have whole {world : World} (grounds : realm.Grounds world)
        (sound : ∀ temp ∈ temps, temp.IsSound realm.stem)
        (parts : MeetsParts realm.stem (source.body.isBlock = true)
          (world.plus realm.stem (temps.filterMap Temp.alias?))
          (world.plus realm.stem (temps.map (·.name))) (params, body)) :
        MeetsFunc realm.stem world (temps.filterMap Temp.alias?) params
          (declareInBody source.span temps body) :=
      meetsFunc_declareInBody grounds sound parts.inParams parts.inBody
    apply Works.ite
    · intro _
      apply Works.pure
      rintro world grounds ⟨sound, parts⟩
      exact ⟨(whole grounds sound parts).meets _ _ _,
        fun _ braces => isBlock_declareInBody (parts.braces braces)⟩
    · intro drives
      apply (works_driver drives).bind
      intro driver
      apply Works.pure
      rintro world grounds isRuntime ⟨sound, parts⟩
      refine ⟨meets_toGenerator grounds isRuntime (whole grounds sound parts) _ _, fun isFunc _ => ?_⟩
      simp [toGenerator, isFunc, Body.isBlock]
  · intro progress
    cases source.isArrow <;> simp
  · intro progress _
    exact ⟨Nat.le_refl _, by simp⟩

/-- An arrow function needs nothing more when it is written as another function. -/
theorem meets_arrowToFunction {func : Func} (meets : Meets realm.stem world (funcUses func)) :
    Meets realm.stem world (exprUses (arrowToFunction span func)) := by
  obtain ⟨funcSpan, isArrow, isAsync, isGenerator, params, body⟩ := func
  rw [funcUses, meets_append, meets_enclosed, meets_enclosed] at meets
  simpa [arrowToFunction, shapeUses, funcUses, bodyNodes, bodyNames, bodyUses, aliases_stmts]
    using meets

end Functions

end Realm

end Downlevel
