import Downlevel.Lowering.Walk
import Downlevel.Proofs.StateSteps
import Downlevel.Proofs.MadeUpNames

/-! What a function passes on when its body moves into a generator. As many parameters as before
stand in front, and each parameter of the generator takes what it takes in a direct call. -/

namespace Downlevel.Lowering

section Arity

/-- Two parameters count alike if neither the rest nor the default value comes or goes. -/
def CountsAs (param changed : Param) : Prop :=
  changed.isRest = param.isRest ∧ changed.default.isNone = param.default.isNone

/-- Parameters that count alike have the same arity. -/
theorem arity_eq {params changed : List Param} (alike : List.Forall₂ CountsAs params changed) :
    arity changed = arity params := by
  unfold arity
  induction alike with
  | nil => rfl
  | cons same _ ih =>
    obtain ⟨rest, default⟩ := same
    simp only [List.takeWhile_cons, rest, default]
    split
    · simp only [List.length_cons, ih]
    · rfl

/-- A default value stays one, and none is made up. -/
theorem ensures_default (default : Option ExprForms) :
    Ensures (default.mapM rooted) fun lowered => lowered.isNone = default.isNone := by
  cases default with
  | none => exact .done rfl
  | some forms =>
    rw [Option.mapM_some, map_eq_pure_bind]
    exact .next fun _ => .done rfl

/-- Lowering a parameter keeps what it counts as. -/
theorem counts_paramStep (param : Param) : Ensures (paramStep param) (CountsAs param) := by
  obtain ⟨span, isRest, pattern, default⟩ := param
  have unnamed : (optionForms default).isNone = default.isNone := by cases default <;> rfl
  have parts : Ensures (do
      let pattern ← declaredPattern (patternForms pattern)
      let default ← (optionForms default).mapM rooted
      return (⟨span, isRest, pattern, default⟩ : Param))
      (CountsAs ⟨span, isRest, pattern, default⟩) :=
    .next fun _ => .bind (ensures_default _) fun _ same => .done ⟨rfl, same.trans unnamed⟩
  -- The two checks in front only tell the user about what cannot be lowered.
  unfold paramStep lowerParam
  split <;> split
  · exact .next fun _ => .next fun _ => parts
  · exact .next fun _ => parts
  · exact .next fun _ => parts
  · exact parts

/-- Lowering parameters keeps what they count as. -/
theorem counts_paramsStep (params : List Param) :
    Ensures (paramsStep params) (List.Forall₂ CountsAs params) := by
  induction params with
  | nil => exact .done .nil
  | cons param rest ih =>
    unfold paramsStep
    exact (counts_paramStep param).bind fun _ same => ih.bind fun _ others =>
      .done (.cons same others)

/-- Splitting the rest off a pattern leaves the parameter in its place. -/
theorem counts_splitParam (param : Param) :
    Ensures (splitParam param) fun pair => CountsAs param pair.1 := by
  unfold splitParam
  split
  · split
    · exact .next fun _ => .done ⟨rfl, rfl⟩
    · exact .next fun _ => .done ⟨rfl, rfl⟩
  · split
    · exact .next fun _ => .done ⟨rfl, rfl⟩
    · exact .done ⟨rfl, rfl⟩

/-- Splitting the rests off parameters keeps what they count as. -/
theorem counts_splitParams (params : List Param) :
    Ensures (splitParams params) fun pair => List.Forall₂ CountsAs params pair.1 := by
  refine .bind (.mapM counts_splitParam params) fun split alike => ?_
  cases split.filterMap (·.2) with
  | nil => exact .done (List.forall₂_same.mpr fun _ _ => ⟨rfl, rfl⟩)
  | cons first more => exact .next fun _ => .done (List.forall₂_map_right_iff.mpr alike)

/-- Moving rests into the body keeps what the parameters count as. -/
theorem counts_moveParamRests (params : List Param) (body : Body) :
    Ensures (moveParamRests params body) fun pair => List.Forall₂ CountsAs params pair.1 := by
  refine .next fun isSupported => ?_
  cases isSupported with
  | true => exact .done (List.forall₂_same.mpr fun _ _ => ⟨rfl, rfl⟩)
  | false =>
    refine .bind (counts_splitParams params) fun ⟨left, declaration⟩ alike => ?_
    cases declaration with
    | none => exact .done alike
    | some stmt => exact .done alike

/-- The placeholders count like the parameters that they stand for. -/
theorem arity_placeholders (span : Span) (count : Nat) (more : List Param)
    (ends : ∀ param ∈ more.head?, param.isRest = true) :
    arity ((List.range count).map (fun index => .ofName span (placeholderName index)) ++ more)
      = count := by
  -- The placeholders are plain, and what stands behind them starts with a rest.
  have plain : ∀ param ∈ (List.range count).map fun index =>
      Param.ofName span (placeholderName index),
        (!param.isRest && param.default.isNone) = true := by
    simp [Param.ofName]
  have stops : more.takeWhile (fun param => !param.isRest && param.default.isNone) = [] := by
    cases more with
    | nil => rfl
    | cons param more => simp [ends param rfl]
  rw [arity, List.takeWhile_append_of_pos plain, stops]
  simp

/-- A function that moves into a generator keeps its arity. -/
theorem arity_toGenerator (driver : String) (forwards usesThis : Bool) (func : Func) :
    arity (toGenerator driver forwards usesThis func).params = arity func.params := by
  unfold toGenerator
  cases forwards with
  | false => rfl
  | true =>
    cases func.isArrow with
    | false => simpa using arity_placeholders func.span (arity func.params) [] nofun
    | true =>
      simpa [arrowForwarding, Function.comp_def] using
        arity_placeholders func.span (arity func.params)
          [{ Param.ofName func.span (placeholderName (arity func.params)) with isRest := true }]
          (by rintro _ ⟨⟩; rfl)

/-- A lowered function has as many parameters before the first default value or rest as its
source. -/
theorem arity_lowered (func : Func) :
    Ensures (funcStep func) fun lowered => arity lowered.params = arity func.params := by
  obtain ⟨span, isArrow, isAsync, isGenerator, params, body⟩ := func
  unfold funcStep
  have inside : Ensures (do moveParamRests (← inParams (paramsStep params)) (← bodyStep body))
      fun pair : List Param × Body => arity pair.1 = arity params :=
    .bind (.withReader (counts_paramsStep params)) fun left first => .next fun own =>
      (counts_moveParamRests left own).imp fun _ second => (arity_eq second).trans (arity_eq first)
  refine (Ensures.lowerFunc inside).imp fun func made => ?_
  obtain ⟨left, own, temps, same, isFunc⟩ := made
  obtain rfl | ⟨driver, forwards, usesThis, rfl⟩ := isFunc
  · exact same
  · exact (arity_toGenerator ..).trans same

end Arity

section Binding

variable {α : Type} (missing : α)

/-- What a parameter takes of the arguments of a call. -/
inductive Taken (α : Type)
  | value (value : α)
  | rest (values : List α)

/-- Each parameter with what it takes of the arguments of a call. -/
def taken : List Param → List α → List (Param × Taken α)
  | [], _ => []
  | param :: more, args =>
    (param, if param.isRest then .rest args else .value (args.headD missing))
      :: taken more args.tail

/-- What the parameter with the name takes. -/
def takenBy? (params : List Param) (args : List α) (name : String) : Option (Taken α) :=
  ((taken missing params args).find? fun pair => pair.1.pattern.name? == some name).map (·.2)

/-- The values that an item of an array of parameters stands for. -/
def itemValues? (params : List Param) (args : List α) : ArrayItem → Option (List α)
  | .single ⟨_, .id name⟩ =>
    match takenBy? missing params args name with
    | some (.value value) => some [value]
    | _ => none
  | .spread ⟨_, .id name⟩ =>
    match takenBy? missing params args name with
    | some (.rest values) => some values
    | _ => none
  | _ => none

/-- The arguments that an expression in the body of a function passes on. -/
def passedOn? (params : List Param) (args : List α) (passed : Expr) : Option (List α) :=
  match passed.shape with
  | .id name => if name = "arguments" then some args else none
  | .array items => (items.mapM (itemValues? missing params args)).map List.flatten
  | _ => none

/-- The arguments of a call, filled up to a number. -/
def filled (count : Nat) (args : List α) : List α :=
  (List.range count).map (args.getD · missing) ++ args.drop count

/-- Arguments fill parameters one by one. -/
theorem filled_succ (count : Nat) (args : List α) :
    filled missing (count + 1) args = args.headD missing :: filled missing count args.tail := by
  cases args <;> simp [filled, List.range_succ_eq_map, Function.comp_def]

/-- Filling up the arguments to the arity changes nothing for the parameters: those up to there have
no default value, and a rest comes behind. -/
theorem taken_filled (params : List Param) (args : List α) :
    taken missing params (filled missing (arity params) args) = taken missing params args := by
  induction params generalizing args with
  | nil => rfl
  | cons param more ih =>
    by_cases counts : (!param.isRest && param.default.isNone) = true
    · have isPlain : param.isRest = false := by simp at counts; exact counts.1
      have more_arity : arity (param :: more) = arity more + 1 := by simp [arity, counts]
      rw [more_arity, filled_succ]
      simp [taken, isPlain, ih]
    · have stops : arity (param :: more) = 0 := by simp [arity, counts]
      rw [stops]
      simp [filled]

/-- Parameters without a rest take the arguments one by one, and a rest behind them takes the
others. -/
theorem taken_plain_append_rest (count : Nat) (plain : Nat → Param) (rest : Param) (args : List α)
    (isPlain : ∀ index, (plain index).isRest = false) (isRest : rest.isRest = true) :
    taken missing ((List.range count).map plain ++ [rest]) args
      = (List.range count).map (fun index => (plain index, .value (args.getD index missing)))
        ++ [(rest, .rest (args.drop count))] := by
  induction count generalizing plain args with
  | zero => simp [taken, isRest]
  | succ count ih =>
    have others := ih (fun index => plain (index + 1)) args.tail fun index => isPlain (index + 1)
    simp only [List.range_succ_eq_map, List.map_cons, List.map_map, List.cons_append, taken,
      isPlain]
    cases args <;> simp_all [Function.comp_def]

/-- A placeholder names the parameter with its index. -/
theorem find?_placeholder {count index : Nat} (span : Span) (kept : Nat → Taken α)
    (below : index < count) :
    ((List.range count).map fun other =>
          (Param.ofName span (placeholderName other), kept other)).find?
        (fun pair => pair.1.pattern.name? == some (placeholderName index))
      = some (Param.ofName span (placeholderName index), kept index) := by
  rw [List.find?_map]
  -- Numbered names are different, so the search ends at the name itself.
  have found : (List.range count).find? (fun other =>
      some (placeholderName other) == some (placeholderName index)) = some index := by
    rw [List.find?_range_eq_some]
    refine ⟨by simp, by simpa using below, fun other earlier => ?_⟩
    have differ : placeholderName other ≠ placeholderName index := fun same => by
      have := numbered_injective same
      omega
    simp [differ]
  exact congrArg _ found

variable (span : Span) (params : List Param) (args : List α)

/-- The parameters that stand for those of an arrow function take the arguments up to the arity one
by one, and the last one takes the others. -/
theorem taken_arrowForwarding :
    taken missing (arrowForwarding span params).1 args
      = (List.range (arity params)).map (fun index =>
          (.ofName span (placeholderName index), .value (args.getD index missing)))
        ++ [({ Param.ofName span (placeholderName (arity params)) with isRest := true },
            .rest (args.drop (arity params)))] := by
  have names := taken_plain_append_rest missing (arity params)
    (fun index => .ofName span (placeholderName index))
    { Param.ofName span (placeholderName (arity params)) with isRest := true } args
    (fun _ => rfl) rfl
  simpa [arrowForwarding, Function.comp_def] using names

/-- A placeholder takes the argument at its place. -/
theorem takenBy?_placeholder {index : Nat} (below : index < arity params) :
    takenBy? missing (arrowForwarding span params).1 args (placeholderName index)
      = some (.value (args.getD index missing)) := by
  rw [takenBy?, taken_arrowForwarding, List.find?_append,
    find?_placeholder span (fun index => .value (args.getD index missing)) below]
  rfl

/-- The last placeholder takes all other arguments. -/
theorem takenBy?_last :
    takenBy? missing (arrowForwarding span params).1 args (placeholderName (arity params))
      = some (.rest (args.drop (arity params))) := by
  rw [takenBy?, taken_arrowForwarding, List.find?_append, List.find?_map]
  -- The rest has the number behind all placeholders, so none of them is found for it.
  have noOther : (List.range (arity params)).find? (fun other =>
      some (placeholderName other) == some (placeholderName (arity params))) = none := by
    rw [List.find?_eq_none]
    intro other earlier isName
    have same : placeholderName other = placeholderName (arity params) := by simpa using isName
    have := numbered_injective same
    simp at earlier
    omega
  simp only [Function.comp_def, Param.ofName, Pattern.name?, noOther]
  simp

/-- The items for the placeholders stand for one argument each. -/
theorem mapM_itemValues? {indices : List Nat} (below : ∀ index ∈ indices, index < arity params) :
    (indices.map fun index => ArrayItem.single (.id span (placeholderName index))).mapM
        (itemValues? missing (arrowForwarding span params).1 args)
      = some (indices.map fun index => [args.getD index missing]) := by
  -- By induction on the placeholders that are handed on.
  induction indices with
  | nil => rfl
  | cons index more ih =>
    have first : itemValues? missing (arrowForwarding span params).1 args
        (.single (.id span (placeholderName index))) = some [args.getD index missing] := by
      simp only [Expr.id, Expr.of, itemValues?,
        takenBy?_placeholder missing span params args (below index List.mem_cons_self)]
    have others := ih fun other member => below other (List.mem_cons_of_mem _ member)
    rw [List.map_cons, List.mapM_cons, first, others]
    rfl

/-- The array that an arrow function passes on holds its arguments, filled up to the arity. -/
theorem passedOn?_arrowForwarding :
    passedOn? missing (arrowForwarding span params).1 args (arrowForwarding span params).2
      = some (filled missing (arity params) args) := by
  -- The list handed on names each placeholder once and spreads the rest.
  have items : (arrowForwarding span params).2 = .of span (.array
      ((List.range (arity params)).map (fun index => .single (.id span (placeholderName index)))
        ++ [.spread (.id span (placeholderName (arity params)))])) := by
    simp [arrowForwarding, Function.comp_def]
  have below : ∀ index ∈ List.range (arity params), index < arity params := by simp
  have singles := mapM_itemValues? missing span params args below
  have last : itemValues? missing (arrowForwarding span params).1 args
      (.spread (.id span (placeholderName (arity params)))) = some (args.drop (arity params)) := by
    simp only [Expr.id, Expr.of, itemValues?, takenBy?_last]
  rw [items]
  simp only [passedOn?, Expr.of, List.mapM_append, singles, List.mapM_cons, last, List.mapM_nil]
  simp only [pure, bind, Option.bind, Option.map_some, List.flatten_append,
    ← List.flatMap_def, ← List.map_eq_flatMap, List.flatten_cons, List.flatten_nil, List.append_nil]
  rfl

/-- Forwarded parameters take in the generator what they take in a direct call: the function passes
on its arguments, and an arrow function those up to the arity and the others behind them. -/
theorem forwards_arguments (driver : String) (usesThis : Bool) (func : Func) (args : List α) :
    ∃ receiver passed given body,
      let generator : Func := ⟨func.span, false, false, true, func.params, body⟩
      let call := .helper func.span driver
        [receiver, passed, .of func.span (.function none generator)]
      let outer := toGenerator driver true usesThis func
      outer.body.stmts = [.returns func.span call]
        ∧ passedOn? missing outer.params args passed = some given
        ∧ taken missing generator.params given = taken missing func.params args := by
  obtain ⟨span, isArrow, isAsync, isGenerator, params, body⟩ := func
  -- Only an arrow spells its parameters out: any other function hands on `arguments`.
  cases isArrow with
  | false =>
    exact ⟨_, _, args, _, rfl, by simp [passedOn?, Expr.id, Expr.of], rfl⟩
  | true =>
    exact ⟨_, _, _, _, rfl, passedOn?_arrowForwarding missing span params args,
      taken_filled missing params args⟩

end Binding

end Downlevel.Lowering
