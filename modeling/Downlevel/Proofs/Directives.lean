import Downlevel.Lowering.Class.Body
import Downlevel.Lowering.Function
import Downlevel.Proofs.StateSteps

/-! Nothing is put in front of the directives that a body starts with. -/

namespace Downlevel

/-- The directives that a body starts with, without the comments among them. -/
def directives (body : List Stmt) : List Stmt :=
  (body.takeWhile Temp.isPrologue).filter Stmt.isDirective

/-- What is put behind the start of a body leaves it the start, unless it goes on like one. -/
theorem directives_insert (body : List Stmt) {more : List Stmt}
    (behind : ∀ stmt ∈ more.head?, Temp.isPrologue stmt = false) :
    directives (body.takeWhile Temp.isPrologue ++ more ++ body.dropWhile Temp.isPrologue)
      = directives body := by
  -- Neither what is put in nor what comes behind it can belong to the start.
  have ends : (more ++ body.dropWhile Temp.isPrologue).takeWhile Temp.isPrologue = [] := by
    cases more with
    | nil =>
      have stops := List.head?_dropWhile_not Temp.isPrologue body
      cases rest : body.dropWhile Temp.isPrologue with
      | nil => rfl
      | cons stmt rest' =>
        rw [rest] at stops
        have stops : Temp.isPrologue stmt = false := by simpa using stops
        simp [stops]
    | cons stmt more => simp [behind stmt rfl]
  have start : ∀ stmt ∈ body.takeWhile Temp.isPrologue, Temp.isPrologue stmt = true :=
    List.all_eq_true.mp List.all_takeWhile
  rw [directives, List.append_assoc, List.takeWhile_append_of_pos start, ends, List.append_nil]
  rfl

/-- A declaration of made-up names stands behind all directives. -/
theorem Temp.directives_declareIn (span : Span) (temps : List Temp) (body : List Stmt) :
    directives (declareIn span temps body) = directives body := by
  unfold declareIn
  split
  · rfl
  · have behind : ∀ stmt ∈ [declaration span temps].head?, isPrologue stmt = false := by
      rintro _ ⟨⟩
      rfl
    simpa using directives_insert body behind

namespace Lowering

/-- Made-up names of a function are declared behind its directives. A returned value has none. -/
theorem directives_declareInBody (span : Span) (temps : List Temp) (body : Body) :
    directives (declareInBody span temps body).stmts = directives body.stmts := by
  unfold declareInBody
  split
  · rfl
  · exact Temp.directives_declareIn span temps body.stmts

/-- Rests that move from the parameters into the body are split off behind its directives. -/
theorem directives_insertInBody {stmt : Stmt} (behind : Temp.isPrologue stmt = false)
    (body : Body) : directives (insertInBody stmt body).stmts = directives body.stmts := by
  have behind : ∀ own ∈ [stmt].head?, Temp.isPrologue own = false := by
    rintro _ ⟨⟩
    exact behind
  simpa [insertInBody, Body.stmts] using directives_insert body.stmts behind

/-- Initializers behind the call of the base constructor come behind all directives. -/
theorem directives_insertBehindSuper? {inits body initialized : List Stmt}
    (inserted : insertBehindSuper? inits body = some initialized) :
    directives initialized = directives body := by
  -- Up to the call both bodies are the same, and the call itself is no directive.
  induction body generalizing initialized with
  | nil => cases inserted
  | cons stmt rest ih =>
    rw [insertBehindSuper?] at inserted
    split at inserted
    · rename_i calls
      obtain rfl : stmt :: inits ++ rest = initialized := by simpa using inserted
      have ends : Temp.isPrologue stmt = false := by
        unfold isSuperCall at calls
        split at calls
        · rename_i shape
          simp [Temp.isPrologue, Stmt.isDirective, shape]
        · cases calls
      simp [directives, ends]
    · obtain ⟨own, found, rfl⟩ := Option.map_eq_some_iff.mp inserted
      have same := ih found
      simp only [directives, List.takeWhile_cons] at same ⊢
      split
      · simp only [List.filter_cons, same]
      · rfl

/-- Wherever initializers are put into a constructor, they come behind its directives. -/
theorem directives_initializedBody {span : Span} {isDerived : Bool}
    {inits body initialized : List Stmt} {setting : Setting} {before after : Progress}
    (noDirective : ∀ init ∈ inits.head?, Temp.isPrologue init = false)
    (run : initializedBody span isDerived inits body setting before = .ok (initialized, after)) :
    directives initialized = directives body := by
  have behind : directives (insertBehindPrologue inits body) = directives body :=
    directives_insert _ noDirective
  cases isDerived with
  | false =>
    obtain ⟨rfl, -⟩ : insertBehindPrologue inits body = initialized ∧ before = after := by
      simpa using Except.ok.inj run
    exact behind
  | true =>
    rw [initializedBody, Bool.not_true, if_neg Bool.false_ne_true] at run
    cases inserted : insertBehindSuper? inits body with
    | some own =>
      rw [inserted] at run
      cases run
      exact directives_insertBehindSuper? inserted
    | none =>
      -- Without a call to come behind the user is told so, and they come first.
      rw [inserted] at run
      cases run
      exact behind

/-- An initializer comes behind the call of the base constructor, and the directive stays first. -/
theorem directives_initializedBody_derived :
    let directive : Stmt := ⟨⟨0, 12⟩, .expr (.str ⟨0, 12⟩ "use strict")⟩
    let calls : Stmt := ⟨⟨13, 20⟩, .expr (.call ⟨13, 20⟩ (.of ⟨13, 18⟩ .super) [])⟩
    let init : Stmt := ⟨⟨30, 35⟩, .expr (.id ⟨30, 35⟩ "x")⟩
    let setting : Setting := { options := {}, scopes := {} }
    initializedBody ⟨0, 40⟩ true [init] [directive, calls] setting {}
        = .ok ([directive, calls, init], {})
      ∧ directives [directive, calls, init] = directives [directive, calls] := by
  intro directive calls init setting
  have noDirective : ∀ own ∈ [init].head?, Temp.isPrologue own = false := by
    rintro _ ⟨⟩
    rfl
  have run : initializedBody ⟨0, 40⟩ true [init] [directive, calls] setting {}
      = .ok ([directive, calls, init], {}) := rfl
  exact ⟨run, directives_initializedBody noDirective run⟩

/-- The rests of parameters are declared by a statement that is no directive. -/
theorem ensures_splitParams (params : List Param) :
    Ensures (splitParams params) fun pair => ∀ stmt ∈ pair.2, Temp.isPrologue stmt = false := by
  refine .next fun split => ?_
  cases split.filterMap (·.2) with
  | nil => exact .done nofun
  | cons first more =>
    refine .next fun declarators => .done ?_
    rintro _ ⟨⟩
    rfl

/-- Rests that move from the parameters into the body leave its directives in front. -/
theorem ensures_moveParamRests (params : List Param) (body : Body) :
    Ensures (moveParamRests params body) fun pair =>
      directives pair.2.stmts = directives body.stmts := by
  refine .next fun isSupported => ?_
  cases isSupported with
  | true => exact .done rfl
  | false =>
    refine .bind (ensures_splitParams params) fun ⟨left, declaration⟩ noDirective => ?_
    cases declaration with
    | none => exact .done rfl
    | some stmt => exact .done (directives_insertInBody (noDirective stmt rfl) body)

/-- A function starts with the directives that its lowered body starts with. If its body moves into a
generator, the directives move along. -/
theorem directives_lowerFunc {source : Func} {params : Lower (List Param)} {body : Lower Body}
    {start : List Stmt} (starts : Ensures body fun own => directives own.stmts = start) :
    Ensures (lowerFunc source params body) fun func =>
      directives func.body.stmts = start ∨ ∃ driver forwards usesThis inner,
        func = toGenerator driver forwards usesThis inner
          ∧ directives inner.body.stmts = start := by
  have inside : Ensures (do moveParamRests (← inParams params) (← body))
      fun pair : List Param × Body => directives pair.2.stmts = start :=
    .next fun left => .bind starts fun own isStart =>
      (ensures_moveParamRests left own).imp fun _ same => same.trans isStart
  refine (Ensures.lowerFunc inside).imp fun func made => ?_
  obtain ⟨left, own, temps, isStart, isFunc⟩ := made
  have same : directives (declareInBody source.span temps own).stmts = start :=
    (directives_declareInBody source.span temps own).trans isStart
  obtain rfl | ⟨driver, forwards, usesThis, rfl⟩ := isFunc
  · exact .inl same
  · exact .inr ⟨driver, forwards, usesThis, _, rfl, same⟩

/-- An asynchronous function whose body starts with a directive. -/
theorem directives_lowerFunc_async :
    let directive : Stmt := ⟨⟨0, 12⟩, .expr (.str ⟨0, 12⟩ "use strict")⟩
    let body : Body := .block [directive, ⟨⟨13, 20⟩, .return none⟩]
    Ensures (lowerFunc ⟨⟨0, 20⟩, false, true, false, [], body⟩ (pure []) (pure body)) fun func =>
      directives func.body.stmts = [directive] ∨ ∃ driver forwards usesThis inner,
        func = toGenerator driver forwards usesThis inner
          ∧ directives inner.body.stmts = [directive] := by
  intro directive body
  have starts : Ensures (pure body) fun own => directives own.stmts = [directive] := .done rfl
  exact directives_lowerFunc starts

end Lowering

end Downlevel
