import Downlevel.Lowering.Statement
import Downlevel.Proofs.Pauses.Functions

/-! Declarations, loops and other statements keep the pauses of their parts. A loop that waits without
syntax for it does so at each step and when it ends. -/

namespace Downlevel

open Lowering

namespace Ending

variable (ending : Ending) (site : Site)

/-- All forms of a pattern carry its pauses. -/
structure CarriesPattern (forms : PatternForms) : Prop where
  bound : ending.Leaves site forms.bound fun pattern =>
    ending.Carries site (patternPauses · forms.source) (patternPauses .all pattern)
  assigned : ending.CarriesForms site forms.assigned
  same : ∀ extent, exprPauses extent forms.assigned.source = patternPauses extent forms.source

/-- All forms of a statement carry the pauses of the source. -/
structure CarriesStmt (source : Extent → List Pause) (forms : StmtForms) : Prop where
  stmts : ending.Leaves site forms.stmts fun stmts =>
    ending.Carries site source (stmtsPauses .all stmts)
  unbraced : ending.Leaves site forms.unbraced fun stmts =>
    ending.Carries site source (stmtsPauses .all stmts)

variable {ending site} {span : Span} {source : Extent → List Pause}

/-- A statement that has to stay one keeps its pauses. -/
theorem CarriesStmt.single {forms : StmtForms} (inForms : ending.CarriesStmt site source forms) :
    ending.Leaves site forms.single fun stmt =>
      ending.Carries site source (stmtPauses .all stmt) := by
  refine inForms.stmts.bind fun stmts => ?_
  match stmts with
  | [] => exact .pure id
  | [stmt] => exact .pure fun carries => by simpa using carries
  | first :: second :: rest => exact .pure id

section Declarations

/-- A pattern that is declared keeps its pauses. -/
theorem carries_declaredPattern {forms : PatternForms}
    (inForms : ending.CarriesPattern site forms) :
    ending.Leaves site (declaredPattern forms) fun pattern =>
      ending.Carries site (patternPauses · forms.source) (patternPauses .all pattern) := by
  unfold declaredPattern
  extract_lets goOn
  refine .ite (fun _ => ?_) fun _ => inForms.bound
  exact (leaves_require _ _ _).andThen fun _ => inForms.bound

/-- A parameter keeps the pauses of its pattern and of its default value. -/
theorem carries_param {param : Param} {pattern : PatternForms} {default : Option ExprForms}
    (inPattern : ending.CarriesPattern site pattern)
    (isPattern : pattern.source = param.pattern)
    (inDefault : ending.Leaves site (default.mapM rooted) fun lowered =>
      ending.Carries site (optionPauses · param.default) (optionPauses .all lowered)) :
    ending.Leaves site (lowerParam param pattern default) fun lowered =>
      ending.Carries site (paramPauses · param) (paramPauses .all lowered) := by
  -- The two requirements report at most, so the parameter is lowered in the same way behind them.
  have lowers : ending.Leaves site
      (do
        let pattern ← declaredPattern pattern
        let default ← default.mapM rooted
        return ({ param with pattern, default } : Param)) fun lowered =>
      ending.Carries site (paramPauses · param) (paramPauses .all lowered) := by
    refine (carries_declaredPattern inPattern).bind fun pattern => inDefault.bind fun default => ?_
    refine .pure fun carriesDefault carries => ?_
    obtain ⟨span, isRest, own, init⟩ := param
    rw [isPattern] at carries
    simpa using carries.append carriesDefault
  unfold lowerParam
  extract_lets afterDefault afterRest
  have rest : ending.Leaves site (afterRest ()) fun lowered =>
      ending.Carries site (paramPauses · param) (paramPauses .all lowered) :=
    .ite (fun _ => (leaves_require .defaultArgument _ .defaultArguments).andThen fun _ => lowers)
      fun _ => lowers
  exact .ite (fun _ => (leaves_require .restArgument _ .restArguments).andThen fun _ => rest)
    fun _ => rest

/-- Asking for a keyword pauses nowhere. -/
theorem carries_requireKeyword (span : Span) (keyword : DeclKeyword) :
    ending.Leaves site (requireKeyword span keyword) fun _ => True :=
  .ite (fun _ => (leaves_require _ _ _).weaken fun _ _ => trivial) fun _ => .pure trivial

/-- Declarators keep their pauses without the rests that the target lacks. -/
theorem carries_finishDeclarators (declarators : List Declarator) :
    ending.Leaves site (finishDeclarators declarators) fun finished =>
      SamePauses (declaratorsPauses .all finished) (declaratorsPauses .all declarators) :=
  (leaves_lacks .objectRestSpread).andThen fun _ =>
    .ite (fun _ => carries_splitDeclarators declarators) fun _ => .pure (samePauses_refl _)

/-- A declaration keeps the pauses of its declarators. -/
theorem carries_varDeclarators (span : Span) (keyword : DeclKeyword)
    {declarators : Lower (List Declarator)}
    (inDeclarators : ending.Leaves site declarators fun declarators =>
      ending.Carries site source (declaratorsPauses .all declarators)) :
    ending.Leaves site (varDeclarators span keyword declarators) fun declarators =>
      ending.Carries site source (declaratorsPauses .all declarators) := by
  refine (carries_requireKeyword span keyword).andThen fun _ => ?_
  refine inDeclarators.bind fun declarators => ?_
  exact (carries_finishDeclarators declarators).weaken fun _ same carries => carries.congr same

end Declarations

section Loops

variable {binding : PatternForms} {subject : Lower Expr} {body : StmtForms}
  {subjectSource bodySource : Extent → List Pause}

/-- The pattern of a loop keeps its pauses. -/
theorem carries_loopBinding (keyword : Option DeclKeyword)
    (inBinding : ending.CarriesPattern site binding) :
    ending.Leaves site (loopBinding keyword binding) fun pattern =>
      ending.Carries site (patternPauses · binding.source) (patternPauses .all pattern) := by
  unfold loopBinding
  extract_lets goOn
  -- A rest that cannot be split is reported and stays where it is.
  have rest (pattern : Pattern) : ending.Leaves site (goOn pattern) fun last =>
      ending.Carries site (patternPauses · binding.source) (patternPauses .all pattern) →
        ending.Carries site (patternPauses · binding.source) (patternPauses .all last) :=
    (leaves_unsplittableRest pattern).andThen fun _ => .pure id
  have declares : ending.Leaves site (declaredPattern binding >>= goOn) fun last =>
      ending.Carries site (patternPauses · binding.source) (patternPauses .all last) :=
    (carries_declaredPattern inBinding).bind rest
  cases keyword with
  | none => exact inBinding.bound.bind rest
  | some keyword =>
    exact .ite (fun _ => (leaves_require _ _ _).andThen fun _ => declares) fun _ => declares

/-- A loop that stays one over a subject keeps the pauses of its parts, and waits if it is one that
does. -/
theorem carries_nativeLoop (span : Span) (isAwait : Bool) (keyword : Option DeclKeyword)
    (inBinding : ending.CarriesPattern site binding)
    (inSubject : ending.CarriesExpr site subjectSource subject)
    (inBody : ending.CarriesStmt site bodySource body) :
    ending.Leaves site (nativeLoop span isAwait keyword binding subject body) fun stmt =>
      ∃ inside, ending.Carries site (fun extent => patternPauses extent binding.source
          ++ subjectSource extent ++ bodySource extent) inside
        ∧ stmtPauses .all stmt = inside ++ if isAwait then [⟨none, false, span⟩] else [] := by
  refine (carries_loopBinding keyword inBinding).bind fun pattern => ?_
  refine inSubject.bind fun subject => inBody.single.bind fun body => .pure ?_
  exact fun carriesBody carriesSubject carries =>
    ⟨_, (carries.append carriesSubject).append carriesBody, rfl⟩

/-- Binding the pattern of a loop to a value keeps the pauses of the pattern. -/
theorem carries_bindValue (span : Span) (keyword : Option DeclKeyword) {value : Expr}
    (inBinding : ending.CarriesPattern site binding) (noPause : exprPauses .all value = []) :
    ending.Leaves site (bindValue span keyword binding value) fun stmt =>
      ending.Carries site (patternPauses · binding.source) (stmtPauses .all stmt) := by
  -- Without a keyword the value is assigned, with one it is declared.
  cases keyword with
  | none =>
    have inValue : ending.CarriesExpr site (fun _ => []) (pure value) :=
      .pure (by rw [noPause]; exact carries_nil rfl)
    refine (carries_plainAssignment _ inBinding.assigned inValue).bind fun e => .pure fun carries => ?_
    simpa [inBinding.same] using carries
  | some keyword =>
    refine (carries_requireKeyword span keyword).andThen fun _ => ?_
    refine (carries_declaredPattern inBinding).bind fun pattern => ?_
    refine (carries_finishDeclarators _).bind fun declarators => .pure fun same carries => ?_
    refine carries.congr fun pause => (same pause).trans ?_
    simp [noPause]

/-- A loop that waits without syntax for it has the pauses of its parts, and waits. -/
theorem carries_awaitingLoop (span : Span) (names : LoopNames) (subject : Expr) (body : List Stmt)
    (takes : site = .inside .standIn ∨ site.canAwait = true) :
    ending.Leaves site (awaitingLoop span names subject body) fun stmt =>
      SamePauses (stmtPauses .all stmt)
        (exprPauses .all subject ++ stmtsPauses .all body ++ [⟨none, site.isLifted, span⟩]) := by
  refine (carries_awaited span _ takes).bind fun step => ?_
  refine (carries_awaited span _ takes).bind fun closing => .pure fun isClosing isStep pause => ?_
  simp [isClosing, isStep, Stmt.block]
  grind

/-- A loop that waits keeps the pauses of its parts and goes on to wait, unless it is one of the
module that never runs. -/
theorem carries_forAwaitLoop (span : Span) (keyword : Option DeclKeyword)
    (inBinding : ending.CarriesPattern site binding)
    (inSubject : ending.CarriesExpr site subjectSource subject)
    (inBody : ending.CarriesStmt site bodySource body)
    (takes : site = .inside .standIn ∨ site.canAwait = true) :
    ending.Leaves site (forAwaitLoop span keyword binding subject body) fun stmt =>
      ending.Carries site (fun extent => patternPauses extent binding.source
          ++ subjectSource extent ++ bodySource extent ++ [⟨none, false, span⟩])
        (stmtPauses .all stmt) := by
  have native := carries_nativeLoop span true keyword inBinding inSubject inBody
  have own : ending.Carries site (fun _ => [⟨none, false, span⟩]) [⟨none, site.isLifted, span⟩] :=
    carries_wait span
  -- What waits as such does so in its own name.
  have waits {stmt : Stmt} (notLifted : site.isLifted = false)
      (shown : ∃ inside, ending.Carries site (fun extent => patternPauses extent binding.source
          ++ subjectSource extent ++ bodySource extent) inside
        ∧ stmtPauses .all stmt = inside ++ if true then [⟨none, false, span⟩] else []) :
      ending.Carries site (fun extent => patternPauses extent binding.source
          ++ subjectSource extent ++ bodySource extent ++ [⟨none, false, span⟩])
        (stmtPauses .all stmt) := by
    obtain ⟨inside, carries, same⟩ := shown
    rw [notLifted] at own
    rw [same]
    exact carries.append own
  refine .bindAlways (fun _ => leaves_here) fun owner suits => ?_
  refine (leaves_supports .forAwait).andThen fun isNative => ?_
  refine (leaves_lacks .topLevelAwait).andThen fun isLacking => ?_
  refine .ite (fun isReported => ?_) fun _ => ?_
  · obtain ⟨isDead, rfl⟩ : ∃ isDead, site = .own isDead := by
      cases site with
      | own isDead => exact ⟨isDead, rfl⟩
      | static => exact absurd isReported.1 suits
      | inside ground => cases ground <;> simp_all [Site.Suits]
    refine leaves_read.andThen fun setting => .ite (fun _ => ?_) fun _ => ?_
    · refine (carries_nativeLoop span false keyword inBinding inSubject inBody).weaken ?_
      rintro stmt ⟨inside, carries, same⟩
      rw [same]
      refine carries.append ⟨fun pause mem outside => ?_, by simp⟩
      -- Only the module's own wait is gone.
      obtain rfl := List.mem_singleton.mp mem
      exact absurd rfl (outside rfl isDead)
    · exact (leaves_report _ _).andThen fun _ => native.weaken fun _ => waits rfl
  · refine .ite (fun _ => ?_) fun stays => ?_
    · refine (leaves_allocNamedBound _).andThen fun iter => ?_
      refine (leaves_allocNamedBound _).andThen fun more => ?_
      refine (leaves_allocNamedBound _).andThen fun temp => ?_
      refine (leaves_allocNamedBound _).andThen fun error => ?_
      refine inSubject.bind fun subject => ?_
      refine (carries_bindValue span keyword inBinding (by simp)).bind fun first => ?_
      refine inBody.unbraced.bind fun body => ?_
      refine (carries_awaitingLoop span _ subject _ takes).weaken ?_
      intro stmt same carriesBody carriesFirst carriesSubject
      have waits := ((carriesFirst.append carriesSubject).append carriesBody).append own
      refine waits.congr fun pause => (same pause).trans ?_
      simp only [stmtsPauses, List.mem_append]
      grind
    · have isAwait : owner.awaitForm = .await :=
        Decidable.of_not_not fun other => stays (.inl other)
      have notLifted : site.isLifted = false := by simp [isLifted_of_suits suits takes, isAwait]
      have rest := native.weaken fun _ => waits notLifted
      exact .ite (fun _ => (leaves_unsupported _ _).andThen fun _ => rest) fun _ => rest

end Loops

section Others

/-- The branches of a condition keep their pauses, whether they ever run or not. -/
theorem carries_inBranch {isDead : Bool} {pauses : Extent → List Pause} {result : List Pause}
    (carries : ending.Carries (site.branch isDead) pauses result) :
    ending.Carries site pauses result := by
  have same (pause : Pause) : ending.moved (site.branch isDead) pause = ending.moved site pause := by
    cases site <;> rfl
  refine ⟨fun pause mem outside => ?_, fun pause mem => ?_⟩
  · rw [← same]
    refine carries.kept pause mem fun isNone other isOwn => ?_
    cases site with
    | own around => exact outside isNone around rfl
    | static | inside => cases isOwn
  · obtain ⟨own, isOwn, moved⟩ := carries.found pause mem
    exact ⟨own, isOwn, (same own).symm.trans moved⟩

variable {test : Lower Expr} {testSource consequentSource alternateSource : Extent → List Pause}

/-- A condition keeps the pauses of its parts. -/
theorem carries_ifThen (span : Span) {consequent : StmtForms}
    (inTest : ending.CarriesExpr site testSource test)
    (inConsequent : ∀ isDead,
      ending.CarriesStmt (site.branch isDead) consequentSource consequent) :
    ending.Leaves site (ifStatement span test consequent none) fun stmt =>
      ending.Carries site (fun extent => testSource extent ++ consequentSource extent)
        (stmtPauses .all stmt) := by
  refine inTest.bind fun test => (inConsequent _).single.inBranch.bind fun consequent => ?_
  exact .pure fun carries carriesTest => carriesTest.append (carries_inBranch carries)

/-- A test with two branches keeps the pauses of all three. -/
theorem carries_ifElse (span : Span) {consequent alternate : StmtForms}
    (inTest : ending.CarriesExpr site testSource test)
    (inConsequent : ∀ isDead, ending.CarriesStmt (site.branch isDead) consequentSource consequent)
    (inAlternate : ∀ isDead, ending.CarriesStmt (site.branch isDead) alternateSource alternate) :
    ending.Leaves site (ifStatement span test consequent (some alternate)) fun stmt =>
      ending.Carries site
        (fun extent => testSource extent ++ consequentSource extent ++ alternateSource extent)
        (stmtPauses .all stmt) := by
  refine inTest.bind fun test => (inConsequent _).single.inBranch.bind fun consequent => ?_
  refine (inAlternate _).single.inBranch.bind fun alternate => .pure ?_
  exact fun carriesAlternate carries carriesTest =>
    (carriesTest.append (carries_inBranch carries)).append (carries_inBranch carriesAlternate)

/-- The parameter of a handler keeps its pauses, and one that is made up has none. -/
theorem carries_handlerParam (span : Span) {param : Option PatternForms} {own : Option Pattern}
    (inParam : ∀ forms ∈ param, ending.CarriesPattern site forms)
    (same : param.map (·.source) = own) :
    ending.Leaves site (handlerParam span param) fun param =>
      ending.Carries site (patternOptionPauses · own) (patternOptionPauses .all param) := by
  subst same
  -- A handler without a parameter may get one, which is a name.
  cases param with
  | some forms =>
    refine (carries_declaredPattern (inParam forms rfl)).bind fun pattern => ?_
    exact (leaves_unsplittableRest pattern).andThen fun _ => .pure id
  | none =>
    refine (leaves_lacks .optionalCatchBinding).andThen fun isLacking => .ite (fun _ => ?_) fun _ => ?_
    · exact (leaves_allocNamedBound _).andThen fun name => .pure (carries_nil rfl)
    · exact .pure (carries_nil rfl)

/-- Exports do not pause. -/
theorem carries_exportStatement (span : Span) (names : ExportNames) (module : Option String) :
    ending.Leaves site (exportStatement span names module) fun stmts =>
      stmtsPauses .all stmts = [] := by
  unfold exportStatement
  split
  · refine (leaves_lacks .exportStarAs).andThen fun isLacking => .ite (fun _ => ?_) fun _ => .pure rfl
    refine .ite (fun _ => ?_) fun _ => ?_
    · exact (leaves_allocNamedBound _).andThen fun inner => .pure rfl
    · exact leaves_allocBound.andThen fun inner => .pure rfl
  · exact .pure rfl

end Others

end Ending

end Downlevel
