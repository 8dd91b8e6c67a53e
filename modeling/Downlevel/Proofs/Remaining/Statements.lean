import Downlevel.Lowering.Statement
import Downlevel.Proofs.Remaining.Classes
import Downlevel.Proofs.Remaining.Operations

/-! Statements and loops remain as they are where the target has them or they were reported. -/

namespace Downlevel

open Lowering

namespace Ending

variable {ending : Ending} {site : Site} {span : Span}

/-- All forms of a statement leave what may remain. -/
structure LeavesStmt (ending : Ending) (site : Site) (forms : StmtForms) : Prop where
  stmts : ending.Leaves site forms.stmts fun stmts => ending.Keeps site (stmtsNodes stmts)
  unbraced : ending.Leaves site forms.unbraced fun stmts => ending.Keeps site (stmtsNodes stmts)

/-- A statement that has to stay one may remain. -/
theorem LeavesStmt.single {forms : StmtForms} (inForms : ending.LeavesStmt site forms) :
    ending.Leaves site forms.single fun stmt => ending.Keeps site (stmtNodes stmt) := by
  refine inForms.stmts.bind fun stmts => ?_
  match stmts with
  | [] => exact .pure fun _ => keeps_emptyStmt
  | [stmt] => exact .pure fun inStmts => keeps_stmts.mp inStmts stmt (by simp)
  | first :: second :: rest => exact .pure keeps_blockStmt.mpr

section Declarations

/-- Keywords that the target lacks are reported. -/
theorem leaves_requireKeyword (span : Span) (keyword : DeclKeyword) :
    ending.Leaves site (requireKeyword span keyword) fun _ => ending.AdmitsKeyword keyword := by
  refine .ite (fun _ => ?_) fun isVar => .pure fun notVar => absurd notVar isVar
  exact (leaves_require _ _ _).weaken fun _ admits _ => admits

/-- Declarators may remain without the rests that the target lacks. -/
theorem leaves_finishDeclarators (declarators : List Declarator) :
    ending.Leaves site (finishDeclarators declarators) fun finished =>
      (∀ declarator ∈ declarators, ending.Declares site declarator) →
        ending.Keeps site (declaratorsNodes finished) := by
  refine (leaves_lacks .objectRestSpread).bind fun isLacking => ?_
  simp only [declaratorsNodes_eq, throughout_flatMap]
  refine .ite (fun _ => ?_) fun has => .pure fun known declare declarator mem => ?_
  · exact (leaves_splitDeclarators declarators).weaken fun _ keeps _ => keeps
  · refine keeps_declarator.mpr ⟨declare declarator mem, admitsRests_of_supports ?_⟩
    simpa [known] using has

/-- The declarators of a declaration may remain, and so may its keyword. -/
theorem leaves_varDeclarators (span : Span) (keyword : DeclKeyword)
    {declarators : Lower (List Declarator)}
    (inDeclarators : ending.Leaves site declarators fun declarators =>
      ∀ declarator ∈ declarators, ending.Declares site declarator) :
    ending.Leaves site (varDeclarators span keyword declarators) fun declarators =>
      ending.AdmitsKeyword keyword ∧ ending.Keeps site (declaratorsNodes declarators) := by
  refine (leaves_requireKeyword span keyword).bind fun _ => inDeclarators.bind fun declarators => ?_
  exact (leaves_finishDeclarators declarators).weaken fun _ keeps declare admits =>
    ⟨admits, keeps declare⟩

/-- A declaration may remain if its keyword and its declarators may. -/
theorem keeps_varDecl {isExported : Bool} {keyword : DeclKeyword} {declarators : List Declarator}
    (admits : ending.AdmitsKeyword keyword)
    (inDeclarators : ending.Keeps site (declaratorsNodes declarators)) :
    ending.Keeps site (stmtNodes ⟨span, .varDecl isExported keyword declarators⟩) :=
  keeps_stmt.mpr ⟨accounts_stmt rfl nofun (.inl admits) nofun, inDeclarators⟩

/-- A lowered declarator may remain but for the rests of its pattern. -/
theorem leaves_declarator {pattern : PatternForms} {init : Lower (Option Expr)}
    (inPattern : ending.LeavesPattern site pattern)
    (inInit : ending.Leaves site init fun init => ending.Keeps site (optionNodes init)) :
    ending.Leaves site
      (do
        let pattern ← declaredPattern pattern
        return (⟨pattern, ← init⟩ : Declarator)) (ending.Declares site) :=
  (leaves_declaredPattern inPattern).bind fun _ => inInit.bind fun _ =>
    .pure fun inInit ⟨inPattern, declared⟩ => ⟨declared, inPattern, inInit⟩

end Declarations

section Loops

/-- The pattern of a loop may remain. -/
theorem leaves_loopBinding {keyword : Option DeclKeyword} {binding : PatternForms}
    (inBinding : ending.LeavesPattern site binding) :
    ending.Leaves site (loopBinding keyword binding) fun pattern =>
      ending.Keeps site (patternNodes pattern) ∧ ending.AdmitsLoop keyword pattern := by
  unfold loopBinding
  extract_lets goOn
  -- Whatever declares the pattern, its rests are dealt with in the same way.
  have inRest (pattern : Pattern) : ending.Leaves site (goOn pattern) fun last =>
      ending.Keeps site (patternNodes pattern) →
      (∀ declaring ∈ keyword, ending.AdmitsKeyword declaring ∧ ending.AdmitsDeclared pattern) →
        ending.Keeps site (patternNodes last) ∧ ending.AdmitsLoop keyword last :=
    (leaves_unsplittableRest pattern).bind fun _ => .pure fun unsplit inPattern declared =>
      ⟨inPattern, declared, unsplit⟩
  cases keyword with
  | none =>
    refine inBinding.bound.bind fun pattern => (inRest pattern).weaken fun _ shown known => ?_
    exact shown known.1 nofun
  | some keyword =>
    have declares : ending.Leaves site (declaredPattern binding >>= goOn) fun last =>
        ending.AdmitsKeyword keyword →
          ending.Keeps site (patternNodes last) ∧ ending.AdmitsLoop (some keyword) last := by
      refine (leaves_declaredPattern inBinding).bind fun pattern => ?_
      refine (inRest pattern).weaken fun _ shown ⟨inPattern, declared⟩ admits => ?_
      exact shown inPattern (by simpa using ⟨admits, declared⟩)
    exact .when (fun _ => leaves_require _ _ _) declares

/-- A loop over a subject may remain if it is one that the target has, or was reported. -/
theorem leaves_nativeLoop (span : Span) {isAwait : Bool} {keyword : Option DeclKeyword}
    {binding : PatternForms} {subject : Lower Expr} {body : StmtForms}
    (inBinding : ending.LeavesPattern site binding) (inSubject : ending.LeavesExpr site subject)
    (inBody : ending.LeavesStmt site body)
    (allowed : isAwait = true → site.canAwait = true ∨ ending.misplaced) :
    ending.Leaves site (nativeLoop span isAwait keyword binding subject body) fun stmt =>
      (if isAwait then ending.AdmitsForAwait site else ending.AdmitsForOf site) →
        ending.Keeps site (stmtNodes stmt) := by
  refine (leaves_loopBinding inBinding).bind fun pattern => inSubject.bind fun subject => ?_
  refine inBody.single.bind fun body => .pure ?_
  rintro inBody inSubject ⟨inPattern, loop⟩ admits
  -- A loop accounts for its keyword and, if it waits, for where it stands.
  refine keeps_stmt.mpr ⟨⟨?_, ?_, ?_, ⟨loop, admits⟩, ?_, ?_, nofun⟩, ?_⟩
  · simp [Node.rewritable?]
  · simp [Node.asynchronous?]
  · rintro ⟨⟩
  · rintro _ _ ⟨⟩
  · cases isAwait with
    | false => refine allowed_plain ?_ ?_ <;> rintro ⟨⟩
    | true => exact (allowed rfl).imp_left fun canAwait => ⟨fun _ => canAwait, by rintro ⟨⟩⟩
  · simpa [stmtShapeNodes, and_assoc] using ⟨inPattern, inSubject, inBody⟩

/-- The value of a loop may be bound as a statement. -/
theorem leaves_bindValue (span : Span) {keyword : Option DeclKeyword} {binding : PatternForms}
    {value : Expr} (inBinding : ending.LeavesPattern site binding)
    (inValue : ending.Keeps site (exprNodes value)) :
    ending.Leaves site (bindValue span keyword binding value) fun stmt =>
      ending.Keeps site (stmtNodes stmt) := by
  -- Without a keyword the binding is assigned; with one it is a declaration of its own.
  cases keyword with
  | none =>
    refine (leaves_plainAssignment _ inBinding.assigned (.pure inValue) inBinding.isTarget).bind
      fun e => .pure keeps_exprStmt.mpr
  | some keyword =>
    refine (leaves_requireKeyword span keyword).bind fun _ => ?_
    refine (leaves_declaredPattern inBinding).bind fun pattern => ?_
    refine (leaves_finishDeclarators _).bind fun declarators => .pure ?_
    intro finished ⟨inPattern, declared⟩ admits
    refine keeps_varDecl admits (finished fun declarator mem => ?_)
    obtain rfl := List.mem_singleton.mp mem
    exact ⟨declared, inPattern, inValue⟩

/-- A declarator of a lone name may remain if its value may. -/
theorem keeps_nameDeclarator {name : String} {init : Option Expr}
    (inInit : ending.Keeps site (optionNodes init)) :
    ending.Keeps site (declaratorNodes (.ofName span name init)) :=
  keeps_declarator.mpr ⟨⟨nofun, keeps_idPattern, inInit⟩, nofun⟩

/-- The loop inside of one that waits without syntax for it may remain. -/
theorem keeps_steppingLoop {names : LoopNames} {subject step : Expr} {body : List Stmt}
    (inSubject : ending.Keeps site (exprNodes subject)) (inStep : ending.Keeps site (exprNodes step))
    (inBody : ending.Keeps site (stmtsNodes body)) :
    ending.Keeps site (stmtNodes ⟨span, .forDecl span .varDecl
      [.ofName span names.iter (some (.helper span "__forAwait" [subject])),
        .ofName span names.more none, .ofName span names.temp none, .ofName span names.error none]
      (some (.assign span (.id span names.more) (.unary span .logicalNot
        (.member span (.assign span (.id span names.temp) step) "done"))))
      (some (.assign span (.id span names.more) (.bool span false)))
      (.block span body)⟩) := by
  -- The loop's own parts are made up of names, so only the subject, the step and the body are left.
  refine keeps_stmt.mpr ⟨accounts_stmt rfl nofun (absurd rfl) nofun, ?_⟩
  have inDone : ending.Keeps site (exprNodes (.unary span .logicalNot
      (.member span (.assign span (.id span names.temp) step) "done"))) :=
    (keeps_unary (by decide)).mpr (by simpa using inStep)
  have inInit : ending.Keeps site (optionNodes (some (.helper span "__forAwait" [subject]))) := by
    simpa [optionNodes] using inSubject
  simp only [stmtShapeNodes, declaratorsNodes, optionNodes, throughout_append, throughout_nil,
    keeps_nameDeclarator inInit, keeps_nameDeclarator (show ending.Keeps site (optionNodes none) from
      throughout_nil), keeps_assign_id.mpr inDone, keeps_assign_id, keeps_bool, keeps_blockStmt,
    inBody, and_self]

/-- Closing the iterator of a loop that waits without syntax for it may remain. -/
theorem keeps_closingIterator {names : LoopNames} {closing : Expr}
    (inClosing : ending.Keeps site (exprNodes closing)) :
    ending.Keeps site (stmtNodes ⟨span, .tryFinally
      ⟨span, [.expr (.binary span .logicalAnd
        (.binary span .logicalAnd (.id span names.more)
          (.assign span (.id span names.temp) (.member span (.id span names.iter) "return")))
        closing)]⟩
      ⟨span, [⟨span, .ifThen (.id span names.error)
        ⟨span, .throw (.computed span (.id span names.error) (.num span "0"))⟩⟩]⟩⟩) := by
  -- The closing call is guarded by two tests of names; only the call itself is given.
  have inClose : ending.Keeps site (exprNodes (.binary span .logicalAnd
      (.binary span .logicalAnd (.id span names.more)
        (.assign span (.id span names.temp) (.member span (.id span names.iter) "return")))
      closing)) := by
    refine (keeps_binary rfl (by decide)).mpr ⟨?_, inClosing⟩
    exact (keeps_binary rfl (by decide)).mpr ⟨keeps_id, keeps_assign_id.mpr (by simp)⟩
  have inThrow (site : Site) : ending.Keeps site
      (stmtNodes ⟨span, .throw (.computed span (.id span names.error) (.num span "0"))⟩) :=
    keeps_stmt.mpr ⟨accounts_stmt rfl nofun trivial nofun, by simp [stmtShapeNodes]⟩
  have inRethrow : ending.Keeps site (stmtNodes ⟨span, .ifThen (.id span names.error)
      ⟨span, .throw (.computed span (.id span names.error) (.num span "0"))⟩⟩) :=
    keeps_stmt.mpr ⟨accounts_stmt rfl nofun trivial nofun, by simpa [stmtShapeNodes] using inThrow _⟩
  refine keeps_stmt.mpr ⟨accounts_stmt rfl nofun trivial nofun, ?_⟩
  simpa [stmtShapeNodes, blockNodes, stmtsNodes, Stmt.expr] using ⟨inClose, inRethrow⟩

/-- A loop that waits without syntax for it may remain. -/
theorem leaves_awaitingLoop (span : Span) (names : LoopNames) (subject : Expr) (body : List Stmt)
    (takes : ending.TakesAwait site) :
    ending.Leaves site (awaitingLoop span names subject body) fun stmt =>
      ending.AdmitsAwait site → ending.Keeps site (exprNodes subject) →
        ending.Keeps site (stmtsNodes body) → ending.Keeps site (stmtNodes stmt) := by
  -- The loop waits twice, for each step and for the closing, and both stand where the loop does.
  refine (leaves_awaited span _ takes).bind fun step => ?_
  refine (leaves_awaited span _ takes).bind fun closing => .pure ?_
  intro closes steps admits inSubject inBody
  have inLoop := @keeps_steppingLoop ending site span names _ _ _ inSubject
    (steps admits (by simp)) inBody
  have inFinish := @keeps_closingIterator ending site span names _ (closes admits (by simp))
  have inKeep : ending.Keeps site (stmtNodes (.expr
      (.assign span (.id span names.error) (.array span [.id span names.temp])))) := by
    simp [Stmt.expr]
  have handled : ending.AdmitsHandler (some (.id span names.temp)) := by
    rintro _ ⟨⟩
    exact ⟨nofun, nofun⟩
  refine keeps_stmt.mpr ⟨accounts_stmt rfl nofun handled nofun, ?_⟩
  simp only [stmtShapeNodes, blockNodes, stmtsNodes, patternOptionNodes, throughout_append]
  exact ⟨⟨⟨⟨inLoop, throughout_nil⟩, keeps_idPattern⟩, inKeep, throughout_nil⟩, inFinish,
    throughout_nil⟩

/-- A loop that waits may remain, or what it was lowered to. -/
theorem leaves_forAwaitLoop (span : Span) {keyword : Option DeclKeyword} {binding : PatternForms}
    {subject : Lower Expr} {body : StmtForms} (inBinding : ending.LeavesPattern site binding)
    (inSubject : ending.LeavesExpr site subject) (inBody : ending.LeavesStmt site body)
    (waits : site = .static → ending.waitsInStatic) (takes : ending.TakesAwait site) :
    ending.Leaves site (forAwaitLoop span keyword binding subject body) fun stmt =>
      ending.Keeps site (stmtNodes stmt) := by
  refine .bindAlways (fun _ => leaves_here) fun owner suits => ?_
  refine (leaves_supports .forAwait).bind fun isNative => ?_
  refine (leaves_lacks .topLevelAwait).bind fun isLacking => ?_
  -- Outside of functions, waiting is that of the module unless it is static code.
  have admitsAwait (noReport : ¬(owner.kind = .module ∧ isLacking = true))
      (known : isLacking = !ending.target.supports .topLevelAwait) : ending.AdmitsAwait site := by
    intro outside
    cases site with
    | own isDead => exact .inl (by simpa [suits.1, known] using noReport)
    | static => exact .inr (.inr (waits rfl))
    | inside => cases outside
  refine .ite (fun isReported => ?_) fun noReport => ?_
  · obtain ⟨isModule, lacksAwait⟩ := isReported
    obtain ⟨isDead, rfl⟩ : ∃ isDead, site = .own isDead := by
      cases site with
      | own isDead => exact ⟨isDead, rfl⟩
      | static => exact absurd isModule suits
      | inside ground => cases ground <;> simp_all [Site.Suits]
    refine leaves_read.bind fun setting => .ite (fun never => ?_) fun _ => ?_
    · have noAwait : false = true → Site.canAwait (.own isDead) = true ∨ ending.misplaced :=
        fun isAwait => absurd isAwait Bool.false_ne_true
      refine (leaves_nativeLoop span inBinding inSubject inBody noAwait).weaken ?_
      intro stmt keeps asked known _
      refine keeps (.inr ⟨?_, ?_⟩)
      · rw [← asked.2 isDead rfl, never]
      · simpa [lacksAwait] using known.symm
    · refine (leaves_report _ _).bind fun _ => ?_
      refine (leaves_nativeLoop span inBinding inSubject inBody fun _ => .inl rfl).weaken ?_
      intro stmt keeps reported _ _ _
      exact keeps ⟨.inr ⟨⟨isDead, rfl⟩, reported⟩, fun _ => .inr (.inl reported)⟩
  · refine .ite (fun _ => ?_) fun stays => ?_
    · refine (leaves_allocNamedBound _).andThen fun iter => ?_
      refine (leaves_allocNamedBound _).andThen fun more => ?_
      refine (leaves_allocNamedBound _).andThen fun temp => ?_
      refine (leaves_allocNamedBound _).andThen fun error => ?_
      refine inSubject.bind fun subject => ?_
      refine (leaves_bindValue span inBinding (by simp)).bind fun first => ?_
      refine inBody.unbraced.bind fun body => (leaves_awaitingLoop span _ subject _ takes).weaken ?_
      intro stmt keeps inBody inFirst inSubject known _
      refine keeps (admitsAwait noReport known) inSubject ?_
      simpa [stmtsNodes] using ⟨inFirst, inBody⟩
    · have isAwait : owner.awaitForm = .await := Decidable.of_not_not fun other => stays (.inl other)
      have allowed := canAwait_of_form suits isAwait takes
      extract_lets loops
      refine .when (fun _ => leaves_unsupported _ _) ?_
      refine (leaves_nativeLoop span inBinding inSubject inBody fun _ => allowed).weaken ?_
      intro stmt keeps reports known has
      refine keeps ⟨.inl ?_, admitsAwait noReport known⟩
      cases isNative with
      | true => exact .inl has.symm
      | false => exact .inr (reports rfl)

end Loops

section Others

/-- An expression may remain as a statement, and so may what is left of it if its value is not
used. -/
theorem keeps_usedStmt {value : Expr} (inValue : ending.Keeps site (exprNodes value)) :
    ending.Keeps site (stmtsNodes (exprStmt span value)) := by
  rw [keeps_stmts]
  intro stmt mem
  -- What is used of the value is the whole, the left part of a comma, or nothing.
  unfold exprStmt at mem
  split at mem
  · obtain rfl := List.mem_singleton.mp mem
    exact keeps_exprStmt.mpr inValue
  · split at mem
    · rename_i left right isComma
      obtain rfl := List.mem_singleton.mp mem
      have inParts := (keeps_expr.mp inValue).2
      simp only [isComma, shapeNodes, throughout_append] at inParts
      exact keeps_exprStmt.mpr inParts.1
    · cases mem

/-- A condition may remain with its branches. -/
theorem leaves_ifStatement (span : Span) {test : Lower Expr} {consequent : StmtForms}
    {alternate : Option StmtForms} (inTest : ending.LeavesExpr site test)
    (inConsequent : ∀ isDead, ending.LeavesStmt (site.branch isDead) consequent)
    (inAlternate : ∀ forms ∈ alternate, ∀ isDead, ending.LeavesStmt (site.branch isDead) forms) :
    ending.Leaves site (ifStatement span test consequent alternate) fun stmt =>
      ending.Keeps site (stmtNodes stmt) := by
  refine inTest.bind fun test => (inConsequent _).single.inBranch.bind fun consequent => ?_
  -- The branches are visited as dead or alive, as the test says; they stay what they are either
  -- way.
  cases alternate with
  | none =>
    refine .pure fun inConsequent inTest => keeps_stmt.mpr ⟨accounts_stmt rfl nofun trivial nofun, ?_⟩
    simpa [stmtShapeNodes] using ⟨inTest, inConsequent⟩
  | some alternate =>
    refine (inAlternate alternate rfl _).single.inBranch.bind fun alternate => ?_
    refine .pure fun inAlternate inConsequent inTest =>
      keeps_stmt.mpr ⟨accounts_stmt rfl nofun trivial nofun, ?_⟩
    simpa [stmtShapeNodes, and_assoc] using ⟨inTest, inConsequent, inAlternate⟩

/-- The parameter of a handler is one that the target can do with. -/
structure KeepsHandler (ending : Ending) (site : Site) (param : Option Pattern) : Prop where
  pattern : ending.Keeps site (patternOptionNodes param)
  admits : ending.AdmitsHandler param
  present : param = none → ending.target.supports .optionalCatchBinding = true

/-- The parameter of a handler may remain, and there is one where the target needs it. -/
theorem leaves_handlerParam (span : Span) {param : Option PatternForms}
    (inParam : ∀ forms ∈ param, ending.LeavesPattern site forms) :
    ending.Leaves site (handlerParam span param) (ending.KeepsHandler site) := by
  -- A parameter that is bound is announced; a missing one is asked of the target.
  cases param with
  | some forms =>
    refine (leaves_declaredPattern (inParam forms rfl)).bind fun pattern => ?_
    refine (leaves_unsplittableRest pattern).bind fun _ => .pure ?_
    rintro unsplit ⟨inPattern, declared⟩
    exact ⟨inPattern, by simpa [AdmitsHandler] using ⟨declared, unsplit⟩, by rintro ⟨⟩⟩
  | none =>
    refine (leaves_lacks .optionalCatchBinding).bind fun isLacking => .ite (fun _ => ?_) fun has => ?_
    · refine (leaves_allocNamedBound _).andThen fun name => .pure fun _ => ⟨?_, ?_, ?_⟩
      · exact keeps_idPattern
      · rintro _ ⟨⟩
        constructor <;> rintro ⟨⟩
      · rintro ⟨⟩
    · refine .pure fun known => ⟨throughout_nil, ?_, fun _ => ?_⟩
      · rintro _ ⟨⟩
      · simpa [known] using has

/-- A handler may remain if its parts may. -/
theorem keeps_tryCatch {body handler : Block} {param : Option Pattern}
    (inBody : ending.Keeps site (blockNodes body)) (inParam : ending.KeepsHandler site param)
    (inHandler : ending.Keeps site (blockNodes handler)) :
    ending.Keeps site (stmtNodes ⟨span, .tryCatch body param handler⟩) := by
  refine keeps_stmt.mpr
    ⟨⟨?_, ?_, nofun, inParam.admits, nofun, allowed_plain nofun nofun, nofun⟩, ?_⟩
  · cases param with
    | none => simpa [Node.rewritable?] using inParam.present rfl
    | some pattern => simp [Node.rewritable?]
  · simp [Node.asynchronous?]
  · simpa [stmtShapeNodes, and_assoc] using ⟨inBody, inParam.pattern, inHandler⟩

/-- A handler may remain together with what is done at last. -/
theorem keeps_tryCatchFinally {body handler finalizer : Block} {param : Option Pattern}
    (inBody : ending.Keeps site (blockNodes body)) (inParam : ending.KeepsHandler site param)
    (inHandler : ending.Keeps site (blockNodes handler))
    (inFinalizer : ending.Keeps site (blockNodes finalizer)) :
    ending.Keeps site (stmtNodes ⟨span, .tryCatchFinally body param handler finalizer⟩) := by
  -- The binding may be left out only where the target allows it, which is what keeping the
  -- parameter says.
  refine keeps_stmt.mpr
    ⟨⟨?_, ?_, nofun, inParam.admits, nofun, allowed_plain nofun nofun, nofun⟩, ?_⟩
  · cases param with
    | none => simpa [Node.rewritable?] using inParam.present rfl
    | some pattern => simp [Node.rewritable?]
  · simp [Node.asynchronous?]
  · simpa [stmtShapeNodes, and_assoc] using ⟨inBody, inParam.pattern, inHandler, inFinalizer⟩

/-- An export may remain, or the import and export that it was lowered to. -/
theorem leaves_exportStatement (span : Span) (names : ExportNames) {module : Option String}
    (formed : ending.isRead → (Node.stmt (.exportNames names module)).Formed)
    (outer : ∀ name ∈ (Node.stmt (.exportNames names module)).outerNames, ending.isOuter name) :
    ending.Leaves site (exportStatement span names module) fun stmts =>
      ending.Keeps site (stmtsNodes stmts) := by
  -- Any other export is one that every target has.
  have stays (everywhere : ∀ feature ∈ (Node.stmt (.exportNames names module)).rewritable?,
      ending.target.supports feature = true) :
      ending.Keeps site (stmtsNodes [⟨span, .exportNames names module⟩]) := by
    refine keeps_stmts.mpr (List.forall_mem_singleton.mpr (keeps_stmt.mpr ⟨?_, throughout_nil⟩))
    refine ⟨everywhere, by simp [Node.asynchronous?], ?_, trivial, ?_, allowed_plain ?_ ?_,
      fun name mem => .inr (outer name mem)⟩
    · rintro ⟨⟩
    · rintro _ _ ⟨⟩
    all_goals rintro ⟨⟩
  unfold exportStatement
  split
  · rename_i exportedAs source
    refine (leaves_lacks .exportStarAs).bind fun isLacking => .ite (fun _ => ?_) fun has => ?_
    · -- Whatever the name inside is, the two statements are such that every target has.
      have split (inner : String) : ending.Keeps site (stmtsNodes
          [⟨span, .importNames none (some (.all inner)) source⟩,
            ⟨span, .exportNames (.specific [⟨.identifier inner, exportedAs⟩]) none⟩]) := by
        simp only [keeps_stmts, List.mem_cons, List.not_mem_nil, or_false, forall_eq_or_imp,
          forall_eq]
        have isOuter : ending.isOuter exportedAs :=
          outer exportedAs (List.mem_singleton_self exportedAs)
        refine ⟨keeps_stmt.mpr
            ⟨accounts_stmt rfl ?_ trivial (List.forall_mem_nil _), throughout_nil⟩,
          keeps_stmt.mpr ⟨accounts_stmt rfl ?_ trivial ?_, throughout_nil⟩⟩
        · rintro ⟨⟩
        · rintro ⟨⟩
        · simp [Node.outerNames, ModuleName.quoted, isOuter]
      refine .ite (fun _ => ?_) fun _ => ?_
      · exact (leaves_allocNamedBound _).andThen fun inner => .pure fun _ => split inner
      · exact leaves_allocBound.andThen fun inner => .pure fun _ => split inner
    · refine .pure fun known => stays fun feature found => ?_
      obtain rfl : feature = .exportStarAs := by simpa [Node.rewritable?, eq_comm] using found
      simpa [known] using has
  · rename_i other
    refine .pureRead fun isRead => stays fun feature found => ?_
    cases names with
    | specific => cases found
    | all exportedAs =>
      obtain ⟨source, rfl⟩ := Option.isSome_iff_exists.mp (formed isRead)
      cases exportedAs with
      | none => cases found
      | some exportedAs => exact absurd rfl (other exportedAs source rfl)

end Others

end Ending

end Downlevel
