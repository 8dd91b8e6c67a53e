import Downlevel.Lowering.Statement
import Downlevel.Proofs.Scoping.Classes

/-! Statements and loops: what takes their place needs what their parts do, besides the names that it
binds itself. -/

namespace Downlevel

open Lowering

namespace Realm

variable {realm : Realm} {mayBeParams : Bool} {world : World} {span : Span}

/-- The forms of a statement work. -/
structure WorksStmtForms (realm : Realm) (forms : StmtForms) : Prop where
  stmts : realm.WorksStmts forms.stmts
  unbraced : realm.WorksStmts forms.unbraced

section Branches

/-- A statement that has to stay one needs no more than what is bound around it and by itself. -/
theorem works_single {forms : StmtForms} (inForms : realm.WorksStmtForms forms) :
    realm.Works false forms.single fun world stmt =>
      Meets realm.stem (world.plus realm.stem (stmtNames false stmt)) (stmtUses stmt) := by
  apply inForms.stmts.bind
  intro stmts
  -- One statement stands for itself; none or several stand in a block, which is a scope of its own.
  match stmts with
  | [] => exact .pure fun _ _ _ => by simp
  | [stmt] => exact .pure fun _ _ meets => by simpa using meets
  | first :: second :: rest =>
    apply Works.pure
    intro world _ meets
    rw [stmtUses_block, meets_enclosed]
    exact Meets.mono meets (World.plus_mono (fun _ => .inl) fun _ => id)

/-- A branch works, also if it never runs. -/
theorem works_inBranch {α : Type} {isDead : Bool} {step : Lower α} {described : World → α → Prop}
    (holds : realm.Works mayBeParams step described) :
    realm.Works mayBeParams (inBranch isDead step) described :=
  holds.withReader fun _ => ⟨rfl, rfl, rfl⟩

/-- A condition with its branches needs what its parts do. -/
theorem works_ifStatement (span : Span) {test : Lower Expr} {consequent : StmtForms}
    {alternate : Option StmtForms} (inTest : realm.WorksExpr test)
    (inConsequent : realm.WorksStmtForms consequent)
    (inAlternate : ∀ forms ∈ alternate, realm.WorksStmtForms forms) :
    realm.Works false (ifStatement span test consequent alternate) fun world stmt =>
      Meets realm.stem world (stmtUses stmt) := by
  apply inTest.bind
  intro test
  extract_lets truth
  apply (works_inBranch (works_single inConsequent)).bind
  intro consequent
  -- Each branch is a scope of its own, whatever the test says of it.
  cases alternate with
  | none =>
    apply Works.pure
    intro world _ inConsequent inTest
    rw [stmtUses_mk, stmtShapeUses, meets_append, meets_enclosed]
    exact ⟨inTest, inConsequent⟩
  | some forms =>
    apply (works_inBranch (works_single (inAlternate forms rfl))).bind
    intro alternate
    apply Works.pure
    intro world _ inAlternate inConsequent inTest
    rw [stmtUses_mk, stmtShapeUses, meets_append, meets_append, meets_enclosed, meets_enclosed]
    exact ⟨inTest, inConsequent, inAlternate⟩

/-- What stays of an expression that is a statement needs no more than the expression. -/
theorem meets_exprStmt {value : Expr} (meets : Meets realm.stem world (exprUses value)) :
    Meets realm.stem world (stmtsUses (exprStmt span value)) := by
  unfold exprStmt
  split
  · simpa [stmtShapeUses] using meets
  · split
    · rename_i left right isComma
      rw [exprUses_shape, isComma, shapeUses, meets_append] at meets
      simpa [stmtShapeUses] using meets.1
    · simp

end Branches

section Declarators

/-- Declarators need what they did, besides the names that they bind. -/
theorem works_finishDeclarators (declarators : List Declarator) :
    realm.Works false (finishDeclarators declarators) fun world finished =>
      ∀ wide : World, (∀ name, world name → wide name) →
        (∀ declarator ∈ declarators, MeetsDeclarator realm.stem world wide declarator) →
        Meets realm.stem (wide.plus realm.stem (declaratorsNames finished))
          (declaratorsUses finished) := by
  apply (works_lacks .objectRestSpread).andThen
  intro isLacking
  -- Where the target lacks rests the declarators are split; otherwise they stay, and each of them
  -- meets the world.
  apply Works.ite
  · intro _
    apply (works_splitDeclarators declarators).weaken
    intro world _ split shown wide grows meets
    exact meets_declarators (fun name inWorld => .inl (grows name inWorld)) (shown wide grows meets)
  · intro _
    apply Works.pure
    intro world _ wide grows meets
    exact (meets_declarators grows meets).plus

/-- Reporting keywords that the target lacks works. -/
theorem works_requireKeyword (span : Span) (keyword : DeclKeyword) :
    realm.Works mayBeParams (requireKeyword span keyword) fun _ _ => True := by
  apply Works.ite
  · exact fun _ => works_require _ _ _
  · exact fun _ => .pure fun _ _ => trivial

/-- A declaration needs what its declarators do, besides the names that they bind. -/
theorem works_varDeclarators (span : Span) (keyword : DeclKeyword)
    {declarators : Lower (List Declarator)}
    (inDeclarators : realm.Works false declarators fun world declarators =>
      ∀ declarator ∈ declarators, MeetsDeclarator realm.stem world world declarator) :
    realm.Works false (varDeclarators span keyword declarators) fun world declarators =>
      Meets realm.stem (world.plus realm.stem (declaratorsNames declarators))
        (declaratorsUses declarators) := by
  apply (works_requireKeyword span keyword).andThen
  intro _
  apply inDeclarators.bind
  intro declarators
  -- All declarators of one statement meet the world around it, which serves as both worlds of the
  -- split.
  apply (works_finishDeclarators declarators).weaken
  exact fun world _ _ shown meets => shown world (fun _ => id) meets

/-- The parameter of a handler needs what its pattern does. -/
theorem works_handlerParam (span : Span) {param : Option PatternForms}
    (inParam : ∀ forms ∈ param, realm.WorksPattern forms) :
    realm.Works false (handlerParam span param) fun world param =>
      Meets realm.stem world (patternOptionUses true param) := by
  -- A missing parameter may get a name, which is writable as its base is; a given one binds as it
  -- is written.
  cases param with
  | none =>
    apply (works_lacks .optionalCatchBinding).andThen
    intro isLacking
    apply Works.ite
    · intro _
      apply (works_allocNamedBound (writable_of_head (c := 'e') rfl (by decide))).bind
      intro name
      exact .pure fun _ _ writable => by simpa [patternOptionUses] using writable
    · exact fun _ => .pure fun _ _ => by simp [patternOptionUses]
  | some forms =>
    apply (works_declared (inParam forms rfl)).bind
    intro pattern
    apply (works_unsplittableRest pattern).andThen
    intro _
    apply Works.pure
    intro world _ meets
    rw [patternOptionUses]
    exact meets_binding pattern meets

end Declarators

section Modules

/-- An export of a whole module needs nothing but the name that it is imported under. -/
theorem works_exportStatement (span : Span) (names : ExportNames) (module : Option String)
    (writable : Meets realm.stem (fun _ => False) (exportUses names)) :
    realm.WorksStmts (exportStatement span names module) := by
  have stays : realm.WorksStmts (return [⟨span, .exportNames names module⟩]) := by
    apply Works.pure
    intro world _
    simpa [stmtShapeUses] using writable.mono fun _ => False.elim
  unfold exportStatement
  split
  · rename_i outer source
    apply (works_lacks .exportStarAs).andThen
    intro isLacking
    apply Works.ite
    · intro _
      extract_lets goOn
      -- Whatever the module is called, it is imported and exported under that name.
      have inRest (inner : String) : realm.Works false (goOn inner) fun world stmts =>
          Writable realm.stem inner →
            Meets realm.stem (world.plus realm.stem (stmtsNames false stmts)) (stmtsUses stmts) := by
        apply Works.pure
        intro world _ isWritable
        simp [stmtShapeUses, importUses, exportUses, ModuleName.uses, isWritable]
      apply Works.ite
      · rintro ⟨isName, -⟩
        exact (works_allocNamedBound (writable_of_isIdentifierName isName)).bind inRest
      · exact fun _ => works_allocBound.bind inRest
    · exact fun _ => stays
  · exact stays

end Modules

section Loops

/-- The pattern of a loop needs what it is made of. -/
theorem works_loopBinding (keyword : Option DeclKeyword) {binding : PatternForms}
    (inBinding : realm.WorksPattern binding) :
    realm.Works false (loopBinding keyword binding) fun world pattern =>
      Meets realm.stem world (patternUses keyword.isSome pattern) := by
  unfold loopBinding
  extract_lets goOn
  -- The check of the rest comes last, whatever the keyword is.
  have checked (binds : Bool) (pattern : Pattern) :
      realm.Works false (goOn pattern) fun world result =>
        Meets realm.stem world (patternUses false pattern) →
          Meets realm.stem world (patternUses binds result) := by
    apply (works_unsplittableRest pattern).andThen
    intro _
    apply Works.pure
    intro world _ meets
    cases binds with
    | false => exact meets
    | true => exact meets_binding pattern meets
  cases keyword with
  | none => exact (inBinding.bound false (by simp)).bind (checked false)
  | some keyword =>
    apply Works.when
    · exact works_require _ _ _
    · exact (works_declared inBinding).bind (checked true)

/-- Binding a value as a statement needs what the pattern and the value do. -/
theorem works_bindValue (span : Span) (keyword : Option DeclKeyword) {binding : PatternForms}
    (value : Expr) (inBinding : realm.WorksPattern binding) :
    realm.Works false (bindValue span keyword binding value) fun world stmt =>
      ∀ wide : World, (∀ name, world name → wide name) → Meets realm.stem wide (exprUses value) →
        Meets realm.stem (wide.plus realm.stem (stmtNames false stmt)) (stmtUses stmt) := by
  -- Without a keyword the value is assigned; with one it is declared, and the declaration may be
  -- split.
  cases keyword with
  | none =>
    have inValue : realm.Works false (return value) fun world e => ∀ wide : World,
        (∀ name, world name → wide name) → Meets realm.stem wide (exprUses value) →
          Meets realm.stem wide (exprUses e) :=
      .pure fun _ _ _ _ inValue => inValue
    apply (works_plainAssignment _ ⟨span, false⟩ inBinding.assigned inValue).bind
    intro e
    apply Works.pure
    intro world _ shown wide grows inValue
    simpa [stmtShapeUses] using (shown wide grows inValue).plus
  | some keyword =>
    apply (works_requireKeyword span keyword).andThen
    intro _
    apply (works_declared inBinding).bind
    intro pattern
    apply (works_finishDeclarators [⟨pattern, some value⟩]).bind
    intro declarators
    apply Works.pure
    intro world _ shown inPattern wide grows inValue
    rw [stmtUses_mk, stmtShapeUses, stmtNames_mk, stmtShapeNames, if_neg (by simp)]
    apply shown wide grows
    exact List.forall_mem_singleton.mpr ⟨meets_binding pattern inPattern, inValue⟩

/-- A loop that stays one needs what its parts do. -/
theorem works_nativeLoop (span : Span) (isAwait : Bool) (keyword : Option DeclKeyword)
    {binding : PatternForms} {subject : Lower Expr} {body : StmtForms}
    (inBinding : realm.WorksPattern binding) (inSubject : realm.WorksExpr subject)
    (inBody : realm.WorksStmtForms body) :
    realm.Works false (nativeLoop span isAwait keyword binding subject body) fun world stmt =>
      Meets realm.stem world (stmtUses stmt) := by
  apply (works_loopBinding keyword inBinding).bind
  intro pattern
  apply inSubject.bind
  intro subject
  apply (works_single inBody).bind
  intro body
  apply Works.pure
  intro world _ inBody inSubject inPattern
  -- The loop is a scope that holds its binding, and its body is one inside of it.
  rw [stmtUses_mk, stmtShapeUses, meets_enclosed, meets_append, meets_append, meets_enclosed]
  exact ⟨inPattern.plus, inSubject.plus, Meets.mono inBody (World.plus_mono (fun _ => .inl) fun _ => id)⟩

/-- A loop that waits for each value without syntax for it needs what its parts do, besides its own
names. -/
theorem works_awaitingLoop (span : Span) (names : LoopNames) (subject : Expr) (body : List Stmt) :
    realm.Works false (awaitingLoop span names subject body) fun world stmt =>
      (∀ name ∈ [names.iter, names.more, names.temp, names.error], Writable realm.stem name) →
      Meets realm.stem world (exprUses subject) →
      Meets realm.stem ((world.plus realm.stem [names.iter, names.more, names.temp, names.error]).plus
        realm.stem (stmtsNames false body)) (stmtsUses body) →
      Meets realm.stem (world.plus realm.stem (stmtNames false stmt)) (stmtUses stmt) := by
  unfold awaitingLoop
  extract_lets iter more temp error keep rethrow
  apply (works_awaited span _).bind
  intro step
  apply (works_awaited span _).bind
  intro closing
  extract_lets isDone loop close finish
  apply Works.pure
  intro world grounds inClosing inStep writable inSubject inBody
  simp only [List.mem_cons, List.not_mem_nil, or_false, forall_eq_or_imp, forall_eq] at writable
  obtain ⟨isIter, isMore, isTemp, isError⟩ := writable
  let own := [names.iter, names.more, names.temp, names.error]
  let wide := world.plus realm.stem own
  -- The four names are declared by the loop itself, so they are bound in all of its parts.
  have iterBound : wide names.iter := .inr ⟨by simp [own], isIter⟩
  have moreBound : wide names.more := .inr ⟨by simp [own], isMore⟩
  have tempBound : wide names.temp := .inr ⟨by simp [own], isTemp⟩
  have errorBound : wide names.error := .inr ⟨by simp [own], isError⟩
  have runs : wide "__forAwait" := .inl (grounds.runtime _ (by decide))
  have inStep : Meets realm.stem wide (exprUses step) :=
    inStep wide (fun _ => .inl) (by simpa [iter] using iterBound)
  have inClosing : Meets realm.stem wide (exprUses closing) :=
    inClosing wide (fun _ => .inl) (by simpa [iter, temp] using ⟨tempBound, iterBound⟩)
  have inLoop : Meets realm.stem wide (stmtUses loop) := by
    rw [stmtUses_mk, stmtShapeUses, meets_enclosed]
    apply Meets.plus
    have inDeclarators : Meets realm.stem wide (exprUses subject) := inSubject.plus
    have inBlock : Meets realm.stem wide (stmtUses (.block span body)) := by
      rwa [stmtUses_block, meets_enclosed]
    simp only [meets_append, meets_enclosed]
    refine ⟨?_, ?_, ?_, inBlock.plus⟩
    · simpa [declaratorsUses, optionUses, isIter, isMore, isTemp, isError, runs] using inDeclarators
    · simpa [optionUses, isDone, more, temp, moreBound, tempBound] using inStep
    · simpa [optionUses, more] using moreBound
  have inKeep : Meets realm.stem wide (stmtUses keep) := by
    simpa [keep, error, temp] using ⟨errorBound, tempBound⟩
  have inFinish : Meets realm.stem wide (stmtUses finish) := by
    have inClose : Meets realm.stem wide (exprUses close) := by
      simpa [close, more, temp, iter, moreBound, tempBound, iterBound] using inClosing
    have inRethrow : Meets realm.stem wide (stmtUses rethrow) := by
      simpa [rethrow, error, stmtShapeUses, stmtShapeNames] using errorBound
    rw [stmtUses_mk, stmtShapeUses, blockUses, blockUses, meets_append, meets_enclosed, meets_enclosed]
    simpa using ⟨inClose, inRethrow.plus⟩
  have whole : Meets realm.stem wide (stmtShapeUses (.tryCatchFinally ⟨span, [loop]⟩
      (some (.id span names.temp)) ⟨span, [keep]⟩ ⟨span, [finish]⟩)) := by
    simp only [stmtShapeUses, blockUses, meets_append, meets_enclosed, stmtsUses_cons, stmtsUses_nil,
      List.append_nil, patternOptionUses, patternUses_name, meets_cons, makesSense_fixed, meets_nil, and_true]
    exact ⟨inLoop.plus, ⟨isTemp, inKeep.plus.plus⟩, inFinish.plus⟩
  rw [stmtUses_mk]
  -- What the statement binds are the four names and those of the body: a block of a `try` is no
  -- barrier to a `var`.
  refine whole.mono (World.plus_mono (fun _ => id) fun name isOwn => ?_)
  have names : blockNames ⟨span, [loop]⟩ = own ++ stmtsNames true body := by
    simp [blockNames, loop, stmtShapeNames, own]
  simp only [stmtNames_mk, stmtShapeNames, names, List.mem_append]
  exact .inl (.inl (.inl isOwn))

/-- A loop that waits for each value needs what its parts do, besides its own names. -/
theorem works_forAwaitLoop (span : Span) (keyword : Option DeclKeyword) {binding : PatternForms}
    {subject : Lower Expr} {body : StmtForms} (inBinding : realm.WorksPattern binding)
    (inSubject : realm.WorksExpr subject) (inBody : realm.WorksStmtForms body) :
    realm.Works false (forAwaitLoop span keyword binding subject body) fun world stmt =>
      Meets realm.stem (world.plus realm.stem (stmtNames false stmt)) (stmtUses stmt) := by
  have native (isAwait : Bool) :
      realm.Works false (nativeLoop span isAwait keyword binding subject body) fun world stmt =>
        Meets realm.stem (world.plus realm.stem (stmtNames false stmt)) (stmtUses stmt) :=
    (works_nativeLoop span isAwait keyword inBinding inSubject inBody).weaken fun _ _ _ => Meets.plus
  unfold forAwaitLoop
  apply works_here.andThen
  intro owner
  apply (works_supports .forAwait).andThen
  intro isNative
  apply (works_lacks .topLevelAwait).andThen
  intro lacksAwait
  -- The loop stays as it is, becomes one that steps by hand, or is reported, as the target and the
  -- place say.
  apply Works.ite
  · intro _
    apply works_read.andThen
    intro setting
    apply Works.ite
    · exact fun _ => native false
    · exact fun _ => (works_report span _).andThen fun _ => native true
  · intro _
    apply Works.ite
    · intro _
      have named (base : String) {c : Char} (head : base.toList.head? = some c) (other : c ≠ '\x00') :
          realm.Works false (allocNamedBound base) fun _ name => Writable realm.stem name :=
        works_allocNamedBound (writable_of_head head other)
      apply (named "iter" rfl (by decide)).bind
      intro iter
      apply (named "more" rfl (by decide)).bind
      intro more
      apply (named "temp" rfl (by decide)).bind
      intro temp
      apply (named "error" rfl (by decide)).bind
      intro error
      extract_lets names value
      apply inSubject.bind
      intro subject
      apply (works_bindValue span keyword value inBinding).bind
      intro first
      apply inBody.unbraced.wider.bind
      intro stmts
      apply (works_awaitingLoop span names subject (first :: stmts)).weaken
      intro world _ loop shown inStmts inFirst inSubject isError isTemp isMore isIter
      apply shown
      · simp [names, isIter, isMore, isTemp, isError]
      · exact inSubject
      · -- The first statement binds the value, and those of the body are behind it.
        have grows (name : String) (isBound : world name) :
            world.plus realm.stem [names.iter, names.more, names.temp, names.error] name :=
          .inl isBound
        have tempBound : world.plus realm.stem [names.iter, names.more, names.temp, names.error] temp :=
          .inr ⟨by simp [names], isTemp⟩
        rw [stmtsUses_cons, stmtsNames_cons, meets_append]
        constructor
        · refine (inFirst _ grows (by simpa [value, names] using tempBound)).mono ?_
          exact World.plus_mono (fun _ => id) fun _ => List.mem_append_left _
        · refine (inStmts _ grows).mono ?_
          exact World.plus_mono (fun _ => id) fun _ => List.mem_append_right _
    · intro _
      exact .when (works_unsupported _ _) (native true)

end Loops

end Realm

end Downlevel
