import Downlevel.Proofs.Formed
import Downlevel.Proofs.Forms
import Downlevel.Proofs.Scoping.Statements

/-! The forms that are put together from those of the parts work, if those of the parts do. The nodes
of a source have names that can be written and are known, and nothing stands where the parser would
not put it. -/

namespace Downlevel

open Lowering

namespace Realm

variable {realm : Realm} {origin : Origin} {link : ChainLink} {object key callee : ExprForms}

/-- An expression outside of any chain that is no place. -/
theorem worksForms_plain {source : Expr} {value : Lower Expr} (noChain : source.isChained = false)
    (inValue : realm.WorksExpr value) : realm.WorksForms (plainForms source value) where
  value := inValue
  target := inValue
  place := trivial
  natively := inValue
  base _ isBase := by cases isBase
  links _ mem := by cases mem
  whole _ isChained := by
    rw [show (plainForms source value).source = source from rfl, noChain] at isChained
    cases isChained

/-- A pattern on the left side of an assignment. -/
theorem worksForms_assignedPattern {source : Expr} {target : Lower Expr}
    (noChain : source.isChained = false) (inTarget : realm.WorksExpr target) :
    realm.WorksForms (assignedPattern source target) :=
  worksForms_plain noChain inTarget

/-- A name that the source has. -/
theorem worksForms_name {name : String} (isGiven : realm.given name) :
    realm.WorksForms (nameForms origin name) := by
  have own : realm.WorksExpr (return ⟨origin, .id name⟩) := by
    apply Works.pure
    intro world grounds
    simpa [exprUses, shapeUses] using grounds.given name isGiven
  -- Outside `arguments` the name is given, and so it stays.
  have inValue : realm.WorksExpr (nameForms origin name).value := by
    apply Works.ite
    · exact fun _ => own
    · intro _
      apply works_resolveArguments.bind
      intro found
      cases found with
      | none => exact own.weaken fun _ _ _ meets _ => meets
      | some other => exact .pure fun _ _ isBound => by simpa using isBound
  exact {
    value := inValue
    target := own
    place := isGiven
    natively := inValue
    base _ isBase := by cases isBase
    links _ mem := by cases mem
    whole _ isChained := by cases isChained }

section Links

/-- A link goes on with a chain, unless the source is broken. -/
def GoesOn (realm : Realm) (link : ChainLink) (object : Expr) : Prop :=
  link = .continues → realm.isClean → object.isChained = true

/-- The object of a link that stays works. -/
theorem works_nativeObject (inObject : realm.WorksForms object) :
    realm.WorksExpr (nativeObject link object) := by
  apply Works.ite
  · exact fun _ => inObject.natively
  · exact fun _ => inObject.value

/-- A chain that goes on, or starts, with one more link works. -/
theorem worksChain_on {part : LinkForms} {forms : ExprForms}
    (isChain : forms.chain = chainOn link object part) (goesOn : realm.GoesOn link object.source)
    (inObject : realm.WorksForms object) (inPart : realm.WorksLink part)
    (natively : realm.WorksExpr forms.natively) : realm.WorksChain forms := by
  have starts : realm.WorksBase ⟨object.source, object.value, splitCallee object⟩ :=
    ⟨inObject.value, works_splitCallee inObject⟩
  -- The chain goes on with the object's links, or starts at the object.
  by_cases continues : link = .continues
  · rw [chainOn, if_pos continues] at isChain
    refine ⟨natively, ?_, ?_, ?_⟩
    · rw [isChain]
      exact inObject.base
    · rw [isChain]
      exact List.forall_mem_append.mpr ⟨inObject.links, List.forall_mem_singleton.mpr inPart⟩
    · intro isClean _
      rw [isChain]
      exact inObject.whole isClean (goesOn continues isClean)
  · rw [chainOn, if_neg continues] at isChain
    refine ⟨natively, ?_, ?_, ?_⟩
    · rw [isChain]
      rintro base ⟨⟩
      exact starts
    · rw [isChain]
      exact List.forall_mem_singleton.mpr inPart
    · intro _ _
      rw [isChain]
      rfl

/-- The value of a link is that of its chain if it is part of one. -/
theorem works_linkValue {forms : ExprForms} (isLink : forms.source.isChained = link.isChained)
    (inChain : realm.WorksChain forms)
    (inValue : realm.WorksExpr forms.value) : realm.WorksExpr (linkForms link forms).value := by
  unfold linkForms
  split
  · rename_i isChained
    apply Works.map
    apply (works_optionalChain inChain (isLink.trans isChained) .value).weaken
    exact fun _ _ _ callee => callee.function
  · exact inValue

/-- A link works if its other forms do. -/
theorem worksForms_link {forms : ExprForms} (isLink : forms.source.isChained = link.isChained)
    (inChain : realm.WorksChain forms) (inValue : realm.WorksExpr forms.value)
    (target : realm.WorksExpr forms.target) (place : realm.WorksPlace forms.place) :
    realm.WorksForms (linkForms link forms) := by
  have value := works_linkValue isLink inChain inValue
  unfold linkForms at value ⊢
  split
  · rw [if_pos ‹_›] at value
    exact ⟨⟨inChain.natively, inChain.base, inChain.links, inChain.whole⟩, value, target, place⟩
  · rw [if_neg ‹_›] at value
    exact ⟨inChain, value, target, place⟩

/-- A private name that is replaced turns the access into a call. -/
theorem worksExpr_private {name : String} {value kept : Lower Expr}
    {wrap : PrivateBinding → Expr → Expr} (inValue : realm.WorksExpr value)
    (inKept : realm.WorksExpr kept)
    (inWrap : ∀ {world : World} {binding : PrivateBinding} {e : Expr}, realm.Grounds world →
      Binds world binding → Meets realm.stem world (exprUses e) →
      Meets realm.stem world (exprUses (wrap binding e))) :
    realm.WorksExpr (do
      match ← privateBinding? name with
      | some binding => return wrap binding (← value)
      | none => kept) := by
  apply (works_privateBinding? name).bind
  intro binding
  cases binding with
  | none => exact inKept.weaken fun _ _ _ meets _ => meets
  | some binding =>
    apply inValue.bind
    intro e
    exact .pure fun _ grounds inValue binds => inWrap grounds (binds binding rfl) inValue

/-- A member access, be the name private or not. -/
theorem worksForms_member {name : String} (goesOn : realm.GoesOn link object.source)
    (inObject : realm.WorksForms object) :
    realm.WorksForms (memberForms origin link object name) := by
  have kept {inner : Lower Expr} (inInner : realm.WorksExpr inner) :
      realm.WorksExpr (do return ⟨origin, .member link (← inner) name⟩) := by
    apply inInner.bind
    intro e
    exact .pure fun _ _ meets => by rwa [exprUses, shapeUses]
  -- The three forms, in turn: the access as written, the value, and the target; a private name is
  -- read or written through its helper.
  refine worksForms_link ?_ ?_ ?_ ?_ ?_
  · rfl
  · exact worksChain_on rfl goesOn inObject trivial (kept (works_nativeObject inObject))
  · exact worksExpr_private inObject.value (kept inObject.value) meets_read
  · exact worksExpr_private inObject.value (kept inObject.value) meets_wrapper
  · exact inObject.value

/-- A computed member access. -/
theorem worksForms_computed (goesOn : realm.GoesOn link object.source)
    (inObject : realm.WorksForms object) (inKey : realm.WorksExpr key.value) :
    realm.WorksForms (computedForms origin link object key) := by
  have kept {inner : Lower Expr} (inInner : realm.WorksExpr inner) :
      realm.WorksExpr (do
        let object ← inner
        return ⟨origin, .computed link object (← key.value)⟩) := by
    apply inInner.bind
    intro e
    apply inKey.bind
    intro index
    apply Works.pure
    intro world _ inIndex inObject
    rw [exprUses, shapeUses, meets_append]
    exact ⟨inObject, inIndex⟩
  -- In all of its forms the access keeps an object and a key; only how the object is kept differs.
  refine worksForms_link ?_ ?_ ?_ ?_ ?_
  · rfl
  · exact worksChain_on rfl goesOn inObject inKey (kept (works_nativeObject inObject))
  · exact kept inObject.value
  · exact kept inObject.value
  · exact ⟨inObject.value, inKey⟩

/-- A call, whose callee may need a receiver of its own. -/
theorem worksForms_call (isPure : Bool) (source : List Arg) {args : Lower (List Arg)}
    (goesOn : realm.GoesOn link callee.source) (inCallee : realm.WorksForms callee)
    (inArgs : realm.Works false args fun world args => Meets realm.stem world (argsUses args)) :
    realm.WorksForms (callForms origin link isPure callee source args) := by
  let forms := callLink origin link isPure callee source args
  -- The parts of the call serve all of its forms, with a receiver in front where the callee has
  -- one.
  have called {world : World} {function : Expr} {args : List Arg}
      (inFunction : Meets realm.stem world (exprUses function))
      (inArgs : Meets realm.stem world (argsUses args)) :
      Meets realm.stem world (exprUses ⟨origin, .call link isPure function args⟩) := by
    rw [exprUses, shapeUses, meets_append]
    exact ⟨inFunction, inArgs⟩
  have natively : realm.WorksExpr forms.natively := by
    apply (works_nativeObject inCallee).bind
    intro function
    apply inArgs.bind
    intro args
    exact .pure fun _ _ inArgs inFunction => called inFunction inArgs
  have inChain : realm.WorksChain forms := worksChain_on rfl goesOn inCallee inArgs natively
  have inValue : realm.WorksExpr forms.value := by
    apply (works_calledExpr inCallee).bind
    rintro ⟨function, receiver⟩
    apply inArgs.bind
    intro args
    cases receiver with
    | none => exact .pure fun _ _ inArgs parts => called parts.function inArgs
    | some receiver =>
      apply Works.pure
      intro world _ inArgs parts
      rw [exprUses_callWithThis, meets_append, meets_append]
      exact ⟨parts.function, parts.receiver receiver rfl, inArgs⟩
  have whole : realm.WorksForms (linkForms link forms) :=
    worksForms_link rfl inChain inValue inValue trivial
  exact ⟨⟨whole.natively, whole.base, whole.links, whole.whole⟩, whole.value, whole.value, whole.place⟩

end Links

/-- What a delegating `yield` hands out needs what the operand does, marked or not. -/
theorem works_delegated (span : Span) (operand : Expr) :
    realm.Works false (delegated span operand) fun world e =>
      Meets realm.stem world (exprUses operand) → Meets realm.stem world (exprUses e) := by
  apply works_here.andThen
  intro owner
  apply Works.ite
  · intro _
    apply Works.pure
    intro world grounds inOperand
    simpa [inOperand] using grounds.runtime "__yieldStar" (by decide)
  · exact fun _ => .pure fun _ _ => id

end Realm

/-- What a member declares if its key is a private name; generated accessors are accessors. -/
def MemberValue.declaredKind? : MemberValue → Option PrivateKind
  | .field _ => some .field
  | .method _ => some .method
  | .getter _ | .setter _ | .accessor _ => some .accessor
  | .staticBlock _ => none

/-- No private name is declared by members of two kinds. -/
def OneKindEach (members : List ClassMember) : Prop :=
  ∀ first ∈ members, ∀ second ∈ members, ∀ name ∈ first.key.privateName?,
    second.key.privateName? = some name → ∀ kind ∈ first.value.declaredKind?,
      ∀ other ∈ second.value.declaredKind?, kind = other

/-- A member of a class: private names do not look like placeholders, and methods are written with
braces. -/
structure ClassMember.Fits (member : ClassMember) : Prop where
  plain : ∀ name ∈ member.key.privateName?, PlainPrivate name
  isMethod : ∀ func ∈ member.value.func?, func.isArrow = false ∧ func.body.isBlock = true

namespace Realm

variable (realm : Realm)

/-- A class: its name can be written, its members fit, and without clashes they agree on the kinds of
private names. -/
structure AdmitsClass (name : Option String) (members : List ClassMember) : Prop where
  writable : ∀ own ∈ name, Writable realm.stem own
  fits : ∀ member ∈ members, member.Fits
  agree : realm.isClean → OneKindEach members

/-- What a node of the source is like. -/
def AdmitsNode : Node → Prop
  | .shape (.id name) => realm.given name
  | .shape (.function name _) => ∀ own ∈ name, Writable realm.stem own
  | .shape (.classExpr name _ members) => realm.AdmitsClass name members
  | .shape (.call link _ object _) | .shape (.computed link object _) | .shape (.member link object _) =>
    realm.GoesOn link object
  | .param param => hasTarget param.pattern = false
  | .pattern (.id _ name) => realm.given name ∧ Writable realm.stem name
  | .objectMember (.valued _ _ value) => value.isOfObject = true
  | .objectMember (.shorthand _ name) => realm.given name
  | .stmt (.label name _) => Writable realm.stem name
  | .stmt (.breakTo label) | .stmt (.continueTo label) => ∀ own ∈ label, Writable realm.stem own
  | .stmt (.classDecl _ name _ members) => realm.AdmitsClass name members
  | .stmt (.functionDecl _ name _) => ∀ own ∈ name, Writable realm.stem own
  | .stmt (.exportNames names _) => Meets realm.stem (fun _ => False) (exportUses names)
  | .stmt (.importNames default names _) =>
    Meets realm.stem (fun _ => False) (nameUses default ++ importUses names)
  | _ => True

/-- All nodes of a tree are of the source. -/
def Given (nodes : List Occurrence) : Prop :=
  ∀ found ∈ nodes, realm.AdmitsNode found.node

section

variable {realm : Realm} {node : Node} {nodes more : List Occurrence} {site : Site}

/-- Of no nodes nothing needs to be known. -/
@[simp] theorem given_nil : realm.Given [] :=
  List.forall_mem_nil _

/-- What is known of the first node, and of the others. -/
@[simp] theorem given_cons :
    realm.Given (.here node :: nodes) ↔ realm.AdmitsNode node ∧ realm.Given nodes :=
  List.forall_mem_cons

/-- What is known of two lists is known of each. -/
@[simp] theorem given_append :
    realm.Given (nodes ++ more) ↔ realm.Given nodes ∧ realm.Given more :=
  List.forall_mem_append

/-- Where the nodes run makes no difference. -/
@[simp] theorem given_into : realm.Given (nodes.map (.into site)) ↔ realm.Given nodes :=
  List.forall_mem_map

end

end Realm

end Downlevel
