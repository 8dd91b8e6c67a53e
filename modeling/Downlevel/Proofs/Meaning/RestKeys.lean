import Downlevel.Lowering.ObjectRest
import Downlevel.Proofs.StateSteps
import Downlevel.Proofs.Meaning.Simulation

/-! What is left out of the rest of an object: one key for each property that the pattern picks,
with the value that the key has there. -/

namespace Downlevel

open Lowering

/-- What becomes of a property of a pattern once the rest is split off, and the key that is left out
of the rest. -/
inductive LeftOut : PatternProperty → PatternProperty × Expr → Prop
  | named {property : PatternProperty} {name : KeyName} (isKey : property.key = .direct name) :
    LeftOut property (property, .str property.span name.text)
  | literal {property : PatternProperty} {value : Expr} (isKey : property.key = .computed value)
    (isLiteral : (∃ text, value.shape = .str text) ∨ ∃ text, value.shape = .num text) :
    LeftOut property (property, value)
  | repeated {property : PatternProperty} {value : Expr} (isKey : property.key = .computed value)
    (reusable : isReusable value = true) :
    LeftOut property (property, .helper property.span "__restKey" [value])
  | captured {property : PatternProperty} {value : Expr} (isKey : property.key = .computed value)
    (name : String) :
    LeftOut property
      ({ property with key := .computed (.assign value.span (.id value.span name) value) },
        .helper property.span "__restKey" [.id value.span name])

/-- What is left of a pattern, and the rest without its keys, both taken from the same source. -/
def splitParts (span : Span) (rest : Pattern) (source : Expr)
    (parts : List (PatternProperty × Expr)) : List (Pattern × Expr) :=
  let taken := .helper span "__objRest" [source, .array span (parts.map Prod.snd)]
  if parts.isEmpty then [(rest, taken)]
  else [(.object span (parts.map Prod.fst) none, source), (rest, taken)]

namespace Lowering

variable {span : Span} {properties : List PatternProperty} {rest : Pattern}

/-- What is captured can be repeated, or is assigned to a made-up name. -/
theorem ensures_capture (e : Expr) : Ensures (capture e) fun pair =>
    (isReusable e = true ∧ pair = (e, e))
      ∨ ∃ name, pair = (.assign e.span (.id e.span name) e, .id e.span name) := by
  unfold capture
  split
  · rename_i reusable
    exact .done (.inl ⟨reusable, rfl⟩)
  · exact .next fun name => .done (.inr ⟨name, rfl⟩)

/-- Exactly one key is left out of the rest for each property. -/
theorem ensures_restKeys (properties : List PatternProperty) :
    Ensures (restKeys properties) fun pair => ∃ parts,
      List.Forall₂ LeftOut properties parts
        ∧ pair = (parts.map Prod.fst, parts.map Prod.snd) := by
  induction properties with
  | nil => exact .done ⟨[], .nil, rfl⟩
  | cons property more ih =>
    -- Each key is turned into one that can be read again, and the others come behind it.
    have later {first : PatternProperty} {key : Expr} (leftOut : LeftOut property (first, key)) :
        Ensures (do
          let pair ← restKeys more
          return (first :: pair.1, key :: pair.2)) fun pair => ∃ parts,
            List.Forall₂ LeftOut (property :: more) parts
              ∧ pair = (parts.map Prod.fst, parts.map Prod.snd) := by
      refine ih.bind fun pair made => .done ?_
      obtain ⟨parts, related, rfl⟩ := made
      exact ⟨(first, key) :: parts, .cons leftOut related, rfl⟩
    obtain ⟨span, key, target, isShorthand, default⟩ := property
    rw [restKeys]
    cases key with
    | direct name => exact later (.named rfl)
    | computed value =>
      dsimp only
      split
      · rename_i text shape
        exact later (.literal rfl (.inl ⟨text, shape⟩))
      · rename_i text shape
        exact later (.literal rfl (.inr ⟨text, shape⟩))
      · refine .bind (ensures_capture value) fun pair isCaptured => ?_
        obtain ⟨reusable, rfl⟩ | ⟨name, rfl⟩ := isCaptured
        · exact later (.repeated rfl reusable)
        · exact later (.captured rfl name)

/-- A pattern is split into what is picked and a call that leaves out the keys. -/
theorem ensures_splitRest (source : Expr) :
    Ensures (splitRest span properties rest source) fun split => ∃ parts,
      List.Forall₂ LeftOut properties parts ∧ split = splitParts span rest source parts := by
  unfold splitRest
  refine .bind (ensures_restKeys properties) fun pair made => ?_
  obtain ⟨parts, related, rfl⟩ := made
  dsimp only
  split
  · rename_i isEmpty
    exact .done ⟨parts, related, by simp_all [splitParts]⟩
  · rename_i picks
    exact .done ⟨parts, related, by simp_all [splitParts]⟩

/-- A declared pattern with a rest reads its source twice: a new name that holds the initial value,
or the initial value itself if it is a name or if nothing is picked in front of the rest. -/
theorem ensures_splitDeclarator {init : Expr} (flat : hasNestedRest properties rest = false) :
    Ensures (splitDeclarator ⟨.object span properties (some rest), some init⟩) fun split =>
      ∃ source parts, List.Forall₂ LeftOut properties parts
        ∧ let read := (splitParts span rest source parts).map fun (target, value) =>
            (⟨target, some value⟩ : Declarator)
          (split = read ∧ source = init ∧ (properties = [] ∨ ∃ name, init.shape = .id name))
            ∨ ∃ name, source = .id span name ∧ split = .ofName span name (some init) :: read := by
  unfold splitDeclarator
  dsimp only
  rw [if_neg (by simp [flat])]
  -- A value is read from where it is only if it is a name or nothing is picked.
  split
  · rename_i name isName
    rw [if_pos (by simp)]
    refine .bind (ensures_splitRest init) fun split made => ?_
    obtain ⟨parts, related, rfl⟩ := made
    exact .done ⟨init, parts, related, .inl ⟨rfl, rfl, .inr ⟨name, isName⟩⟩⟩
  · split
    · rename_i isEmpty
      have picksNothing : properties = [] := by simpa using isEmpty
      refine .bind (ensures_splitRest init) fun split made => ?_
      obtain ⟨parts, related, rfl⟩ := made
      exact .done ⟨init, parts, related, .inl ⟨rfl, rfl, .inl picksNothing⟩⟩
    · refine .next fun name => .bind (ensures_splitRest (.id span name)) fun split made => ?_
      obtain ⟨parts, related, rfl⟩ := made
      exact .done ⟨.id span name, parts, related, .inr ⟨name, rfl, rfl⟩⟩

/-- The pattern of `{ a, ...b } = c`. -/
theorem ensures_splitDeclarator_shorthand :
    let picked : PatternProperty :=
      ⟨⟨2, 3⟩, .direct ⟨⟨2, 3⟩, "a", .identifier⟩, .id ⟨2, 3⟩ "a", true, none⟩
    let rest : Pattern := .id ⟨8, 9⟩ "b"
    let init := Expr.id ⟨14, 15⟩ "c"
    hasNestedRest [picked] rest = false
      ∧ Ensures (splitDeclarator ⟨.object ⟨0, 11⟩ [picked] (some rest), some init⟩) fun split =>
        ∃ source parts, List.Forall₂ LeftOut [picked] parts
          ∧ let read := (splitParts ⟨0, 11⟩ rest source parts).map fun (target, value) =>
              (⟨target, some value⟩ : Declarator)
            (split = read ∧ source = init ∧ ([picked] = [] ∨ ∃ name, init.shape = .id name))
              ∨ ∃ name, source = .id ⟨0, 11⟩ name
                ∧ split = .ofName ⟨0, 11⟩ name (some init) :: read := by
  intro picked rest init
  have flat : hasNestedRest [picked] rest = false := rfl
  exact ⟨flat, ensures_splitDeclarator flat⟩

/-- An assigned pattern with a rest reads its source from a new name that is assigned before, and
which is also the value of the whole. -/
theorem ensures_splitAssignedRest? {value : Expr} (flat : hasNestedRest properties rest = false) :
    Ensures (splitAssignedRest? span properties (some rest) value) fun made =>
      ∃ name parts, List.Forall₂ LeftOut properties parts
        ∧ let source := Expr.id span name
          let read := (splitParts span rest source parts).map fun (target, value) =>
            .assign span target.toExpr value
          made = some (.sequence (.assign span source value) (read ++ [source])) := by
  unfold splitAssignedRest?
  dsimp only
  rw [if_neg (by simp [flat])]
  refine .next fun name => .bind (ensures_splitRest (.id span name)) fun split made => ?_
  obtain ⟨parts, related, rfl⟩ := made
  exact .done ⟨name, parts, related, rfl⟩

/-- A pattern that is only a rest, assigned from a call. -/
theorem ensures_splitAssignedRest?_only :
    let rest : Pattern := .id ⟨4, 5⟩ "a"
    let value := Expr.call ⟨9, 12⟩ (.id ⟨9, 10⟩ "b") []
    hasNestedRest [] rest = false
      ∧ Ensures (splitAssignedRest? ⟨0, 7⟩ [] (some rest) value) fun made =>
        ∃ name parts, List.Forall₂ LeftOut [] parts
          ∧ let source := Expr.id ⟨0, 7⟩ name
            let read := (splitParts ⟨0, 7⟩ rest source parts).map fun (target, value) =>
              .assign ⟨0, 7⟩ target.toExpr value
            made = some (.sequence (.assign ⟨0, 7⟩ source value) (read ++ [source])) := by
  intro rest value
  have flat : hasNestedRest [] rest = false := rfl
  exact ⟨flat, ensures_splitAssignedRest? flat⟩

end Lowering

namespace Meaning

variable {W : World}

/-- What a key that is left out of a rest comes to where the rest is taken: nothing but atoms is
evaluated for it. -/
def restKeyValue (vars : Vars W) (key : Expr) : W.Value :=
  match key.shape with
  | .call _ _ _ [⟨_, value⟩] => readAtom vars value
  | _ => readAtom vars key

/-- The names that a key that is left out of a rest is read from. -/
def isReadFrom (key : Expr) (name : String) : Prop :=
  match key.shape with
  | .call _ _ _ [⟨_, value⟩] => value.shape = .id name
  | _ => False

/-- An evaluation with a result has got one from its first part. -/
theorem eq_value_of_bind {α β : Type} {first : Run W α} {rest : α → Run W β} {result : β}
    {memory after : Memory W} (run : (first >>= rest) memory = (.value result, after)) :
    ∃ between after', first memory = (.value between, after')
      ∧ rest between after' = (.value result, after) := by
  have whole : Run.next first rest memory = (.value result, after) := run
  unfold Run.next at whole
  split at whole
  · rename_i between after' isFirst
    exact ⟨between, after', isFirst, whole⟩
  · cases whole
  · cases whole

/-- What can be repeated leaves the variables alone. -/
theorem find_reusable {e : Expr} {vars vars' : Vars W} {hidden hidden' : W.State}
    {found : Option (Found W)} (reusable : isReusable e = true)
    (run : find e ⟨vars, hidden⟩ = (.value found, ⟨vars', hidden'⟩)) :
    vars' = vars ∧ (Found.settle found).value = readAtom vars e := by
  cases notSuper : isSuper e with
  | false =>
    rw [find_atom ⟨reusable, notSuper⟩] at run
    cases run
    exact ⟨rfl, rfl⟩
  | true =>
    -- The base class alone has no value.
    obtain ⟨origin, shape⟩ := e
    cases shape <;> cases notSuper
    simp [find, findShape, Run.unknown] at run

/-- A computed key is evaluated where it stands in the pattern, as in the source. The key left out
of the rest has the same value later on, as long as the name that it is read from holds the
same. -/
theorem restKeyValue_eq {property picked : PatternProperty} {key value : Expr} {vars vars' : Vars W}
    {hidden hidden' : W.State} {found : Option (Found W)}
    (leftOut : LeftOut property (picked, key)) (isKey : picked.key = .computed value)
    (run : find value ⟨vars, hidden⟩ = (.value found, ⟨vars', hidden'⟩)) (later : Vars W)
    (held : ∀ name, isReadFrom key name → later name = vars' name) :
    ∃ source found' vars'', property.key = .computed source
      ∧ find source ⟨vars, hidden⟩ = (.value found', ⟨vars'', hidden'⟩)
      ∧ restKeyValue later key = (Found.settle found').value := by
  -- One case per way to repeat a key: as a literal, as it is, or from where it was captured.
  cases leftOut with
  | named isDirect => simp [isDirect] at isKey
  | literal isComputed isLiteral =>
    obtain rfl : key = value := by simpa [isComputed] using isKey
    refine ⟨key, found, vars', isComputed, run, ?_⟩
    obtain ⟨origin, shape⟩ := key
    obtain ⟨text, rfl⟩ | ⟨text, rfl⟩ := isLiteral
    · exact (find_reusable rfl run).2.symm
    · exact (find_reusable rfl run).2.symm
  | repeated isComputed reusable =>
    rename_i own
    obtain rfl : own = value := by simpa [isComputed] using isKey
    obtain ⟨same, isValue⟩ := find_reusable reusable run
    refine ⟨own, found, vars', isComputed, run, isValue ▸ ?_⟩
    exact readAtom_congr fun name isName => (held name isName).trans (congrFun same name)
  | captured isComputed name =>
    rename_i source
    obtain rfl : Expr.assign source.span (.id source.span name) source = value := by
      simpa using isKey
    rw [find_assign] at run
    obtain ⟨found', ⟨vars'', hidden''⟩, evaluated, written⟩ := eq_value_of_bind run
    cases written
    refine ⟨source, found', vars'', isComputed, evaluated, ?_⟩
    exact (held name rfl).trans (if_pos rfl)

/-- A world of two values, in which every operation answers with the same one. -/
def twoValued : World where
  Value := Bool
  State := Unit
  this := true
  undefined := false
  null := false
  bool := id
  num _ := true
  str _ := true
  bigint := id
  isNullish := not
  isTrue := id
  get _ _ _ := (.ok true, ())
  set _ _ _ _ := (.ok (), ())
  delete _ _ _ := (.ok true, ())
  call _ _ _ _ := (.ok true, ())
  pow _ _ _ := (.ok true, ())
  isNullish_undefined := rfl
  isNullish_null := rfl
  isTrue_bool _ := rfl

/-- The key of `{ [a.b]: c, ...d }`, which is captured in a new name. -/
theorem restKeyValue_eq_captured :
    let source : Expr := .member ⟨3, 6⟩ (.id ⟨3, 4⟩ "a") "b"
    let property : PatternProperty := ⟨⟨2, 10⟩, .computed source, .id ⟨9, 10⟩ "c", false, none⟩
    let vars : Vars twoValued := fun _ => false
    let later : Vars twoValued := fun _ => true
    ∃ own found vars', property.key = .computed own
      ∧ find own ⟨vars, ()⟩ = (.value found, ⟨vars', ()⟩)
      ∧ restKeyValue later (.helper ⟨2, 10⟩ "__restKey" [.id ⟨3, 6⟩ "_a"])
        = (Found.settle found).value := by
  intro source property vars later
  let kept : Vars twoValued := fun name => if name = "_a" then true else false
  have isKey : property.key = .computed source := rfl
  have run : find (.assign ⟨3, 6⟩ (.id ⟨3, 6⟩ "_a") source) ⟨vars, ()⟩
      = (.value (some (.plain true)), ⟨kept, ()⟩) := rfl
  have held (name : String)
      (isName : isReadFrom (.helper ⟨2, 10⟩ "__restKey" [.id ⟨3, 6⟩ "_a"]) name) :
      later name = kept name := by
    cases isName
    rfl
  exact restKeyValue_eq (.captured isKey "_a") rfl run later held

end Meaning

end Downlevel
