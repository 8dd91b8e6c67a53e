import Downlevel.Lowering.Function
import Downlevel.Proofs.Scoping.Chains

/-! The rest of an object is split off its pattern without asking for more around it than the pattern
does: what holds the object is bound next to it. -/

namespace Downlevel

open Lowering

namespace Realm

variable {realm : Realm} {mayBeParams : Bool} (binds : Bool)

/-- The keys that are left out need what the properties do, and so do the properties that stay. -/
theorem works_restKeys (properties : List PatternProperty) :
    realm.Works false (restKeys properties) fun world (picked, keys) =>
      Meets realm.stem world (propertiesUses binds properties) →
        Meets realm.stem world (propertiesUses binds picked)
          ∧ ∀ key ∈ keys, Meets realm.stem world (exprUses key) := by
  induction properties with
  | nil => exact .pure fun _ _ meets => ⟨meets, nofun⟩
  | cons property more ih =>
    -- Whatever becomes of the first property, the others follow in the same way.
    have tail (first : PatternProperty) (key : Expr) :
        realm.Works false
          (do
            let (properties, keys) ← restKeys more
            return (first :: properties, key :: keys)) fun world (picked, keys) =>
          (Meets realm.stem world (propertyUses binds property) →
            Meets realm.stem world (propertyUses binds first)
              ∧ Meets realm.stem world (exprUses key)) →
          Meets realm.stem world (propertiesUses binds (property :: more)) →
            Meets realm.stem world (propertiesUses binds picked)
              ∧ ∀ key ∈ keys, Meets realm.stem world (exprUses key) := by
      apply ih.bind
      rintro ⟨picked, keys⟩
      apply Works.pure
      intro world _ others own meets
      simp only [propertiesUses, meets_append, List.forall_mem_cons] at meets ⊢
      obtain ⟨inFirst, inKey⟩ := own meets.1
      obtain ⟨inPicked, inKeys⟩ := others meets.2
      exact ⟨⟨inFirst, inPicked⟩, inKey, inKeys⟩
    obtain ⟨span, key, target, isShorthand, default⟩ := property
    rw [restKeys]
    cases key with
    | direct name =>
      apply (tail _ _).weaken
      intro world _ last shown meets
      exact shown (fun meets => ⟨meets, by simp⟩) meets
    | computed value =>
      have written {world : World}
          (meets : Meets realm.stem world
            (propertyUses binds ⟨span, .computed value, target, isShorthand, default⟩)) :
          Meets realm.stem world (exprUses value) := by
        simp only [propertyUses, keyUses, meets_append] at meets
        exact meets.1
      dsimp only
      split
      · apply (tail _ _).weaken
        intro world _ last shown meets
        exact shown (fun meets => ⟨meets, written meets⟩) meets
      · apply (tail _ _).weaken
        intro world _ last shown meets
        exact shown (fun meets => ⟨meets, written meets⟩) meets
      · apply (works_capture value).bind
        rintro ⟨first, again⟩
        apply (tail ⟨span, .computed first, target, isShorthand, default⟩
          (.helper span "__restKey" [again])).weaken
        intro world grounds last shown captured meets
        refine shown (fun meets => ?_) meets
        obtain ⟨once, later⟩ := captured (written meets)
        have restKey := grounds.runtime "__restKey" (by decide)
        refine ⟨?_, by simp [restKey, later]⟩
        simp only [propertyUses, keyUses, meets_append] at meets ⊢
        exact ⟨once, meets.2⟩

/-- The parts that a pattern with a rest is split into need what the pattern does, and their values
need what holds the object. -/
theorem works_splitRest (span : Span) (properties : List PatternProperty) (rest : Pattern)
    (source : Expr) :
    realm.Works false (splitRest span properties rest source) fun world parts =>
      Meets realm.stem world (propertiesUses binds properties) →
      Meets realm.stem world (patternUses binds rest) →
      ∀ wide : World, (∀ name, world name → wide name) → Meets realm.stem wide (exprUses source) →
      ∀ part ∈ parts, Meets realm.stem world (patternUses binds part.1)
        ∧ Meets realm.stem wide (exprUses part.2) := by
  apply (works_restKeys binds properties).bind
  rintro ⟨picked, keys⟩
  -- The helper takes the source without the keys, so it uses the source and the keys.
  have taken {world wide : World} (grounds : realm.Grounds world)
      (grows : ∀ name, world name → wide name)
      (inKeys : ∀ key ∈ keys, Meets realm.stem world (exprUses key))
      (inSource : Meets realm.stem wide (exprUses source)) :
      Meets realm.stem wide
        (exprUses (.helper span "__objRest" [source, .array span keys])) := by
    have objRest := grows _ (grounds.runtime "__objRest" (by decide))
    simpa [objRest, inSource] using fun key mem => (inKeys key mem).mono grows
  -- Without properties before it the rest takes the whole source; otherwise the source is used
  -- twice, under its name.
  apply Works.ite
  · intro _
    apply Works.pure
    intro world grounds meets inProperties inRest wide grows inSource part mem
    obtain rfl := List.mem_singleton.mp mem
    exact ⟨inRest, taken grounds grows (meets inProperties).2 inSource⟩
  · intro _
    apply Works.pure
    intro world grounds meets inProperties inRest wide grows inSource part mem
    obtain ⟨inPicked, inKeys⟩ := meets inProperties
    simp only [List.mem_cons, List.not_mem_nil, or_false] at mem
    rcases mem with rfl | rfl
    · refine ⟨?_, inSource⟩
      simpa [patternUses, patternOptionUses] using inPicked
    · exact ⟨inRest, taken grounds grows inKeys inSource⟩

/-- A pattern with its rest split off needs what the pattern and the value do. -/
theorem works_splitAssignedRest? (span : Span) (properties : List PatternProperty)
    (rest : Option Pattern) (value : Expr) :
    realm.Works false (splitAssignedRest? span properties rest value) fun world split =>
      Meets realm.stem world (propertiesUses false properties) →
      Meets realm.stem world (patternOptionUses false rest) →
      ∀ wide : World, (∀ name, world name → wide name) → Meets realm.stem wide (exprUses value) →
      ∀ e ∈ split, Meets realm.stem wide (exprUses e) := by
  unfold splitAssignedRest?
  -- Without a rest nothing is split; a rest that cannot be split is reported; any other is split on
  -- a name for the value.
  cases rest with
  | none =>
    apply Works.when
    · exact works_unsupported span _
    · exact .pure fun _ _ _ _ _ _ _ => nofun
  | some rest =>
    apply Works.ite
    · intro _
      apply (works_unsupported span _).andThen
      exact fun _ => .pure fun _ _ _ _ _ _ _ => nofun
    · intro _
      apply works_alloc.bind
      intro name
      apply (works_splitRest false span properties rest _).bind
      intro parts
      apply Works.pure
      intro world _ inParts known inProperties inRest wide grows inValue
      have named := grows name known.2
      have split := inParts inProperties (by simpa [patternOptionUses] using inRest) wide grows
        (by simpa using named)
      simp only [Option.mem_def, Option.some.injEq, forall_eq', exprUses_sequence, meets_append,
        meets_flatMap, List.mem_append, List.mem_map, List.mem_singleton]
      refine ⟨by simp [named, inValue], ?_⟩
      rintro item (⟨⟨target, part⟩, mem, rfl⟩ | rfl)
      · obtain ⟨inTarget, inPart⟩ := split _ mem
        have inTarget := (exprUses_toExpr inTarget).mono grows
        simp [inTarget, inPart]
      · simpa using named

/-- What a declarator needs: its pattern what is bound around it, its value also what is bound next
to it. -/
def MeetsDeclarator (stem : String) (world wide : World) (declarator : Declarator) : Prop :=
  Meets stem world (patternUses true declarator.pattern)
    ∧ Meets stem wide (optionUses declarator.init)

/-- Declarators need what their patterns and values do. -/
theorem meets_declarators {stem : String} {world wide : World} {declarators : List Declarator}
    (grows : ∀ name, world name → wide name)
    (meets : ∀ declarator ∈ declarators, MeetsDeclarator stem world wide declarator) :
    Meets stem wide (declaratorsUses declarators) := by
  rw [declaratorsUses_eq, meets_flatMap]
  intro declarator mem
  obtain ⟨pattern, init⟩ := declarator
  obtain ⟨inPattern, inInit⟩ := meets _ mem
  rw [declaratorUses, meets_append]
  exact ⟨inPattern.mono grows, inInit⟩

/-- The declarators that a rest splits into, whatever holds the object. -/
theorem works_splitParts (span : Span) (properties : List PatternProperty) (rest : Pattern)
    (source : Expr) :
    realm.Works false (splitRest span properties rest source) fun world split =>
      Meets realm.stem world (patternUses true (.object span properties (some rest))) →
      ∀ wide : World, (∀ name, world name → wide name) →
        Meets realm.stem wide (exprUses source) →
      ∀ part ∈ split.map fun (target, value) => (⟨target, some value⟩ : Declarator),
        MeetsDeclarator realm.stem world wide part := by
  -- The declarators are the parts of the split, each with its value.
  apply (works_splitRest true span properties rest source).weaken
  intro world _ split shown inPattern wide grows inSource part mem
  obtain ⟨⟨target, value⟩, inSplit, rfl⟩ := List.mem_map.mp mem
  simp only [patternUses, patternOptionUses, meets_append] at inPattern
  obtain ⟨inTarget, inValue⟩ := shown inPattern.1 inPattern.2 wide grows inSource _ inSplit
  exact ⟨inTarget, inValue⟩

/-- A declarator is split into some that need what it does, besides the names that they bind. -/
theorem works_splitDeclarator (declarator : Declarator) :
    realm.Works false (splitDeclarator declarator) fun world split =>
      ∀ wide : World, (∀ name, world name → wide name) →
        MeetsDeclarator realm.stem world wide declarator →
        ∀ part ∈ split,
          MeetsDeclarator realm.stem world (wide.plus realm.stem (declaratorsNames split)) part := by
  -- A declarator that stays as it is needs what it needs.
  have stays {world wide : World} (meets : MeetsDeclarator realm.stem world wide declarator) :
      ∀ part ∈ [declarator], MeetsDeclarator realm.stem world
        (wide.plus realm.stem (declaratorsNames [declarator])) part := by
    intro part mem
    obtain rfl := List.mem_singleton.mp mem
    exact ⟨meets.1, meets.2.plus⟩
  unfold splitDeclarator
  split
  · rename_i span properties rest init
    have parts := @works_splitParts realm span properties rest
    dsimp only
    apply Works.ite
    · intro _
      apply (works_unsupported _ _).andThen
      exact fun _ => .pure fun _ _ _ _ => stays
    · intro _
      apply Works.ite
      · intro _
        apply (parts init).bind
        intro split
        apply Works.pure
        intro world _ shown wide grows meets part mem
        obtain ⟨inTarget, inValue⟩ := shown meets.1 wide grows meets.2 part mem
        exact ⟨inTarget, inValue.plus⟩
      · intro _
        apply works_allocBound.bind
        intro name
        apply (parts _).bind
        intro split
        apply Works.pure
        intro world _ shown writable wide grows meets
        have named (others : List Declarator) : wide.plus realm.stem
            (declaratorsNames (.ofName span name (some init) :: others)) name :=
          .inr ⟨by simp, writable⟩
        refine List.forall_mem_cons.mpr ⟨⟨?_, meets.2.plus⟩, ?_⟩
        · simpa [Declarator.ofName] using writable
        · exact shown meets.1 _ (fun name inWorld => .inl (grows name inWorld))
            (by simpa using named _)
  · apply Works.when
    · exact works_unsupported _ _
    · exact .pure fun _ _ _ _ => stays

/-- All declarators are split into some that need what these do, besides the names that they bind. -/
theorem works_splitDeclarators (declarators : List Declarator) :
    realm.Works false (splitDeclarators declarators) fun world split =>
      ∀ wide : World, (∀ name, world name → wide name) →
        (∀ declarator ∈ declarators, MeetsDeclarator realm.stem world wide declarator) →
        ∀ part ∈ split,
          MeetsDeclarator realm.stem world (wide.plus realm.stem (declaratorsNames split)) part := by
  apply (Works.mapM fun declarator _ => works_splitDeclarator declarator).bind
  intro parts
  apply Works.pure
  -- Each part may use what the parts before it declare, so the world is the one with all of these
  -- names.
  rintro world _ ⟨each, -⟩ wide grows meets part mem
  obtain ⟨own, inParts, inOwn⟩ := List.mem_flatten.mp mem
  obtain ⟨declarator, isDeclared, shown⟩ := each own inParts
  obtain ⟨inPattern, inInit⟩ := shown wide grows (meets declarator isDeclared) part inOwn
  refine ⟨inPattern, inInit.mono (World.plus_mono (fun _ => id) fun name isBound => ?_)⟩
  obtain ⟨binder, inBinders, isName⟩ := List.mem_flatMap.mp isBound
  exact List.mem_flatMap.mpr ⟨binder, List.mem_flatten.mpr ⟨own, inParts, inBinders⟩, isName⟩

/-- Reporting a rest that cannot be split works. -/
theorem works_unsplittableRest (pattern : Pattern) :
    realm.Works mayBeParams (unsplittableRest pattern) fun _ _ => True := by
  apply Works.ite
  · exact fun _ => works_require _ _ _
  · exact fun _ => .pure fun _ _ => trivial

end Realm

end Downlevel
