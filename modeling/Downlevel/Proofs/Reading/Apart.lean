import Downlevel.Proofs.Reading.Expressions
import Downlevel.Proofs.Scoping.Regions

/-! Regions of a text that start apart from one another, and what becomes of the regions of an
expression that is read again as a pattern. -/

namespace Downlevel

/-- All regions start between two offsets, and no two of one kind start at the same place. -/
structure Apart (first last : Nat) (regions : List Region) : Prop where
  le : first ≤ last
  inside : ∀ mark ∈ marksOf regions, first ≤ mark.1 ∧ mark.1 < last
  nodup : (marksOf regions).Nodup

namespace Apart

variable {first earlier middle later last start stop : Nat} {regions more : List Region}
  {span : Span} {kind : ScopeKind}

/-- No regions lie apart. -/
theorem none (le : first ≤ last) : Apart first last [] :=
  ⟨le, by simp, by simp⟩

/-- The offsets may be further away from one another. -/
theorem within (apart : Apart first last regions) (front : earlier ≤ first) (back : last ≤ later) :
    Apart earlier later regions where
  le := by have := apart.le; omega
  inside mark mem := by have := apart.inside mark mem; omega
  nodup := apart.nodup

/-- Regions that lie apart do so with more text behind them. -/
theorem upTo (apart : Apart first last regions) (back : last ≤ later) :
    Apart first later regions :=
  apart.within (Nat.le_refl _) back

/-- Regions that lie apart do so with more text in front of them. -/
theorem since (apart : Apart first last regions) (front : earlier ≤ first) :
    Apart earlier last regions :=
  apart.within front (Nat.le_refl _)

/-- The order of the regions does not matter. -/
theorem perm (apart : Apart first last regions) (same : (marksOf regions).Perm (marksOf more)) :
    Apart first last more :=
  ⟨apart.le, fun mark mem => apart.inside mark (same.mem_iff.mpr mem),
    same.nodup_iff.mp apart.nodup⟩

/-- Regions behind the others are apart from these. -/
theorem append (apart : Apart first middle regions) (behind : Apart middle last more) :
    Apart first last (regions ++ more) where
  le := Nat.le_trans apart.le behind.le
  -- What is in front ends where the rest begins.
  inside mark mem := by
    have front := apart.le
    have back := behind.le
    rcases List.mem_append.mp (marksOf_append ▸ mem) with mem | mem
    · have := apart.inside mark mem
      omega
    · have := behind.inside mark mem
      omega
  nodup := by
    rw [marksOf_append]
    refine List.nodup_append.mpr ⟨apart.nodup, behind.nodup, ?_⟩
    rintro mark mem _ other rfl
    have front := apart.inside mark mem
    have back := behind.inside mark other
    omega

/-- The order of two lists makes no difference to whether they lie apart. -/
theorem append_swapped (apart : Apart first middle regions) (behind : Apart middle last more) :
    Apart first last (more ++ regions) :=
  (apart.append behind).perm (by simpa using List.perm_append_comm)

/-- One more item, with the regions of it. -/
theorem snoc {α : Type} {regionsOf : α → List Region} {items : List α} {item : α}
    (apart : Apart first middle (items.flatMap regionsOf))
    (behind : Apart middle last (regionsOf item)) :
    Apart first last ((items ++ [item]).flatMap regionsOf) := by
  rw [List.flatMap_append, List.flatMap_singleton]
  exact apart.append behind

/-- A region that starts in front of those inside it. -/
theorem opens (apart : Apart (start + 1) last regions) :
    Apart start last [⟨⟨start, stop⟩, kind, regions⟩] where
  -- The region takes the one place in front of everything inside of it.
  le := by have := apart.le; omega
  inside mark mem := by
    have := apart.le
    rcases List.mem_cons.mp (by simpa [Region.marks] using mem) with rfl | mem
    · exact ⟨Nat.le_refl _, by dsimp only; omega⟩
    · have := apart.inside mark mem
      omega
  nodup := by
    simp only [marksOf_cons, Region.marks, marksOf_nil, List.append_nil, List.nodup_cons]
    refine ⟨fun mem => ?_, apart.nodup⟩
    have := (apart.inside _ mem).1
    dsimp only at this
    omega

/-- Regions in front of another one may belong to it. -/
theorem enclose (apart : Apart first last (more ++ [⟨span, kind, regions⟩])) :
    Apart first last [⟨span, kind, more ++ regions⟩] := by
  refine apart.perm ?_
  simp only [marksOf_append, marksOf_cons, Region.marks, marksOf_nil, List.append_nil]
  exact List.perm_middle

end Apart

namespace Parser

mutual

/-- An expression that is read again as a pattern keeps its regions. -/
theorem regions_toPattern (e : Expr) {pattern : Pattern} (read : e.toPattern = .ok pattern) :
    patternRegions pattern = exprRegions e := by
  obtain ⟨origin, shape⟩ := e
  cases shape with
  | array items =>
    rw [Expr.toPattern] at read
    obtain ⟨⟨slots, rest⟩, found, same⟩ := ok_of_bind read
    cases same
    exact regions_slotsOfItems _ items found
  | object members =>
    rw [Expr.toPattern] at read
    obtain ⟨⟨properties, rest⟩, found, same⟩ := ok_of_bind read
    cases same
    exact regions_propertiesOfMembers members found
  | id name =>
    rw [Expr.toPattern] at read
    cases read
    rfl
  | arrayPattern slots rest =>
    rw [Expr.toPattern] at read
    cases read
    rfl
  | objectPattern properties rest =>
    rw [Expr.toPattern] at read
    cases read
    rfl
  | member link object name =>
    rw [Expr.toPattern] at read
    split at read
    · cases read
    · cases read
      rfl
  | computed link object key =>
    rw [Expr.toPattern] at read
    split at read
    · cases read
    · cases read
      rfl
  | _ => simp [Expr.toPattern, throw, throwThe, MonadExceptOf.throw] at read
termination_by structural e

/-- An array literal keeps its scopes when it is read as a pattern. -/
theorem regions_slotsOfItems (span : Span) (items : List ArrayItem) {slots : List PatternSlot}
    {rest : Option Pattern} (read : slotsOfItems span items = .ok (slots, rest)) :
    slotsRegions slots ++ patternOptionRegions rest = itemsRegions items := by
  cases items with
  | nil =>
    rw [slotsOfItems] at read
    cases read
    rfl
  | cons item later =>
    cases item with
    | hole =>
      rw [slotsOfItems] at read
      obtain ⟨⟨slots, rest⟩, found, same⟩ := ok_of_bind read
      cases same
      have inLater := regions_slotsOfItems span later found
      exact inLater
    | spread value =>
      rw [slotsOfItems] at read
      obtain ⟨pattern, found, same⟩ := ok_of_bind read
      split at same
      · -- Nothing follows a rest.
        cases same
        obtain rfl : later = [] := List.isEmpty_iff.mp ‹_›
        rw [itemsRegions, itemRegions, itemsRegions, List.append_nil]
        exact regions_toPattern value found
      · cases same
    | single value =>
      -- Any value but an assignment is a pattern without a default.
      have plain
          (noDefault : ∀ origin left right, value ≠ ⟨origin, .binary .assignment left right⟩) :
          slotsRegions slots ++ patternOptionRegions rest
            = itemsRegions (.single value :: later) := by
        rw [slotsOfItems] at read
        · obtain ⟨target, isTarget, goesOn⟩ := ok_of_bind read
          obtain ⟨⟨slots, rest⟩, found, same⟩ := ok_of_bind goesOn
          cases same
          rw [slotsRegions, slotRegions, optionRegions, regions_toPattern value isTarget,
            List.append_nil, List.append_assoc, regions_slotsOfItems span later found]
          rfl
        · exact noDefault
      obtain ⟨origin, shape⟩ := value
      cases shape with
      | binary op left right =>
        by_cases isDefault : op = .assignment
        · subst isDefault
          rw [slotsOfItems] at read
          obtain ⟨target, isTarget, goesOn⟩ := ok_of_bind read
          obtain ⟨⟨slots, rest⟩, found, same⟩ := ok_of_bind goesOn
          cases same
          rw [slotsRegions, slotRegions, regions_toPattern left isTarget, List.append_assoc,
            regions_slotsOfItems span later found]
          rfl
        · refine plain fun _ _ _ same => isDefault ?_
          cases same
          rfl
      | _ => exact plain nofun
termination_by structural items

/-- An object literal keeps its scopes when it is read as a pattern. -/
theorem regions_propertiesOfMembers (members : List ObjectMember)
    {properties : List PatternProperty} {rest : Option Pattern}
    (read : propertiesOfMembers members = .ok (properties, rest)) :
    propertiesRegions properties ++ patternOptionRegions rest = objectMembersRegions members := by
  cases members with
  | nil =>
    rw [propertiesOfMembers] at read
    cases read
    rfl
  | cons member later =>
    cases member with
    | spread span value =>
      rw [propertiesOfMembers] at read
      obtain ⟨pattern, found, same⟩ := ok_of_bind read
      split at same
      · -- Nothing follows a rest.
        cases same
        rw [objectMembersRegions, objectMemberRegions, objectMembersRegions, List.append_nil]
        exact regions_toPattern value found
      all_goals cases same
    | shorthand span name =>
      rw [propertiesOfMembers] at read
      obtain ⟨⟨properties, rest⟩, found, same⟩ := ok_of_bind read
      cases same
      have inLater := regions_propertiesOfMembers later found
      exact inLater
    | valued span key value =>
      cases value with
      | field init =>
        cases init with
        | none => simp [propertiesOfMembers, throw, throwThe, MonadExceptOf.throw] at read
        | some value =>
          -- Any value but an assignment is a pattern without a default.
          have plain (noDefault : ∀ origin left right,
              value ≠ ⟨origin, .binary .assignment left right⟩) :
              propertiesRegions properties ++ patternOptionRegions rest
                = objectMembersRegions (.valued span key (.field (some value)) :: later) := by
            rw [propertiesOfMembers] at read
            · obtain ⟨target, isTarget, goesOn⟩ := ok_of_bind read
              obtain ⟨⟨properties, rest⟩, found, same⟩ := ok_of_bind goesOn
              cases same
              rw [propertiesRegions, propertyRegions, optionRegions,
                regions_toPattern value isTarget, List.append_nil, List.append_assoc,
                regions_propertiesOfMembers later found]
              rfl
            · exact noDefault
          obtain ⟨origin, shape⟩ := value
          cases shape with
          | binary op left right =>
            by_cases isDefault : op = .assignment
            · subst isDefault
              rw [propertiesOfMembers] at read
              obtain ⟨target, isTarget, goesOn⟩ := ok_of_bind read
              obtain ⟨⟨properties, rest⟩, found, same⟩ := ok_of_bind goesOn
              cases same
              rw [propertiesRegions, propertyRegions, regions_toPattern left isTarget,
                List.append_assoc, regions_propertiesOfMembers later found]
              rfl
            · refine plain fun _ _ _ same => isDefault ?_
              cases same
              rfl
          | _ => exact plain nofun
      | _ => simp [propertiesOfMembers, throw, throwThe, MonadExceptOf.throw] at read
termination_by structural members

end

/-- So does the target of an assignment. -/
theorem regions_toTarget {op : Operator} {e target : Expr} (read : e.toTarget op = .ok target) :
    exprRegions target = exprRegions e := by
  obtain ⟨origin, shape⟩ := e
  have literal {pattern : Pattern} (again : (Expr.mk origin shape).toPattern = .ok pattern) :
      exprRegions pattern.toExpr = exprRegions ⟨origin, shape⟩ := by
    rw [← regions_toPattern _ again]
    cases pattern <;> rfl
  -- A name and an access stay what they are, and a literal is read again.
  cases shape with
  | id name =>
    cases read
    rfl
  | member link object name =>
    simp only [Expr.toTarget] at read
    split at read
    · cases read
    · cases read
      rfl
  | computed link object key =>
    simp only [Expr.toTarget] at read
    split at read
    · cases read
    · cases read
      rfl
  | array items =>
    simp only [Expr.toTarget] at read
    split at read
    · obtain ⟨pattern, again, rfl⟩ := ok_of_structured read
      exact literal again
    · cases read
  | object members =>
    simp only [Expr.toTarget] at read
    split at read
    · obtain ⟨pattern, again, rfl⟩ := ok_of_structured read
      exact literal again
    · cases read
  | _ => cases read

end Parser

end Downlevel
